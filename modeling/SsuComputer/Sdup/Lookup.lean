import SsuComputer.Sdup.PromptCorrect

/-!
# SsuComputer.Sdup.Lookup

`get_list_in_set`, `get_info_in_list` and `get_info_in_set`, with the pointers that they write.

* A pointer is the chain that starts at its node, the null pointer the empty chain.
* `none` is a null pointer that is followed.
* `lookup_iff` — the index behind the last position is taken for a position, and so is a negative one
  for the first.
-/

namespace SsuComputer
namespace Sdup

/-- The value returned, `*result_ptr` and `*before_ptr`. -/
structure Position (α : Type) where
  code : Int
  result : List α
  before : List α

/-- The loop that `get_list_in_set` and `get_info_in_list` share, with the rounds that are left. -/
def advance {α : Type} : Nat → List α → List α → Position α
  | 0, result, before => ⟨0, result, before⟩
  | _ + 1, [], before => ⟨-1, [], before⟩
  | n + 1, cur :: next, _ => advance n next (cur :: next)

/-- `get_list_in_set`, with the pointers that it is given. -/
def listInSet (result before : List FileListSet) (setIndex : Int) : Position FileListSet :=
  advance setIndex.toNat result before

/-- `get_info_in_list`, with the pointers that it is given. -/
def infoInList (result before : List FileInfo) (listIndex : Int) : Position FileInfo :=
  advance listIndex.toNat result before

/-- What `get_info_in_set` returns, with `*cur`. -/
structure InfoPosition where
  cur : List FileListSet
  info : Position FileInfo

def getInfoInSet (cur : List FileListSet) (result before : List FileInfo) (setIndex listIndex : Int) :
    Option InfoPosition :=
  let list := listInSet cur [] setIndex
  if list.code < 0 then some ⟨cur, ⟨-1, result, before⟩⟩
  else
    match list.result with
    | [] => none
    | set :: next => some ⟨set :: next, infoInList set.list before listIndex⟩

/-! ## What the lookups should do -/

/-- The index is that of a position. -/
def InRange (index : Int) (length : Nat) : Prop := 0 ≤ index ∧ index < length

/-- The result is the chain from the position on, and `before` that from the position in front of it,
or as it was. -/
def PointsTo {α : Type} (list before : List α) (index : Int) (p : Position α) : Prop :=
  p.result = list.drop index.toNat ∧
    p.before = if index = 0 then before else list.drop (index.toNat - 1)

/-- `get_list_in_set` accepts the positions, and points to them. -/
def FindsList (head before : List FileListSet) (setIndex : Int) : Prop :=
  ((listInSet head before setIndex).code = 0 ↔ InRange setIndex head.length) ∧
    (InRange setIndex head.length → PointsTo head before setIndex (listInSet head before setIndex))

/-- Both indexes are those of positions. -/
def BothInRange (head : List FileListSet) (setIndex listIndex : Int) : Prop :=
  ∃ set, 0 ≤ setIndex ∧ head[setIndex.toNat]? = some set ∧ InRange listIndex set.list.length

/-- `get_info_in_set` follows no null pointer, accepts the positions, and points to them. -/
def FindsInfo (head : List FileListSet) (result before : List FileInfo) (setIndex listIndex : Int) :
    Prop :=
  ∃ p, getInfoInSet head result before setIndex listIndex = some p ∧
    (p.info.code = 0 ↔ BothInRange head setIndex listIndex) ∧
    ∀ set, 0 ≤ setIndex → head[setIndex.toNat]? = some set → InRange listIndex set.list.length →
      p.cur = head.drop setIndex.toNat ∧ PointsTo set.list before listIndex p.info

/-! ## What they do -/

theorem advance_eq {α : Type} (n : Nat) (list before : List α) :
    advance n list before =
      if n ≤ list.length then ⟨0, list.drop n, if n = 0 then before else list.drop (n - 1)⟩
      else ⟨-1, [], if list = [] then before else list.drop (list.length - 1)⟩ := by
  induction n generalizing list before with
  | zero => simp [advance]
  | succ n ih =>
    cases list with
    | nil => simp [advance]
    | cons cur next =>
      rw [advance, ih, List.length_cons]
      by_cases hn : n ≤ next.length
      · rw [if_pos hn, if_pos (Nat.succ_le_succ hn), List.drop_succ_cons, if_neg (Nat.succ_ne_zero n),
          Nat.add_sub_cancel]
        cases n with
        | zero => rfl
        | succ n => rfl
      · rw [if_neg hn, if_neg fun h => hn (Nat.le_of_succ_le_succ h)]
        cases next with
        | nil => simp
        | cons cur' next => simp

theorem advance_code {α : Type} (n : Nat) (list before : List α) :
    (advance n list before).code = 0 ↔ n ≤ list.length := by
  rw [advance_eq]
  by_cases hn : n ≤ list.length
  · rw [if_pos hn]
    exact iff_of_true rfl hn
  · rw [if_neg hn]
    exact iff_of_false (fun h => by cases h) hn

/-- The walk of the options ends in the same cases, at the same node. -/
theorem walk_advance {α : Type} (n : Nat) (passed list before : List α) :
    (walk n passed list).map Prod.snd =
      if (advance n list before).code = 0 then some (advance n list before).result else none := by
  induction n generalizing passed list before with
  | zero => rfl
  | succ n ih =>
    cases list with
    | nil => rfl
    | cons cur next =>
      rw [walk, advance]
      exact ih (passed ++ [cur]) next (cur :: next)

theorem advance_pointsTo {α : Type} {list : List α} (before : List α) {index : Int}
    (h : InRange index list.length) :
    PointsTo list before index (advance index.toNat list before) := by
  obtain ⟨hnonneg, hlt⟩ := h
  have hle : index.toNat ≤ list.length := by omega
  have hzero : index.toNat = 0 ↔ index = 0 := by omega
  rw [advance_eq, if_pos hle]
  refine ⟨rfl, ?_⟩
  simp only [hzero]

/-- A list index is taken for what it is. -/
def ListIndexOk (set : FileListSet) (listIndex : Int) : Prop :=
  0 ≤ listIndex ∧ listIndex ≠ set.list.length

/-- The indexes for which `get_info_in_set` does what it should: a set index that is a position goes
with a good list index, and a negative one with a list index behind the end of the first set. -/
def IndexesOk (head : List FileListSet) (setIndex listIndex : Int) : Prop :=
  (0 ≤ setIndex ∧ setIndex ≠ head.length ∧
    ∀ set, head[setIndex.toNat]? = some set → ListIndexOk set listIndex) ∨
  (setIndex < 0 ∧ ∃ set, head[0]? = some set ∧ (set.list.length : Int) < listIndex)

theorem getInfoInSet_of_position {head : List FileListSet} {setIndex : Int} {set : FileListSet}
    (h : head[setIndex.toNat]? = some set) (result before : List FileInfo) (listIndex : Int) :
    getInfoInSet head result before setIndex listIndex =
      some ⟨head.drop setIndex.toNat, infoInList set.list before listIndex⟩ := by
  obtain ⟨hlt, hset⟩ := List.getElem?_eq_some_iff.mp h
  have hdrop : head.drop setIndex.toNat = set :: head.drop (setIndex.toNat + 1) := by
    rw [← hset, List.getElem_cons_drop]
  have hlist : listInSet head [] setIndex = ⟨0, head.drop setIndex.toNat,
      if setIndex.toNat = 0 then [] else head.drop (setIndex.toNat - 1)⟩ := by
    rw [listInSet, advance_eq, if_pos (Nat.le_of_lt hlt)]
  simp only [getInfoInSet, hlist, hdrop]
  rfl

theorem findsInfo_of_position {head : List FileListSet} {setIndex : Int} {set : FileListSet}
    (hnonneg : 0 ≤ setIndex) (h : head[setIndex.toNat]? = some set) (result before : List FileInfo)
    (listIndex : Int) :
    FindsInfo head result before setIndex listIndex ↔ ListIndexOk set listIndex := by
  have hboth : BothInRange head setIndex listIndex ↔ InRange listIndex set.list.length := by
    constructor
    · rintro ⟨set', -, hset', hin⟩
      rw [h] at hset'
      cases hset'
      exact hin
    · exact fun hin => ⟨set, hnonneg, h, hin⟩
  rw [FindsInfo, getInfoInSet_of_position h, hboth]
  constructor
  · rintro ⟨p, hp, hcode, -⟩
    cases hp
    dsimp only at hcode
    rw [infoInList, advance_code, InRange] at hcode
    exact ⟨by omega, by omega⟩
  · rintro ⟨hlist, hne⟩
    refine ⟨_, rfl, ?_, fun set' _ hset' hin => ⟨rfl, ?_⟩⟩
    · dsimp only
      rw [infoInList, advance_code, InRange]
      omega
    · rw [h] at hset'
      cases hset'
      exact advance_pointsTo before hin

/-- The loop is not entered for a negative set index, so the first set is looked into. -/
theorem findsInfo_of_negative {setIndex : Int} (hneg : setIndex < 0) (head : List FileListSet)
    (result before : List FileInfo) (listIndex : Int) :
    FindsInfo head result before setIndex listIndex ↔
      ∃ set, head[0]? = some set ∧ (set.list.length : Int) < listIndex := by
  have hzero : setIndex.toNat = 0 := Int.toNat_of_nonpos hneg.le
  have hout : ¬BothInRange head setIndex listIndex := fun ⟨_, hnonneg, _⟩ => absurd hneg (by omega)
  cases hhead : head[0]? with
  | none =>
    rw [List.getElem?_eq_none_iff, Nat.le_zero, List.length_eq_zero_iff] at hhead
    subst hhead
    have hnone : getInfoInSet [] result before setIndex listIndex = none := by
      rw [getInfoInSet, listInSet, hzero]
      rfl
    rw [FindsInfo, hnone]
    exact iff_of_false (fun ⟨_, hp, _⟩ => by cases hp) fun ⟨_, hset, _⟩ => by cases hset
  | some set =>
    rw [FindsInfo, getInfoInSet_of_position (hzero.symm ▸ hhead)]
    constructor
    · rintro ⟨p, hp, hcode, -⟩
      cases hp
      refine ⟨set, rfl, ?_⟩
      have hlist := (not_congr hcode).mpr hout
      dsimp only at hlist
      rw [infoInList, advance_code] at hlist
      omega
    · rintro ⟨set', hset', hlt⟩
      cases hset'
      refine ⟨_, rfl, iff_of_false ?_ hout, fun _ hnonneg => absurd hneg (by omega)⟩
      dsimp only
      rw [infoInList, advance_code]
      omega

theorem listInSet_behind {head : List FileListSet} {setIndex : Int}
    (hle : head.length ≤ setIndex.toNat) (hnonneg : 0 ≤ setIndex) :
    listInSet head [] setIndex = if setIndex = head.length then
      ⟨0, [], if setIndex.toNat = 0 then [] else head.drop (setIndex.toNat - 1)⟩
      else ⟨-1, [], if head = [] then [] else head.drop (head.length - 1)⟩ := by
  rw [listInSet, advance_eq]
  by_cases heq : setIndex = head.length
  · have hend : setIndex.toNat = head.length := by omega
    rw [if_pos heq, if_pos (by omega), hend, List.drop_length]
  · rw [if_neg heq, if_neg (by omega)]

theorem findsInfo_behind {head : List FileListSet} {setIndex : Int} (hnonneg : 0 ≤ setIndex)
    (hset : head[setIndex.toNat]? = none) (result before : List FileInfo) (listIndex : Int) :
    FindsInfo head result before setIndex listIndex ↔ setIndex ≠ head.length := by
  have hout : ¬BothInRange head setIndex listIndex := by
    rintro ⟨set', -, hset', -⟩
    rw [hset] at hset'
    cases hset'
  rw [FindsInfo, getInfoInSet, listInSet_behind (List.getElem?_eq_none_iff.mp hset) hnonneg]
  by_cases heq : setIndex = head.length
  · -- the set behind the last one is looked into
    simp only [heq, if_true]
    exact iff_of_false (fun ⟨_, hp, _⟩ => by cases hp) fun hne => hne rfl
  · simp only [heq, if_false]
    refine iff_of_true ⟨_, rfl, iff_of_false (fun h => by cases h) hout, ?_⟩ heq
    intro set' _ hset'
    rw [hset] at hset'
    cases hset'

theorem findsInfo_iff (head : List FileListSet) (result before : List FileInfo)
    (setIndex listIndex : Int) :
    FindsInfo head result before setIndex listIndex ↔ IndexesOk head setIndex listIndex := by
  by_cases hneg : setIndex < 0
  · rw [IndexesOk, or_iff_right fun h => absurd hneg (by omega), and_iff_right hneg]
    exact findsInfo_of_negative hneg head result before listIndex
  · have hnonneg : 0 ≤ setIndex := by omega
    rw [IndexesOk, or_iff_left fun h => hneg h.1, and_iff_right hnonneg]
    cases hset : head[setIndex.toNat]? with
    | some set =>
      obtain ⟨hlt, -⟩ := List.getElem?_eq_some_iff.mp hset
      rw [findsInfo_of_position hnonneg hset]
      constructor
      · exact fun hok => ⟨by omega, fun set' hset' => by cases hset'; exact hok⟩
      · exact fun ⟨_, hok⟩ => hok set rfl
    | none =>
      rw [findsInfo_behind hnonneg hset]
      exact ⟨fun hne => ⟨hne, fun set' hset' => by cases hset'⟩, fun h => h.1⟩

theorem findsList_iff (head before : List FileListSet) (setIndex : Int) :
    FindsList head before setIndex ↔ 0 ≤ setIndex ∧ setIndex ≠ head.length := by
  rw [FindsList, listInSet, advance_code, InRange]
  constructor
  · rintro ⟨hiff, -⟩
    omega
  · rintro ⟨hnonneg, hne⟩
    exact ⟨by omega, advance_pointsTo before⟩

/-- **The lookups accept just the positions** except at the index behind the last one and at negative
indexes. -/
theorem lookup_iff (head before : List FileListSet) (result infoBefore : List FileInfo)
    (setIndex listIndex : Int) :
    (FindsList head before setIndex ↔ 0 ≤ setIndex ∧ setIndex ≠ head.length) ∧
      (FindsInfo head result infoBefore setIndex listIndex ↔ IndexesOk head setIndex listIndex) :=
  ⟨findsList_iff head before setIndex, findsInfo_iff head result infoBefore setIndex listIndex⟩

/-- The index of the second of one set is accepted, and its list is looked for at a null pointer. -/
theorem index_behind_last_accepted :
    listInSet [⟨[⟨['a'], 0, []⟩], 1, ['h']⟩] [] 1 =
        ⟨0, [], [⟨[⟨['a'], 0, []⟩], 1, ['h']⟩]⟩ ∧
      ¬FindsList [⟨[⟨['a'], 0, []⟩], 1, ['h']⟩] [] 1 ∧
      ¬FindsInfo [⟨[⟨['a'], 0, []⟩], 1, ['h']⟩] [] [] 1 0 := by
  refine ⟨rfl, fun h => ?_, ?_⟩
  · exact absurd (h.1.mp rfl).2 (by decide)
  · rintro ⟨p, hp, -⟩
    cases hp

end Sdup
end SsuComputer
