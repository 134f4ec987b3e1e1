import SsuComputer.Sfinder.ListCommand
import SsuComputer.Lib.StrictWeak
import Mathlib.Data.List.Lex
import Mathlib.Data.Char
import Mathlib.Data.Prod.Lex
import Mathlib.Data.Int.Order.Basic
import Mathlib.Algebra.Order.BigOperators.Group.List
import Mathlib.Tactic.Ring

/-!
# SsuComputer.Sfinder.ListReorder

What `list` leaves of the groups and their files.

* `exchange_linked` — an exchange drops the node that `phead` pointed to from the list.
* `sortLoop_sorts` — so the loop ends with every node in place exactly when it exchanges nothing.
* `insertSortFilesetBy_ends` — and ends whatever it tests, with no cycle on the way.
* `list_onlyReorders_iff` — the command only reorders, and sorts, exactly when there
  is nothing to exchange and what it does not look at is sorted already.
-/

namespace SsuComputer
namespace Sfinder

/-! ## One exchange -/

theorem exchange_perm (pre rest : List Ptr) (p temp : Ptr) :
    (pre ++ p :: temp :: rest).Perm (temp :: (pre ++ p :: rest)) := by
  rw [List.append_cons, List.append_cons pre p rest]
  exact List.perm_middle

theorem exchange_sublist (pre rest : List Ptr) (p temp : Ptr) :
    (temp :: (pre ++ p :: rest).tail).Sublist (temp :: (pre ++ p :: rest)) :=
  (List.tail_sublist _).cons_cons temp

theorem exchange_linked {next : Ptr → Option Ptr} {phead p temp : Ptr} {pre rest : List Ptr}
    (h : Linked next (some phead) (pre ++ p :: temp :: rest))
    (hnd : (pre ++ p :: temp :: rest).Nodup) :
    Linked (exchange next phead p temp) (some temp) (temp :: (pre ++ p :: rest).tail) := by
  have hunlink := h.unlink hnd
  have hout : temp ∉ (pre ++ p :: rest).tail := fun hmem =>
    (List.nodup_cons.mp ((exchange_perm pre rest p temp).nodup_iff.mp hnd)).1
      (List.mem_of_mem_tail hmem)
  cases hl : pre ++ p :: rest with
  | nil => simp at hl
  | cons y ys =>
    rw [hl] at hunlink hout
    obtain ⟨heq, htail⟩ := hunlink
    cases heq
    exact htail.push hout

theorem exchange_frame (next : Ptr → Option Ptr) (phead : Ptr) {p temp q : Ptr} (hp : q ≠ p)
    (ht : q ≠ temp) : exchange next phead p temp q = next q := by
  rw [exchange, Function.update_of_ne ht, Function.update_of_ne hp]

/-- The loop finds nothing to exchange in the list. -/
def Settled (cmp : Ptr → Ptr → Bool) (xs : List Ptr) : Prop :=
  xs.IsChain fun a b => cmp a b = false

/-- What a sorting loop makes of the list `xs` after the node `phead`. -/
structure Sorts (cmp : Ptr → Ptr → Bool) (next : Ptr → Option Ptr) (phead : Ptr) (xs : List Ptr)
    (next' : Ptr → Option Ptr) (phead' : Ptr) (ys : List Ptr) : Prop where
  linked : Linked next' (some phead') (phead' :: ys)
  nodup : (phead' :: ys).Nodup
  subset : phead' :: ys ⊆ phead :: xs
  frame : ∀ q ∉ phead :: xs, next' q = next q
  outcome : (Settled cmp xs ∧ next' = next ∧ phead' = phead) ∨
    (¬ Settled cmp xs ∧ ys.length < xs.length)

variable {cmp : Ptr → Ptr → Bool} {next next' : Ptr → Option Ptr} {phead phead' : Ptr}
  {xs ys : List Ptr}

theorem Sorts.eq_of_settled (hs : Sorts cmp next phead xs next' phead' ys)
    (h : Linked next (some phead) (phead :: xs)) (hset : Settled cmp xs) : ys = xs := by
  rcases hs.outcome with ⟨-, rfl, rfl⟩ | ⟨hno, -⟩
  · exact (List.cons.inj (hs.linked.unique h)).2
  · exact absurd hset hno

/-- No node is lost exactly when none is exchanged. -/
theorem Sorts.perm_iff (hs : Sorts cmp next phead xs next' phead' ys)
    (h : Linked next (some phead) (phead :: xs)) : ys.Perm xs ↔ Settled cmp xs := by
  constructor
  · intro hperm
    rcases hs.outcome with ⟨hset, -⟩ | ⟨-, hlt⟩
    · exact hset
    · exact absurd hperm.length_eq (by omega)
  · intro hset
    rw [hs.eq_of_settled h hset]

/-! ## The loop -/

/-- The steps that the loop takes at most with `rest` nodes to go of a list of `len`. -/
def sortFuel (len rest : Nat) : Nat := len * len + rest

theorem sortFuel_exchange (a r : Nat) : sortFuel (a + 1) a < sortFuel (a + 2) r := by
  have hsq : (a + 2) * (a + 2) = (a + 1) * (a + 1) + (2 * a + 3) := by ring
  rw [sortFuel, sortFuel]
  omega

/-- Before the loop ends: the list is as it was and settled up to `p`, or nodes have been lost. -/
def SortInv (cmp : Ptr → Ptr → Bool) (next : Ptr → Option Ptr) (phead : Ptr) (xs : List Ptr)
    (n : Nat) (s : Cursor) : Prop :=
  ∃ pre rest, Linked s.next (some s.phead) (pre ++ s.p :: rest) ∧ (pre ++ s.p :: rest).Nodup ∧
    pre ++ s.p :: rest ⊆ phead :: xs ∧ (∀ q ∉ phead :: xs, s.next q = next q) ∧
    n = sortFuel (pre ++ s.p :: rest).length rest.length ∧
    ((∃ done, s.next = next ∧ s.phead = phead ∧ pre = phead :: done ∧ xs = done ++ s.p :: rest ∧
        Settled cmp (done ++ [s.p])) ∨
      (¬ Settled cmp xs ∧ (pre ++ s.p :: rest).length < xs.length + 1))

/-- An exchange is made only in a list that is not settled, which gets shorter. -/
theorem lost_of_exchange {s : Cursor} {pre rest : List Ptr} {temp : Ptr}
    (hout : (∃ done, s.next = next ∧ s.phead = phead ∧ pre = phead :: done ∧
        xs = done ++ s.p :: temp :: rest ∧ Settled cmp (done ++ [s.p])) ∨
      (¬ Settled cmp xs ∧ (pre ++ s.p :: temp :: rest).length < xs.length + 1))
    (hc : cmp s.p temp = true) :
    ¬ Settled cmp xs ∧ pre.length + rest.length + 1 < xs.length + 1 := by
  rcases hout with ⟨done, -, -, hpre, hxs, -⟩ | ⟨hno, hlt⟩
  · constructor
    · intro hset
      rw [hxs, Settled, List.isChain_append_cons_cons, hc] at hset
      cases hset.2.1
    · rw [hpre, hxs]
      simp
      omega
  · refine ⟨hno, ?_⟩
    simp at hlt
    omega

theorem sortInv_step {n : Nat} {s : Cursor} (h : SortInv cmp next phead xs n s)
    (hmore : s.more = true) :
    ∃ s' m, sortBody cmp s = some s' ∧ m < n ∧ SortInv cmp next phead xs m s' := by
  obtain ⟨pre, rest, hl, hnd, hsub, hframe, rfl, hout⟩ := h
  obtain ⟨temp, htemp⟩ := Option.isSome_iff_exists.mp hmore
  have hrest := hl.drop
  cases rest with
  | nil => rw [htemp] at hrest; cases hrest
  | cons t rest =>
    obtain ⟨ht, -⟩ := hrest
    rw [htemp] at ht
    cases ht
    rw [sortBody, htemp, Option.map_some]
    by_cases hc : cmp s.p temp = true
    · -- the exchange: the new list is the old one without its first node, behind `temp`
      rw [if_pos hc]
      obtain ⟨hno, hlt⟩ := lost_of_exchange hout hc
      have hperm := exchange_perm pre rest s.p temp
      have hsubl := exchange_sublist pre rest s.p temp
      have hlen : (temp :: (pre ++ s.p :: rest).tail).length = pre.length + rest.length + 1 := by
        simp
      refine ⟨_, _, rfl, ?_, [], (pre ++ s.p :: rest).tail, exchange_linked hl hnd,
        (hperm.nodup_iff.mp hnd).sublist hsubl, fun q hq => hsub (hperm.symm.subset (hsubl.subset hq)),
        fun q hq => ?_, rfl, .inr ⟨hno, ?_⟩⟩
      · rw [List.nil_append, hlen]
        have hfuel := sortFuel_exchange (pre.length + rest.length) (temp :: rest).length
        simp only [List.length_append, List.length_cons, List.length_tail] at hfuel ⊢
        convert hfuel using 2
        all_goals omega
      · have hp : q ≠ s.p := by rintro rfl; exact hq (hsub (by simp))
        have ht : q ≠ temp := by rintro rfl; exact hq (hsub (by simp))
        exact (exchange_frame s.next s.phead hp ht).trans (hframe q hq)
      · rw [List.nil_append, hlen]
        exact hlt
    · rw [if_neg hc]
      refine ⟨_, _, rfl, ?_, pre ++ [s.p], rest, by simpa using hl, by simpa using hnd,
        by simpa using hsub, hframe, rfl, ?_⟩
      · simp [sortFuel]
      · rcases hout with ⟨done, hnext, hphead, hpre, hxs, hset⟩ | ⟨hno, hlt⟩
        · refine .inl ⟨done ++ [s.p], hnext, hphead, by simp [hpre], by simp [hxs], ?_⟩
          rw [Settled, List.append_assoc]
          exact List.isChain_append_cons_cons.mpr ⟨hset, by simpa using hc, List.isChain_singleton _⟩
        · exact .inr ⟨hno, by simpa using hlt⟩

theorem sortInv_start (cmp : Ptr → Ptr → Bool) {p : Ptr}
    (h : Linked next (some phead) (phead :: p :: xs)) (hnd : (phead :: p :: xs).Nodup) :
    SortInv cmp next phead (p :: xs) (sortFuel (xs.length + 2) xs.length) ⟨next, phead, p⟩ :=
  ⟨[phead], xs, h, hnd, by simp, fun _ _ => rfl, rfl,
    .inl ⟨[], rfl, rfl, rfl, rfl, List.isChain_singleton _⟩⟩

/-- The loop ends, with every node in place or with nodes lost. -/
theorem sortLoop_sorts (cmp : Ptr → Ptr → Bool) {p : Ptr}
    (h : Linked next (some phead) (phead :: p :: xs)) (hnd : (phead :: p :: xs).Nodup) {fuel : Nat}
    (hfuel : sortFuel (xs.length + 2) xs.length ≤ fuel) :
    ∃ s ys, sortLoop cmp fuel ⟨next, phead, p⟩ = some s ∧
      Sorts cmp next phead (p :: xs) s.next s.phead ys := by
  have hstart := sortInv_start cmp h hnd
  obtain ⟨s, n, hrun, hinv, hdone⟩ :=
    whileLoop_of_measure (I := SortInv cmp next phead (p :: xs)) (fun _ _ => sortInv_step) _ _
      hstart hfuel
  obtain ⟨pre, rest, hl, hnd', hsub, hframe, -, hout⟩ := hinv
  have hrest : rest = [] := by
    have hdrop := hl.drop
    cases rest with
    | nil => rfl
    | cons t rest =>
      rw [Cursor.more, hdrop.1] at hdone
      cases hdone
  subst hrest
  obtain ⟨y, ys, hys⟩ : ∃ y ys, pre ++ [s.p] = y :: ys := by
    cases pre with
    | nil => exact ⟨_, _, rfl⟩
    | cons y ys => exact ⟨_, _, rfl⟩
  rw [hys] at hl hnd' hsub hout
  have hy : s.phead = y := Option.some.inj hl.1
  subst hy
  refine ⟨s, ys, hrun, hl, hnd', hsub, hframe, ?_⟩
  rcases hout with ⟨done, hnext, hphead, -, hxs, hset⟩ | ⟨hno, hlt⟩
  · rw [hxs]; exact .inl ⟨hset, hnext, hphead⟩
  · exact .inr ⟨hno, by simpa using hlt⟩

/-- `insert_sort_fileset` with any test in the place of `sort_func`. -/
def insertSortFilesetBy (cmp : Ptr → Ptr → Bool) (fuel : Nat) (next : Ptr → Option Ptr)
    (phead : Ptr) : Option ((Ptr → Option Ptr) × Ptr) :=
  match next phead with
  | none => some (next, phead)
  | some p => (sortLoop cmp fuel ⟨next, phead, p⟩).map fun s => (s.next, s.phead)

theorem insertSortFileset_eq (localtime : Int → Int × Int) (nodes : Nodes) (c : Category)
    (order : Int) (fuel : Nat) :
    insertSortFileset localtime nodes fuel next phead c order =
      insertSortFilesetBy (fun a b => sortFunc localtime (nodes.info a) (nodes.info b) c order) fuel
        next phead := rfl

theorem insertSortFilesetBy_sorts (cmp : Ptr → Ptr → Bool)
    (h : Linked next (some phead) (phead :: xs)) (hnd : (phead :: xs).Nodup) {fuel : Nat}
    (hfuel : sortFuel (xs.length + 1) xs.length ≤ fuel) :
    ∃ next' phead' ys, insertSortFilesetBy cmp fuel next phead = some (next', phead') ∧
      Sorts cmp next phead xs next' phead' ys := by
  have hnext := h.2
  cases xs with
  | nil =>
    refine ⟨next, phead, [], by rw [insertSortFilesetBy, hnext], h, hnd, fun _ hq => hq,
      fun _ _ => rfl, .inl ⟨List.isChain_nil, rfl, rfl⟩⟩
  | cons p xs =>
    have hless : sortFuel (xs.length + 2) xs.length ≤ fuel :=
      Nat.le_trans (Nat.add_le_add_left (Nat.le_succ _) _) hfuel
    obtain ⟨s, ys, hrun, hs⟩ := sortLoop_sorts cmp h hnd hless
    refine ⟨s.next, s.phead, ys, ?_, hs⟩
    simp only [insertSortFilesetBy, hnext.1, hrun, Option.map_some]

theorem insertSortFileset_sorts (localtime : Int → Int × Int) (nodes : Nodes) (c : Category)
    (order : Int) (h : Linked next (some phead) (phead :: xs)) (hnd : (phead :: xs).Nodup)
    {fuel : Nat} (hfuel : sortFuel (xs.length + 1) xs.length ≤ fuel) :
    ∃ next' phead' ys,
      insertSortFileset localtime nodes fuel next phead c order = some (next', phead') ∧
      Sorts (fun a b => sortFunc localtime (nodes.info a) (nodes.info b) c order) next phead xs
        next' phead' ys := by
  rw [insertSortFileset_eq]
  exact insertSortFilesetBy_sorts _ h hnd hfuel

/-- Wherever the loop stands, following the links from `phead` comes to an end. -/
theorem sortLoop_linked (cmp : Ptr → Ptr → Bool) {p : Ptr}
    (h : Linked next (some phead) (phead :: p :: xs)) {s : Cursor}
    (hs : Visits Cursor.more (sortBody cmp) ⟨next, phead, p⟩ s) :
    ∃ ys, Linked s.next (some s.phead) ys := by
  have hinv : ∃ n, SortInv cmp next phead (p :: xs) n s := by
    refine visits_invariant (I := fun s => ∃ n, SortInv cmp next phead (p :: xs) n s) ?_ ?_ hs
    · exact ⟨_, sortInv_start cmp h h.nodup⟩
    · intro t t' ht hmore hbody
      obtain ⟨n, ht⟩ := ht
      obtain ⟨t'', m, hbody', -, ht'⟩ := sortInv_step ht hmore
      rw [hbody] at hbody'
      cases hbody'
      exact ⟨m, ht'⟩
  obtain ⟨n, pre, rest, hl, -⟩ := hinv
  exact ⟨_, hl⟩

/-- The loop ends for every test, and at no time the nodes that `phead` reaches lie on a cycle. -/
theorem insertSortFilesetBy_ends (cmp : Ptr → Ptr → Bool)
    (h : Linked next (some phead) (phead :: xs)) {fuel : Nat}
    (hfuel : sortFuel (xs.length + 1) xs.length ≤ fuel) :
    (∃ next' phead', insertSortFilesetBy cmp fuel next phead = some (next', phead') ∧
      Acyclic next' phead') ∧
    ∀ p, next phead = some p → ∀ s, Visits Cursor.more (sortBody cmp) ⟨next, phead, p⟩ s →
      Acyclic s.next s.phead := by
  constructor
  · obtain ⟨next', phead', ys, hrun, hsorts⟩ := insertSortFilesetBy_sorts cmp h h.nodup hfuel
    exact ⟨next', phead', hrun, hsorts.linked.acyclic⟩
  · intro p hp s hs
    have hnext := h.2
    rw [hp] at hnext
    cases xs with
    | nil => cases hnext
    | cons q xs =>
      cases hnext.1
      obtain ⟨ys, hys⟩ := sortLoop_linked cmp h hs
      exact hys.acyclic

/-- The head 0, and after it the files 1, 2 and 3. -/
def threeFiles (p : Ptr) : Option Ptr := if p < 3 then some (p + 1) else none

theorem threeFiles_linked : Linked threeFiles (some 0) [0, 1, 2, 3] := ⟨rfl, rfl, rfl, rfl, rfl⟩

/-- A test that asks for an exchange each time. -/
theorem insertSortFilesetBy_ends_exchanging :
    (∃ next' phead', insertSortFilesetBy (fun _ _ => true) 19 threeFiles 0 = some (next', phead') ∧
      Acyclic next' phead') ∧
    ∀ p, threeFiles 0 = some p →
      ∀ s, Visits Cursor.more (sortBody fun _ _ => true) ⟨threeFiles, 0, p⟩ s →
        Acyclic s.next s.phead :=
  insertSortFilesetBy_ends (fun _ _ => true) threeFiles_linked (Nat.le_refl 19)

/-! ## The order of a category -/

/-- The order that a category stands for; a date is a year and a day of it. -/
def categoryLt (localtime : Int → Int × Int) (c : Category) (a b : FileInfo) : Bool :=
  match c with
  | .filename => a.path < b.path
  | .size => a.statbuf.size < b.statbuf.size
  | .uid => a.statbuf.uid < b.statbuf.uid
  | .gid => a.statbuf.gid < b.statbuf.gid
  | .mode => a.statbuf.mode < b.statbuf.mode
  | .date => toLex (localtime a.statbuf.mtime) < toLex (localtime b.statbuf.mtime)
  | .time => a.statbuf.mtime < b.statbuf.mtime

theorem sortKeyLt_eq (localtime : Int → Int × Int) {c : Category} (hc : c ≠ .date) :
    sortKeyLt localtime c = categoryLt localtime c := by
  cases c with
  | date => exact absurd rfl hc
  | filename | size | uid | gid | mode | time => rfl

/-- The two dates that `sort_func` compares are one and the same. -/
theorem sortKeyLt_date (localtime : Int → Int × Int) (a b : FileInfo) :
    sortKeyLt localtime .date a b = false := by
  simp [sortKeyLt]

theorem categoryLt_strictWeak (localtime : Int → Int × Int) (c : Category) :
    StrictWeak (categoryLt localtime c) := by
  cases c with
  | filename => exact .of_key FileInfo.path fun a b => by simp [categoryLt]
  | size => exact .of_key (fun x => x.statbuf.size) fun a b => by simp [categoryLt]
  | uid => exact .of_key (fun x => x.statbuf.uid) fun a b => by simp [categoryLt]
  | gid => exact .of_key (fun x => x.statbuf.gid) fun a b => by simp [categoryLt]
  | mode => exact .of_key (fun x => x.statbuf.mode) fun a b => by simp [categoryLt]
  | date =>
    exact .of_key (fun x => toLex (localtime x.statbuf.mtime)) fun a b => by simp [categoryLt]
  | time => exact .of_key (fun x => x.statbuf.mtime) fun a b => by simp [categoryLt]

section Command

variable (localtime : Int → Int × Int) (nodes : Nodes) (c : Category) (order : Int)

/-- The files stand in the requested order: ascending for 1, else descending. -/
def InOrder (xs : List Ptr) : Prop :=
  xs.Pairwise fun a b =>
    if order = 1 then categoryLt localtime c (nodes.info b) (nodes.info a) = false
    else categoryLt localtime c (nodes.info a) (nodes.info b) = false

/-- The test of the sorting loop on nodes that hold the files compared. -/
def cmpAt (at_ : Ptr → Ptr) (a b : Ptr) : Bool :=
  sortFunc localtime (nodes.info (at_ a)) (nodes.info (at_ b)) c order

theorem inOrder_of_settled (hc : c ≠ .date) {xs : List Ptr}
    (h : Settled (cmpAt localtime nodes c order id) xs) : InOrder localtime nodes c order xs := by
  have hkey := categoryLt_strictWeak localtime c
  have hweak : StrictWeak fun a b => categoryLt localtime c (nodes.info a) (nodes.info b) :=
    ⟨hkey.asymm, hkey.negTrans⟩
  by_cases ho : order = 1
  · simp only [InOrder, ho, if_true]
    refine hweak.ascending (h.imp fun a b hab => ?_)
    simpa [cmpAt, sortFunc, ho, sortKeyLt_eq localtime hc] using hab
  · simp only [InOrder, ho, if_false]
    refine hweak.descending (h.imp fun a b hab => ?_)
    simpa [cmpAt, sortFunc, ho, sortKeyLt_eq localtime hc] using hab

/-! ## Groups and their files -/

/-- The groups after the node `head`, each with its own files after a placeholder. -/
structure Shape (h : Heap) (head : Ptr) (gs : List Ptr) (files : Ptr → List Ptr) : Prop where
  linked : Linked h.listNext (some head) (head :: gs)
  nodup : (head :: gs).Nodup
  infos : ∀ g ∈ gs, Linked h.infoNext (some (h.fileInfoList g)) (h.fileInfoList g :: files g)
  infos_nodup : ∀ g ∈ gs, (h.fileInfoList g :: files g).Nodup
  disjoint : ∀ g ∈ gs, ∀ g' ∈ gs, g ≠ g' →
    (h.fileInfoList g :: files g).Disjoint (h.fileInfoList g' :: files g')

/-- The heap holds the groups `gs'` with the files `files'`, the old ones reordered. -/
structure Reordered (h : Heap) (head : Ptr) (gs : List Ptr) (files : Ptr → List Ptr)
    (gs' : List Ptr) (files' : Ptr → List Ptr) : Prop where
  linked : Linked h.listNext (some head) (head :: gs')
  groups : gs'.Perm gs
  infos : ∀ g ∈ gs, Linked h.infoNext (some (h.fileInfoList g)) (h.fileInfoList g :: files' g)
  files : ∀ g ∈ gs, (files' g).Perm (files g)

/-- The groups stand in the requested order of their sizes. -/
def SizeOrder (gs : List Ptr) : Prop :=
  gs.Pairwise fun a b =>
    if order = 1 then nodes.filesize a ≤ nodes.filesize b else nodes.filesize b ≤ nodes.filesize a

/-- What the command is for: nothing but the order changes, and that is the order asked for. -/
def OnlyReorders (lFlag : ListType) (h : Heap) (head : Ptr) (gs : List Ptr)
    (files : Ptr → List Ptr) : Prop :=
  ∃ gs' files', Reordered h head gs files gs' files' ∧
    (lFlag = .fileset → ∀ g ∈ gs, InOrder localtime nodes c order (files' g)) ∧
    (lFlag = .filelist → c = .size → SizeOrder nodes order gs')

/-- Nothing to exchange where the command sorts, and order where it should but does not. -/
def InPlace (lFlag : ListType) (h : Heap) (gs : List Ptr) (files : Ptr → List Ptr) : Prop :=
  match lFlag with
  | .fileset =>
    (∀ g ∈ gs.dropLast, Settled (cmpAt localtime nodes c order id) (files g)) ∧
      ∀ g ∈ gs.getLast?, InOrder localtime nodes c order (files g)
  | .filelist =>
    Settled (cmpAt localtime nodes c order h.fileInfoList) gs ∧
      (c = .size → SizeOrder nodes order gs)

/-- What has become of a group that was sorted. -/
def Passed (h : Heap) (files : Ptr → List Ptr) (h' : Heap) (g : Ptr) : Prop :=
  ∃ ys, Linked h'.infoNext (some (h'.fileInfoList g)) (h'.fileInfoList g :: ys) ∧
    h'.fileInfoList g :: ys ⊆ h.fileInfoList g :: files g ∧
    (Settled (cmpAt localtime nodes c order id) (files g) → ys = files g) ∧
    (ys.Perm (files g) → Settled (cmpAt localtime nodes c order id) (files g))

/-- The loop of type fileset: the groups behind `p` are sorted, the others as they were. -/
def FilesetInv (h : Heap) (head : Ptr) (gs : List Ptr) (files : Ptr → List Ptr) (n : Nat)
    (s : ListCursor) : Prop :=
  ∃ done rest, gs = done ++ s.p :: rest ∧ n = rest.length ∧ s.phead = head ∧
    s.heap.listNext = h.listNext ∧
    (∀ g ∈ s.p :: rest, s.heap.fileInfoList g = h.fileInfoList g ∧
      ∀ q ∈ h.fileInfoList g :: files g, s.heap.infoNext q = h.infoNext q) ∧
    ∀ g ∈ done, Passed localtime nodes c order h files s.heap g

variable {localtime nodes c order} {h : Heap} {head : Ptr} {gs : List Ptr} {files : Ptr → List Ptr}

theorem Passed.congr {h' h'' : Heap} {g : Ptr} (hp : Passed localtime nodes c order h files h' g)
    (hhead : h''.fileInfoList g = h'.fileInfoList g)
    (hinfo : ∀ q ∈ h.fileInfoList g :: files g, h''.infoNext q = h'.infoNext q) :
    Passed localtime nodes c order h files h'' g := by
  obtain ⟨ys, hlinked, hsub, hys⟩ := hp
  rw [← hhead] at hlinked hsub
  exact ⟨ys, hlinked.congr fun q hq => hinfo q (hsub hq), hsub, hys⟩

theorem passed_of_sorts {h' : Heap} {g : Ptr} {ys : List Ptr}
    (hlinked : Linked next (some (h.fileInfoList g)) (h.fileInfoList g :: files g))
    (hsorts : Sorts (cmpAt localtime nodes c order id) next (h.fileInfoList g) (files g) h'.infoNext
      (h'.fileInfoList g) ys) : Passed localtime nodes c order h files h' g :=
  ⟨ys, hsorts.linked, hsorts.subset, hsorts.eq_of_settled hlinked, (hsorts.perm_iff hlinked).mp⟩

theorem filesetInv_step (hs : Shape h head gs files) {fuel : Nat}
    (hfuel : ∀ g ∈ gs, sortFuel ((files g).length + 1) (files g).length ≤ fuel) {n : Nat}
    {s : ListCursor} (hinv : FilesetInv localtime nodes c order h head gs files n s)
    (hmore : s.more = true) :
    ∃ s' m, filelistBody localtime nodes fuel c order .fileset s = some s' ∧ m < n ∧
      FilesetInv localtime nodes c order h head gs files m s' := by
  obtain ⟨done, rest, hgs, rfl, hphead, hlist, hkeep, hpassed⟩ := hinv
  have hmem : s.p ∈ gs := by rw [hgs]; simp
  have hrest : Linked h.listNext (h.listNext s.p) rest := by
    have hl := hs.linked
    rw [hgs, ← List.cons_append] at hl
    exact hl.drop
  obtain ⟨temp, htemp⟩ := Option.isSome_iff_exists.mp hmore
  rw [hlist] at htemp
  cases rest with
  | nil => rw [htemp] at hrest; cases hrest
  | cons t rest =>
    have ht : temp = t := by rw [htemp] at hrest; exact Option.some.inj hrest.1
    subst ht
    obtain ⟨hfil, hinfo⟩ := hkeep s.p (by simp)
    have hlinked := (hs.infos s.p hmem).congr hinfo
    obtain ⟨next', phead', ys, hrun, hsorts⟩ := insertSortFileset_sorts localtime nodes c order
      hlinked (hs.infos_nodup s.p hmem) (hfuel s.p hmem)
    have hbody : filelistBody localtime nodes fuel c order .fileset s =
        some ⟨⟨next', s.heap.listNext, Function.update s.heap.fileInfoList s.p phead'⟩, s.phead,
          temp⟩ := by
      simp only [filelistBody, hlist, htemp, Option.bind_some, hfil, hrun, Option.map_some]
    have hndg := (List.nodup_cons.mp hs.nodup).2
    rw [hgs] at hndg
    have hnotp : s.p ∉ done ++ temp :: rest := (List.nodup_cons.mp (List.nodup_middle.mp hndg)).1
    have hin : ∀ g ∈ done ++ temp :: rest, g ∈ gs := fun g hg => by
      rw [hgs]
      simp only [List.mem_append, List.mem_cons] at hg ⊢
      tauto
    -- the other groups and their nodes are out of reach of the sort
    have hhead : ∀ g ∈ done ++ temp :: rest,
        Function.update s.heap.fileInfoList s.p phead' g = s.heap.fileInfoList g := fun g hg =>
      Function.update_of_ne (ne_of_mem_of_not_mem hg hnotp) _ _
    have hother : ∀ g ∈ done ++ temp :: rest, ∀ q ∈ h.fileInfoList g :: files g,
        next' q = s.heap.infoNext q := fun g hg q hq =>
      hsorts.frame q fun hq' =>
        hs.disjoint g (hin g hg) s.p hmem (ne_of_mem_of_not_mem hg hnotp) hq hq'
    refine ⟨_, rest.length, hbody, by simp, done ++ [s.p], rest, by simp [hgs], rfl, hphead, hlist,
      fun g hg => ⟨?_, fun q hq => ?_⟩, fun g hg => ?_⟩
    · exact (hhead g (List.mem_append_right _ hg)).trans (hkeep g (List.mem_cons_of_mem _ hg)).1
    · exact (hother g (List.mem_append_right _ hg) q hq).trans
        ((hkeep g (List.mem_cons_of_mem _ hg)).2 q hq)
    · rcases List.mem_append.mp hg with hg | hg
      · have hg' : g ∈ done ++ temp :: rest := List.mem_append_left _ hg
        exact (hpassed g hg).congr (hhead g hg') (hother g hg')
      · rw [List.mem_singleton] at hg
        subst hg
        refine passed_of_sorts hlinked (?_ : Sorts _ _ _ _ next' _ ys)
        dsimp only
        rw [Function.update_self]
        exact hsorts

theorem fileset_onlyReorders_iff (hc : c ≠ .date) (hs : Shape h head gs files) {p : Ptr} {rest : List Ptr}
    (hgs : gs = p :: rest) {fuel : Nat} (hlen : gs.length ≤ fuel)
    (hfuel : ∀ g ∈ gs, sortFuel ((files g).length + 1) (files g).length ≤ fuel) :
    ∃ h' head', insertSortFilelist localtime nodes fuel h head c order .fileset = some (h', head') ∧
      (OnlyReorders localtime nodes c order .fileset h' head' gs files ↔
        InPlace localtime nodes c order .fileset h gs files) := by
  have hstart : FilesetInv localtime nodes c order h head gs files rest.length ⟨h, head, p⟩ :=
    ⟨[], rest, hgs, rfl, rfl, rfl, fun _ _ => ⟨rfl, fun _ _ => rfl⟩, by simp⟩
  have hrest : rest.length ≤ fuel := by rw [hgs] at hlen; simp at hlen; omega
  obtain ⟨s, n, hrun, hinv, hdone⟩ :=
    whileLoop_of_measure (I := FilesetInv localtime nodes c order h head gs files)
      (fun _ _ => filesetInv_step hs hfuel) _ _ hstart hrest
  have hfirst : h.listNext head = some p := by
    have hl := hs.linked
    rw [hgs] at hl
    exact hl.2.1
  refine ⟨s.heap, s.phead, ?_, ?_⟩
  · simp only [insertSortFilelist, hfirst, Option.bind_some, hrun, Option.map_some]
  · obtain ⟨done, rest', hgs', -, hphead, hlist, hkeep, hpassed⟩ := hinv
    have hlast : rest' = [] := by
      have hl := hs.linked
      rw [hgs', ← List.cons_append] at hl
      have hdrop := hl.drop
      cases rest' with
      | nil => rfl
      | cons t rest' =>
        rw [ListCursor.more, hlist, hdrop.1] at hdone
        cases hdone
    subst hlast
    obtain ⟨hfil, hinfo⟩ := hkeep s.p (by simp)
    have hmem : s.p ∈ gs := by rw [hgs']; simp
    have hplinked : Linked s.heap.infoNext (some (s.heap.fileInfoList s.p))
        (s.heap.fileInfoList s.p :: files s.p) := by
      rw [hfil]
      exact (hs.infos s.p hmem).congr hinfo
    simp only [InPlace, hgs', List.dropLast_concat, List.getLast?_concat, Option.mem_def,
      Option.some.injEq, forall_eq']
    constructor
    · rintro ⟨gs', files', hre, hord, -⟩
      refine ⟨fun g hg => ?_, ?_⟩
      · obtain ⟨ys, hyl, -, -, hy⟩ := hpassed g hg
        have hmem' : g ∈ done ++ [s.p] := List.mem_append_left _ hg
        have heq : files' g = ys := (List.cons.inj ((hre.infos g hmem').unique hyl)).2
        exact hy (heq ▸ hre.files g hmem')
      · have hmem' : s.p ∈ done ++ [s.p] := by simp
        have heq : files' s.p = files s.p :=
          (List.cons.inj ((hre.infos s.p hmem').unique hplinked)).2
        exact heq ▸ hord rfl s.p hmem'
    · rintro ⟨hset, hlast⟩
      refine ⟨gs, files, ⟨?_, by rw [hgs'], fun g hg => ?_, fun _ _ => .refl _⟩, fun _ g hg => ?_,
        fun h => by cases h⟩
      · rw [hlist, hphead]
        exact hs.linked
      · rcases List.mem_append.mp hg with hg | hg
        · obtain ⟨ys, hyl, -, hy, -⟩ := hpassed g hg
          rwa [hy (hset g hg)] at hyl
        · rw [List.mem_singleton.mp hg]
          exact hplinked
      · rcases List.mem_append.mp hg with hg | hg
        · exact inOrder_of_settled localtime nodes c order hc (hset g hg)
        · rw [List.mem_singleton.mp hg]
          exact hlast

theorem filelist_onlyReorders_iff (hs : Shape h head gs files) {p : Ptr} {rest : List Ptr}
    (hgs : gs = p :: rest) {fuel : Nat} (hfuel : sortFuel (gs.length + 1) gs.length ≤ fuel) :
    ∃ h' head', insertSortFilelist localtime nodes fuel h head c order .filelist = some (h', head') ∧
      (OnlyReorders localtime nodes c order .filelist h' head' gs files ↔
        InPlace localtime nodes c order .filelist h gs files) := by
  subst hgs
  have hless : sortFuel (rest.length + 2) rest.length ≤ fuel :=
    Nat.le_trans (Nat.add_le_add_left (Nat.le_succ _) _) hfuel
  obtain ⟨s, ys, hrun, hsorts⟩ :=
    sortLoop_sorts (cmpAt localtime nodes c order h.fileInfoList) hs.linked hs.nodup hless
  -- only the links of the groups move
  let put (k : Cursor) : ListCursor := ⟨{ h with listNext := k.next }, k.phead, k.p⟩
  have hbody (k : Cursor) : filelistBody localtime nodes fuel c order .filelist (put k) =
      (sortBody (cmpAt localtime nodes c order h.fileInfoList) k).map put := by
    simp only [filelistBody, sortBody, put, cmpAt]
    cases k.next k.p with
    | none => rfl
    | some temp =>
      by_cases hc : sortFunc localtime (nodes.info (h.fileInfoList k.p))
          (nodes.info (h.fileInfoList temp)) c order = true
      · simp only [Option.bind_some, Option.map_some, hc, if_true]
      · simp only [Option.bind_some, Option.map_some, hc, if_false, Bool.false_eq_true]
  have hloop : whileLoop ListCursor.more (filelistBody localtime nodes fuel c order .filelist) fuel
      ⟨h, head, p⟩ = some (put s) :=
    (whileLoop_map put (fun _ => rfl) hbody fuel ⟨h.listNext, head, p⟩).trans
      (congrArg (Option.map put) hrun)
  refine ⟨{ h with listNext := s.next }, s.phead, ?_, ?_⟩
  · have hfirst : h.listNext head = some p := hs.linked.2.1
    simp only [insertSortFilelist, hfirst, Option.bind_some]
    exact congrArg (Option.map _) hloop
  · simp only [InPlace]
    constructor
    · rintro ⟨gs', files', hre, -, hsize⟩
      have heq : gs' = ys := (List.cons.inj (hre.linked.unique hsorts.linked)).2
      have hset := (hsorts.perm_iff hs.linked).mp (heq ▸ hre.groups)
      rw [heq, hsorts.eq_of_settled hs.linked hset] at hsize
      exact ⟨hset, hsize rfl⟩
    · rintro ⟨hset, hsize⟩
      have heq := hsorts.eq_of_settled hs.linked hset
      refine ⟨_, files, ⟨heq ▸ hsorts.linked, .refl _, hs.infos, fun _ _ => .refl _⟩,
        fun h => (by cases h), fun _ => hsize⟩

/-- Fuel for all the loops of one command. -/
def listFuel (gs : List Ptr) (files : Ptr → List Ptr) : Nat :=
  sortFuel (gs.length + 1) gs.length +
    (gs.map fun g => sortFuel ((files g).length + 1) (files g).length).sum

end Command

theorem convertListCategory_ne_date {str : CString} {c : Category}
    (h : convertListCategory str = some c) : c ≠ .date := by
  rintro rfl
  unfold convertListCategory at h
  split_ifs at h <;> cases h

theorem add_ne_date {fl fl' : ListFlags} {opt : ListOpt} (h : fl.add opt = some fl')
    (hc : fl.cFlag ≠ .date) : fl'.cFlag ≠ .date := by
  cases opt with
  | l optarg =>
    obtain ⟨t, -, rfl⟩ := Option.map_eq_some_iff.mp h
    exact hc
  | c optarg =>
    obtain ⟨c, hconv, rfl⟩ := Option.map_eq_some_iff.mp h
    exact convertListCategory_ne_date hconv
  | o optarg =>
    cases h
    exact hc

theorem foldlM_add_ne_date {opts : List ListOpt} {fl fl' : ListFlags}
    (h : opts.foldlM ListFlags.add fl = some fl') (hc : fl.cFlag ≠ .date) : fl'.cFlag ≠ .date := by
  induction opts generalizing fl with
  | nil =>
    cases h
    exact hc
  | cons opt opts ih =>
    rw [List.foldlM_cons] at h
    obtain ⟨fl₁, hadd, hrest⟩ := Option.bind_eq_some_iff.mp h
    exact ih hrest (add_ne_date hadd hc)

/-- `list` has no category date. -/
theorem parse_ne_date {opts : List ListOpt} {fl : ListFlags} (h : ListFlags.parse opts = some fl) :
    fl.cFlag ≠ .date :=
  foldlM_add_ne_date (Option.filter_eq_some_iff.mp h).1 (by simp)

/-- **`list` only reorders** exactly when there is nothing to exchange: with type fileset no two
adjacent files in any group but the last, which is not sorted at all; with type filelist no two
adjacent groups, which are compared by the placeholders of their files. -/
theorem list_onlyReorders_iff (localtime : Int → Int × Int) (nodes : Nodes) (h : Heap) (head : Ptr)
    (gs : List Ptr) (files : Ptr → List Ptr) (opts : List ListOpt) (fl : ListFlags) (fuel : Nat)
    (hs : Shape h head gs files) (hne : gs ≠ []) (hopts : ListFlags.parse opts = some fl)
    (hfuel : listFuel gs files ≤ fuel) :
    ∃ h' head', list localtime nodes fuel h (some head) opts = some (h', some head') ∧
      (OnlyReorders localtime nodes fl.cFlag fl.order fl.lFlag h' head' gs files ↔
        InPlace localtime nodes fl.cFlag fl.order fl.lFlag h gs files) := by
  obtain ⟨p, rest, hgs⟩ := List.exists_cons_of_ne_nil hne
  have hfirst : h.listNext head = some p := by
    have hl := hs.linked
    rw [hgs] at hl
    exact hl.2.1
  have hsort : ∃ h' head', insertSortFilelist localtime nodes fuel h head fl.cFlag fl.order
      fl.lFlag = some (h', head') ∧
      (OnlyReorders localtime nodes fl.cFlag fl.order fl.lFlag h' head' gs files ↔
        InPlace localtime nodes fl.cFlag fl.order fl.lFlag h gs files) := by
    have hbig : sortFuel (gs.length + 1) gs.length ≤ fuel := Nat.le_trans (Nat.le_add_right _ _) hfuel
    cases fl.lFlag with
    | fileset =>
      refine fileset_onlyReorders_iff (parse_ne_date hopts) hs hgs (Nat.le_trans (Nat.le_add_left _ _) hbig) fun g hg => ?_
      refine Nat.le_trans ?_ (Nat.le_trans (Nat.le_add_left _ _) hfuel)
      exact List.single_le_sum (by simp) _ (List.mem_map_of_mem hg)
    | filelist => exact filelist_onlyReorders_iff hs hgs hbig
  obtain ⟨h', head', hrun, hiff⟩ := hsort
  refine ⟨h', head', ?_, hiff⟩
  simp only [list, hfirst, hopts, hrun, Option.map_some, reduceCtorEq, if_false]

/-! ## Two groups -/

/-- Groups 1 and 2 after the head 0, with the files 4, 5 after the placeholder 3 and 7, 8 after the
placeholder 6. -/
def twoGroups : Heap where
  infoNext p := if p = 3 then some 4 else if p = 4 then some 5 else if p = 6 then some 7
    else if p = 7 then some 8 else none
  listNext p := if p = 0 then some 1 else if p = 1 then some 2 else none
  fileInfoList p := if p = 1 then 3 else 6

def twoGroupsFiles (g : Ptr) : List Ptr := if g = 1 then [4, 5] else [7, 8]

/-- Zeroed placeholders, and files named by their node. -/
def twoGroupsNodes : Nodes where
  info p := if p = 3 ∨ p = 6 then FileInfo.zeroed else ⟨['/', Char.ofNat (p + 48)], Stat.zero⟩
  filesize p := p

theorem twoGroups_shape : Shape twoGroups 0 [1, 2] twoGroupsFiles where
  linked := ⟨rfl, rfl, rfl, rfl⟩
  nodup := by decide
  infos := by
    intro g hg
    rcases List.mem_pair.mp hg with rfl | rfl
    · exact ⟨rfl, rfl, rfl, rfl⟩
    · exact ⟨rfl, rfl, rfl, rfl⟩
  infos_nodup := by decide
  disjoint := by
    intro g hg g' hg' hne
    refine List.disjoint_left.mpr ?_
    revert g g'
    decide

/-- Groups in order of their sizes, asked for in that order: both are lost. -/
theorem list_loses_groups :
    ¬ ∀ (localtime : Int → Int × Int) (nodes : Nodes) (h : Heap) (head : Ptr) (gs : List Ptr)
      (files : Ptr → List Ptr) (opts : List ListOpt) (fl : ListFlags) (fuel : Nat),
      Shape h head gs files → gs ≠ [] → ListFlags.parse opts = some fl →
        listFuel gs files ≤ fuel →
      ∃ h' head', list localtime nodes fuel h (some head) opts = some (h', some head') ∧
        OnlyReorders localtime nodes fl.cFlag fl.order fl.lFlag h' head' gs files := by
  intro hall
  obtain ⟨h', head', hrun, gs', files', hre, -⟩ := hall (fun _ => (0, 0)) twoGroupsNodes twoGroups 0
    [1, 2] twoGroupsFiles [.l ['f', 'i', 'l', 'e', 'l', 'i', 's', 't']] ⟨.filelist, .size, 1, false⟩
    33 twoGroups_shape (by simp) rfl (by decide)
  have hend : list (fun _ => (0, 0)) twoGroupsNodes 33 twoGroups (some 0)
      [.l ['f', 'i', 'l', 'e', 'l', 'i', 's', 't']] =
        some ({ twoGroups with
          listNext := exchange (exchange twoGroups.listNext 0 1 2) 2 2 1 }, some 1) := rfl
  rw [hend] at hrun
  cases hrun
  have hone : Linked (exchange (exchange twoGroups.listNext 0 1 2) 2 2 1) (some 1) [1] := ⟨rfl, rfl⟩
  have hnil : gs' = [] := (List.cons.inj (hre.linked.unique hone)).2
  have hlen := hre.groups.length_eq
  rw [hnil] at hlen
  cases hlen

/-- Files in strict order of their names, asked for in that order, stay. -/
theorem list_onlyReorders_sorted_files :
    ∃ h' head', list (fun _ => (0, 0)) twoGroupsNodes 33 twoGroups (some 0)
        [.c ['f', 'i', 'l', 'e', 'n', 'a', 'm', 'e']] = some (h', some head') ∧
      OnlyReorders (fun _ => (0, 0)) twoGroupsNodes .filename 1 .fileset h' head' [1, 2]
        twoGroupsFiles := by
  obtain ⟨h', head', hrun, hiff⟩ := list_onlyReorders_iff (fun _ => (0, 0)) twoGroupsNodes twoGroups
    0 [1, 2] twoGroupsFiles [.c ['f', 'i', 'l', 'e', 'n', 'a', 'm', 'e']]
    ⟨.fileset, .filename, 1, false⟩ 33 twoGroups_shape (by simp) rfl (by decide)
  refine ⟨h', head', hrun, hiff.mpr ⟨fun g hg => ?_, fun g hg => ?_⟩⟩
  · rw [List.mem_singleton.mp hg]
    exact List.isChain_cons_cons.mpr ⟨by decide, List.isChain_singleton _⟩
  · cases hg
    exact inOrder_of_settled _ _ _ _ (by decide)
      (List.isChain_cons_cons.mpr ⟨by decide, List.isChain_singleton _⟩)

end Sfinder
end SsuComputer
