import Mathlib.Data.List.Sort
import Mathlib.Data.List.Count
import SsuComputer.Sdup.Structs

/-!
# SsuComputer.Sdup.FileSets

What a sequence of insertions builds.

* `insertMyFileLinkedList_eq` — a file goes into its set as `List.orderedInsert` puts it.
* `Canonical.join`, `Canonical.start` — the set of its key grows, or a new set stands behind the
  smaller sizes.
* `Canonical` — the invariant of the sequence; `sets_canonical` is what is left of it after
  `removeOnlyOneNode`, and that the order of the insertions does not matter.
-/

namespace SsuComputer
namespace Sdup

structure Insertion where
  file : FileInfo
  size : Nat
  hash : CString
deriving Repr, DecidableEq

abbrev Key := Nat × CString

def Insertion.key (r : Insertion) : Key := (r.size, r.hash)

def FileListSet.key (g : FileListSet) : Key := (g.size, g.hash)

def insertAll (recs : List Insertion) : List FileListSet :=
  recs.foldl (fun head r => insertMyFileListLinkedList head r.file r.size r.hash) []

/-- By depth, then by `strcmp` of the paths. -/
def InOrder (a b : FileInfo) : Prop :=
  a.depth < b.depth ∨ a.depth = b.depth ∧ strcmp a.path b.path ≤ 0

instance : DecidableRel InOrder := fun a b =>
  inferInstanceAs (Decidable (a.depth < b.depth ∨ a.depth = b.depth ∧ strcmp a.path b.path ≤ 0))

theorem not_inOrder {a b : FileInfo} :
    ¬ InOrder a b ↔ b.depth < a.depth ∨ b.depth = a.depth ∧ strcmp b.path a.path < 0 := by
  unfold InOrder
  rw [strcmp_swap]
  omega

instance : Std.Total InOrder := by
  constructor
  intro a b
  by_cases h : InOrder a b
  · exact .inl h
  · refine .inr ?_
    rcases not_inOrder.mp h with hlt | ⟨heq, hcmp⟩
    · exact .inl hlt
    · exact .inr ⟨heq, Int.le_of_lt hcmp⟩

instance : IsTrans FileInfo InOrder := by
  constructor
  rintro a b c (hab | ⟨hab, hsab⟩) (hbc | ⟨hbc, hsbc⟩)
  · exact .inl (Nat.lt_trans hab hbc)
  · exact .inl (hbc ▸ hab)
  · exact .inl (hab ▸ hbc)
  · refine .inr ⟨hab.trans hbc, ?_⟩
    rcases Int.lt_or_eq_of_le hsab with hlt | heq
    · rcases Int.lt_or_eq_of_le hsbc with hlt' | heq'
      · exact Int.le_of_lt (strcmp_trans hlt hlt')
      · rw [← strcmp_eq_zero.mp heq']
        exact hsab
    · rw [strcmp_eq_zero.mp heq]
      exact hsbc

theorem inOrder_antisymm {a b : FileInfo} (hab : InOrder a b) (hba : InOrder b a) :
    a.path = b.path := by
  rcases hab with hab | ⟨_, hab⟩
  · rcases hba with hba | ⟨hba, _⟩ <;> omega
  · rcases hba with hba | ⟨_, hba⟩
    · omega
    · refine strcmp_eq_zero.mp ?_
      rcases Int.lt_or_eq_of_le hab with hlt | heq
      · have := strcmp_swap.mp hlt
        omega
      · exact heq

/-! ## One insertion -/

theorem linkBetween_eq {α : Type} (before : List α) (node : α) (rest : List α) :
    linkBetween before node rest = before ++ node :: rest := by
  cases before <;> rfl

theorem insertFileFrom_eq (node : FileInfo) (before l : List FileInfo) :
    insertFileFrom node before l = before ++ l.orderedInsert InOrder node := by
  induction l generalizing before with
  | nil => rfl
  | cons cur rest ih =>
    unfold insertFileFrom
    rw [linkBetween_eq, List.orderedInsert_cons]
    by_cases hin : InOrder node cur
    · rw [if_pos hin]
      rcases hin with hlt | ⟨heq, hcmp⟩
      · rw [if_neg (Nat.lt_asymm hlt), if_neg (Nat.ne_of_gt hlt)]
      · have hnot : ¬ strcmp cur.path node.path < 0 := by
          rw [strcmp_swap]
          omega
        rw [if_neg (by omega), if_pos heq.symm, if_neg hnot]
    · rw [if_neg hin]
      rcases not_inOrder.mp hin with hlt | ⟨heq, hcmp⟩
      · rw [if_pos hlt, ih, List.append_assoc, List.singleton_append]
      · rw [if_neg (by omega), if_pos heq, if_pos hcmp, ih, List.append_assoc,
          List.singleton_append]

theorem insertMyFileLinkedList_eq (head : List FileInfo) (node : FileInfo) :
    insertMyFileLinkedList head node = head.orderedInsert InOrder node := by
  cases head with
  | nil => rfl
  | cons cur rest => exact insertFileFrom_eq node [] (cur :: rest)

section Set

variable (node : FileInfo) (size : Nat) (hash : CString)

theorem insertSetFrom_append (before sets : List FileListSet) :
    insertSetFrom node size hash before sets = before ++ insertSetFrom node size hash [] sets := by
  induction sets generalizing before with
  | nil => rfl
  | cons cur rest ih =>
    unfold insertSetFrom
    simp only [linkBetween_eq, List.nil_append]
    split_ifs with hlt heq hhash
    · rw [ih, ih [cur], List.append_assoc]
    · rfl
    · rw [ih, ih [cur], List.append_assoc]
    · rfl

/-- The file has joined the set with its key, or started one in front of the first larger size. -/
def Placed (sets res : List FileListSet) : Prop :=
  (∃ pre g post, sets = pre ++ g :: post ∧ g.key = (size, hash) ∧
    res = pre ++ { g with list := g.list.orderedInsert InOrder node } :: post) ∨
  ((size, hash) ∉ sets.map FileListSet.key ∧ ∃ pre post, sets = pre ++ post ∧
    (∀ g ∈ pre, g.size ≤ size) ∧ (∀ g ∈ post, size < g.size) ∧
    res = pre ++ createListLinkedNode node size hash :: post)

theorem Placed.cons {cur : FileListSet} {sets res : List FileListSet}
    (h : Placed node size hash sets res) (hle : cur.size ≤ size) (hkey : cur.key ≠ (size, hash)) :
    Placed node size hash (cur :: sets) (cur :: res) := by
  rcases h with ⟨pre, g, post, rfl, hg, rfl⟩ | ⟨hnot, pre, post, rfl, hpre, hpost, rfl⟩
  · exact .inl ⟨cur :: pre, g, post, rfl, hg, rfl⟩
  · refine .inr ⟨?_, cur :: pre, post, rfl, ?_, hpost, rfl⟩
    · rw [List.map_cons, List.mem_cons, not_or]
      exact ⟨Ne.symm hkey, hnot⟩
    · intro g hg
      rcases List.mem_cons.mp hg with rfl | hg
      · exact hle
      · exact hpre g hg

/-- All sets are of larger files. -/
theorem placed_front {sets : List FileListSet} (hgt : ∀ g ∈ sets, size < g.size) :
    Placed node size hash sets (createListLinkedNode node size hash :: sets) := by
  refine .inr ⟨?_, [], sets, rfl, by simp, hgt, rfl⟩
  intro hmem
  obtain ⟨g, hg, hkey⟩ := List.mem_map.mp hmem
  exact Nat.ne_of_gt (hgt g hg) (congrArg Prod.fst hkey)

theorem insertSetFrom_placed {sets : List FileListSet}
    (hsorted : sets.Pairwise fun a b => a.size ≤ b.size) :
    Placed node size hash sets (insertSetFrom node size hash [] sets) := by
  induction sets with
  | nil => exact placed_front node size hash fun g hg => by cases hg
  | cons cur rest ih =>
    obtain ⟨hfirst, hrest⟩ := List.pairwise_cons.mp hsorted
    unfold insertSetFrom
    rcases Nat.lt_trichotomy cur.size size with hlt | heq | hgt
    · have hkey : cur.key ≠ (size, hash) := fun hkey => Nat.ne_of_lt hlt (congrArg Prod.fst hkey)
      rw [if_pos hlt, insertSetFrom_append]
      exact (ih hrest).cons node size hash (Nat.le_of_lt hlt) hkey
    · by_cases hhash : strcmp cur.hash hash = 0
      · have hkey : cur.key = (size, hash) := by
          unfold FileListSet.key
          rw [heq, strcmp_eq_zero.mp hhash]
        rw [if_neg (by omega), if_pos heq, if_pos hhash, insertMyFileLinkedList_eq]
        exact .inl ⟨[], cur, rest, rfl, hkey, rfl⟩
      · have hkey : cur.key ≠ (size, hash) := fun hkey =>
          hhash (strcmp_eq_zero.mpr (congrArg Prod.snd hkey))
        rw [if_neg (by omega), if_pos heq, if_neg hhash, insertSetFrom_append]
        exact (ih hrest).cons node size hash (Nat.le_of_eq heq) hkey
    · rw [if_neg (by omega), if_neg (by omega)]
      refine placed_front node size hash fun g hg => ?_
      rcases List.mem_cons.mp hg with rfl | hg
      · exact hgt
      · exact Nat.lt_of_lt_of_le hgt (hfirst g hg)

theorem insertMyFileListLinkedList_eq (sets : List FileListSet) :
    insertMyFileListLinkedList sets node size hash = insertSetFrom node size hash [] sets := by
  cases sets <;> rfl

end Set

theorem removeFrom_eq (before sets : List FileListSet) :
    removeFrom before sets = before ++ sets.filter fun g => 2 ≤ g.list.length := by
  induction sets generalizing before with
  | nil => exact (List.append_nil before).symm
  | cons cur rest ih =>
    unfold removeFrom
    rw [List.filter_cons]
    cases hlist : cur.list with
    | nil => exact ih before
    | cons a l =>
      cases l with
      | nil => exact ih before
      | cons b l =>
        simp only [List.length_cons]
        rw [if_pos (by simp), ih, List.append_assoc, List.singleton_append]

/-! ## Sequences of insertions -/

def filesWith (recs : List Insertion) (k : Key) : List FileInfo :=
  (recs.filter fun r => r.key = k).map Insertion.file

theorem filesWith_concat (recs : List Insertion) (r : Insertion) (k : Key) :
    filesWith (recs ++ [r]) k = filesWith recs k ++ if r.key = k then [r.file] else [] := by
  unfold filesWith
  rw [List.filter_append, List.map_append]
  by_cases h : r.key = k
  · rw [List.filter_cons_of_pos (by simpa using h), if_pos h]
    rfl
  · rw [List.filter_cons_of_neg (by simpa using h), if_neg h]
    rfl

theorem filesWith_length (recs : List Insertion) (k : Key) :
    (filesWith recs k).length = (recs.map Insertion.key).count k := by
  unfold filesWith
  rw [List.length_map, List.count, List.countP_map, List.countP_eq_length_filter]
  congr 1
  refine List.filter_congr ?_
  intro r _
  simp [beq_eq_decide]

structure Canonical (recs : List Insertion) (sets : List FileListSet) : Prop where
  sizes : sets.Pairwise fun a b => a.size ≤ b.size
  keys : (sets.map FileListSet.key).Nodup
  mem_keys : ∀ k, k ∈ sets.map FileListSet.key ↔ k ∈ recs.map Insertion.key
  files : ∀ g ∈ sets, g.list.Perm (filesWith recs g.key)
  ordered : ∀ g ∈ sets, g.list.Pairwise InOrder

theorem canonical_nil : Canonical [] [] := by
  constructor <;> simp

theorem filesWith_eq_nil {recs : List Insertion} {k : Key} (h : k ∉ recs.map Insertion.key) :
    filesWith recs k = [] := by
  refine List.eq_nil_of_length_eq_zero ?_
  rw [filesWith_length]
  exact List.count_eq_zero.mpr h

section Insert

variable {recs : List Insertion} {r : Insertion}

theorem Canonical.join {pre post : List FileListSet} {g : FileListSet}
    (h : Canonical recs (pre ++ g :: post)) (hg : g.key = r.key) :
    Canonical (recs ++ [r])
      (pre ++ { g with list := g.list.orderedInsert InOrder r.file } :: post) := by
  have hmem : ∀ x, x ∈ pre ∨ x ∈ post → x ∈ pre ++ g :: post := by
    rintro x (hx | hx) <;> simp [hx]
  have hgmem : g ∈ pre ++ g :: post := by simp
  have hmap : (pre ++ { g with list := g.list.orderedInsert InOrder r.file } :: post).map
      FileListSet.key = (pre ++ g :: post).map FileListSet.key := by
    rw [List.map_append, List.map_append]
    rfl
  have hother : ∀ x, x ∈ pre ∨ x ∈ post → r.key ≠ x.key := by
    intro x hx heq
    have hnd := h.keys
    rw [List.map_append, List.map_cons, List.nodup_middle, List.nodup_cons] at hnd
    refine hnd.1 ?_
    rw [hg, heq, ← List.map_append]
    exact List.mem_map_of_mem (List.mem_append.mpr hx)
  have hcases : ∀ {P : FileListSet → Prop},
      P { g with list := g.list.orderedInsert InOrder r.file } →
      (∀ x, x ∈ pre ∨ x ∈ post → P x) →
      ∀ x ∈ pre ++ { g with list := g.list.orderedInsert InOrder r.file } :: post, P x := by
    intro P hnew hold x hx
    rcases List.mem_append.mp hx with hx | hx
    · exact hold x (.inl hx)
    rcases List.mem_cons.mp hx with rfl | hx
    · exact hnew
    · exact hold x (.inr hx)
  constructor
  · have := h.sizes
    rw [List.pairwise_append, List.pairwise_cons] at this ⊢
    obtain ⟨hpre, ⟨hgpost, hpost⟩, hcross⟩ := this
    refine ⟨hpre, ⟨hgpost, hpost⟩, ?_⟩
    intro a ha b hb
    rcases List.mem_cons.mp hb with rfl | hb
    · exact hcross a ha g (by simp)
    · exact hcross a ha b (by simp [hb])
  · rw [hmap]
    exact h.keys
  · intro k
    rw [hmap, h.mem_keys, List.map_append, List.mem_append, List.map_singleton, List.mem_singleton]
    constructor
    · intro hk
      exact .inl hk
    · rintro (hk | rfl)
      · exact hk
      · rw [← hg]
        exact (h.mem_keys _).mp (List.mem_map_of_mem hgmem)
  · refine hcases ?_ ?_
    · show (g.list.orderedInsert InOrder r.file).Perm (filesWith (recs ++ [r]) g.key)
      rw [filesWith_concat, if_pos hg.symm]
      exact (List.perm_orderedInsert _ _ _).trans
        (((h.files g hgmem).cons _).trans (List.perm_append_singleton _ _).symm)
    · intro x hx
      rw [filesWith_concat, if_neg (hother x hx), List.append_nil]
      exact h.files x (hmem x hx)
  · refine hcases ?_ fun x hx => h.ordered x (hmem x hx)
    exact List.Pairwise.orderedInsert r.file g.list (h.ordered g hgmem)

theorem Canonical.start {pre post : List FileListSet} (h : Canonical recs (pre ++ post))
    (hnot : r.key ∉ (pre ++ post).map FileListSet.key) (hpre : ∀ g ∈ pre, g.size ≤ r.size)
    (hpost : ∀ g ∈ post, r.size < g.size) :
    Canonical (recs ++ [r]) (pre ++ createListLinkedNode r.file r.size r.hash :: post) := by
  have hkey : (createListLinkedNode r.file r.size r.hash).key = r.key := rfl
  have hperm : (pre ++ createListLinkedNode r.file r.size r.hash :: post).Perm
      (createListLinkedNode r.file r.size r.hash :: (pre ++ post)) := List.perm_middle
  have hmap := hperm.map FileListSet.key
  rw [List.map_cons, hkey] at hmap
  constructor
  · have := h.sizes
    rw [List.pairwise_append] at this
    rw [List.pairwise_append, List.pairwise_cons]
    refine ⟨this.1, ⟨fun b hb => Nat.le_of_lt (hpost b hb), this.2.1⟩, ?_⟩
    intro a ha b hb
    rcases List.mem_cons.mp hb with rfl | hb
    · exact hpre a ha
    · exact this.2.2 a ha b hb
  · rw [hmap.nodup_iff, List.nodup_cons]
    exact ⟨hnot, h.keys⟩
  · intro k
    rw [hmap.mem_iff, List.mem_cons, h.mem_keys, List.map_append, List.mem_append,
      List.map_singleton, List.mem_singleton, or_comm]
  · intro g hg
    rw [filesWith_concat]
    rcases List.mem_cons.mp (hperm.mem_iff.mp hg) with rfl | hg
    · rw [hkey, if_pos rfl, filesWith_eq_nil fun hk => hnot ((h.mem_keys _).mpr hk)]
      exact .refl _
    · have hne : r.key ≠ g.key := by
        intro heq
        exact hnot (heq ▸ List.mem_map_of_mem hg)
      rw [if_neg hne, List.append_nil]
      exact h.files g hg
  · intro g hg
    rcases List.mem_cons.mp (hperm.mem_iff.mp hg) with rfl | hg
    · exact List.pairwise_singleton _ _
    · exact h.ordered g hg

theorem Canonical.insert {sets : List FileListSet} (h : Canonical recs sets) :
    Canonical (recs ++ [r]) (insertMyFileListLinkedList sets r.file r.size r.hash) := by
  rw [insertMyFileListLinkedList_eq]
  rcases insertSetFrom_placed r.file r.size r.hash h.sizes with
    ⟨pre, g, post, rfl, hg, heq⟩ | ⟨hnot, pre, post, rfl, hpre, hpost, heq⟩
  · rw [heq]
    exact h.join hg
  · rw [heq]
    exact h.start hnot hpre hpost

end Insert

/-- By induction on the sequence, read from its end. -/
theorem insertAll_canonical (recs : List Insertion) : Canonical recs (insertAll recs) := by
  induction recs using List.reverseRecOn with
  | nil => exact canonical_nil
  | append_singleton recs r ih =>
    unfold insertAll
    rw [List.foldl_append]
    exact ih.insert

/-! ## The sets that are left -/

def finalSets (recs : List Insertion) : List FileListSet := removeOnlyOneNode (insertAll recs)

theorem finalSets_eq (recs : List Insertion) :
    finalSets recs = (insertAll recs).filter fun g => 2 ≤ g.list.length :=
  removeFrom_eq [] (insertAll recs)

theorem length_list {recs : List Insertion} {g : FileListSet} (h : g ∈ insertAll recs) :
    g.list.length = (recs.map Insertion.key).count g.key := by
  rw [((insertAll_canonical recs).files g h).length_eq, filesWith_length]

theorem mem_finalSets_keys (recs : List Insertion) (k : Key) :
    k ∈ (finalSets recs).map FileListSet.key ↔ 2 ≤ (recs.map Insertion.key).count k := by
  rw [finalSets_eq]
  constructor
  · intro hk
    obtain ⟨g, hg, rfl⟩ := List.mem_map.mp hk
    obtain ⟨hmem, hlen⟩ := List.mem_filter.mp hg
    rw [← length_list hmem]
    exact of_decide_eq_true hlen
  · intro hk
    have hin : k ∈ recs.map Insertion.key := List.count_pos_iff.mp (by omega)
    obtain ⟨g, hg, rfl⟩ := List.mem_map.mp (((insertAll_canonical recs).mem_keys k).mpr hin)
    rw [← length_list hg] at hk
    exact List.mem_map_of_mem (List.mem_filter.mpr ⟨hg, decide_eq_true hk⟩)

/-- With distinct paths a list in order is determined by its files. -/
theorem ordered_unique {recs : List Insertion}
    (hpaths : (recs.map fun r => r.file.path).Nodup) {l l' : List FileInfo} (hperm : l.Perm l')
    (hmem : ∀ x ∈ l, x ∈ recs.map Insertion.file) (hl : l.Pairwise InOrder)
    (hl' : l'.Pairwise InOrder) : l = l' := by
  refine List.Perm.eq_of_pairwise ?_ hl hl' hperm
  intro a b ha hb hab hba
  obtain ⟨r, hr, rfl⟩ := List.mem_map.mp (hmem a ha)
  obtain ⟨r', hr', rfl⟩ := List.mem_map.mp (hmem b (hperm.mem_iff.mpr hb))
  exact congrArg Insertion.file (List.inj_on_of_nodup_map hpaths hr hr' (inOrder_antisymm hab hba))

theorem mem_finalSets_of_perm {recs recs' : List Insertion} (hperm : recs.Perm recs')
    (hpaths : (recs.map fun r => r.file.path).Nodup) {g : FileListSet} (hg : g ∈ finalSets recs) :
    g ∈ finalSets recs' := by
  have hkey : g.key ∈ (finalSets recs').map FileListSet.key := by
    rw [mem_finalSets_keys, ← (hperm.map Insertion.key).count_eq, ← mem_finalSets_keys]
    exact List.mem_map_of_mem hg
  obtain ⟨g', hg', hkeys⟩ := List.mem_map.mp hkey
  rw [finalSets_eq] at hg hg'
  have hgm := (List.mem_filter.mp hg).1
  have hgm' := (List.mem_filter.mp hg').1
  have hfiles := (insertAll_canonical recs).files g hgm
  have hlist : g.list = g'.list := by
    refine ordered_unique hpaths ?_ ?_ ((insertAll_canonical recs).ordered g hgm)
      ((insertAll_canonical recs').ordered g' hgm')
    · refine hfiles.trans (List.Perm.trans ?_ ((insertAll_canonical recs').files g' hgm').symm)
      rw [hkeys]
      exact (hperm.filter _).map _
    · intro x hx
      obtain ⟨r, hr, rfl⟩ := List.mem_map.mp (hfiles.mem_iff.mp hx)
      exact List.mem_map_of_mem (List.mem_filter.mp hr).1
  have hsame : g' = g := by
    cases g
    cases g'
    simp only [FileListSet.key, Prod.mk.injEq] at hkeys
    simp only at hlist
    rw [hlist, hkeys.1, hkeys.2]
  rw [finalSets_eq, ← hsame]
  exact hg'

/-- One set for each key that was inserted twice, with its files in order; the order of the
insertions does not matter when the paths are distinct. -/
theorem sets_canonical (recs : List Insertion) :
    ((finalSets recs).map FileListSet.key).Nodup ∧
    (∀ k, k ∈ (finalSets recs).map FileListSet.key ↔ 2 ≤ (recs.map Insertion.key).count k) ∧
    (∀ g ∈ finalSets recs, g.list.Perm (filesWith recs g.key)) ∧
    ((finalSets recs).Pairwise fun a b => a.size ≤ b.size) ∧
    (∀ g ∈ finalSets recs, g.list.Pairwise InOrder) ∧
    ∀ recs' : List Insertion, recs.Perm recs' → (recs.map fun r => r.file.path).Nodup →
      ∀ g, g ∈ finalSets recs ↔ g ∈ finalSets recs' := by
  have h := insertAll_canonical recs
  have hsub : (finalSets recs).Sublist (insertAll recs) := by
    rw [finalSets_eq]
    exact List.filter_sublist
  refine ⟨h.keys.sublist (hsub.map _), mem_finalSets_keys recs,
    fun g hg => h.files g (hsub.subset hg), h.sizes.sublist hsub,
    fun g hg => h.ordered g (hsub.subset hg), ?_⟩
  intro recs' hperm hpaths g
  have hpaths' : (recs'.map fun r => r.file.path).Nodup :=
    (hperm.map fun r => r.file.path).nodup_iff.mp hpaths
  exact ⟨mem_finalSets_of_perm hperm hpaths, mem_finalSets_of_perm hperm.symm hpaths'⟩

theorem sets_canonical_two_orders :
    (⟨[⟨['a'], 1, []⟩, ⟨['b'], 1, []⟩], 3, ['h']⟩ : FileListSet) ∈ finalSets
        [⟨⟨['b'], 1, []⟩, 3, ['h']⟩, ⟨⟨['a'], 1, []⟩, 3, ['h']⟩, ⟨⟨['c'], 0, []⟩, 2, ['h']⟩] ↔
      (⟨[⟨['a'], 1, []⟩, ⟨['b'], 1, []⟩], 3, ['h']⟩ : FileListSet) ∈ finalSets
        [⟨⟨['c'], 0, []⟩, 2, ['h']⟩, ⟨⟨['a'], 1, []⟩, 3, ['h']⟩, ⟨⟨['b'], 1, []⟩, 3, ['h']⟩] :=
  (sets_canonical [⟨⟨['b'], 1, []⟩, 3, ['h']⟩, ⟨⟨['a'], 1, []⟩, 3, ['h']⟩,
    ⟨⟨['c'], 0, []⟩, 2, ['h']⟩]).2.2.2.2.2
    [⟨⟨['c'], 0, []⟩, 2, ['h']⟩, ⟨⟨['a'], 1, []⟩, 3, ['h']⟩, ⟨⟨['b'], 1, []⟩, 3, ['h']⟩]
    (by decide) (by decide) _

end Sdup
end SsuComputer
