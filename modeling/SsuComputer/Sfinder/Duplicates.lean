import SsuComputer.Lib.Grouping
import SsuComputer.Sfinder.Lists

/-!
# SsuComputer.Sfinder.Duplicates

`find_duplicates` and `remove_no_duplicates`: grouping the records of a scan by hash.

* `addRecord_inv` — one record keeps the grouping, the size of every group and the size order.
* `findDuplicates_inv` — so does a scan over any size files.
* `removeNoDuplicates_eq` — the cursor walk that deletes from the list under itself keeps exactly
  the groups of two files or more.
* `duplicates_grouped` — the two together.
-/

namespace SsuComputer
namespace Sfinder

/-- A line of a size file. -/
structure Line where
  hash : CString
  path : CString

/-- A file of `same_size_files_dir`, named after the size. -/
structure SizeFile where
  filesize : Int
  lines : List Line

structure Record where
  filesize : Int
  hash : CString
  path : CString

def SizeFile.records (f : SizeFile) : List Record :=
  f.lines.map fun ln => ⟨f.filesize, ln.hash, ln.path⟩

variable (lstat : CString → Option Stat)

/-- The body of the line loop of `find_duplicates`. -/
def addRecord (filesize : Int) (l : DupsList) (ln : Line) : DupsList :=
  match filelistSearch l ln.hash with
  | 0 => filelistAppend lstat l filesize ln.path ln.hash
  | idx + 1 =>
    { l with chain := l.chain.modify idx fun g =>
        { g with fileInfoList := fileinfoAppend lstat none g.fileInfoList ln.path } }

def findDuplicates (files : List SizeFile) (l : DupsList) : DupsList :=
  files.foldl (fun l f => f.lines.foldl (addRecord lstat f.filesize) l) l

/-- The cursor walk of `remove_no_duplicates`. The `next` field of the node just freed is still
read, so the cursor goes on with the rest of the chain it stands in. -/
def removeLoop : List FileList → List FileList → Option (List FileList)
  | [], chain => some chain
  | cur :: rest, chain =>
    if fileinfolistSize cur.fileInfoList < 2 then
      (filelistDeleteNode cur.hash chain).bind (removeLoop rest)
    else removeLoop rest chain

def removeNoDuplicates (l : DupsList) : Option DupsList :=
  (removeLoop l.chain l.chain).map fun chain => { l with chain := chain }


/-- What holds of the list after the records `recs`. -/
structure ScanInv (recs : List Record) (l : DupsList) : Prop where
  head : l.head.hash = []
  groups : Groups Record.hash Record.path FileList.hash FileList.paths recs l.chain
  sizes : ∀ g ∈ l.chain, ∀ r ∈ recs, r.hash = g.hash → g.filesize = r.filesize
  sorted : SizeSorted l.chain

theorem scanInv_nil : ScanInv [] DupsList.zeroed :=
  ⟨rfl, Groups.nil, by simp [DupsList.zeroed], List.Pairwise.nil⟩

/-- The line loop in terms of the chain: a new group in its place by size, or one more path at the
end of the group of that hash. -/
theorem addRecord_cases (filesize : Int) {l : DupsList} {ln : Line} (hh : l.head.hash ≠ ln.hash) :
    (ln.hash ∉ l.chain.map FileList.hash ∧ ∃ new : FileList,
        new.filesize = filesize ∧ new.hash = ln.hash ∧ new.paths = [ln.path] ∧
        addRecord lstat filesize l ln = { l with chain := insertBySize new l.chain }) ∨
      ∃ pre g g' post, l.chain = pre ++ g :: post ∧ g.hash = ln.hash ∧ g'.hash = g.hash ∧
        g'.filesize = g.filesize ∧ g'.paths = g.paths ++ [ln.path] ∧
        addRecord lstat filesize l ln = { l with chain := pre ++ g' :: post } := by
  rcases filelistSearch_cases hh with ⟨hnot, h0⟩ | ⟨pre, g, post, hl, hg, hidx⟩
  · refine .inl ⟨hnot, _, rfl, rfl, ?_, by rw [addRecord, h0]; rfl⟩
    simp [FileList.paths, FileList.files, fileinfoAppend, InfoList.zeroed]
  · refine .inr ⟨pre, g, { g with fileInfoList := fileinfoAppend lstat none g.fileInfoList ln.path },
      post, hl, hg, rfl, rfl, fileinfoAppend_paths _ _ _ _, ?_⟩
    rw [addRecord, hidx, hl]
    exact congrArg (DupsList.mk l.head) (modify_length _ _ _ _)

theorem addRecord_inv {recs : List Record} {l : DupsList} (h : ScanInv recs l) (r : Record)
    (hne : r.hash ≠ []) (hsize : ∀ r' ∈ recs, r'.hash = r.hash → r'.filesize = r.filesize) :
    ScanInv (recs ++ [r]) (addRecord lstat r.filesize l ⟨r.hash, r.path⟩) := by
  have hmem {x : Record} : x ∈ recs ++ [r] ↔ x ∈ recs ∨ x = r := by simp
  have hh : l.head.hash ≠ (Line.mk r.hash r.path).hash := by rw [h.head]; exact hne.symm
  rcases addRecord_cases lstat r.filesize hh with
    ⟨hnot, new, hfs, hhash, hpaths, heq⟩ | ⟨pre, g, g', post, hl, hg, hhash, hfs, hpaths, heq⟩
  · rw [heq]
    refine ⟨h.head, h.groups.new hnot (insertBySize_perm _ _) hhash hpaths, ?_,
      insertBySize_sorted new h.sorted⟩
    intro g hgm x hx hxg
    rcases List.mem_cons.mp ((insertBySize_perm new l.chain).mem_iff.mp hgm) with rfl | hold
    · rcases hmem.mp hx with hx | rfl
      · rw [hfs, hsize x hx (hxg.trans hhash)]
      · exact hfs
    · rcases hmem.mp hx with hx | rfl
      · exact h.sizes g hold x hx hxg
      · exact absurd (hxg ▸ List.mem_map_of_mem hold) hnot
  · have hgroups := h.groups
    have hsizes := h.sizes
    have hsorted := h.sorted
    rw [hl] at hgroups hsizes hsorted
    -- the group found has the size of the records it was made from
    have hsz : g.filesize = r.filesize := by
      obtain ⟨x, hx, hxg⟩ := List.mem_map.mp ((hgroups.mem_iff g.hash).mp (by simp))
      rw [hsizes g (by simp) x hx hxg, hsize x hx (hxg.trans hg)]
    rw [heq]
    refine ⟨h.head, hgroups.extend hg hhash hpaths, ?_, ?_⟩
    · intro y hy x hx hxy
      have hy' : y = g' ∨ y ∈ pre ++ g :: post := by
        simp only [List.mem_append, List.mem_cons] at hy ⊢
        tauto
      rcases hy' with rfl | hy' <;> rcases hmem.mp hx with hx | rfl
      · rw [hfs]; exact hsizes g (by simp) x hx (hxy.trans hhash)
      · rw [hfs]; exact hsz
      · exact hsizes y hy' x hx hxy
      · obtain ⟨x', hx', hxg'⟩ := List.mem_map.mp
          ((hgroups.mem_iff y.hash).mp (List.mem_map_of_mem hy'))
        rw [hsizes y hy' x' hx' hxg', hsize x' hx' (hxg'.trans hxy.symm)]
    · simp only [SizeSorted, List.pairwise_append, List.pairwise_cons, List.mem_cons] at hsorted ⊢
      simpa [hfs] using hsorted

/-- What a scan asks of its records: every hash is there, and it stands for one size. -/
structure Consistent (recs : List Record) : Prop where
  hash_ne : ∀ r ∈ recs, r.hash ≠ []
  size_eq : ∀ r ∈ recs, ∀ r' ∈ recs, r.hash = r'.hash → r.filesize = r'.filesize

theorem addRecord_foldl {f : SizeFile} {recs : List Record} {l : DupsList} (h : ScanInv recs l)
    (hc : Consistent (recs ++ f.records)) :
    ScanInv (recs ++ f.records) (f.lines.foldl (addRecord lstat f.filesize) l) := by
  obtain ⟨size, lines⟩ := f
  induction lines generalizing recs l with
  | nil => simpa [SizeFile.records] using h
  | cons ln lines ih =>
    have hcons : recs ++ SizeFile.records ⟨size, ln :: lines⟩ =
        (recs ++ [⟨size, ln.hash, ln.path⟩]) ++ SizeFile.records ⟨size, lines⟩ := by
      simp [SizeFile.records]
    rw [hcons] at hc ⊢
    refine ih (addRecord_inv lstat h ⟨size, ln.hash, ln.path⟩ (hc.hash_ne _ (by simp)) ?_) hc
    intro r' hr' he
    exact hc.size_eq r' (by simp [hr']) _ (by simp) he

theorem findDuplicates_inv {files : List SizeFile} {recs : List Record} {l : DupsList}
    (h : ScanInv recs l) (hc : Consistent (recs ++ files.flatMap SizeFile.records)) :
    ScanInv (recs ++ files.flatMap SizeFile.records) (findDuplicates lstat files l) := by
  induction files generalizing recs l with
  | nil => simpa [findDuplicates] using h
  | cons f files ih =>
    rw [List.flatMap_cons, ← List.append_assoc] at hc ⊢
    have hc' : Consistent (recs ++ f.records) :=
      ⟨fun r hr => hc.hash_ne r (List.mem_append_left _ hr), fun r hr r' hr' =>
        hc.size_eq r (List.mem_append_left _ hr) r' (List.mem_append_left _ hr')⟩
    exact ih (addRecord_foldl lstat h hc') hc

/-- The walk over the chain `pre ++ rest`, all of `pre` behind the cursor. -/
theorem removeLoop_eq (pre rest : List FileList)
    (hnd : ((pre ++ rest).map FileList.hash).Nodup) :
    removeLoop rest (pre ++ rest) =
      some (pre ++ rest.filter fun g => 2 ≤ fileinfolistSize g.fileInfoList) := by
  induction rest generalizing pre with
  | nil => simp [removeLoop]
  | cons cur rest ih =>
    rw [removeLoop]
    split
    · rename_i hlt
      have hnd' : ((pre ++ rest).map FileList.hash).Nodup := by
        rw [List.map_append, List.map_cons] at hnd
        rw [List.map_append]
        exact (List.nodup_cons.mp (List.nodup_middle.mp hnd)).2
      have hdrop : ¬decide (2 ≤ fileinfolistSize cur.fileInfoList) = true := fun h =>
        Nat.not_le_of_lt hlt (of_decide_eq_true h)
      rw [filelistDeleteNode_split hnd, Option.bind_some, ih _ hnd',
        List.filter_cons_of_neg (p := fun g : FileList => decide (2 ≤ fileinfolistSize g.fileInfoList)) hdrop]
    · rename_i hge
      have := ih (pre ++ [cur]) (by simpa using hnd)
      rw [List.append_assoc, List.singleton_append] at this
      have hkeep : decide (2 ≤ fileinfolistSize cur.fileInfoList) = true :=
        decide_eq_true (Nat.le_of_not_lt hge)
      rw [this,
        List.filter_cons_of_pos (p := fun g : FileList => decide (2 ≤ fileinfolistSize g.fileInfoList)) hkeep]
      simp

theorem removeNoDuplicates_eq {l : DupsList} (hnd : (l.chain.map FileList.hash).Nodup) :
    removeNoDuplicates l =
      some { l with chain := l.chain.filter fun g => 2 ≤ fileinfolistSize g.fileInfoList } := by
  have := removeLoop_eq [] l.chain (by simpa using hnd)
  rw [List.nil_append] at this
  rw [removeNoDuplicates, this]
  rfl

theorem fileinfolistSize_eq (g : FileList) : fileinfolistSize g.fileInfoList = g.paths.length := by
  simp [fileinfolistSize, FileList.paths, FileList.files]

/-- **The groups after a scan are the duplicates.** One group for every hash that occurs twice or
more, holding the paths of that hash in record order, in size order. -/
theorem duplicates_grouped (files : List SizeFile)
    (hc : Consistent (files.flatMap SizeFile.records)) :
    ∃ l, removeNoDuplicates (findDuplicates lstat files DupsList.zeroed) = some l ∧
      (l.chain.map FileList.hash).Nodup ∧
      (∀ h, h ∈ l.chain.map FileList.hash ↔
        2 ≤ ((files.flatMap SizeFile.records).map Record.hash).count h) ∧
      (∀ g ∈ l.chain, g.paths =
        ((files.flatMap SizeFile.records).filter fun r => r.hash = g.hash).map Record.path) ∧
      (∀ g ∈ l.chain, ∀ r ∈ files.flatMap SizeFile.records, r.hash = g.hash →
        g.filesize = r.filesize) ∧
      SizeSorted l.chain := by
  have hinv : ScanInv (files.flatMap SizeFile.records) _ :=
    findDuplicates_inv lstat scanInv_nil (by simpa using hc)
  refine ⟨_, removeNoDuplicates_eq hinv.groups.nodup, ?_, fun h => ?_, fun g hg => ?_, fun g hg => ?_,
    hinv.sorted.filter _⟩
  · exact hinv.groups.nodup.sublist (List.filter_sublist.map _)
  · simpa only [fileinfolistSize_eq] using hinv.groups.mem_filter_iff 2 (by omega) h
  · exact hinv.groups.items_eq g (List.mem_of_mem_filter hg)
  · exact hinv.sizes g (List.mem_of_mem_filter hg)

theorem duplicates_grouped_interleaved :
    ∃ l, removeNoDuplicates (findDuplicates (fun _ => none)
        [⟨5, [⟨['a'], ['p']⟩, ⟨['b'], ['q']⟩, ⟨['a'], ['r']⟩]⟩, ⟨3, [⟨['c'], ['s']⟩, ⟨['c'], ['s']⟩]⟩]
        DupsList.zeroed) = some l ∧
      (∀ h, h ∈ l.chain.map FileList.hash ↔ 2 ≤ [['a'], ['b'], ['a'], ['c'], ['c']].count h) := by
  obtain ⟨l, hl, -, hmem, -⟩ := duplicates_grouped (fun _ => none)
    [⟨5, [⟨['a'], ['p']⟩, ⟨['b'], ['q']⟩, ⟨['a'], ['r']⟩]⟩, ⟨3, [⟨['c'], ['s']⟩, ⟨['c'], ['s']⟩]⟩]
    ⟨by simp [SizeFile.records], by simp [SizeFile.records]⟩
  exact ⟨l, hl, hmem⟩

end Sfinder
end SsuComputer
