import Mathlib.Data.List.Sort
import SsuComputer.Sdup.Disk
import SsuComputer.Sdup.PromptCorrect

/-!
# SsuComputer.Sdup.LastCopy

What option f leaves of a set that a search of a disk with links has built.

* `findDup_paths` — the paths in the sets end at a name and lead to regular files.
* `getCurrentFile_latest` — the file that stays is the first of those with the latest time.
* `foldl_remove` — all entries that the other paths end at are gone, and no others.
* `lastCopy_iff` — so a copy is left exactly when the path of the file that stays goes through none
  of them.
-/

namespace SsuComputer
namespace Sdup

/-! ## Paths -/

theorem pathSteps_concat (dir : CString) {name : CString} (h : LegalName name) :
    pathSteps (dir ++ '/' :: name) = (components dir).map pathStep ++ [.name name] := by
  have hcomp : components (dir ++ '/' :: name) = components dir ++ [name] := by
    rw [components_append, components_name h.toComponent]
  have hstep : pathStep name = .name name := by
    have hdot := h.not_dot
    rw [isDotName, Bool.or_eq_false_iff, decide_eq_false_iff_not, decide_eq_false_iff_not] at hdot
    rw [pathStep, if_neg hdot.1, if_neg hdot.2]
  have hlast : (dir ++ '/' :: name).getLast? ≠ some '/' := by
    intro hlast
    rw [List.getLast?_append, List.getLast?_cons] at hlast
    cases hn : name.getLast? with
    | none => exact h.ne_nil (List.getLast?_eq_none_iff.mp hn)
    | some c =>
      rw [hn] at hlast
      cases hlast
      exact h.no_slash (List.mem_of_getLast? hn)
  rw [pathSteps, hcomp, if_neg hlast, List.append_nil, List.map_append, List.map_singleton, hstep]

section Search

variable {k : Disk}

/-- A path that ends at a name and leads to a regular file. -/
structure FilePath (k : Disk) (path : CString) : Prop where
  ends : ∃ steps n, pathSteps path = steps ++ [.name n]
  leads : ∃ r i, k.resolve path = some r ∧ r.object = .file i ∧ (k.inode i).regular = true

theorem FilePath.content {path : CString} (h : FilePath k path) :
    ∃ content, k.contentOf path = some content := by
  obtain ⟨r, i, hr, hobject, hregular⟩ := h.leads
  exact ⟨(k.inode i).content, by rw [Disk.contentOf, hr, Option.bind_some, hobject]; exact if_pos hregular⟩

theorem stat_reg {path : CString} {buf : Stat} (h : k.stat path = some buf) (hreg : buf.kind = .reg) :
    ∃ r i, k.resolve path = some r ∧ r.object = .file i ∧ (k.inode i).regular = true := by
  obtain ⟨r, hr, hbuf⟩ := Option.bind_eq_some_iff.mp h
  split at hbuf
  · rename_i i hobject
    cases hbuf
    refine ⟨r, i, hr, hobject, ?_⟩
    by_contra hirregular
    dsimp only at hreg
    rw [if_neg hirregular] at hreg
    cases hreg
  · cases hbuf
    cases hreg
  · cases hbuf

theorem scandir_legal {path : CString} {names : List CString} (h : k.scandir path = some names) :
    ∀ n ∈ names, isDotName n = false → LegalName n := by
  intro n hn hdot
  obtain ⟨r, -, hnames⟩ := Option.bind_eq_some_iff.mp h
  split at hnames
  · rename_i d _
    cases hnames
    rw [List.mem_insertionSort] at hn
    rcases List.mem_cons.mp hn with rfl | hn
    · cases hdot
    · rcases List.mem_cons.mp hn with rfl | hn
      · cases hdot
      · obtain ⟨x, hx, rfl⟩ := List.mem_map.mp hn
        exact k.legal x (List.mem_filter.mp hx).1
  · cases hnames

theorem visitName_paths {digest : CString → CString} {s : Search} {work : DirNode}
    {st : DirSearch} {name : CString} (hname : isDotName name = false → LegalName name)
    (h : ∀ r ∈ st.found, FilePath k r.file.path) :
    ∀ r ∈ (visitName (k.calls digest) s work st name).found, FilePath k r.file.path := by
  rw [visitName]
  split
  · exact h
  · rename_i hdot
    dsimp only
    split
    · exact h
    · rename_i buf hstat
      split
      · exact h
      · exact h
      · rename_i hreg
        split_ifs
        · exact h
        · exact h
        · split
          · exact h
          · intro r hr
            rcases List.mem_append.mp hr with hr | hr
            · exact h r hr
            · rw [List.mem_singleton.mp hr]
              exact ⟨⟨_, _, pathSteps_concat work.dirPath (hname (eq_false_of_ne_true hdot))⟩,
                stat_reg hstat hreg⟩
        · exact h

theorem findDup_paths {digest : CString → CString} {s : Search} {fuel : Nat} {targetDir : CString}
    {found : List Insertion} (h : findDup (k.calls digest) s fuel targetDir = some found) :
    ∀ r ∈ found, FilePath k r.file.path := by
  obtain ⟨st, hrun, rfl⟩ := Option.map_eq_some_iff.mp h
  refine (whileLoop_invariant (I := fun st : DirSearch => ∀ r ∈ st.found, FilePath k r.file.path)
    (fun st st' hst _ hbody => ?_) (fun r hr => by cases hr) hrun).1
  obtain ⟨⟨work, queue⟩, -, rfl⟩ := Option.map_eq_some_iff.mp hbody
  dsimp only
  split
  · exact hst
  · split
    · exact hst
    · rename_i names hscan
      have hlegal := scandir_legal hscan
      clear hscan hbody
      generalize hst' : DirSearch.mk queue st.found = st'
      have hst : ∀ r ∈ st'.found, FilePath k r.file.path := by rw [← hst']; exact hst
      clear hst'
      induction names generalizing st' with
      | nil => exact hst
      | cons name names ih =>
        obtain ⟨hname, hnames⟩ := List.forall_mem_cons.mp hlegal
        exact ih hnames _ (visitName_paths hname hst)

/-- The files of the sets are the files found. -/
theorem finalSets_paths {found : List Insertion} (h : ∀ r ∈ found, FilePath k r.file.path)
    {set : FileListSet} (hset : set ∈ finalSets found) : ∀ f ∈ set.list, FilePath k f.path := by
  intro f hf
  rw [finalSets_eq] at hset
  have hmem := ((insertAll_canonical found).files set (List.mem_filter.mp hset).1).mem_iff.mp hf
  obtain ⟨r, hr, rfl⟩ := List.mem_map.mp hmem
  exact h r (List.mem_filter.mp hr).1

end Search

/-! ## The file that stays -/

/-- The first of the files with the latest time. -/
structure Latest (list : List FileInfo) (i : Nat) (f : FileInfo) : Prop where
  at_index : list[i]? = some f
  max : ∀ g ∈ list, strcmp g.mtime f.mtime ≤ 0
  first : ∀ j g, j < i → list[j]? = some g → strcmp g.mtime f.mtime < 0

theorem Latest.unique {list : List FileInfo} {i j : Nat} {f g : FileInfo} (hf : Latest list i f)
    (hg : Latest list j g) : i = j ∧ f = g := by
  have hij : i = j := by
    rcases Nat.lt_trichotomy i j with hlt | heq | hlt
    · have := hg.first i f hlt hf.at_index
      have hle := hf.max g (List.mem_of_getElem? hg.at_index)
      rw [strcmp_swap] at this
      omega
    · exact heq
    · have := hf.first j g hlt hg.at_index
      have hle := hg.max f (List.mem_of_getElem? hf.at_index)
      rw [strcmp_swap] at this
      omega
  subst hij
  have := hf.at_index
  rw [hg.at_index] at this
  cases this
  exact ⟨rfl, rfl⟩

theorem strcmp_lt_of_le_of_lt {a b c : CString} (hab : strcmp a b ≤ 0) (hbc : strcmp b c < 0) :
    strcmp a c < 0 := by
  rcases Int.lt_or_eq_of_le hab with hlt | heq
  · exact strcmp_trans hlt hbc
  · rwa [strcmp_eq_zero.mp heq]

theorem currentFrom_latest {passed : List FileInfo} {current : Nat × FileInfo}
    (h : Latest passed current.1 current.2) (rest : List FileInfo) :
    Latest (passed ++ rest) (currentFrom current passed.length rest).1
      (currentFrom current passed.length rest).2 := by
  induction rest generalizing passed current with
  | nil => rwa [List.append_nil]
  | cons head next ih =>
    have hcur := (List.getElem?_eq_some_iff.mp h.at_index).1
    have hlen : (passed ++ [head]).length = passed.length + 1 := List.length_append
    rw [currentFrom, List.append_cons, ← hlen]
    split
    · rename_i hlt
      have hbelow : ∀ g ∈ passed, strcmp g.mtime head.mtime < 0 :=
        fun g hg => strcmp_lt_of_le_of_lt (h.max g hg) hlt
      refine ih ⟨by simp, fun g hg => ?_, fun j g hj hg => ?_⟩
      · rcases List.mem_append.mp hg with hg | hg
        · exact Int.le_of_lt (hbelow g hg)
        · rw [List.mem_singleton.mp hg, strcmp_self]
      · rw [List.getElem?_append_left hj] at hg
        exact hbelow g (List.mem_of_getElem? hg)
    · rename_i hnot
      refine ih ⟨?_, fun g hg => ?_, fun j g hj hg => ?_⟩
      · rw [List.getElem?_append_left hcur, h.at_index]
      · rcases List.mem_append.mp hg with hg | hg
        · exact h.max g hg
        · rw [List.mem_singleton.mp hg]
          rw [strcmp_swap] at hnot
          omega
      · rw [List.getElem?_append_left (Nat.lt_trans hj hcur)] at hg
        exact h.first j g hj hg

theorem getCurrentFile_latest {list : List FileInfo} (h : list ≠ []) :
    ∃ current, getCurrentFile list = some current ∧ Latest list current.1 current.2 := by
  obtain ⟨head, next, rfl⟩ := List.exists_cons_of_ne_nil h
  refine ⟨_, rfl, ?_⟩
  rw [currentFrom, if_neg (by rw [strcmp_self]; exact Int.lt_irrefl 0)]
  have hone : Latest [head] ((0, head) : Nat × FileInfo).1 ((0, head) : Nat × FileInfo).2 := by
    refine ⟨rfl, fun g hg => ?_, fun j g hj => absurd hj (Nat.not_lt_zero j)⟩
    rw [List.mem_singleton.mp hg, strcmp_self]
  exact currentFrom_latest hone next

/-! ## What is removed -/

section Remove

variable {k : Disk}

/-- The disk without some entries. -/
structure Without (k : Disk) (gone : List (Nat × CString)) (k' : Disk) : Prop where
  fs : k'.fs = k.fs.erase gone
  inode : k'.inode = k.inode
  files : ∀ e ∈ gone, k.fs.LeadsToFile e

theorem Without.remove {gone : List (Nat × CString)} {k' : Disk} (h : Without k gone k')
    {path : CString} (hpath : FilePath k path) : ∃ e, k.entryAt path = some e ∧
      (∃ r, k.resolve path = some r ∧ e ∈ r.through) ∧ Without k (gone ++ [e]) (k'.remove path) := by
  obtain ⟨steps, n, hsteps⟩ := hpath.ends
  obtain ⟨r, i, hr, hobject, -⟩ := hpath.leads
  rw [Disk.resolve, hsteps] at hr
  obtain ⟨e, hentry, hthrough, hfile, hunlink⟩ :=
    FileSystem.unlink_erase h.files hr hobject
  refine ⟨e, by rw [Disk.entryAt, hsteps, hentry], ⟨r, by rw [Disk.resolve, hsteps, hr], hthrough⟩,
    ?_, h.inode, fun x hx => ?_⟩
  · show k'.fs.unlink maxSymlinks (pathSteps path) = _
    rw [hsteps, h.fs]
    exact hunlink
  · rcases List.mem_append.mp hx with hx | hx
    · exact h.files x hx
    · rw [List.mem_singleton.mp hx]
      exact hfile

theorem without_nil : Without k [] k := ⟨FileSystem.erase_nil.symm, rfl, fun e he => by cases he⟩

theorem foldl_remove (rename : CString → CString → Disk → Option Disk) (current : Nat)
    {xs : List (FileInfo × Nat)} (hxs : ∀ x ∈ xs, FilePath k x.1.path)
    {gone : List (Nat × CString)} {k' : Disk} (h : Without k gone k') :
    ∃ gone', Without k gone' (xs.foldl (fun disk x =>
        if x.2 = current then disk
        else if false then moveTrash (diskOs rename) x.1.path disk
        else (diskOs rename).remove x.1.path disk) k') ∧
      ∀ e, e ∈ gone' ↔ e ∈ gone ∨ ∃ x ∈ xs, x.2 ≠ current ∧ k.entryAt x.1.path = some e := by
  induction xs generalizing gone k' with
  | nil => exact ⟨gone, h, fun e => by simp⟩
  | cons x xs ih =>
    obtain ⟨hx, hxs⟩ := List.forall_mem_cons.mp hxs
    rw [List.foldl_cons]
    by_cases hcur : x.2 = current
    · rw [if_pos hcur]
      obtain ⟨gone', hwithout, hgone'⟩ := ih hxs h
      refine ⟨gone', hwithout, fun e => ?_⟩
      rw [hgone', List.exists_mem_cons_iff]
      exact or_congr_right (or_iff_right fun hx' => hx'.1 hcur).symm
    · rw [if_neg hcur, if_neg Bool.false_ne_true]
      obtain ⟨e, hentry, -, hremove⟩ := h.remove hx
      obtain ⟨gone', hwithout, hgone'⟩ := ih hxs hremove
      refine ⟨gone', hwithout, fun e' => ?_⟩
      have hiff : (x.2 ≠ current ∧ k.entryAt x.1.path = some e') ↔ e' ∈ [e] := by
        rw [hentry, Option.some.injEq, List.mem_singleton, eq_comm (a := e)]
        exact and_iff_right hcur
      rw [hgone', List.exists_mem_cons_iff, hiff, List.mem_append, or_assoc]

/-- After the removals a path still leads to its content when nothing on it is gone. -/
theorem Without.contentOf {gone : List (Nat × CString)} {k' : Disk} (h : Without k gone k')
    {path : CString} {r : Resolved CString} (hr : k.resolve path = some r) :
    k'.contentOf path = if FileSystem.Keeps gone r then k.contentOf path else none := by
  have hresolve : k'.resolve path = if FileSystem.Keeps gone r then some r else none := by
    have hroot : (k.fs.erase gone).root = k.fs.root := rfl
    rw [Disk.resolve, h.fs, hroot, FileSystem.resolve_erase]
    rw [Disk.resolve] at hr
    rw [hr, Option.filter_some]
  rw [Disk.contentOf, Disk.contentOf, hresolve, hr, h.inode]
  split <;> rfl

end Remove

/-! ## The last copy -/

/-- No other file of the set has an entry that the path of the latest one goes through. -/
def Apart (k : Disk) (list : List FileInfo) : Prop :=
  ∀ i f, Latest list i f → ∀ j g, j ≠ i → list[j]? = some g →
    ∀ e r, k.entryAt g.path = some e → k.resolve f.path = some r → e ∉ r.through

def KeepsCopy (k k' : Disk) (list : List FileInfo) : Prop :=
  ∃ f ∈ list, ∃ content, k.contentOf f.path = some content ∧ k'.contentOf f.path = some content

section Copies

variable {k k' : Disk} {gone : List (Nat × CString)} {list : List FileInfo} {i : Nat} {f : FileInfo}

/-- The entries that the files other than the one at `i` end at. -/
def GoneOthers (k : Disk) (list : List FileInfo) (i : Nat) (gone : List (Nat × CString)) : Prop :=
  ∀ e, e ∈ gone ↔ ∃ j g, j ≠ i ∧ list[j]? = some g ∧ k.entryAt g.path = some e

theorem dropOthers_without (rename : CString → CString → Disk → Option Disk)
    (hpaths : ∀ f ∈ list, FilePath k f.path) (i : Nat) :
    ∃ gone, Without k gone (dropOthers (diskOs rename) false i list k) ∧ GoneOthers k list i gone := by
  have hzip : ∀ x ∈ list.zipIdx, FilePath k x.1.path := by
    rintro ⟨g, j⟩ hx
    exact hpaths g (List.mem_of_getElem? (List.mem_zipIdx_iff_getElem?.mp hx))
  obtain ⟨gone, hwithout, hgone⟩ := foldl_remove rename i hzip without_nil
  refine ⟨gone, hwithout, fun e => ?_⟩
  rw [hgone, or_iff_right List.not_mem_nil]
  constructor
  · rintro ⟨⟨g, j⟩, hx, hj, he⟩
    exact ⟨j, g, hj, List.mem_zipIdx_iff_getElem?.mp hx, he⟩
  · rintro ⟨j, g, hj, hx, he⟩
    exact ⟨(g, j), List.mem_zipIdx_iff_getElem?.mpr hx, hj, he⟩

theorem apart_iff (hlatest : Latest list i f) (hgone : GoneOthers k list i gone)
    {r : Resolved CString} (hr : k.resolve f.path = some r) :
    Apart k list ↔ FileSystem.Keeps gone r = true := by
  rw [FileSystem.keeps_iff]
  constructor
  · intro hapart e hthrough hmem
    obtain ⟨j, g, hj, hg, he⟩ := (hgone e).mp hmem
    exact hapart i f hlatest j g hj hg e r he hr hthrough
  · intro hkeeps i' f' hlatest' j g hj hg e r' he hr'
    obtain ⟨rfl, rfl⟩ := hlatest.unique hlatest'
    rw [hr] at hr'
    cases hr'
    exact fun hthrough => hkeeps e hthrough ((hgone e).mpr ⟨j, g, hj, hg, he⟩)

/-- None of the paths removed leads anywhere. -/
theorem contentOf_other (hpaths : ∀ f ∈ list, FilePath k f.path) (hwithout : Without k gone k')
    (hgone : GoneOthers k list i gone) {j : Nat} {g : FileInfo} (hji : j ≠ i)
    (hj : list[j]? = some g) : k'.contentOf g.path = none := by
  obtain ⟨e, he, ⟨r, hr, hthrough⟩, -⟩ := without_nil.remove (hpaths g (List.mem_of_getElem? hj))
  rw [hwithout.contentOf hr, if_neg]
  intro hkeeps
  exact FileSystem.keeps_iff.mp hkeeps e hthrough ((hgone e).mpr ⟨j, g, hji, hj, he⟩)

theorem keepsCopy_iff (hpaths : ∀ f ∈ list, FilePath k f.path) (hlatest : Latest list i f)
    (hwithout : Without k gone k') (hgone : GoneOthers k list i gone) :
    KeepsCopy k k' list ↔ Apart k list := by
  have hf := List.mem_of_getElem? hlatest.at_index
  obtain ⟨r, -, hr, -⟩ := (hpaths f hf).leads
  rw [apart_iff hlatest hgone hr]
  have hcontent := hwithout.contentOf hr
  constructor
  · rintro ⟨g, hg, content, -, hafter⟩
    obtain ⟨j, hj⟩ := List.mem_iff_getElem?.mp hg
    by_cases hji : j = i
    · subst hji
      rw [hlatest.at_index] at hj
      cases hj
      by_contra hnot
      rw [hcontent, if_neg hnot] at hafter
      cases hafter
    · rw [contentOf_other hpaths hwithout hgone hji hj] at hafter
      cases hafter
  · intro hkeeps
    obtain ⟨content, hbefore⟩ := (hpaths f hf).content
    exact ⟨f, hf, content, hbefore, by rw [hcontent, if_pos hkeeps, hbefore]⟩

end Copies

theorem lastCopy_iff (k : Disk) (digest : CString → CString)
    (rename : CString → CString → Disk → Option Disk) (s : Search) {fuel : Nat} {targetDir : CString}
    {found : List Insertion} (hfind : findDup (k.calls digest) s fuel targetDir = some found)
    {setIndex : Int} {set : FileListSet} (hset : (finalSets found)[setIndex.toNat]? = some set) :
    ∃ r, optionFt (diskOs rename) (finalSets found) setIndex false k = some r ∧
      (KeepsCopy k r.disk set.list ↔ Apart k set.list) := by
  have hmem := List.mem_of_getElem? hset
  have hpaths := finalSets_paths (findDup_paths hfind) hmem
  have hne : set.list ≠ [] := by
    rintro hnil
    rw [finalSets_eq] at hmem
    have := (List.mem_filter.mp hmem).2
    rw [hnil] at this
    cases this
  obtain ⟨pre, post, -, -, hwalk⟩ := walk_at hset
  obtain ⟨⟨i, f⟩, hcurrent, hlatest⟩ := getCurrentFile_latest hne
  obtain ⟨gone, hwithout, hgone⟩ := dropOthers_without rename hpaths i
  refine ⟨⟨0, pre ++ post, dropOthers (diskOs rename) false i set.list k⟩, ?_,
    keepsCopy_iff hpaths hlatest hwithout hgone⟩
  rw [optionFt, getListInSet, hwalk]
  dsimp only
  rw [hcurrent, Option.map_some]

/-- A directory `/t` that holds the entries, with one content for all files. -/
def diskOf (entries : List (CString × FsEntry CString)) (mtime : Nat → CString)
    (h : ∀ x ∈ entries, LegalName x.1) : Disk where
  fs := ⟨0, fun _ => 0, ((0, ['t']), .dir 1) :: entries.map fun x => ((1, x.1), x.2)⟩
  inode i := ⟨true, ['x'], mtime i⟩
  legal := by
    intro x hx
    rcases List.mem_cons.mp hx with rfl | hx
    · exact ⟨⟨by decide, by decide⟩, rfl⟩
    · obtain ⟨y, hy, rfl⟩ := List.mem_map.mp hx
      exact h y hy

theorem legalName_letter {c : Char} (h : c ≠ '/' ∧ c ≠ '.') : LegalName [c] :=
  ⟨⟨List.cons_ne_nil _ _, by simpa using Ne.symm h.1⟩, by simp [isDotName, h.2]⟩

/-- Two files, `b` the later one, and a link to `a`. -/
def twoCopies : Disk :=
  diskOf [(['a'], .file 0), (['b'], .file 1), (['c'], .link false [.name ['a']])]
    (fun i => if i = 0 then ['1'] else ['2'])
    (by
      intro x hx
      simp only [List.mem_cons, List.not_mem_nil, or_false] at hx
      rcases hx with rfl | rfl | rfl <;> exact legalName_letter (by decide))

def foundIn (names : List (Char × CString)) : List Insertion :=
  names.map fun n => ⟨⟨['/', 't', '/', n.1], 0, n.2⟩, 1, ['x']⟩

theorem lastCopy_later_file : ∃ found set r,
    findDup (twoCopies.calls id) ⟨none, 1, 10⟩ 1 ['/', 't'] = some found ∧
      (finalSets found)[0]? = some set ∧
      optionFt (diskOs fun _ _ _ => none) (finalSets found) 0 false twoCopies = some r ∧
      KeepsCopy twoCopies r.disk set.list := by
  have hfind : findDup (twoCopies.calls id) ⟨none, 1, 10⟩ 1 ['/', 't'] =
      some (foundIn [('a', ['1']), ('b', ['2']), ('c', ['1'])]) := rfl
  have hset : (finalSets (foundIn [('a', ['1']), ('b', ['2']), ('c', ['1'])]))[(0 : Int).toNat]? =
      some ⟨[⟨['/', 't', '/', 'a'], 0, ['1']⟩, ⟨['/', 't', '/', 'b'], 0, ['2']⟩,
        ⟨['/', 't', '/', 'c'], 0, ['1']⟩], 1, ['x']⟩ := rfl
  obtain ⟨r, hr, hiff⟩ := lastCopy_iff twoCopies id (fun _ _ _ => none) ⟨none, 1, 10⟩ hfind hset
  refine ⟨_, _, r, hfind, hset, hr, hiff.mpr ?_⟩
  intro i f hlatest j g hj hg e r he hr
  obtain ⟨rfl, rfl⟩ := Latest.unique (i := 1) (f := ⟨['/', 't', '/', 'b'], 0, ['2']⟩)
    ⟨rfl, by decide, fun j g hj hg => by
      obtain rfl : j = 0 := by omega
      cases hg
      decide⟩ hlatest
  cases hr
  rcases j with _ | _ | _ | j
  · cases hg
    cases he
    decide
  · exact absurd rfl hj
  · cases hg
    cases he
    decide
  · cases hg

/-- A link `a` to the file `b`: they have one time, and the link is the one that stays. -/
def linkFirst : Disk :=
  diskOf [(['a'], .link false [.name ['b']]), (['b'], .file 0)] (fun _ => ['1'])
    (by
      intro x hx
      simp only [List.mem_cons, List.not_mem_nil, or_false] at hx
      rcases hx with rfl | rfl <;> exact legalName_letter (by decide))

theorem link_left_without_file : ∃ found set r,
    findDup (linkFirst.calls id) ⟨none, 1, 10⟩ 1 ['/', 't'] = some found ∧
      (finalSets found)[0]? = some set ∧
      optionFt (diskOs fun _ _ _ => none) (finalSets found) 0 false linkFirst = some r ∧
      ¬ KeepsCopy linkFirst r.disk set.list := by
  refine ⟨foundIn [('a', ['1']), ('b', ['1'])],
    ⟨[⟨['/', 't', '/', 'a'], 0, ['1']⟩, ⟨['/', 't', '/', 'b'], 0, ['1']⟩], 1, ['x']⟩, _, rfl, rfl,
    rfl, ?_⟩
  rintro ⟨f, hf, content, -, hafter⟩
  rcases List.mem_cons.mp hf with rfl | hf
  · cases hafter
  · rw [List.mem_singleton.mp hf] at hafter
    cases hafter

end Sdup
end SsuComputer
