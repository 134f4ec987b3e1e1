import Mathlib.Algebra.Ring.Nat
import SsuComputer.Sfinder.Names
import SsuComputer.Sfinder.Duplicates

/-!
# SsuComputer.Sfinder.DirTraverse

`dir_traverse` over a finite directory tree, and all files of such a tree.

* A node of the directory list carries its path and what `scandir` returns for it.
* `hash_func` is the hash that a file carries; appending to a size file never fails.
* The recursion is on the level below, which weighs less than the level above (`weight`).
-/

namespace SsuComputer
namespace Sfinder

/-- A directory entry with its `lstat` size. -/
inductive Entry
  | file (name : CString) (size : Nat) (hash : CString)
  | dir (name : CString) (size : Nat) (entries : List Entry)
  | other (name : CString) (size : Nat)

def Entry.name : Entry → CString
  | .file name _ _ => name
  | .dir name _ _ => name
  | .other name _ => name

def Entry.size : Entry → Nat
  | .file _ size _ => size
  | .dir _ size _ => size
  | .other _ size => size

structure DirList where
  dirpath : CString
  entries : List Entry

/-- The globals that a search is run with. -/
structure Search where
  extension : CString
  minbsize : Int
  maxbsize : Int
  trashPath : CString

/-- The path of a directory, with a slash at its end. -/
def slashed (dir : CString) : CString := if dir.getLast? = some '/' then dir else dir ++ ['/']

def getFullpath (targetDir targetFile : CString) : CString := slashed targetDir ++ targetFile

def Search.excluded (s : Search) : List CString :=
  [['/', 'p', 'r', 'o', 'c'], ['/', 'r', 'u', 'n'], ['/', 's', 'y', 's'], s.trashPath]

/-- What happens to an entry that passes the tests: a directory is visited next, the file gets its
line if the extension is right. -/
def keepEntry (s : Search) (fullpath : CString) : Entry → List DirList × List Record
  | .dir _ _ entries => ([⟨fullpath, entries⟩], [])
  | .file _ filesize hash =>
    if s.extension ≠ [] ∧ getExtension fullpath ≠ some s.extension then ([], [])
    else ([], [⟨filesize, hash, fullpath⟩])
  | .other _ _ => ([], [])

/-- The body of the loop over the entries. -/
def visitEntry (s : Search) (dirpath : CString) (e : Entry) : List DirList × List Record :=
  if isDotEntry e.name then ([], [])
  else
    let fullpath := getFullpath dirpath e.name
    let filesize : Int := e.size
    if fullpath ∈ s.excluded then ([], [])
    else if filesize = 0 then ([], [])
    else if filesize < s.minbsize then ([], [])
    else if s.maxbsize ≠ -1 ∧ filesize > s.maxbsize then ([], [])
    else keepEntry s fullpath e

def DirList.subdirs (s : Search) (d : DirList) : List DirList :=
  d.entries.flatMap fun e => (visitEntry s d.dirpath e).1

def DirList.records (s : Search) (d : DirList) : List Record :=
  d.entries.flatMap fun e => (visitEntry s d.dirpath e).2

/-! ## Termination -/

mutual
/-- The number of entries of a tree. -/
def Entry.weight : Entry → Nat
  | .file _ _ _ => 1
  | .dir _ _ entries => 1 + weightAll entries
  | .other _ _ => 1

def weightAll : List Entry → Nat
  | [] => 0
  | e :: es => e.weight + weightAll es
end

def DirList.weight (d : DirList) : Nat := 1 + weightAll d.entries

def levelWeight (dirlist : List DirList) : Nat := (dirlist.map DirList.weight).sum

theorem keepEntry_weight (s : Search) (fullpath : CString) (e : Entry) :
    levelWeight (keepEntry s fullpath e).1 ≤ e.weight := by
  cases e with
  | file name size hash =>
    rw [keepEntry]
    split <;> exact Nat.zero_le _
  | dir name size entries => simp [keepEntry, levelWeight, DirList.weight, Entry.weight]
  | other name size => exact Nat.zero_le _

theorem visitEntry_weight (s : Search) (dirpath : CString) (e : Entry) :
    levelWeight (visitEntry s dirpath e).1 ≤ e.weight := by
  simp only [visitEntry]
  split_ifs
  any_goals exact Nat.zero_le _
  exact keepEntry_weight s _ e

theorem levelWeight_append (a b : List DirList) :
    levelWeight (a ++ b) = levelWeight a + levelWeight b := by
  simp [levelWeight]

theorem subdirs_weight (s : Search) (d : DirList) : levelWeight (d.subdirs s) < d.weight := by
  obtain ⟨dirpath, entries⟩ := d
  simp only [DirList.subdirs, DirList.weight]
  induction entries with
  | nil => exact Nat.succ_pos _
  | cons e es ih =>
    have he := visitEntry_weight s dirpath e
    rw [List.flatMap_cons, levelWeight_append, weightAll]
    omega

def nextLevel (s : Search) (dirlist : List DirList) : List DirList :=
  dirlist.flatMap (DirList.subdirs s)

theorem nextLevel_weight (s : Search) {dirlist : List DirList} (h : dirlist ≠ []) :
    levelWeight (nextLevel s dirlist) < levelWeight dirlist := by
  induction dirlist with
  | nil => exact absurd rfl h
  | cons d ds ih =>
    have hd := subdirs_weight s d
    have hds : levelWeight (nextLevel s ds) ≤ levelWeight ds := by
      cases ds with
      | nil => exact Nat.le_refl _
      | cons d' ds => exact Nat.le_of_lt (ih (List.cons_ne_nil _ _))
    have hcons : nextLevel s (d :: ds) = d.subdirs s ++ nextLevel s ds := rfl
    rw [hcons, levelWeight_append]
    simp only [levelWeight, List.map_cons, List.sum_cons] at hd hds ⊢
    omega

/-- `dir_traverse`: the lines appended to the size files, in order. -/
def dirTraverse (s : Search) (dirlist : List DirList) : List Record :=
  if nextLevel s dirlist = [] then dirlist.flatMap (DirList.records s)
  else dirlist.flatMap (DirList.records s) ++ dirTraverse s (nextLevel s dirlist)
termination_by levelWeight dirlist
decreasing_by
  refine nextLevel_weight s ?_
  rintro rfl
  contradiction

end Sfinder
end SsuComputer
