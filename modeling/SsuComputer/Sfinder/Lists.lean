import SsuComputer.Lib.CString
import Mathlib.Data.List.Basic

/-!
# SsuComputer.Sfinder.Lists

The two-level linked list of `ssu_sfinder.h` and its routines. A list is a dummy head node and the
chain of nodes after it; `fileInfo` and `fileList` keep the head's own fields, which some routines
read.

Where the source dereferences a null pointer, frees an unset one, or falls off a function that must
return a value, the model gives `none`.
-/

namespace SsuComputer
namespace Sfinder

structure Stat where
  size : Int
  uid : Nat
  gid : Nat
  mode : Nat
  mtime : Int
deriving DecidableEq

def Stat.zero : Stat := ⟨0, 0, 0, 0, 0⟩

structure FileInfo where
  path : CString
  statbuf : Stat
deriving DecidableEq

/-- A `fileInfo` list: the dummy head node and the chain after it. -/
structure InfoList where
  head : FileInfo
  chain : List FileInfo
deriving DecidableEq

/-- A `fileList` node. -/
structure FileList where
  filesize : Int
  hash : CString
  fileInfoList : InfoList
deriving DecidableEq

/-- `dups_list_h`: the dummy head node and the chain after it. -/
structure DupsList where
  head : FileList
  chain : List FileList
deriving DecidableEq

def FileInfo.zeroed : FileInfo := ⟨[], Stat.zero⟩

def InfoList.zeroed : InfoList := ⟨FileInfo.zeroed, []⟩

def FileList.zeroed : FileList := ⟨0, [], InfoList.zeroed⟩

def DupsList.zeroed : DupsList := ⟨FileList.zeroed, []⟩

def FileList.files (g : FileList) : List FileInfo := g.fileInfoList.chain

def FileList.paths (g : FileList) : List CString := g.files.map FileInfo.path

/-- `fileinfo_append`. A failed `lstat` leaves the zeroed buffer; in the trash list the time of
modification is replaced by the time of deletion. -/
def fileinfoAppend (lstat : CString → Option Stat) (trashTime : Option Int) (l : InfoList)
    (path : CString) : InfoList :=
  let st := (lstat path).getD Stat.zero
  let st := match trashTime with
    | some now => { st with mtime := now }
    | none => st
  { l with chain := l.chain ++ [⟨path, st⟩] }

/-- `fileinfo_delete_node` on the chain: the chain without the first node of that path, and the
chain from the node after it. -/
def fileinfoDeleteNode (path : CString) : List FileInfo → Option (List FileInfo × List FileInfo)
  | [] => none
  | x :: xs =>
    if x.path = path then some (xs, xs)
    else (fileinfoDeleteNode path xs).map fun r => (x :: r.1, r.2)

def fileinfolistSize (l : InfoList) : Nat := l.chain.length

/-- The walk of `filelist_append`: past the nodes that are smaller. -/
def insertBySize (new : FileList) : List FileList → List FileList
  | [] => [new]
  | x :: xs => if x.filesize < new.filesize then x :: insertBySize new xs else new :: x :: xs

def filelistAppend (lstat : CString → Option Stat) (l : DupsList) (filesize : Int)
    (path hash : CString) : DupsList :=
  let new : FileList := ⟨filesize, hash, fileinfoAppend lstat none InfoList.zeroed path⟩
  { l with chain := insertBySize new l.chain }

/-- `filelist_delete_node` on the chain: the first node of that hash goes. -/
def filelistDeleteNode (hash : CString) : List FileList → Option (List FileList)
  | [] => none
  | x :: xs => if x.hash = hash then some xs else (filelistDeleteNode hash xs).map (x :: ·)

def filelistSize (l : DupsList) : Nat := l.chain.length

def searchFrom (hash : CString) : List FileList → Nat → Nat
  | [], _ => 0
  | x :: xs, idx => if x.hash = hash then idx else searchFrom hash xs (idx + 1)

/-- `filelist_search`: the position of the hash, the head being position 0; 0 as well when it is
not there. -/
def filelistSearch (l : DupsList) (hash : CString) : Nat := searchFrom hash (l.head :: l.chain) 0

/-! ## What the routines do -/

theorem modify_length {α : Type} (f : α → α) (pre : List α) (g : α) (post : List α) :
    (pre ++ g :: post).modify pre.length f = pre ++ f g :: post := by
  induction pre with
  | nil => rfl
  | cons x pre ih => exact congrArg (x :: ·) ih

@[simp] theorem fileinfoAppend_paths (lstat : CString → Option Stat) (now : Option Int)
    (l : InfoList) (path : CString) :
    (fileinfoAppend lstat now l path).chain.map FileInfo.path =
      l.chain.map FileInfo.path ++ [path] := by
  simp [fileinfoAppend]

theorem insertBySize_perm (new : FileList) (l : List FileList) :
    (insertBySize new l).Perm (new :: l) := by
  induction l with
  | nil => exact .refl _
  | cons x xs ih =>
    simp only [insertBySize]
    split
    · exact (ih.cons x).trans (.swap new x xs)
    · exact .refl _

def SizeSorted (l : List FileList) : Prop := l.Pairwise fun a b => a.filesize ≤ b.filesize

theorem insertBySize_sorted (new : FileList) {l : List FileList} (h : SizeSorted l) :
    SizeSorted (insertBySize new l) := by
  induction l with
  | nil => exact List.pairwise_singleton _ _
  | cons x xs ih =>
    obtain ⟨hx, hxs⟩ := List.pairwise_cons.mp h
    simp only [insertBySize]
    split
    · rename_i hlt
      refine List.pairwise_cons.mpr ⟨fun y hy => ?_, ih hxs⟩
      rcases List.mem_cons.mp ((insertBySize_perm new xs).mem_iff.mp hy) with rfl | hy
      · omega
      · exact hx y hy
    · rename_i hge
      refine List.pairwise_cons.mpr ⟨fun y hy => ?_, h⟩
      rcases List.mem_cons.mp hy with rfl | hy
      · omega
      · have := hx y hy; omega

/-- With distinct hashes, the node deleted is the node meant. -/
theorem filelistDeleteNode_split {pre post : List FileList} {g : FileList}
    (h : ((pre ++ g :: post).map FileList.hash).Nodup) :
    filelistDeleteNode g.hash (pre ++ g :: post) = some (pre ++ post) := by
  induction pre with
  | nil => simp [filelistDeleteNode]
  | cons x pre ih =>
    simp only [List.cons_append, List.map_cons, List.nodup_cons] at h
    have hne : x.hash ≠ g.hash := fun he => h.1 (by simp [he])
    simp [filelistDeleteNode, hne, ih h.2]

theorem fileinfoDeleteNode_split {pre post : List FileInfo} {x : FileInfo}
    (h : ((pre ++ x :: post).map FileInfo.path).Nodup) :
    fileinfoDeleteNode x.path (pre ++ x :: post) = some (pre ++ post, post) := by
  induction pre with
  | nil => simp [fileinfoDeleteNode]
  | cons y pre ih =>
    simp only [List.cons_append, List.map_cons, List.nodup_cons] at h
    have hne : y.path ≠ x.path := fun he => h.1 (by simp [he])
    simp [fileinfoDeleteNode, hne, ih h.2]

theorem searchFrom_cases (hash : CString) (l : List FileList) (k : Nat) :
    (hash ∉ l.map FileList.hash ∧ searchFrom hash l (k + 1) = 0) ∨
      ∃ pre g post, l = pre ++ g :: post ∧ g.hash = hash ∧
        searchFrom hash l (k + 1) = k + 1 + pre.length := by
  induction l generalizing k with
  | nil => exact .inl ⟨by simp, rfl⟩
  | cons x xs ih =>
    by_cases hx : x.hash = hash
    · exact .inr ⟨[], x, xs, rfl, hx, by simp [searchFrom, hx]⟩
    · rcases ih (k + 1) with ⟨hnot, h0⟩ | ⟨pre, g, post, rfl, hg, hidx⟩
      · exact .inl ⟨by simpa [Ne.symm hx] using hnot, by simpa [searchFrom, hx] using h0⟩
      · refine .inr ⟨x :: pre, g, post, rfl, hg, ?_⟩
        simp only [searchFrom, hx, if_false, hidx, List.length_cons]
        omega

/-- The answer 0 means the hash is new, any other answer the position of a node with that hash,
when the hash is not that of the head. -/
theorem filelistSearch_cases {l : DupsList} {hash : CString} (hh : l.head.hash ≠ hash) :
    (hash ∉ l.chain.map FileList.hash ∧ filelistSearch l hash = 0) ∨
      ∃ pre g post, l.chain = pre ++ g :: post ∧ g.hash = hash ∧
        filelistSearch l hash = pre.length + 1 := by
  have := searchFrom_cases hash l.chain 0
  simpa [filelistSearch, searchFrom, hh, Nat.add_comm] using this

end Sfinder
end SsuComputer
