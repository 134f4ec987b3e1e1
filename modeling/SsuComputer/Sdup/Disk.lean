import Mathlib.Data.List.Sort
import SsuComputer.Lib.FileSystem
import SsuComputer.Sdup.FindDup
import SsuComputer.Sdup.Prompt

/-!
# SsuComputer.Sdup.Disk

A file system with links under the calls that `find.c` makes.

* Paths are absolute, as `find_dup` builds them from the target; `stat`, `scandir` and `fopen`
  follow links, 40 at most, and `remove` acts on the entry itself.
* The size and the times of a directory are not read by the search.
-/

namespace SsuComputer
namespace Sdup

structure Inode where
  regular : Bool
  content : CString
  mtime : CString

structure Disk where
  fs : FileSystem CString
  inode : Nat → Inode
  legal : ∀ x ∈ fs.entries, LegalName x.1.2

def maxSymlinks : Nat := 40

def pathStep (name : CString) : PathStep CString :=
  if name = ['.'] then .here else if name = ['.', '.'] then .up else .name name

/-- A slash at the end asks for a directory. -/
def pathSteps (path : CString) : List (PathStep CString) :=
  (components path).map pathStep ++ if path.getLast? = some '/' then [.here] else []

namespace Disk

variable (k : Disk)

def resolve (path : CString) : Option (Resolved CString) :=
  k.fs.resolve false maxSymlinks k.fs.root (pathSteps path)

def entryAt (path : CString) : Option (Nat × CString) := k.fs.entryAt maxSymlinks (pathSteps path)

def scandir (path : CString) : Option (List CString) :=
  (k.resolve path).bind fun r =>
    match r.object with
    | .dir d =>
      some ((['.'] :: ['.', '.'] :: k.fs.names d).insertionSort fun a b => strcmp a b ≤ 0)
    | _ => none

def stat (path : CString) : Option Stat :=
  (k.resolve path).bind fun r =>
    match r.object with
    | .file i =>
      let node := k.inode i
      some ⟨if node.regular then .reg else .other, node.content.length, node.mtime⟩
    | .dir _ => some ⟨.dir, 0, []⟩
    | .entry _ => none

/-- What is in the regular file that a path leads to. -/
def contentOf (path : CString) : Option CString :=
  (k.resolve path).bind fun r =>
    match r.object with
    | .file i => if (k.inode i).regular then some (k.inode i).content else none
    | _ => none

def calls (digest : CString → CString) : Calls where
  scandir := k.scandir
  stat := k.stat
  hash path := (k.contentOf path).map digest

def remove (path : CString) : Disk :=
  { k with
    fs := k.fs.unlink maxSymlinks (pathSteps path)
    legal := fun x hx => k.legal x (FileSystem.mem_unlink hx) }

end Disk

def diskOs (rename : CString → CString → Disk → Option Disk) : Os Disk where
  remove path k := k.remove path
  rename := rename

end Sdup
end SsuComputer
