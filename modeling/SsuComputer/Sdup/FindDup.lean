import SsuComputer.Lib.Paths
import SsuComputer.Lib.While
import SsuComputer.Sdup.FileSets

/-!
# SsuComputer.Sdup.FindDup

The search of `find_dup`: a queue of directories, and the files that go to
`insert_myFileListLinkedList`, in order.

* What the system answers is a parameter (`Calls`); a call that fails gives `none`, and the entry
  or directory is left out with a message.
* `find_command` passes the absolute path of the target and the part of the pattern behind its last
  dot.
-/

namespace SsuComputer
namespace Sdup

inductive FileKind
  | dir
  | reg
  | other
deriving DecidableEq

structure Stat where
  kind : FileKind
  size : Nat
  mtime : CString
deriving DecidableEq

structure Calls where
  scandir : CString → Option (List CString)
  stat : CString → Option Stat
  /-- `fopen`, and `file_hasher` of what is in the file. -/
  hash : CString → Option CString

structure Search where
  fileExtension : Option CString
  minSize : Int
  maxSize : Int

def parseFileExtension (fileName : CString) : Option CString := (strrchr '.' fileName).map Prod.snd

/-- The extension that `find_command` passes for a pattern; `none` is an error. -/
def commandExtension (pattern : CString) : Option (Option CString) :=
  if pattern.head? ≠ some '*' then none
  else if pattern.length ≠ 1 then (parseFileExtension pattern).map some
  else some none

def isDotName (name : CString) : Bool := name = ['.'] || name = ['.', '.']

/-- A name of an entry other than the two that every directory has. -/
structure LegalName (name : CString) : Prop extends Component name where
  not_dot : isDotName name = false

def excludedDirs : List CString :=
  [['/', 'p', 'r', 'o', 'c'], ['/', 'r', 'u', 'n'], ['/', 's', 'y', 's']]

structure DirSearch where
  queue : List DirNode
  found : List Insertion

/-- True of a queue with a node. -/
def isMyDirQueueEmpty (head : List DirNode) : Bool := !head.isEmpty

def Search.skipsExtension (s : Search) (filePath : CString) : Bool :=
  match s.fileExtension with
  | none => false
  | some ext => parseFileExtension filePath ≠ some ext

/-- The body of the loop over the entries of `work`. -/
def visitName (c : Calls) (s : Search) (work : DirNode) (st : DirSearch) (name : CString) :
    DirSearch :=
  if isDotName name then st
  else
    let filePath := work.dirPath ++ '/' :: name
    match c.stat filePath with
    | none => st
    | some buf =>
      match buf.kind with
      | .dir => { st with queue := enqueueMyDirQueue st.queue ⟨filePath, work.depth + 1⟩ }
      | .other => st
      | .reg =>
        if buf.size = 0 then st
        else if s.skipsExtension filePath then st
        else if (buf.size : Int) ≥ s.minSize ∧ (buf.size : Int) ≤ s.maxSize then
          match c.hash filePath with
          | none => st
          | some digest =>
            { st with found := st.found ++ [⟨⟨filePath, work.depth, buf.mtime⟩, buf.size, digest⟩] }
        else st

def findDupBody (c : Calls) (s : Search) (st : DirSearch) : Option DirSearch :=
  (popFrontMyDirQueue st.queue).map fun (work, queue) =>
    let st := { st with queue := queue }
    if work.dirPath ∈ excludedDirs then st
    else
      match c.scandir work.dirPath with
      | none => st
      | some names => names.foldl (visitName c s work) st

/-- `find_dup` up to the insertions; `none` is a search that needs more fuel. -/
def findDup (c : Calls) (s : Search) (fuel : Nat) (targetDir : CString) : Option (List Insertion) :=
  (whileLoop (fun st : DirSearch => isMyDirQueueEmpty st.queue) (findDupBody c s) fuel
    ⟨[⟨targetDir, 0⟩], []⟩).map DirSearch.found

end Sdup
end SsuComputer
