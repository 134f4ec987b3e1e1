import SsuComputer.Lib.Run
import SsuComputer.Sfinder.Names

/-!
# SsuComputer.Sfinder.DeletePrompt

`delete_prompt`, one iteration of its loop for one input line and the answers typed after it.

* `getopt` is a library: a command carries the options it delivers. Answers that are not there are
  the empty string, as the source clears its buffer before `fgets`.
* The disk is whatever the calls of `Os` act on. `strrchr(path, '/') + 1` is an arbitrary string
  (`Os.beyondNull`) for a path without a slash.
* What is only printed or logged is left out, except which error a command ends with.
* The time of the newest file has a result of `localtime`; `deletePromptTimed` is the iteration that
  follows a null pointer where it has none.
-/

namespace SsuComputer
namespace Sfinder

structure Os (D : Type) where
  remove : CString → D → D
  rename : CString → CString → D → Option D
  access : CString → D → Bool
  getDirlist : CString → D → List CString
  lstat : D → CString → Option Stat
  now : D → Int
  trashPath : CString
  beyondNull : CString

inductive Opt
  | l (optarg : Int)
  | d (optarg : Int)
  | i
  | f
  | t
  | other
deriving DecidableEq

inductive Input
  | exit
  | blank
  | cmd (argc : Nat) (opts : List Opt) (answers : List CString)

inductive PromptError
  | usage
  | setIdxMissing
  | setIdxRange
  | listIdxMissing
  | listIdxRange
  | badAnswer
  | trashFailed
deriving DecidableEq

def PromptError.text : PromptError → String
  | .usage => "ERROR: >> [CMD] -l [SET_IDX] [OPTIONS...] \n"
  | .setIdxMissing => "ERROR: [SET_INDEX] should be a number\n"
  | .setIdxRange => "ERROR: [SET_INDEX] out of range\n"
  | .listIdxMissing => "ERROR: There should be an index\n"
  | .listIdxRange => "ERROR: [LIST_IDX] out of range\n"
  | .badAnswer => "ERROR: Answer should be 'y/Y' or 'n/N'\n"
  | .trashFailed => "ERROR: Fail to move duplicates to Trash\n"

structure Prompt (D : Type) where
  dups : DupsList
  trash : InfoList
  lastFilepath : CString
  disk : D
  /-- The error that the last command printed. -/
  error : Option PromptError
  /-- The loop was left, by `exit` or with the program. -/
  ended : Bool

/-! ## The options -/

structure Flags where
  l : Bool
  d : Bool
  i : Bool
  f : Bool
  t : Bool
  setIdx : Int
  listIdx : Int

def Flags.zeroed : Flags := ⟨false, false, false, false, false, 0, 0⟩

def Flags.add (fl : Flags) : Opt → Flags
  | .l optarg => { fl with l := true, setIdx := optarg }
  | .d optarg => { fl with d := true, listIdx := optarg }
  | .i => { fl with i := true }
  | .f => { fl with f := true }
  | .t => { fl with t := true }
  | .other => fl

def Flags.parse (opts : List Opt) : Flags := opts.foldl Flags.add Flags.zeroed

/-! ## The commands -/

/-- `get_recent_mtime`: the time returned and the path left in the buffer. -/
def getRecentMtime (files : List FileInfo) (lastFilepath : CString) : Int × CString :=
  files.foldl
    (fun r x => if r.1 < x.statbuf.mtime then (x.statbuf.mtime, x.path) else r) (0, lastFilepath)

section Model

variable {D : Type} (os : Os D)

def Prompt.failed (s : Prompt D) (e : PromptError) : Prompt D := { s with error := some e }

def Prompt.setFiles (s : Prompt D) (k : Nat) (files : List FileInfo) : Prompt D :=
  { s with dups := { s.dups with chain := s.dups.chain.modify k fun g =>
      { g with fileInfoList := { g.fileInfoList with chain := files } } } }

/-- `filelist_delete_node(dups_list_h, target_filelist_p->hash)`. -/
def Prompt.deleteSet (s : Prompt D) (hash : CString) : Option (Prompt D) :=
  (filelistDeleteNode hash s.dups.chain).map fun chain =>
    { s with dups := { s.dups with chain := chain } }

def Prompt.deleteIfSmall (s : Prompt D) (files : List FileInfo) (hash : CString) :
    Option (Prompt D) :=
  if files.length < 2 then s.deleteSet hash else some s

/-- The loop of option f. -/
def removeOthers (lastFilepath : CString) (files : List FileInfo) (disk : D) : D :=
  files.foldl (fun d x => if x.path = lastFilepath then d else os.remove x.path d) disk

def forceCommand (target : FileList) (s : Prompt D) : Option (Prompt D) :=
  Prompt.deleteSet { s with disk := removeOthers os s.lastFilepath target.files s.disk } target.hash

def baseName (path : CString) : CString :=
  match strrchr '/' path with
  | some (_, after) => after
  | none => os.beyondNull

/-- The path a file is moved to. A new name is written over the old one without a terminator. -/
def moveToTrash (path : CString) (disk : D) : CString :=
  let target := os.trashPath ++ baseName os path
  if os.access target disk then
    let filename := getNewFileName (os.getDirlist os.trashPath disk) path
    match strrchr '/' target with
    | some (dir, name) => dir ++ '/' :: filename ++ name.drop filename.length
    | none => os.beyondNull
  else target

/-- The loop of option t: the trash list, the disk, and whether every `rename` worked. -/
def trashOthers (lastFilepath : CString) : List FileInfo → InfoList → D → InfoList × D × Bool
  | [], trash, disk => (trash, disk, true)
  | x :: xs, trash, disk =>
    if x.path = lastFilepath then trashOthers lastFilepath xs trash disk
    else
      match os.rename x.path (moveToTrash os x.path disk) disk with
      | none => (trash, disk, false)
      | some disk =>
        trashOthers lastFilepath xs
          (fileinfoAppend (os.lstat disk) (some (os.now disk)) trash x.path) disk

def trashCommand (target : FileList) (s : Prompt D) : Option (Prompt D) :=
  match trashOthers os s.lastFilepath target.files s.trash s.disk with
  | (trash, disk, true) =>
    Prompt.deleteSet { s with trash := trash, disk := disk } target.hash
  | (trash, disk, false) =>
    some { s with trash := trash, disk := disk, error := some .trashFailed, ended := true }

def isYes (ans : CString) : Bool := ans = ['y', '\n'] || ans = ['Y', '\n']

def isNo (ans : CString) : Bool := ans = ['n', '\n'] || ans = ['N', '\n']

/-- The loop of option i: `listcnt` rounds at most, the cursor, the chain it stands in, the answers
to come. The result is the chain, the disk, and whether every answer was one. -/
def askLoop : Nat → List FileInfo → List FileInfo → List CString → D →
    Option (List FileInfo × D × Bool)
  | 0, _, chain, _, disk => some (chain, disk, true)
  | _ + 1, [], chain, _, disk => some (chain, disk, true)
  | listcnt + 1, cur :: rest, chain, answers, disk =>
    let ans := answers.headD []
    if isYes ans then
      (fileinfoDeleteNode cur.path chain).bind fun r =>
        askLoop listcnt r.2 r.1 answers.tail (os.remove cur.path disk)
    else if isNo ans then askLoop listcnt rest chain answers.tail disk
    else some (chain, disk, false)

def askCommand (k : Nat) (target : FileList) (answers : List CString) (s : Prompt D) :
    Option (Prompt D) :=
  (askLoop os (fileinfolistSize target.fileInfoList) target.files target.files answers s.disk).bind
    fun (files, disk, ok) =>
      Prompt.deleteIfSmall
        (Prompt.setFiles
          { s with disk := disk, error := if ok then none else some .badAnswer } k files)
        files target.hash

def deleteIndexCommand (k : Nat) (target : FileList) (listIdx : Int) (s : Prompt D) :
    Option (Prompt D) :=
  if listIdx = 0 then some (s.failed .listIdxMissing)
  else if listIdx < 0 ∨ listIdx > fileinfolistSize target.fileInfoList then
    some (s.failed .listIdxRange)
  else
    (target.files[(listIdx - 1).toNat]?).bind fun deleted =>
      (fileinfoDeleteNode deleted.path target.files).bind fun r =>
        Prompt.deleteIfSmall
          (Prompt.setFiles { s with disk := os.remove deleted.path s.disk } k r.1) r.1 target.hash

/-- The branches on the flags, with the set found. -/
def chooseCommand (k : Nat) (target : FileList) (fl : Flags) (answers : List CString)
    (s : Prompt D) : Option (Prompt D) :=
  if fl.f then forceCommand os target s
  else if fl.t then trashCommand os target s
  else if fl.i then askCommand os k target answers s
  else if fl.d then deleteIndexCommand os k target fl.listIdx s
  else some s

def deleteCommand (s : Prompt D) (fl : Flags) (answers : List CString) : Option (Prompt D) :=
  if fl.l = false then some (s.failed .setIdxMissing)
  else if fl.setIdx < 1 ∨ fl.setIdx > filelistSize s.dups then some (s.failed .setIdxRange)
  else
    let k := (fl.setIdx - 1).toNat
    (s.dups.chain[k]?).bind fun target =>
      chooseCommand os k target fl answers
        { s with lastFilepath := (getRecentMtime target.files s.lastFilepath).2 }

/-- One iteration of the loop of `delete_prompt`. -/
def deletePrompt (s : Prompt D) (input : Input) : Option (Prompt D) :=
  if s.ended ∨ filelistSize s.dups = 0 then some s
  else
    match input with
    | .exit => some { s with error := none, ended := true }
    | .blank => some { s with error := none }
    | .cmd argc opts answers =>
      if argc < 3 then some (s.failed .usage)
      else deleteCommand os { s with error := none } (Flags.parse opts) answers

end Model

/-- The prompt as it is entered. -/
def Prompt.start {D : Type} (dups : DupsList) (lastFilepath : CString) (disk : D) : Prompt D :=
  ⟨dups, InfoList.zeroed, lastFilepath, disk, none, false⟩

end Sfinder
end SsuComputer
