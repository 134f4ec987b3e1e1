import SsuComputer.Lib.CString
import SsuComputer.Sdup.Structs

/-!
# SsuComputer.Sdup.Prompt

The prompt of `find.c` after a search: `option_d`, `option_i`, `option_ft` and one iteration of the
loop of `find_prompter`, for one input line and the answers typed after it.

* `none` is a run that C does not define: a null pointer is followed, `argv` is read where the line
  has no token (an older pointer stands there) or written behind its end, an answer is missing.
* The disk is whatever the calls of `Os` act on; `rename` may fail.
* A walk along a list keeps the nodes it has passed; `before_ptr` is the last of them.
* What is only printed is left out.
-/

namespace SsuComputer
namespace Sdup

structure Os (D : Type) where
  remove : CString → D → D
  rename : CString → CString → D → Option D

def maxArgv : Nat := 5

def trashCanPath : CString := "./.ssu_sdup_trash".toList

/-- A `long` stored in an `int`. -/
def toInt (n : Int) : Int := Int.bmod n 4294967296

/-! ## Walking to an index -/

/-- The loop of `get_list_in_set` and of `get_info_in_list`, with the rounds that are left. The
index may be the length: `*result_ptr` is null then. -/
def walk {α : Type} : Nat → List α → List α → Option (List α × List α)
  | 0, before, result => some (before, result)
  | _ + 1, _, [] => none
  | n + 1, before, cur :: next => walk n (before ++ [cur]) next

def getListInSet (head : List FileListSet) (setIndex : Int) :
    Option (List FileListSet × List FileListSet) :=
  walk setIndex.toNat [] head

def getInfoInList (list : List FileInfo) (listIndex : Int) :
    Option (List FileInfo × List FileInfo) :=
  walk listIndex.toNat [] list

/-! ## The options -/

/-- What an option returns: its `int`, the sets and the disk. -/
structure Reply (D : Type) where
  code : Int
  head : List FileListSet
  disk : D

section Options

variable {D : Type} (os : Os D)

def optionD (head : List FileListSet) (setIndex listIndex : Int) (disk : D) :
    Option (Reply D) :=
  match getListInSet head setIndex with
  | none => some ⟨-1, head, disk⟩
  | some (_, []) => none
  | some (before, set :: next) =>
    match getInfoInList set.list listIndex with
    | none => some ⟨-1, head, disk⟩
    | some (_, []) => none
    -- `before_ptr == NULL`: the node is unlinked, and that is all
    | some ([], _ :: rest) => some ⟨0, before ++ { set with list := rest } :: next, disk⟩
    | some (passed, info :: rest) =>
      some ⟨0, before ++ { set with list := passed ++ rest } :: next, os.remove info.path disk⟩

/-- `tolower(input[0]) == 'y'`. -/
def isYes (input : CString) : Bool := input.head?.map Char.toLower = some 'y'

/-- The loop of `option_i`: the nodes that were kept, those from `list_ptr` on, the answers to come.
With or without nodes in front of it, the node that is removed is unlinked the same way. -/
def askFrom : List FileInfo → List FileInfo → List CString → D → Option (List FileInfo × D)
  | before, [], _, disk => some (before, disk)
  | before, cur :: next, input :: answers, disk =>
    if isYes input then askFrom before next answers (os.remove cur.path disk)
    else askFrom (before ++ [cur]) next answers disk
  | _, _ :: _, [], _ => none

def optionI (head : List FileListSet) (setIndex : Int) (answers : List CString) (disk : D) :
    Option (Reply D) :=
  match getListInSet head setIndex with
  | none => some ⟨-1, head, disk⟩
  | some (_, []) => none
  | some (before, set :: next) =>
    (askFrom os [] set.list answers disk).map fun r =>
      ⟨0, before ++ { set with list := r.1 } :: next, r.2⟩

def extractName (string : CString) : CString :=
  match strrchr '/' string with
  | some (_, filename) => filename
  | none => string

def moveTrash (oldPath : CString) (disk : D) : D :=
  match os.rename oldPath (trashCanPath ++ '/' :: extractName oldPath) disk with
  | some disk => disk
  | none => os.remove oldPath disk

/-- The loop of `get_current_file`: the position and the node of `current_file`, the position of
`head`. -/
def currentFrom (current : Nat × FileInfo) : Nat → List FileInfo → Nat × FileInfo
  | _, [] => current
  | i, head :: next =>
    if strcmp current.2.mtime head.mtime < 0 then currentFrom (i, head) (i + 1) next
    else currentFrom current (i + 1) next

def getCurrentFile : List FileInfo → Option (Nat × FileInfo)
  | [] => none
  | head :: next => some (currentFrom (0, head) 0 (head :: next))

/-- The loop of `option_ft`. -/
def dropOthers (trashFlag : Bool) (current : Nat) (list : List FileInfo) (disk : D) : D :=
  list.zipIdx.foldl
    (fun disk x =>
      if x.2 = current then disk
      else if trashFlag then moveTrash os x.1.path disk
      else os.remove x.1.path disk)
    disk

def optionFt (head : List FileListSet) (setIndex : Int) (trashFlag : Bool) (disk : D) :
    Option (Reply D) :=
  match getListInSet head setIndex with
  | none => some ⟨-1, head, disk⟩
  | some (_, []) => none
  | some (before, result :: next) =>
    -- without a file `current_file` is null when its path is printed
    (getCurrentFile result.list).map fun current =>
      ⟨0, before ++ next, dropOthers os trashFlag current.1 result.list disk⟩

/-! ## The loop -/

def tokenization (string : CString) : List CString := (strtok ' ' string).take (maxArgv + 1)

inductive Command
  | exit
  | usage
  | d (setIndex listIndex : Int)
  | i (setIndex : Int)
  | f (setIndex : Int)
  | t (setIndex : Int)
  | other
deriving DecidableEq

/-- The command in a line as `fgets` returns it; its last character is cut off. -/
def readCommand (input : CString) : Option Command :=
  match tokenization input.dropLast with
  | [] => none
  | arg0 :: args =>
    if maxArgv < (arg0 :: args).length then none
    else if arg0 = ['e', 'x', 'i', 't'] then some .exit
    else
      match args with
      | [] => some .usage
      | arg1 :: args =>
        let setIndex := toInt (strtol arg0 - 1)
        match arg1.head? with
        | some 'd' => args.head?.map fun arg2 => .d setIndex (toInt (strtol arg2 - 1))
        | some 'i' => some (.i setIndex)
        | some 'f' => some (.f setIndex)
        | some 't' => some (.t setIndex)
        | _ => some .other

structure Prompt (D : Type) where
  head : List FileListSet
  disk : D
  ended : Bool

structure Input where
  line : CString
  answers : List CString

/-- What follows an option: `continue` after an error, else the small sets go. -/
def Prompt.reply (s : Prompt D) (r : Reply D) : Prompt D :=
  if r.code < 0 then { s with head := r.head, disk := r.disk }
  else { s with head := removeOnlyOneNode r.head, disk := r.disk }

/-- The branches on `argv`. -/
def dispatch (s : Prompt D) (answers : List CString) : Command → Option (Prompt D)
  | .exit => some { s with ended := true }
  | .usage => some s
  | .d setIndex listIndex => (optionD os s.head setIndex listIndex s.disk).map s.reply
  | .i setIndex => (optionI os s.head setIndex answers s.disk).map s.reply
  | .f setIndex => (optionFt os s.head setIndex false s.disk).map s.reply
  | .t setIndex => (optionFt os s.head setIndex true s.disk).map s.reply
  | .other => some { s with head := removeOnlyOneNode s.head }

/-- One iteration of the loop of `find_prompter`. -/
def findPrompter (s : Prompt D) (a : Input) : Option (Prompt D) :=
  if s.ended ∨ s.head = [] then some s
  else (readCommand a.line).bind (dispatch os s a.answers)

end Options

end Sdup
end SsuComputer
