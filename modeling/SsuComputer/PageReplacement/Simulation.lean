import Mathlib.Data.List.Dedup

/-!
# SsuComputer.PageReplacement.Simulation

`pagereplacement.c`: the frames as an array of `PageStream` entries and the loop over the
reference string.

* A page number is an `unsigned char`; number 0 marks an empty frame. The load time `history` is
  the loop counter.
* `Mode` stands for the bit mask of which `is_mode` tests one bit.
* A write through `frame + replace_index` outside the array has no meaning in C: the run stops
  there with the indexes returned so far.
* What is only printed is left out.
-/

namespace SsuComputer
namespace PageReplacement

inductive Mode
  | FIFO
  | LIFO
deriving Repr, DecidableEq

structure PageStream where
  number : UInt8
  history : Nat
deriving Repr, DecidableEq

abbrev Frame := List PageStream

def findPageNumber (page : UInt8) (frame : Frame) : Int :=
  match frame.findIdx? fun cur => cur.number == page with
  | some i => i
  | none => -1

/-- The two loops of `find_replace_index` from index `i` on, with the comparison as a parameter. -/
def searchFrom (better : PageStream → PageStream → Bool) :
    Frame → Nat → Int → PageStream → Int
  | [], _, res, _ => res
  | cur :: rest, i, res, resFrame =>
    if better cur resFrame then searchFrom better rest (i + 1) i cur
    else searchFrom better rest (i + 1) res resFrame

def better : Mode → PageStream → PageStream → Bool
  | .FIFO, cur, resFrame => cur.history < resFrame.history
  | .LIFO, cur, resFrame => cur.history > resFrame.history

def findReplaceIndex (mode : Mode) (frame : Frame) : Int :=
  let res := findPageNumber 0 frame
  if res > 0 then res
  else
    match frame with
    | [] => res
    -- `res` is not put back to 0 here: it is still what `find_page_number` returned
    | resFrame :: rest => searchFrom (better mode) rest 1 res resFrame

/-- `frame_cur = frame + index`, then the page is copied and its history set. -/
def write (frame : Frame) (index : Int) (cur : PageStream) : Option Frame :=
  if 0 ≤ index ∧ index < frame.length then some (frame.set index.toNat cur) else none

structure State where
  frame : Frame
  pagefault : Nat
  /-- What `find_replace_index` has returned so far. -/
  indexes : List Int
deriving Repr, DecidableEq

/-- A run that writes outside the frames stops with the indexes returned up to there. -/
abbrev Result := Except (List Int)

def reference (mode : Mode) (s : State) (i : Nat) (psCur : PageStream) : Result State :=
  if findPageNumber psCur.number s.frame < 0 then
    let replaceIndex := findReplaceIndex mode s.frame
    match write s.frame replaceIndex ⟨psCur.number, i⟩ with
    | some frame => .ok ⟨frame, s.pagefault + 1, s.indexes ++ [replaceIndex]⟩
    | none => .error (s.indexes ++ [replaceIndex])
  else .ok s

def references (mode : Mode) : List PageStream → Nat → State → Result State
  | [], _, s => .ok s
  | psCur :: ps, i, s =>
    match reference mode s i psCur with
    | .ok s' => references mode ps (i + 1) s'
    | .error indexes => .error indexes

def fifoLifo (mode : Mode) (ps : List PageStream) (frameNum : Nat) : Result State :=
  references mode ps 0 ⟨List.replicate frameNum ⟨0, 0⟩, 0, []⟩

def fifoSimulation (ps : List PageStream) (frameNum : Nat) : Result State :=
  fifoLifo .FIFO ps frameNum

def lifoSimulation (ps : List PageStream) (frameNum : Nat) : Result State :=
  fifoLifo .LIFO ps frameNum

end PageReplacement
end SsuComputer
