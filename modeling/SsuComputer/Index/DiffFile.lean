import SsuComputer.Lib.CString
import SsuComputer.Lib.EditScript
import SsuComputer.Lib.Lcs
import SsuComputer.Lib.While

/-!
# SsuComputer.Index.DiffFile

`diff_file`, `print_file_diff` and their helpers, of `diff.c`.

* A file is its rows, counted from 1; row 0 and the rows behind the last are empty, as in the arrays.
* `option` is the bit set of the source: 0 for `q`, 1 for `s`, 2 for `i`, 4 for `l`.
* Marks are read through `Side.read`, which is `none` outside of the array.
* `below` stands for what lies in memory before the table, read when the traceback has no line of
  the first file left.
-/

namespace SsuComputer
namespace Index

def strBufferSize : Nat := 1024

/-! ## Reading a file -/

/-- The rows that the calls of `fgets` in `get_strings` leave, the last by the end of the file. -/
def getStringsFrom : CString → List Char → List CString
  | row, [] => [row]
  | row, c :: cs =>
    if c = '\n' ∨ row.length + 2 = strBufferSize then (row ++ [c]) :: getStringsFrom [] cs
    else getStringsFrom (row ++ [c]) cs

def getStrings (content : List Char) : List CString := getStringsFrom [] content

structure Side where
  str : Nat → CString
  len : Nat
  cmp : Nat → Bool

def Side.load (rows : List CString) : Side where
  str := fun k => if k = 0 then [] else rows.getD (k - 1) []
  len := rows.length
  cmp := fun _ => false

/-- `str[i][0] == '\n'`. -/
def Side.blank (f : Side) (i : Nat) : Bool := (f.str i).head? = some '\n'

def Side.read (f : Side) (i : Nat) : Option Bool := if i ≤ f.len then some (f.cmp i) else none

def Side.mark (f : Side) (i : Nat) (v : Bool) : Side := { f with cmp := Function.update f.cmp i v }

/-- `my_strcmp`. -/
def sameString (option : Nat) (a b : CString) : Bool :=
  if option.testBit 2 then strcaseEq a b else a = b

def sameRow (option : Nat) (f1 f2 : Side) (i j : Nat) : Bool :=
  sameString option (f1.str i) (f2.str j)

/-! ## The traceback -/

/-- The variables of the loop. `under` says that `i` is `-1`. -/
structure Trace where
  i : Nat
  under : Bool
  j : Nat
  f1 : Side
  f2 : Side
  blankFlag1 : Nat
  blankFlag2 : Nat

/-- The conditions of the first three rules for a pair of blank lines. -/
def Trace.keepsBlank (s : Trace) : Bool :=
  let before1 := decide (s.blankFlag1 < s.f1.len) && s.f1.cmp (s.blankFlag1 + 1)
  let before2 := decide (s.blankFlag2 < s.f2.len) && s.f2.cmp (s.blankFlag2 + 1)
  (before1 && before2) || (before1 && decide (s.j < s.f2.len) && s.f2.cmp (s.j + 1)) ||
    (decide (s.i < s.f1.len) && s.f1.cmp (s.i + 1) && before2)

/-- The two rows are set to `v`, and the loop goes on before them. -/
def Trace.both (s : Trace) (v : Bool) : Trace :=
  { s with
    f1 := s.f1.mark s.i v
    f2 := s.f2.mark s.j v
    i := s.i - 1
    j := s.j - 1 }

/-- Equal rows that are blank. -/
def Trace.bothBlank (s : Trace) : Trace :=
  let t :=
    if s.keepsBlank then s.both true
    else if s.f1.blank (s.i + 1) && s.f2.blank (s.j + 1) then
      { s with f1 := s.f1.mark (s.i + 1) true, f2 := s.f2.mark (s.j + 1) true }.both false
    else s.both false
  { t with blankFlag1 := t.i + 1, blankFlag2 := t.j + 1 }

def traceBody (below : Nat → Nat) (lcs : Nat → Nat → Nat) (s : Trace) : Option Trace :=
  let up := if s.i = 0 then below s.j else lcs (s.i - 1) s.j
  let left := lcs s.i (s.j - 1)
  if lcs s.i s.j = up then
    some { s with
      blankFlag1 := if s.f1.blank s.i then s.i else s.blankFlag1
      f1 := s.f1.mark s.i false
      under := s.i = 0
      i := s.i - 1 }
  else if lcs s.i s.j = left then
    some { s with
      blankFlag2 := if s.f2.blank s.j then s.j else s.blankFlag2
      f2 := s.f2.mark s.j false
      j := s.j - 1 }
  else if up = left then
    if s.f1.blank s.i then some s.bothBlank else some (s.both true)
  else some s

def traceback (fuel : Nat) (below : Nat → Nat) (lcs : Nat → Nat → Nat) (f1 f2 : Side) :
    Option (Side × Side) :=
  (whileLoop (fun s : Trace => decide (0 < s.j) && !s.under) (traceBody below lcs) fuel
    ⟨f1.len, false, f2.len, f1, f2, 0, 0⟩).map fun s => (s.f1, s.f2)

/-! ## Printing -/

def rowsFrom (f : Side) (option a b : Nat) : List CString :=
  if option.testBit 4 then [] else (List.range' a (b + 1 - a)).map f.str

def printAppend (f2 : Side) (option o1 n1 n2 : Nat) : Hunk CString :=
  ⟨.append, o1, o1, n1, n2, [], rowsFrom f2 option n1 n2⟩

def printDelete (f1 : Side) (option o1 o2 n1 : Nat) : Hunk CString :=
  ⟨.delete, o1, o2, n1, n1, rowsFrom f1 option o1 o2, []⟩

/-- `print_change`, which prints nothing when the blank lines at the ends leave no line. -/
def printChange (f1 f2 : Side) (option o1 o2 n1 n2 : Nat) : List (Hunk CString) :=
  let lead := if f1.blank o1 && f2.blank n1 then 1 else 0
  let trail := if f1.blank o2 && f2.blank n2 then 1 else 0
  let o1 := o1 + lead
  let n1 := n1 + lead
  -- the ends can become smaller than the starts, which are above 0 whenever an end is taken down
  let o2 := o2 - trail
  let n2 := n2 - trail
  if o1 > o2 ∨ n1 > n2 then []
  else [⟨.change, o1, o2, n1, n2, rowsFrom f1 option o1 o2, rowsFrom f2 option n1 n2⟩]

/-- `ff_until_1(f.cmp, s, f.len)`. -/
def ffUntil1 (f : Side) (s : Nat) : Option Nat :=
  whileLoop (fun s => decide (s ≤ f.len) && !f.cmp s) (fun s => some (s + 1)) (f.len + 1 - s) s

structure Print where
  i : Nat
  j : Nat
  stop : Bool
  out : List (Hunk CString)

/-- The last case of the loop: neither row is common. -/
def printNeither (f1 f2 : Side) (option : Nat) (s : Print) : Option Print :=
  let change : Option Print := do
    let i ← ffUntil1 f1 s.i
    let j ← ffUntil1 f2 s.j
    some { s with i := i, j := j, out := s.out ++ printChange f1 f2 option s.i (i - 1) s.j (j - 1) }
  if s.i = 0 ∧ s.j = 0 then do
    let origin ← f1.read (s.i + 1)
    let compare ← f2.read (s.j + 1)
    if compare && origin then some { s with i := s.i + 1, j := s.j + 1 }
    else if compare then do
      let i ← ffUntil1 f1 (s.i + 1)
      let hunk := printDelete f1 option (s.i + 1) (i - 1) s.j
      some { s with i := i, j := s.j + 1, out := s.out ++ [hunk] }
    else if origin then do
      let j ← ffUntil1 f2 (s.j + 1)
      let hunk := printAppend f2 option s.i (s.j + 1) (j - 1)
      some { s with i := s.i + 1, j := j, out := s.out ++ [hunk] }
    else change
  else change

def printBody (f1 f2 : Side) (option : Nat) (s : Print) : Option Print :=
  if s.i > f1.len ∧ s.j > f2.len then some { s with stop := true }
  else if s.i > f1.len then
    some { s with stop := true, out := s.out ++ [printAppend f2 option f1.len s.j f2.len] }
  else if s.j > f2.len then
    some { s with stop := true, out := s.out ++ [printDelete f1 option s.i f1.len f2.len] }
  else do
    let origin ← f1.read s.i
    let compare ← f2.read s.j
    if origin && compare then some { s with i := s.i + 1, j := s.j + 1 }
    else if origin then do
      let j ← ffUntil1 f2 s.j
      some { s with j := j, out := s.out ++ [printAppend f2 option (s.i - 1) s.j (j - 1)] }
    else if compare then do
      let i ← ffUntil1 f1 s.i
      some { s with i := i, out := s.out ++ [printDelete f1 option s.i i (s.j - 1)] }
    else printNeither f1 f2 option s

def printFileDiff (fuel : Nat) (f1 f2 : Side) (option : Nat) : Option (List (Hunk CString)) :=
  (whileLoop (fun s : Print => !s.stop) (printBody f1 f2 option) fuel ⟨0, 0, false, []⟩).map Print.out

/-! ## The whole -/

/-- What `diff_file` prints. -/
structure Report where
  hunks : List (Hunk CString)
  differ : Bool
  identical : Bool

def marks (f : Side) : Nat := ((List.range' 1 f.len).filter f.cmp).length

def diffFile (fuel : Nat) (below : Nat → Nat) (option : Nat) (content1 content2 : List Char) :
    Option Report := do
  let f1 := Side.load (getStrings content1)
  let f2 := Side.load (getStrings content2)
  let table := fillTable (lcsCell (sameRow option f1 f2)) f1.len f2.len
  let (f1, f2) ← traceback fuel below table f1 f2
  if !option.testBit 0 && !option.testBit 1 then
    let hunks ← printFileDiff fuel f1 f2 option
    some ⟨hunks, false, false⟩
  else
    let differ := decide (marks f1 + marks f2 ≠ f1.len + f2.len)
    some ⟨[], option.testBit 0 && differ, option.testBit 1 && differ⟩

end Index
end SsuComputer
