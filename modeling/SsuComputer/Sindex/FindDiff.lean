import SsuComputer.Lib.CString
import SsuComputer.Lib.EditScript
import SsuComputer.Lib.Table
import SsuComputer.Lib.While

/-!
# SsuComputer.Sindex.FindDiff

`find_diff`, `find_diff_block` and `print_diff` of `ssu_sindex.c`.

* The arrays are functions of the index, lines counted from 1 as in the source.
* `print_diff` gives the hunks that it prints: a range printed as one number has both ends equal.
-/

namespace SsuComputer
namespace Sindex

def bufMax : Nat := 1024

structure Globals where
  iOption : Bool
  oLine : Nat
  nLine : Nat
  oContent : Nat → CString
  nContent : Nat → CString
  oCommon : Nat → Bool
  nCommon : Nat → Bool
  blockNum : Nat
  oBlock : Nat → Nat × Nat
  nBlock : Nat → Nat × Nat

/-- The comparison of two lines, `strcasecmp` or `strcmp`. -/
def Globals.same (g : Globals) (i j : Nat) : Bool :=
  if g.iOption then strcaseEq (g.oContent i) (g.nContent j) else g.oContent i = g.nContent j

def Globals.cell (g : Globals) (i j diag up left : Nat) : Nat :=
  if g.same i j then diag + 1 else if up ≥ left then up else left

/-! ## The traceback -/

structure Trace where
  i : Nat
  j : Nat
  oCommon : Nat → Bool
  nCommon : Nat → Bool

def traceBody (g : Globals) (arr : Nat → Nat → Nat) (s : Trace) : Option Trace :=
  if g.same s.i s.j then
    some ⟨s.i - 1, s.j - 1, Function.update s.oCommon s.i true, Function.update s.nCommon s.j true⟩
  else if arr (s.i - 1) s.j > arr s.i (s.j - 1) then some { s with i := s.i - 1 }
  else some { s with j := s.j - 1 }

/-! ## The common blocks -/

structure Scan where
  i : Nat
  j : Nat
  flag : Bool
  blockNum : Nat
  oBlock : Nat → Nat × Nat
  nBlock : Nat → Nat × Nat

/-- `if (!flag) { ... }`: a block starts at the lines `i` and `j`. -/
def Scan.start (s : Scan) : Scan :=
  if s.flag then s
  else
    let b := s.blockNum + 1
    { s with
      blockNum := b
      oBlock := Function.update s.oBlock b (s.i, (s.oBlock b).2)
      nBlock := Function.update s.nBlock b (s.j, (s.nBlock b).2)
      flag := true }

/-- `if (flag) { ... }`: the block ends before the lines `i` and `j`. -/
def Scan.stop (s : Scan) : Scan :=
  if s.flag then
    let b := s.blockNum
    { s with
      oBlock := Function.update s.oBlock b ((s.oBlock b).1, s.i - 1)
      nBlock := Function.update s.nBlock b ((s.nBlock b).1, s.j - 1)
      flag := false }
  else s

def scanBody (g : Globals) (s : Scan) : Option Scan :=
  if g.oCommon s.i && g.nCommon s.j then
    let s := s.start
    some { s with i := s.i + 1, j := s.j + 1 }
  else
    let s := s.stop
    if !g.oCommon s.i && !g.nCommon s.j then some { s with i := s.i + 1, j := s.j + 1 }
    else if g.oCommon s.i && !g.nCommon s.j then some { s with j := s.j + 1 }
    else if !g.oCommon s.i && g.nCommon s.j then some { s with i := s.i + 1 }
    else some s

def findDiffBlock (fuel : Nat) (g : Globals) : Option Globals :=
  let oTotalLine := g.oLine + 1
  let nTotalLine := g.nLine + 1
  (whileLoop (fun s : Scan => s.i ≤ oTotalLine && s.j ≤ nTotalLine) (scanBody g) fuel
    ⟨1, 1, false, 0, fun _ => (0, 0), fun _ => (0, 0)⟩).map fun s =>
      { g with
        blockNum := s.blockNum
        oBlock := Function.update s.oBlock (s.blockNum + 1) (oTotalLine, oTotalLine)
        nBlock := Function.update s.nBlock (s.blockNum + 1) (nTotalLine, nTotalLine) }

/-- `find_diff`: the globals after it, and whether it found a difference. -/
def findDiff (fuel : Nat) (g : Globals) : Option (Globals × Bool) :=
  let arr := fillTable g.cell g.oLine g.nLine
  (whileLoop (fun s : Trace => arr s.i s.j ≠ 0) (traceBody g arr) fuel
    ⟨g.oLine, g.nLine, fun _ => false, fun _ => false⟩).bind fun s =>
      let g := { g with oCommon := s.oCommon, nCommon := s.nCommon }
      if g.oLine = g.nLine ∧ g.oLine = arr g.oLine g.nLine then some (g, false)
      else (findDiffBlock fuel g).map fun g => (g, true)

/-! ## The printer -/

def lines (content : Nat → CString) (start stop : Nat) : List CString :=
  (List.range' (start + 1) (stop - (start + 1))).map content

/-- The body of the loop of `print_diff`: what lies between the ends of one common block and the
starts of the next. -/
def hunkBetween (g : Globals) (oStart oEnd nStart nEnd : Nat) : Option (Hunk CString) :=
  let flag : Option HunkKind :=
    if oEnd - oStart > 1 then if nEnd - nStart > 1 then some .change else some .delete
    else if nEnd - nStart > 1 then some .append
    else none
  flag.map fun flag =>
    let o1 := if flag = .append then oStart else oStart + 1
    let n1 := if flag = .delete then nStart else nStart + 1
    { kind := flag
      o1 := o1
      o2 := if oEnd - oStart > 2 then oEnd - 1 else o1
      n1 := n1
      n2 := if nEnd - nStart > 2 then nEnd - 1 else n1
      old := if flag = .append then [] else lines g.oContent oStart oEnd
      new := if flag = .delete then [] else lines g.nContent nStart nEnd }

def printDiff (g : Globals) : List (Hunk CString) :=
  (List.range (g.blockNum + 1)).filterMap fun i =>
    hunkBetween g (g.oBlock i).2 (g.oBlock (i + 1)).1 (g.nBlock i).2 (g.nBlock (i + 1)).1

/-- The end of `compare_file`, without `q_option`: the hunks it prints. -/
def compareFile (fuel : Nat) (g : Globals) : Option (List (Hunk CString)) :=
  (findDiff fuel g).map fun (g, isDiff) => if isDiff then printDiff g else []

end Sindex
end SsuComputer
