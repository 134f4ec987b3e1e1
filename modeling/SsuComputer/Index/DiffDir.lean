import SsuComputer.Lib.Lcs
import SsuComputer.Lib.While
import SsuComputer.Index.FindFiles

/-!
# SsuComputer.Index.DiffDir

`diff_dir` of `diff.c`.

* A directory is the list of names that `scandir` returns for it.
* An index out of bounds gives `none`, and so does a loop that runs out of fuel.
* A call of `diff_file` is an event, like the lines printed.
-/

namespace SsuComputer
namespace Index

inductive Which
  | first
  | second
deriving DecidableEq

inductive DirEvent
  | diffFile (name1 name2 : CString)
  | onlyIn (d : Which) (name : CString)
deriving DecidableEq

structure DirTrace where
  i : Nat
  j : Nat
  cmp1 : Nat → Bool
  cmp2 : Nat → Bool

def dirTraceBody (lcs : Nat → Nat → Nat) (s : DirTrace) : Option DirTrace :=
  if s.i = 0 then none
  else if lcs s.i s.j = lcs (s.i - 1) s.j then
    some { s with cmp1 := Function.update s.cmp1 s.i false, i := s.i - 1 }
  else if lcs s.i s.j = lcs s.i (s.j - 1) then
    some { s with cmp2 := Function.update s.cmp2 s.j false, j := s.j - 1 }
  else if lcs (s.i - 1) s.j = lcs s.i (s.j - 1) then
    some ⟨s.i - 1, s.j - 1, Function.update s.cmp1 s.i true, Function.update s.cmp2 s.j true⟩
  else some s

/-- `while (!cmp[i++]) printf(..., namelist[i]->d_name)`: the index after it and the names. -/
def passUnmarked (cmp : Nat → Bool) (namelist : List CString) : Nat → Nat → Option (Nat × List CString)
  | 0, _ => none
  | fuel + 1, i =>
    if i > namelist.length then none
    else if cmp i then some (i + 1, [])
    else do
      let name ← namelist[i + 1]?
      let (stop, names) ← passUnmarked cmp namelist fuel (i + 1)
      some (stop, name :: names)

structure DirOutput where
  i : Nat
  j : Nat
  stop : Bool
  out : List DirEvent

def dirOutputBody (cmp1 cmp2 : Nat → Bool) (namelist1 namelist2 : List CString) (s : DirOutput) :
    Option DirOutput :=
  if s.i ≥ namelist1.length ∧ s.j ≥ namelist2.length then some { s with stop := true }
  else do
    let name1 ← namelist1[s.i]?
    let name2 ← namelist2[s.j]?
    if s.i ≥ namelist1.length then
      some { s with stop := true, out := s.out ++ (namelist2.drop s.j).map (.onlyIn .second) }
    else if s.j ≥ namelist2.length then
      some { s with stop := true, out := s.out ++ (namelist1.drop s.i).map (.onlyIn .first) }
    else if isDotName name1 then some { s with i := s.i + 1 }
    else if isDotName name2 then some { s with j := s.j + 1 }
    else if cmp1 s.i && cmp2 s.j then
      some { s with i := s.i + 1, j := s.j + 1, out := s.out ++ [.diffFile name1 name2] }
    else if cmp1 s.i then some { s with j := s.j + 1, out := s.out ++ [.onlyIn .second name2] }
    else if cmp2 s.j then some { s with i := s.i + 1, out := s.out ++ [.onlyIn .first name1] }
    else do
      let (i, names1) ← passUnmarked cmp1 namelist1 (namelist1.length + 2) s.i
      let (j, names2) ← passUnmarked cmp2 namelist2 (namelist2.length + 2) s.j
      some { s with
        i := i
        j := j
        out := s.out ++ names1.map (.onlyIn .first) ++ names2.map (.onlyIn .second) }

end Index
end SsuComputer
