import SsuComputer.Lib.Strcmp
import SsuComputer.Lib.While

/-!
# SsuComputer.Sindex.Directory

`compare_directory` and `get_relpath` of `ssu_sindex.c`.

* A directory is what `scandir` returns for it, with the type that `lstat` gives and, for a
  directory, its own entries; no call fails.
* The text behind a path in memory is `behind`: `get_relpath` reads it when the path is that of the
  working directory.
* An event names the directories that are being compared besides what is printed or called.
-/

namespace SsuComputer
namespace Sindex

inductive Entry
  | dir (name : CString) (entries : List Entry)
  | reg (name : CString)
  | other (name : CString)

def Entry.name : Entry → CString
  | .dir name _ => name
  | .reg name => name
  | .other name => name

def isDot (name : CString) : Bool := strcmp name ['.'] = 0 || strcmp name ['.', '.'] = 0

structure Settings where
  rOption : Bool
  cwd : CString
  behind : CString

/-- `get_relpath`. -/
def getRelpath (c : Settings) (abspath : CString) : CString :=
  match strstr c.cwd abspath with
  | some _ => if c.cwd.length + 1 ≤ abspath.length then abspath.drop (c.cwd.length + 1) else c.behind
  | none => abspath

/-- `sprintf(pathname, "%s/%s", fname, d_name)`. -/
def pathname (fname name : CString) : CString := fname ++ '/' :: name

/-- What happens to a name that is in both directories. -/
inductive Action
  | compareDirectory (pathname1 pathname2 : CString)
  | commonSubdirectories (relpath1 relpath2 : CString)
  | directoryAndFile (relpath1 relpath2 : CString)
  | fileAndDirectory (relpath1 relpath2 : CString)
  | compareFile (pathname1 pathname2 : CString)

inductive Event
  | onlyIn (fname relpath name : CString)
  | common (fname1 fname2 name : CString) (action : Action)

/-! ## The loops -/

structure Merge where
  i : Nat
  j : Nat
  out : List Event

section Loops

variable (c : Settings) (call : CString → List Entry → CString → List Entry → Option (List Event))
  (fname1 : CString) (l1 : List Entry) (fname2 : CString) (l2 : List Entry)

/-- The branch for equal names. -/
def commonEntry (a b : Entry) : Option (List Event) :=
  let relpath1 := getRelpath c fname1
  let relpath2 := getRelpath c fname2
  let pathname1 := pathname fname1 a.name
  let pathname2 := pathname fname2 b.name
  match a, b with
  | .dir name entries1, .dir _ entries2 =>
    if c.rOption then
      (call pathname1 entries1 pathname2 entries2).map fun es =>
        .common fname1 fname2 name (.compareDirectory pathname1 pathname2) :: es
    else some [.common fname1 fname2 name (.commonSubdirectories relpath1 relpath2)]
  | .dir name _, .reg _ => some [.common fname1 fname2 name (.directoryAndFile relpath1 relpath2)]
  | .reg name, .dir _ _ => some [.common fname1 fname2 name (.fileAndDirectory relpath1 relpath2)]
  | a, _ => some [.common fname1 fname2 a.name (.compareFile pathname1 pathname2)]

def mergeBody (s : Merge) : Option Merge :=
  match l1[s.i]?, l2[s.j]? with
  | some a, some b =>
    if isDot a.name then some { s with i := s.i + 1 }
    else if isDot b.name then some { s with j := s.j + 1 }
    else if strcmp a.name b.name = 0 then
      (commonEntry c call fname1 fname2 a b).map fun es => ⟨s.i + 1, s.j + 1, s.out ++ es⟩
    else if strcmp a.name b.name < 0 then
      some { s with i := s.i + 1, out := s.out ++ [.onlyIn fname1 (getRelpath c fname1) a.name] }
    else if strcmp a.name b.name > 0 then
      some { s with j := s.j + 1, out := s.out ++ [.onlyIn fname2 (getRelpath c fname2) b.name] }
    else some s
  | _, _ => none

/-- `while (i < count[0]) { ... }`. -/
def restBody1 (s : Merge) : Option Merge :=
  (l1[s.i]?).map fun a =>
    if isDot a.name then { s with i := s.i + 1 }
    else { s with i := s.i + 1, out := s.out ++ [.onlyIn fname1 (getRelpath c fname1) a.name] }

/-- `while (j < count[1]) { ... }`. -/
def restBody2 (s : Merge) : Option Merge :=
  (l2[s.j]?).map fun b =>
    if isDot b.name then { s with j := s.j + 1 }
    else { s with j := s.j + 1, out := s.out ++ [.onlyIn fname2 (getRelpath c fname2) b.name] }

end Loops

def compareDirectory : Nat → Settings → CString → List Entry → CString → List Entry →
    Option (List Event)
  | 0, _, _, _, _, _ => none
  | fuel + 1, c, fname1, l1, fname2, l2 => do
    let s ← whileLoop (fun s : Merge => s.i < l1.length && s.j < l2.length)
      (mergeBody c (compareDirectory fuel c) fname1 l1 fname2 l2) fuel ⟨0, 0, []⟩
    let s ← whileLoop (fun s : Merge => s.i < l1.length) (restBody1 c fname1 l1) fuel s
    let s ← whileLoop (fun s : Merge => s.j < l2.length) (restBody2 c fname2 l2) fuel s
    some s.out

end Sindex
end SsuComputer
