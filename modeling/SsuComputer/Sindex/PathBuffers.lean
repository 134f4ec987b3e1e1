import SsuComputer.Sindex.DirectoryExact
import SsuComputer.Sindex.ReadDirectory

/-!
# SsuComputer.Sindex.PathBuffers

`compare_directory` with the arrays `pathname[2][PATHMAX]` that it writes the paths to.

* `mergeBodyInBuffers`, `compareDirectoryInBuffers` — `none` is a write behind the end of an array.
* `PathsFit` — every path of a tree is shorter than the arrays.
* `compareDirectoryInBuffers_eq` — where the paths fit, the arrays make no difference.
* `compareDirectoryInBuffers_overflow` — and the first two names that do not fit are written.
-/

namespace SsuComputer
namespace Sindex

section Loops

variable (c : Settings) (call : CString → List Entry → CString → List Entry → Option (List Event))
  (fname1 : CString) (l1 : List Entry) (fname2 : CString) (l2 : List Entry)

/-- The paths are put together after the tests for `.` and `..` and before the names are compared. -/
def mergeBodyInBuffers (s : Merge) : Option Merge :=
  match l1[s.i]?, l2[s.j]? with
  | some a, some b =>
    if isDot a.name || isDot b.name then mergeBody c call fname1 l1 fname2 l2 s
    else do
      let _ ← sprintf (pathname fname1 a.name)
      let _ ← sprintf (pathname fname2 b.name)
      mergeBody c call fname1 l1 fname2 l2 s
  | _, _ => none

end Loops

def compareDirectoryInBuffers : Nat → Settings → CString → List Entry → CString → List Entry →
    Option (List Event)
  | 0, _, _, _, _, _ => none
  | fuel + 1, c, fname1, l1, fname2, l2 => do
    let s ← whileLoop (fun s : Merge => s.i < l1.length && s.j < l2.length)
      (mergeBodyInBuffers c (compareDirectoryInBuffers fuel c) fname1 l1 fname2 l2) fuel ⟨0, 0, []⟩
    let s ← whileLoop (fun s : Merge => s.i < l1.length) (restBody1 c fname1 l1) fuel s
    let s ← whileLoop (fun s : Merge => s.j < l2.length) (restBody2 c fname2 l2) fuel s
    some s.out

mutual
def Entry.PathsFit (dir : CString) : Entry → Prop
  | .dir name l => (pathname dir name).length < PATHMAX ∧ PathsFit (pathname dir name) l
  | .reg name => (pathname dir name).length < PATHMAX
  | .other name => (pathname dir name).length < PATHMAX

/-- Every path below the directory fits. -/
def PathsFit (dir : CString) : List Entry → Prop
  | [] => True
  | a :: l => a.PathsFit dir ∧ PathsFit dir l
end

section Fit

variable {c : Settings} {fname1 fname2 : CString} {l1 l2 : List Entry}
  {call call' : CString → List Entry → CString → List Entry → Option (List Event)}

theorem Entry.PathsFit.own {dir : CString} {a : Entry} (h : a.PathsFit dir) :
    (pathname dir a.name).length < PATHMAX := by
  cases a with
  | dir name l =>
    rw [Entry.PathsFit] at h
    exact h.1
  | reg name =>
    rw [Entry.PathsFit] at h
    exact h
  | other name =>
    rw [Entry.PathsFit] at h
    exact h

theorem PathsFit.mem {dir : CString} {a : Entry} {l : List Entry} (h : PathsFit dir l) (ha : a ∈ l) :
    a.PathsFit dir := by
  induction l with
  | nil => cases ha
  | cons b l ih =>
    rw [PathsFit] at h
    rcases List.mem_cons.mp ha with rfl | ha
    · exact h.1
    · exact ih h.2 ha

/-- The calls for the directories of the same name agree. -/
def CallsAgree (fname1 fname2 : CString) (l1 l2 : List Entry)
    (call call' : CString → List Entry → CString → List Entry → Option (List Event)) : Prop :=
  ∀ name1 entries1 name2 entries2, Entry.dir name1 entries1 ∈ l1 → Entry.dir name2 entries2 ∈ l2 →
    call (pathname fname1 name1) entries1 (pathname fname2 name2) entries2 =
      call' (pathname fname1 name1) entries1 (pathname fname2 name2) entries2

theorem commonEntry_congr (h : CallsAgree fname1 fname2 l1 l2 call call') {a b : Entry} (ha : a ∈ l1)
    (hb : b ∈ l2) : commonEntry c call fname1 fname2 a b = commonEntry c call' fname1 fname2 a b := by
  cases a with
  | dir name1 entries1 =>
    cases b with
    | dir name2 entries2 =>
      have hcall := h name1 entries1 name2 entries2 ha hb
      simp only [commonEntry, Entry.name, hcall]
    | reg name2 => rfl
    | other name2 => rfl
  | reg name1 => cases b <;> rfl
  | other name1 => cases b <;> rfl

theorem mergeBody_congr (h : CallsAgree fname1 fname2 l1 l2 call call') (s : Merge) :
    mergeBody c call fname1 l1 fname2 l2 s = mergeBody c call' fname1 l1 fname2 l2 s := by
  rw [mergeBody, mergeBody]
  cases ha : l1[s.i]? with
  | none => rfl
  | some a =>
    cases hb : l2[s.j]? with
    | none => rfl
    | some b =>
      have hcommon := commonEntry_congr (c := c) h (List.mem_of_getElem? ha) (List.mem_of_getElem? hb)
      simp only [hcommon]

theorem sprintf_of_lt {path : CString} (h : path.length < PATHMAX) : sprintf path = some path :=
  if_pos h

theorem mergeBodyInBuffers_eq (h1 : PathsFit fname1 l1) (h2 : PathsFit fname2 l2) (s : Merge) :
    mergeBodyInBuffers c call fname1 l1 fname2 l2 s = mergeBody c call fname1 l1 fname2 l2 s := by
  rw [mergeBodyInBuffers]
  cases ha : l1[s.i]? with
  | none => simp only [mergeBody, ha]
  | some a =>
    cases hb : l2[s.j]? with
    | none => simp only [mergeBody, ha, hb]
    | some b =>
      have hfit1 := (h1.mem (List.mem_of_getElem? ha)).own
      have hfit2 := (h2.mem (List.mem_of_getElem? hb)).own
      dsimp only
      split
      · rfl
      · rw [sprintf_of_lt hfit1, sprintf_of_lt hfit2]
        rfl

end Fit

/-- **The arrays are large enough** for trees whose paths fit: by induction on the fuel. -/
theorem compareDirectoryInBuffers_eq (c : Settings) (fuel : Nat) {fname1 fname2 : CString}
    {l1 l2 : List Entry} (h1 : PathsFit fname1 l1) (h2 : PathsFit fname2 l2) :
    compareDirectoryInBuffers fuel c fname1 l1 fname2 l2 =
      compareDirectory fuel c fname1 l1 fname2 l2 := by
  induction fuel generalizing fname1 fname2 l1 l2 with
  | zero => rfl
  | succ fuel ih =>
    have hcalls : CallsAgree fname1 fname2 l1 l2 (compareDirectoryInBuffers fuel c)
        (compareDirectory fuel c) := by
      intro name1 entries1 name2 entries2 hm1 hm2
      have hfit1 := h1.mem hm1
      have hfit2 := h2.mem hm2
      rw [Entry.PathsFit] at hfit1 hfit2
      exact ih hfit1.2 hfit2.2
    have hbody : mergeBodyInBuffers c (compareDirectoryInBuffers fuel c) fname1 l1 fname2 l2 =
        mergeBody c (compareDirectory fuel c) fname1 l1 fname2 l2 :=
      funext fun s => (mergeBodyInBuffers_eq h1 h2 s).trans (mergeBody_congr hcalls s)
    rw [compareDirectoryInBuffers, compareDirectory, hbody]

/-- In two sorted trees whose paths fit, it finds what is to be found. -/
theorem compareDirectoryInBuffers_reports (c : Settings) {fuel : Nat} {fname1 fname2 : CString}
    {l1 l2 : List Entry} (h1 : Sorted l1) (h2 : Sorted l2) (hfuel : weight l1 + weight l2 < fuel)
    (hfit1 : PathsFit fname1 l1) (hfit2 : PathsFit fname2 l2) :
    ∃ es, compareDirectoryInBuffers fuel c fname1 l1 fname2 l2 = some es ∧
      Reports c (treeDiff c.rOption fname1 l1 fname2 l2) es := by
  rw [compareDirectoryInBuffers_eq c fuel hfit1 hfit2]
  exact compareDirectory_reports c h1 h2 hfuel fname1 fname2

/-- Two first names with a path that is too long: it is written behind the end of its array. -/
theorem compareDirectoryInBuffers_overflow (c : Settings) (fuel : Nat) {fname1 fname2 : CString}
    {a b : Entry} (l1 l2 : List Entry) (ha : isDot a.name = false) (hb : isDot b.name = false)
    (hlong : PATHMAX ≤ (pathname fname1 a.name).length ∨ PATHMAX ≤ (pathname fname2 b.name).length) :
    compareDirectoryInBuffers fuel c fname1 (a :: l1) fname2 (b :: l2) = none := by
  cases fuel with
  | zero => rfl
  | succ fuel =>
    have hbody : mergeBodyInBuffers c (compareDirectoryInBuffers fuel c) fname1 (a :: l1) fname2
        (b :: l2) ⟨0, 0, []⟩ = none := by
      have hnone {path : CString} (h : PATHMAX ≤ path.length) : sprintf path = none :=
        if_neg (Nat.not_lt.mpr h)
      simp only [mergeBodyInBuffers, List.getElem?_cons_zero, ha, hb, Bool.or_self]
      rcases hlong with h | h
      · rw [hnone h]
        rfl
      · rw [hnone h]
        cases sprintf (pathname fname1 a.name) <;> rfl
    have hloop : whileLoop (fun s : Merge => s.i < (a :: l1).length && s.j < (b :: l2).length)
        (mergeBodyInBuffers c (compareDirectoryInBuffers fuel c) fname1 (a :: l1) fname2 (b :: l2))
        fuel ⟨0, 0, []⟩ = none := by
      cases fuel with
      | zero => rfl
      | succ fuel => rw [whileLoop, if_pos (by simp), hbody, Option.bind_none]
    rw [compareDirectoryInBuffers, hloop]
    rfl

end Sindex
end SsuComputer
