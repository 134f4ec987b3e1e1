import SsuComputer.Lib.OpenFile
import SsuComputer.Lib.While
import Mathlib

/-!
# SsuComputer.FileStructure.Insert

`insert.c`: inserts a string into a file in place, with two buffers that change roles.

* `State` — the file, `file_buffer`, `input_data_size` and `i` of the loop of `main`; `false` and
  `true` are the indices `0` and `1`.
* `insert_exact` — the loop ends, and the file holds the string between the two parts of what it
  held before.

An argument of a program is shorter than an `int` can count, so `(int) strlen(data)` is the length.
-/

namespace SsuComputer
namespace FileStructure

open OpenFile

structure State where
  file : OpenFile UInt8
  fileBuffer : Bool → List UInt8
  inputDataSize : Bool → Nat
  i : Bool

/-- The negation of the `if` that leaves the loop. -/
def going (s : State) : Bool := !(s.inputDataSize false = 0 && s.inputDataSize true = 0)

def body (s : State) : State :=
  let r := s.file.read (s.inputDataSize s.i)
  let size := r.1.length
  let file := (r.2.lseek (-(size : Int)) .SEEK_CUR).2
  { file := file.write ((s.fileBuffer s.i).take (s.inputDataSize s.i))
    fileBuffer := Function.update s.fileBuffer (!s.i) (fill (s.fileBuffer (!s.i)) r.1)
    inputDataSize := Function.update s.inputDataSize (!s.i) size
    i := !s.i }

/-- The state before the loop. Opening does not move the descriptor, the test of the offset does. -/
def start (offset : Int) (data content : List UInt8) : State :=
  let sought := (OpenFile.mk content 0).lseek 0 .SEEK_END
  { file := if offset ≤ sought.1 then (sought.2.lseek offset .SEEK_SET).2 else sought.2
    fileBuffer := fun b => bif b then List.replicate (data.length + 1) 0 else data ++ [0]
    inputDataSize := fun b => bif b then 0 else data.length
    i := false }

/-- `main`, once its arguments are read and the file is open. -/
def insert (offset : Int) (data content : List UInt8) (fuel : Nat) : Option (List UInt8) :=
  (whileLoop going (fun s => some (body s)) fuel (start offset data content)).map
    fun s => s.file.content

/-- What the next `write` puts into the file. -/
def State.pending (s : State) : List UInt8 := (s.fileBuffer s.i).take (s.inputDataSize s.i)

/-- The text that is inserted in the end: the buffer stands between what is done and what is not. -/
def State.goal (s : State) : List UInt8 := s.file.behind ++ s.pending ++ s.file.ahead

structure Ready (s : State) : Prop where
  position : s.file.position ≤ s.file.content.length
  size : s.inputDataSize s.i ≤ (s.fileBuffer s.i).length

/-- The rounds that are left: one with an empty buffer follows the last one that reads nothing. -/
def State.remaining (s : State) : Nat :=
  3 * s.file.ahead.length + (if s.inputDataSize s.i = 0 then 0 else 2) +
    if s.inputDataSize (!s.i) = 0 then 0 else 1

theorem going_eq_false {s : State} : going s = false ↔
    s.inputDataSize s.i = 0 ∧ s.inputDataSize (!s.i) = 0 := by
  cases h : s.i <;> simp [going, and_comm]

theorem length_pending {s : State} (h : Ready s) : s.pending.length = s.inputDataSize s.i :=
  List.length_take_of_le h.size

theorem file_body (s : State) : (body s).file = s.file.write s.pending := by
  show (((s.file.read _).2.lseek _ _).2).write _ = _
  rw [lseek_read]
  rfl

theorem size_body (s : State) : (body s).inputDataSize (body s).i =
    min (s.inputDataSize s.i) s.file.ahead.length := by
  simp [body, OpenFile.read]

theorem other_size_body (s : State) :
    (body s).inputDataSize (!(body s).i) = s.inputDataSize s.i := by
  simp [body]

theorem pending_body (s : State) :
    (body s).pending = s.file.ahead.take (s.inputDataSize s.i) := by
  rw [State.pending]
  simp only [body, Function.update_self]
  exact take_fill _ _

theorem ready_body {s : State} (h : Ready s) : Ready (body s) where
  position := by
    rw [file_body]
    exact position_write_le h.position _
  size := by
    rw [size_body]
    simp only [body, Function.update_self, fill, List.length_append, OpenFile.read,
      List.length_take]
    omega

theorem goal_body {s : State} (h : Ready s) : (body s).goal = s.goal := by
  rw [State.goal, pending_body, file_body, behind_write h.position, ahead_write h.position,
    length_pending h, List.append_assoc, List.take_append_drop]
  rfl

theorem remaining_body {s : State} (h : Ready s) (hgoing : going s = true) :
    (body s).remaining < s.remaining := by
  have hahead : (body s).file.ahead.length = s.file.ahead.length - s.inputDataSize s.i := by
    rw [file_body, ahead_write h.position, length_pending h, List.length_drop]
  have hboth : ¬ (s.inputDataSize s.i = 0 ∧ s.inputDataSize (!s.i) = 0) := by
    rw [← going_eq_false, hgoing]
    simp
  rw [State.remaining, State.remaining, size_body, other_size_body, hahead]
  split <;> split <;> split <;> omega

theorem start_of_le {offset : Nat} {data content : List UInt8} (h : offset ≤ content.length) :
    (start offset data content).file = ⟨content, offset⟩ := by
  have hle : (offset : Int) ≤ (content.length : Int) := Int.ofNat_le.mpr h
  simp [start, lseek_end, lseek_set, hle]

theorem ready_start {offset : Nat} {data content : List UInt8} (h : offset ≤ content.length) :
    Ready (start offset data content) where
  position := by
    rw [start_of_le h]
    exact h
  size := by simp [start]

theorem goal_start {offset : Nat} {data content : List UInt8} (h : offset ≤ content.length) :
    (start offset data content).goal = content.take offset ++ data ++ content.drop offset := by
  rw [State.goal, start_of_le h]
  simp [start, State.pending, behind, ahead]

theorem goal_of_not_going {s : State} (h : Ready s) (hdone : going s = false) :
    s.goal = s.file.content := by
  have hpending : s.pending = [] := by
    rw [← List.length_eq_zero_iff, length_pending h]
    exact (going_eq_false.mp hdone).1
  rw [State.goal, hpending, List.append_nil, behind_append_ahead]

theorem insert_exact (content data : List UInt8) (offset : Int) (h0 : 0 ≤ offset)
    (h : offset ≤ content.length) : ∃ fuel, insert offset data content fuel =
      some (content.take offset.toNat ++ data ++ content.drop offset.toNat) := by
  obtain ⟨o, rfl⟩ := Int.eq_ofNat_of_zero_le h0
  have ho : o ≤ content.length := Int.ofNat_le.mp h
  have hstep : ∀ n s, (Ready s ∧ s.goal = (start o data content).goal ∧ s.remaining = n) →
      going s = true → ∃ s' m, some (body s) = some s' ∧ m < n ∧
        (Ready s' ∧ s'.goal = (start o data content).goal ∧ s'.remaining = m) := by
    intro n s hs hgoing
    obtain ⟨hready, hgoal, rfl⟩ := hs
    exact ⟨body s, _, rfl, remaining_body hready hgoing, ready_body hready,
      (goal_body hready).trans hgoal, rfl⟩
  obtain ⟨s, _, hrun, ⟨hready, hgoal, -⟩, hdone⟩ :=
    whileLoop_of_measure hstep _ _ ⟨ready_start ho, rfl, rfl⟩ (Nat.le_refl _)
  refine ⟨(start o data content).remaining, ?_⟩
  rw [insert, hrun, Option.map_some, ← goal_of_not_going hready hdone, hgoal, goal_start ho]
  rfl

theorem insert_exact_middle : ∃ fuel, insert 1 [120, 121] [97, 98, 99] fuel =
    some [97, 120, 121, 98, 99] :=
  insert_exact [97, 98, 99] [120, 121] 1 (by decide) (by decide)

end FileStructure
end SsuComputer
