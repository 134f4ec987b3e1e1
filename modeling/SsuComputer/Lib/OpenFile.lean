import Mathlib.Data.List.Basic
import Mathlib.Algebra.Notation.Defs
import Mathlib.Data.Int.Init

/-!
# SsuComputer.Lib.OpenFile

A regular file that is open, as its content and the position of the descriptor.

* `read` and `write` transfer the full count, up to the end of the file for `read`. A write behind
  the end fills the gap with zeros.
* `lseek` and `ftruncate` fail on a negative number and change nothing then.
* `fill` — what a `read` leaves in its buffer.
* `ahead_write` — a write uncovers what follows the bytes that it replaces.
* `write_write` — two writes one after the other are one.
-/

namespace SsuComputer

structure OpenFile (α : Type _) where
  content : List α
  position : Nat
deriving DecidableEq

inductive Whence
  | SEEK_SET
  | SEEK_CUR
  | SEEK_END

namespace OpenFile

variable {α : Type _} (f : OpenFile α)

/-- What a `read` can still give. -/
def ahead : List α := f.content.drop f.position

/-- The bytes before the position. -/
def behind : List α := f.content.take f.position

def read (count : Nat) : List α × OpenFile α :=
  (f.ahead.take count, { f with position := f.position + (f.ahead.take count).length })

def write [Zero α] (bytes : List α) : OpenFile α :=
  if bytes.isEmpty then f
  else
    { content := f.behind ++ List.replicate (f.position - f.content.length) 0 ++ bytes ++
        f.ahead.drop bytes.length
      position := f.position + bytes.length }

def lseek (offset : Int) (whence : Whence) : Int × OpenFile α :=
  let target := offset + match whence with
    | .SEEK_SET => 0
    | .SEEK_CUR => (f.position : Int)
    | .SEEK_END => (f.content.length : Int)
  if target < 0 then (-1, f) else (target, { f with position := target.toNat })

def ftruncate [Zero α] (length : Int) : OpenFile α :=
  if length < 0 then f
  else
    { f with
      content := f.content.take length.toNat ++
        List.replicate (length.toNat - f.content.length) 0 }

/-- A buffer after `bytes` are read into it. -/
def fill (buffer bytes : List α) : List α := bytes ++ buffer.drop bytes.length

variable {f}

theorem behind_append_ahead : f.behind ++ f.ahead = f.content := List.take_append_drop _ _

theorem length_behind (h : f.position ≤ f.content.length) : f.behind.length = f.position :=
  List.length_take_of_le h

theorem write_eq [Zero α] (h : f.position ≤ f.content.length) (bytes : List α) :
    f.write bytes = ⟨f.behind ++ bytes ++ f.ahead.drop bytes.length, f.position + bytes.length⟩ := by
  cases bytes with
  | nil => simp [write, behind_append_ahead]
  | cons b bytes => simp [write, Nat.sub_eq_zero_of_le h]

theorem behind_write [Zero α] (h : f.position ≤ f.content.length) (bytes : List α) :
    (f.write bytes).behind = f.behind ++ bytes := by
  rw [write_eq h, behind]
  refine List.take_left' ?_
  rw [List.length_append, length_behind h]

theorem ahead_write [Zero α] (h : f.position ≤ f.content.length) (bytes : List α) :
    (f.write bytes).ahead = f.ahead.drop bytes.length := by
  rw [write_eq h, ahead]
  refine List.drop_left' ?_
  rw [List.length_append, length_behind h]

theorem position_write_le [Zero α] (h : f.position ≤ f.content.length) (bytes : List α) :
    (f.write bytes).position ≤ (f.write bytes).content.length := by
  rw [write_eq h]
  simp only [List.length_append, length_behind h]
  omega

theorem write_write [Zero α] (h : f.position ≤ f.content.length) (bytes more : List α) :
    (f.write bytes).write more = f.write (bytes ++ more) := by
  rw [write_eq (position_write_le h bytes), behind_write h, ahead_write h, write_eq h, write_eq h,
    List.drop_drop, List.length_append]
  simp only [List.append_assoc, Nat.add_assoc]

theorem ahead_read (count : Nat) : (f.read count).2.ahead = f.ahead.drop count := by
  show f.content.drop (f.position + (f.ahead.take count).length) = _
  rw [← List.drop_drop]
  show f.ahead.drop (f.ahead.take count).length = _
  rw [List.length_take]
  rcases Nat.le_total count f.ahead.length with h | h
  · rw [Nat.min_eq_left h]
  · rw [Nat.min_eq_right h, List.drop_length, List.drop_eq_nil_of_le h]

theorem lseek_set (n : Nat) : f.lseek n .SEEK_SET = ((n : Int), { f with position := n }) := by
  simp [lseek, show ¬ (n : Int) < 0 by omega]

theorem lseek_end : f.lseek 0 .SEEK_END =
    ((f.content.length : Int), { f with position := f.content.length }) := by
  simp [lseek, show ¬ (f.content.length : Int) < 0 by omega]

theorem lseek_cur_neg {k : Nat} (h : k ≤ f.position) : f.lseek (-k) .SEEK_CUR =
    (((f.position - k : Nat) : Int), { f with position := f.position - k }) := by
  have htarget : -(k : Int) + f.position = ((f.position - k : Nat) : Int) := by omega
  simp only [lseek, htarget]
  rw [if_neg (by omega), Int.toNat_natCast]

/-- Back over what was read. -/
theorem lseek_read (count : Nat) :
    ((f.read count).2.lseek (-((f.read count).1.length : Int)) .SEEK_CUR).2 = f := by
  rw [lseek_cur_neg (Nat.le_add_left _ _)]
  simp [read]

theorem ftruncate_eq [Zero α] {n : Nat} (h : n ≤ f.content.length) :
    (f.ftruncate n).content = f.content.take n := by
  simp [ftruncate, show ¬ (n : Int) < 0 by omega, Nat.sub_eq_zero_of_le h]

theorem take_fill (buffer bytes : List α) : (fill buffer bytes).take bytes.length = bytes :=
  List.take_left' rfl

end OpenFile
end SsuComputer
