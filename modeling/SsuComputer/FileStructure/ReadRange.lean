import SsuComputer.Lib.OpenFile
import Mathlib

/-!
# SsuComputer.FileStructure.ReadRange

`read.c`: prints the bytes between an offset and the offset plus a signed count.

* `forward` — a count to the left made a count to the right, as `read.c` and `delete.c` do it.
* `lower`, `upper` — the interval, of which `forward_eq` is the first byte and the length.
* `readRange_exact_iff` — `write` is given the count and not what `read` returned, so the slice is
  printed exactly when the interval ends within the file.

`room` is the number of bytes that the stack has for the array of the length `print_byte + 1`.
-/

namespace SsuComputer
namespace FileStructure

open OpenFile

/-- The offset and the number of bytes after the block `if (print_byte < 0)`. -/
def forward (offset count : Int) : Int × Int :=
  if count < 0 then
    let tempOffset := offset + count
    if tempOffset < 0 then (0, offset) else (tempOffset, -count)
  else (offset, count)

/-- `main`, once its arguments are read and the file is open: what it prints, unless the array does
not fit. -/
def readRange (room : Nat) (offset printByte : Int) (content : List UInt8) :
    Option (List UInt8) :=
  if printByte = 0 then some []
  else
    let range := forward offset printByte
    if range.2 + 1 ≤ room then
      let fileBuffer := List.replicate (range.2 + 1).toNat 0
      let file := ((OpenFile.mk content 0).lseek range.1 .SEEK_SET).2
      let r := file.read range.2.toNat
      some ((fill fileBuffer r.1).take range.2.toNat)
    else none

/-- The first byte of the interval between `offset` and `offset + count`. -/
def lower (offset count : Int) : Nat := (min offset (offset + count)).toNat

/-- The byte after the interval. -/
def upper (offset count : Int) : Nat := (max offset (offset + count)).toNat

theorem lower_le_upper (offset count : Int) : lower offset count ≤ upper offset count :=
  Int.toNat_le_toNat (Int.le_trans (Int.min_le_left _ _) (Int.le_max_left _ _))

theorem forward_eq {offset : Int} (h : 0 ≤ offset) (count : Int) : forward offset count =
    ((lower offset count : Int), ((upper offset count - lower offset count : Nat) : Int)) := by
  simp only [forward, lower, upper]
  split
  · split
    · rw [Int.min_eq_right (by omega), Int.max_eq_left (by omega)]
      exact Prod.ext (by dsimp only; omega) (by dsimp only; omega)
    · rw [Int.min_eq_right (by omega), Int.max_eq_left (by omega)]
      exact Prod.ext (by dsimp only; omega) (by dsimp only; omega)
  · rw [Int.min_eq_left (by omega), Int.max_eq_right (by omega)]
    exact Prod.ext (by dsimp only; omega) (by dsimp only; omega)

/-- The bytes of a file in the interval. -/
def slice (offset count : Int) (content : List UInt8) : List UInt8 :=
  (content.take (upper offset count)).drop (lower offset count)

theorem readRange_eq {room : Nat} {offset count : Int} (h : 0 ≤ offset) (hcount : count ≠ 0)
    (hroom : upper offset count - lower offset count + 1 ≤ room) (content : List UInt8) :
    readRange room offset count content = some (slice offset count content ++
      List.replicate (upper offset count - lower offset count -
        (slice offset count content).length) 0) := by
  have hle := lower_le_upper offset count
  have hslice : ((OpenFile.mk content (lower offset count)).read
      (upper offset count - lower offset count)).1 = slice offset count content := by
    rw [slice, List.drop_take]
    rfl
  have hlength : (slice offset count content).length ≤
      upper offset count - lower offset count := by
    rw [slice, List.length_drop, List.length_take]
    omega
  simp only [readRange, if_neg hcount, forward_eq h]
  rw [if_pos (by omega), lseek_set]
  simp only [Int.toNat_natCast, hslice, fill]
  rw [List.take_append, List.take_of_length_le hlength, List.drop_replicate, List.take_replicate]
  congr 3
  omega

theorem readRange_exact_iff (room : Nat) (offset count : Int) (content : List UInt8)
    (h : 0 ≤ offset) (hcount : count ≠ 0) :
    readRange room offset count content = some (slice offset count content) ↔
      max offset (offset + count) ≤ content.length ∧
        max offset (offset + count) - max 0 (min offset (offset + count)) + 1 ≤ room := by
  have hle := lower_le_upper offset count
  have hsize : max offset (offset + count) - max 0 (min offset (offset + count)) + 1 ≤ (room : Int) ↔
      upper offset count - lower offset count + 1 ≤ room := by
    rw [upper, lower] at *
    omega
  have hend : max offset (offset + count) ≤ (content.length : Int) ↔
      upper offset count ≤ content.length := by
    rw [upper]
    omega
  rw [hsize, hend]
  by_cases hroom : upper offset count - lower offset count + 1 ≤ room
  · rw [readRange_eq h hcount hroom]
    have hlength : (slice offset count content).length =
        min (upper offset count) content.length - lower offset count := by
      rw [slice, List.length_drop, List.length_take]
    have hempty : upper offset count = lower offset count → upper offset count = 0 := by
      rw [upper, lower]
      omega
    simp only [Option.some.injEq, List.append_right_eq_self, List.replicate_eq_nil_iff, hlength]
    omega
  · have hnone : readRange room offset count content = none := by
      simp only [readRange, if_neg hcount, forward_eq h]
      rw [if_neg (by omega)]
    simp [hnone, hroom]

theorem readRange_exact_iff_left : readRange 100 3 (-2) [97, 98, 99, 100] = some [98, 99] :=
  (readRange_exact_iff 100 3 (-2) [97, 98, 99, 100] (by decide) (by decide)).mpr (by decide)

theorem readRange_pads : readRange 100 4 3 [97, 98, 99, 100, 101, 102] = some [101, 102, 0] ∧
    slice 4 3 [97, 98, 99, 100, 101, 102] = [101, 102] := by
  constructor <;> rfl

end FileStructure
end SsuComputer
