import Mathlib.Data.UInt
import SsuComputer.Lib.OpenFile
import Mathlib

/-!
# SsuComputer.FileStructure.Merge

`merge.c`: two files, one after the other, into a third.

* `copyFrom` — the loop of `main`, made for each source. The descriptor of the destination goes on
  where the first one left it.
* `merge_eq` — what was longer than the sources in the destination stays behind them, for the file
  is opened without `O_TRUNC`.
* `merge_exact_iff` — so the result is the sources alone exactly for a destination no longer than
  both.
-/

namespace SsuComputer
namespace FileStructure

open OpenFile

def MY_BUFF_SIZE : Nat := 100

/-- `while ((read_data_size = read(..)) > 0) write(..)`. -/
def copyFrom : Nat → OpenFile UInt8 → OpenFile UInt8 → Option (OpenFile UInt8)
  | 0, _, _ => none
  | fuel + 1, src, dest =>
    let r := src.read MY_BUFF_SIZE
    let readDataSize := r.1.length
    if readDataSize > 0 then copyFrom fuel r.2 (dest.write r.1) else some dest

/-- `main`, once the files are open: `O_CREAT` makes a new file empty, another is left as it is. -/
def merge (src1 src2 : List UInt8) (dest : Option (List UInt8)) (fuel : Nat) :
    Option (List UInt8) := do
  let file ← copyFrom fuel ⟨src1, 0⟩ ⟨dest.getD [], 0⟩
  let file ← copyFrom fuel ⟨src2, 0⟩ file
  return file.content

/-- Each round moves a chunk from what is ahead in the source to the destination. -/
theorem copyFrom_eq {src dest : OpenFile UInt8} (h : dest.position ≤ dest.content.length)
    {fuel : Nat} (hfuel : src.ahead.length < fuel) :
    copyFrom fuel src dest = some (dest.write src.ahead) := by
  induction fuel generalizing src dest with
  | zero => omega
  | succ fuel ih =>
    rw [copyFrom]
    split
    · rename_i hread
      have hmore : 0 < src.ahead.length := by
        simp only [OpenFile.read, List.length_take] at hread
        omega
      have hrest : (src.read MY_BUFF_SIZE).2.ahead.length < fuel := by
        rw [ahead_read, List.length_drop, MY_BUFF_SIZE]
        omega
      rw [ih (position_write_le h _) hrest, write_write h, ahead_read]
      simp only [OpenFile.read, List.take_append_drop]
    · rename_i hread
      have hend : src.ahead = [] := by
        simp only [OpenFile.read, List.length_take, MY_BUFF_SIZE] at hread
        exact List.length_eq_zero_iff.mp (by omega)
      rw [hend]
      rfl

theorem merge_eq (src1 src2 : List UInt8) (dest : Option (List UInt8)) {fuel : Nat}
    (h : src1.length + src2.length < fuel) : merge src1 src2 dest fuel =
      some (src1 ++ src2 ++ (dest.getD []).drop (src1.length + src2.length)) := by
  have h0 : (OpenFile.mk (dest.getD []) 0).position ≤ (OpenFile.mk (dest.getD []) 0).content.length :=
    Nat.zero_le _
  have h1 : (OpenFile.mk src1 0).ahead.length < fuel := by simp [ahead]; omega
  have h2 : (OpenFile.mk src2 0).ahead.length < fuel := by simp [ahead]; omega
  have hboth := copyFrom_eq (position_write_le h0 (OpenFile.mk src1 0).ahead) h2
  rw [write_write h0] at hboth
  simp only [merge, copyFrom_eq h0 h1, hboth, Option.bind_eq_bind, Option.bind_some,
    Option.pure_def]
  rw [write_eq h0]
  simp [ahead, behind]

theorem copyFrom_more {src dest file : OpenFile UInt8} {fuel fuel' : Nat}
    (h : copyFrom fuel src dest = some file) (hle : fuel ≤ fuel') :
    copyFrom fuel' src dest = some file := by
  induction fuel generalizing src dest fuel' with
  | zero => cases h
  | succ fuel ih =>
    obtain ⟨more, rfl⟩ : ∃ more, fuel' = more + 1 := ⟨fuel' - 1, by omega⟩
    rw [copyFrom] at h ⊢
    split at h
    · rename_i hread
      rw [if_pos hread]
      exact ih h (by omega)
    · rename_i hread
      rw [if_neg hread, h]

theorem merge_result {src1 src2 : List UInt8} {dest : Option (List UInt8)} {fuel : Nat}
    {content : List UInt8} (h : merge src1 src2 dest fuel = some content) :
    content = src1 ++ src2 ++ (dest.getD []).drop (src1.length + src2.length) := by
  have hmore : merge src1 src2 dest (max fuel (src1.length + src2.length + 1)) = some content := by
    simp only [merge, Option.bind_eq_bind, Option.bind_eq_some_iff] at h ⊢
    obtain ⟨file, hfile, file', hfile', hcontent⟩ := h
    exact ⟨file, copyFrom_more hfile (Nat.le_max_left _ _), file',
      copyFrom_more hfile' (Nat.le_max_left _ _), hcontent⟩
  rw [merge_eq src1 src2 dest (by omega)] at hmore
  exact (Option.some.inj hmore).symm

theorem merge_exact_iff (src1 src2 : List UInt8) (dest : Option (List UInt8)) :
    (∃ fuel, merge src1 src2 dest fuel = some (src1 ++ src2)) ↔
      (dest.getD []).length ≤ src1.length + src2.length := by
  constructor
  · intro h
    obtain ⟨fuel, hfuel⟩ := h
    have hlength := congrArg List.length (merge_result hfuel)
    simp only [List.length_append, List.length_drop] at hlength
    omega
  · intro h
    refine ⟨src1.length + src2.length + 1, ?_⟩
    rw [merge_eq src1 src2 dest (Nat.lt_succ_self _), List.drop_eq_nil_of_le h, List.append_nil]

theorem merge_keeps_old_tail :
    ¬ ∃ fuel, merge [97] [98] (some [120, 121, 122]) fuel = some [97, 98] := by
  intro h
  obtain ⟨fuel, hfuel⟩ := h
  have hcontent := merge_result hfuel
  simp at hcontent

end FileStructure
end SsuComputer
