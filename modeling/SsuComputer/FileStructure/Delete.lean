import SsuComputer.FileStructure.ReadRange
import SsuComputer.Lib.While
import Mathlib

/-!
# SsuComputer.FileStructure.Delete

`delete.c`: removes the bytes between an offset and the offset plus a signed count, in place.

* `DeleteState`, `deleteBody` — the loop of `main`. Its first round writes the buffer before anything
  was read into it, and its end test is whether the first byte of the buffer is zero.
* `body_eq` — one round, at the end of the interval.
* `delete_zeros`, `delete_endless`, `delete_short` — the three ways in which the loop goes on, by
  the bytes that the first `read` finds.
* `delete_exact_iff` — so the bytes of the interval are removed exactly when the interval ends
  behind the file, or the file goes on with a copy of it and what `FollowsCopy` says.
-/

namespace SsuComputer
namespace FileStructure

open OpenFile

structure DeleteState where
  file : OpenFile UInt8
  fileBuffer : List UInt8
  inputSize : Nat
  /-- The loop was left by its `break`. -/
  broke : Bool

def deleteBody (s : DeleteState) : DeleteState :=
  let written := s.file.write (s.fileBuffer.take s.inputSize)
  let r := written.read s.inputSize
  let fileBuffer := fill s.fileBuffer r.1
  let tempInputSize := r.1.length
  if fileBuffer.headD 0 = 0 then
    let sought := r.2.lseek (-(tempInputSize : Int)) .SEEK_CUR
    ⟨sought.2.ftruncate sought.1, fileBuffer, s.inputSize, true⟩
  else
    ⟨(r.2.lseek (-(s.inputSize : Int) - tempInputSize) .SEEK_CUR).2, fileBuffer, tempInputSize,
      false⟩

def deleteLoop (fuel : Nat) (s : DeleteState) : Option DeleteState :=
  whileLoop (fun s => !s.broke) (fun s => some (deleteBody s)) fuel s

/-- `main`, once its arguments are read and the file is open: the content of the file at the end,
unless the array does not fit or the loop needs more rounds. -/
def delete (room : Nat) (offset removeByte : Int) (content : List UInt8) (fuel : Nat) :
    Option (List UInt8) :=
  let range := forward offset removeByte
  if range.2 + 1 ≤ room then
    let sought := (OpenFile.mk content 0).lseek 0 .SEEK_END
    if range.1 > sought.1 then some content
    else if range.1 + range.2 > sought.1 then some (sought.2.ftruncate range.1).content
    else
      let file := (sought.2.lseek (range.1 + range.2) .SEEK_SET).2
      (deleteLoop fuel
        ⟨file, List.replicate (range.2 + 1).toNat 0, range.2.toNat, false⟩).map
          fun s => s.file.content
  else none

/-- A file without the bytes of the interval. -/
def without (offset count : Int) (content : List UInt8) : List UInt8 :=
  content.take (lower offset count) ++ content.drop (upper offset count)

/-- What follows the interval is a copy of it, and then as many zeros, or fewer bytes that do not
begin with zero. -/
def FollowsCopy (removed rest : List UInt8) : Prop :=
  rest = removed ++ List.replicate removed.length 0 ∨
    ∃ b more, rest = removed ++ b :: more ∧ b ≠ 0 ∧ more.length + 1 < removed.length

/-! ## One round -/

theorem body_eq {pre post buffer : List UInt8} {n : Nat} (h : n ≤ buffer.length) :
    deleteBody ⟨⟨pre ++ post, pre.length⟩, buffer, n, false⟩ =
      let got := (post.drop n).take n
      if (fill buffer got).headD 0 = 0 then
        ⟨⟨pre ++ buffer.take n, pre.length + n⟩, fill buffer got, n, true⟩
      else
        ⟨⟨pre ++ (buffer.take n ++ post.drop n), pre.length⟩, fill buffer got, got.length, false⟩ := by
  have hn : (buffer.take n).length = n := List.length_take_of_le h
  have hwrite : (OpenFile.mk (pre ++ post) pre.length).write (buffer.take n) =
      ⟨pre ++ (buffer.take n ++ post.drop n), pre.length + n⟩ := by
    rw [write_eq (by simp)]
    simp [behind, ahead, hn]
  have hahead : (OpenFile.mk (pre ++ (buffer.take n ++ post.drop n)) (pre.length + n)).ahead =
      post.drop n := by
    rw [ahead, ← List.append_assoc]
    exact List.drop_left' (by rw [List.length_append, hn])
  simp only [deleteBody, hwrite, OpenFile.read, hahead]
  split
  · rw [lseek_cur_neg (Nat.le_add_left _ _)]
    have htake : (pre ++ (buffer.take n ++ post.drop n)).take (pre.length + n) =
        pre ++ buffer.take n := by
      rw [← List.append_assoc]
      exact List.take_left' (by rw [List.length_append, hn])
    simp only [Nat.add_sub_cancel, ftruncate, DeleteState.mk.injEq, and_true]
    rw [if_neg (by omega)]
    simp only [Int.toNat_natCast, htake, List.length_append, hn, List.length_drop]
    rw [Nat.sub_eq_zero_of_le (by omega), List.replicate_zero, List.append_nil]
  · have hback : -(n : Int) - ((post.drop n).take n).length =
        -((n + ((post.drop n).take n).length : Nat) : Int) := by omega
    rw [hback, lseek_cur_neg (by dsimp only; omega)]
    simp only [DeleteState.mk.injEq, OpenFile.mk.injEq, true_and, and_true]
    omega

theorem headD_fill {buffer got : List UInt8} (h : got ≠ []) :
    (fill buffer got).headD 0 = got.headD 0 := by
  cases got with
  | nil => exact absurd rfl h
  | cons b got => rfl

theorem headD_fill_zeros (n : Nat) (got : List UInt8) :
    (fill (List.replicate n 0) got).headD 0 = got.headD 0 := by
  cases got with
  | nil => cases n <;> rfl
  | cons b got => rfl

theorem fill_fill (buffer got : List UInt8) : fill (fill buffer got) got = fill buffer got := by
  rw [fill, fill, List.drop_left]

theorem take_zeros (n : Nat) : (List.replicate (n + 1) (0 : UInt8)).take n = List.replicate n 0 := by
  rw [List.take_replicate, Nat.min_eq_left (Nat.le_succ n)]

/-! ## The loop -/

theorem deleteLoop_step {s : DeleteState} (h : s.broke = false) (fuel : Nat) :
    deleteLoop (fuel + 1) s = deleteLoop fuel (deleteBody s) := by
  rw [deleteLoop, whileLoop, if_pos (by rw [h]; rfl), Option.bind_some]
  rfl

theorem deleteLoop_broke {s : DeleteState} (h : s.broke = true) (fuel : Nat) :
    deleteLoop fuel s = some s :=
  whileLoop_of_not (by rw [h]; rfl) fuel

section

variable {pre post : List UInt8} {r : Nat}

/-- The state before the loop: the file before and after the end of the interval. -/
def deleteStart (pre post : List UInt8) (r : Nat) : DeleteState :=
  ⟨⟨pre ++ post, pre.length⟩, List.replicate (r + 1) 0, r, false⟩

theorem delete_zeros (h : ((post.drop r).take r).headD 0 = 0) :
    ∃ s, deleteLoop 1 (deleteStart pre post r) = some s ∧
      s.file.content = pre ++ List.replicate r 0 := by
  have hbody : deleteBody (deleteStart pre post r) =
      ⟨⟨pre ++ List.replicate r 0, pre.length + r⟩,
        fill (List.replicate (r + 1) 0) ((post.drop r).take r), r, true⟩ := by
    rw [deleteStart, body_eq (by simp)]
    simp only [headD_fill_zeros, h, if_true, take_zeros]
  refine ⟨deleteBody (deleteStart pre post r), ?_, ?_⟩
  · rw [deleteLoop_step rfl, deleteLoop_broke (by rw [hbody])]
  · rw [hbody]

/-- The state after the first round, when the first byte that it read is not zero. -/
theorem deleteBody_start (h : ((post.drop r).take r).headD 0 ≠ 0) :
    deleteBody (deleteStart pre post r) =
      ⟨⟨pre ++ (List.replicate r 0 ++ post.drop r), pre.length⟩,
        fill (List.replicate (r + 1) 0) ((post.drop r).take r), ((post.drop r).take r).length,
        false⟩ := by
  rw [deleteStart, body_eq (by simp)]
  simp only [headD_fill_zeros, if_neg h, take_zeros]

/-- A full window is written back over what stands before it, and read again. -/
theorem deleteBody_window {window rest buffer got : List UInt8} (hwindow : window.length = r)
    (hrest : rest.take r = got) (hgot : got.length = r) (hhead : got.headD 0 ≠ 0) :
    deleteBody ⟨⟨pre ++ (window ++ rest), pre.length⟩, fill buffer got, r, false⟩ =
      ⟨⟨pre ++ (got ++ rest), pre.length⟩, fill buffer got, r, false⟩ := by
  have hne : got ≠ [] := by
    rintro rfl
    exact hhead rfl
  have hbuffer : (fill buffer got).take r = got := List.take_left' hgot
  have hdrop : (window ++ rest).drop r = rest := List.drop_left' hwindow
  have hlength : r ≤ (fill buffer got).length := by
    rw [fill, List.length_append]
    omega
  rw [body_eq hlength]
  simp only [hdrop, hrest, headD_fill hne, if_neg hhead, hbuffer, hgot, fill_fill]

theorem delete_endless (h : ((post.drop r).take r).headD 0 ≠ 0) (hr : r ≤ (post.drop r).length)
    (fuel : Nat) : deleteLoop fuel (deleteStart pre post r) = none := by
  have hgot : ((post.drop r).take r).length = r := List.length_take_of_le hr
  have hsame : ∀ fuel, deleteLoop fuel ⟨⟨pre ++ ((post.drop r).take r ++ post.drop r), pre.length⟩,
      fill (List.replicate (r + 1) 0) ((post.drop r).take r), r, false⟩ = none := by
    refine whileLoop_of_same rfl ?_
    rw [deleteBody_window hgot rfl hgot h]
  match fuel with
  | 0 => rfl
  | 1 =>
    rw [deleteLoop_step rfl, deleteBody_start h]
    rfl
  | fuel + 2 =>
    rw [deleteLoop_step rfl, deleteBody_start h, hgot, deleteLoop_step rfl,
      deleteBody_window (by simp) rfl hgot h]
    exact hsame fuel

/-- Less than a window is left: it is moved to its place, and the second read finds a zero that the
first round wrote. -/
theorem delete_short {rest : List UInt8} (hrest : post.drop r = rest) (h : rest.headD 0 ≠ 0)
    (hr : rest.length < r) : ∃ s, deleteLoop 2 (deleteStart pre post r) = some s ∧
      s.file.content = pre ++ rest := by
  have htake : (post.drop r).take r = rest := by
    rw [hrest, List.take_of_length_le (Nat.le_of_lt hr)]
  have hne : 0 < rest.length := by
    cases rest with
    | nil => exact absurd rfl h
    | cons b more => exact Nat.succ_pos _
  have hgot : ((List.replicate r 0 ++ rest).drop rest.length).take rest.length =
      0 :: ((List.replicate (r - rest.length - 1) 0 ++ rest).take (rest.length - 1)) := by
    rw [List.drop_append_of_le_length (by simp; omega), List.drop_replicate]
    obtain ⟨k, hk⟩ : ∃ k, r - rest.length = k + 1 := ⟨r - rest.length - 1, by omega⟩
    obtain ⟨m, hm⟩ : ∃ m, rest.length = m + 1 := ⟨rest.length - 1, by omega⟩
    rw [hk, hm]
    rfl
  have hbody : deleteBody (deleteBody (deleteStart pre post r)) =
      ⟨⟨pre ++ rest, pre.length + rest.length⟩,
        fill (fill (List.replicate (r + 1) 0) rest)
          (((List.replicate r 0 ++ rest).drop rest.length).take rest.length), rest.length, true⟩ := by
    rw [deleteBody_start (by rw [htake]; exact h), htake, hrest,
      body_eq (by rw [fill, List.length_append]; omega)]
    dsimp only
    rw [if_pos (by rw [hgot]; rfl), take_fill]
  refine ⟨deleteBody (deleteBody (deleteStart pre post r)), ?_, ?_⟩
  · rw [deleteLoop_step rfl, deleteLoop_step (by rw [deleteBody_start (by rw [htake]; exact h)]),
      deleteLoop_broke (by rw [hbody])]
  · rw [hbody]

theorem deleteLoop_unique {s : DeleteState} {fuel fuel' : Nat} {t t' : DeleteState}
    (h : deleteLoop fuel s = some t) (h' : deleteLoop fuel' s = some t') : t = t' :=
  whileLoop_unique h h'

/-- The bytes before the end of the interval end with those that are to be removed. -/
theorem deleteLoop_exact_iff (kept removed post : List UInt8) :
    (∃ fuel s, deleteLoop fuel (deleteStart (kept ++ removed) post removed.length) = some s ∧
      s.file.content = kept ++ post) ↔ FollowsCopy removed post := by
  have hends : ∀ {fuel : Nat} {t : DeleteState} {content : List UInt8},
      deleteLoop fuel (deleteStart (kept ++ removed) post removed.length) = some t →
      t.file.content = kept ++ removed ++ content →
      ((∃ fuel s, deleteLoop fuel (deleteStart (kept ++ removed) post removed.length) = some s ∧
        s.file.content = kept ++ post) ↔ post = removed ++ content) := by
    intro fuel t content hrun hcontent
    constructor
    · intro h
      obtain ⟨fuel', s, hs, hpost⟩ := h
      rw [deleteLoop_unique hs hrun, hcontent, List.append_assoc] at hpost
      exact (List.append_cancel_left hpost).symm
    · intro h
      exact ⟨fuel, t, hrun, by rw [hcontent, h, List.append_assoc]⟩
  by_cases hzero : ((post.drop removed.length).take removed.length).headD 0 = 0
  · obtain ⟨t, hrun, hcontent⟩ := @delete_zeros (kept ++ removed) post removed.length hzero
    rw [hends hrun hcontent]
    constructor
    · exact .inl
    · intro h
      rcases h with h | ⟨b, more, rfl, hb, hmore⟩
      · exact h
      · rw [List.drop_left, List.take_of_length_le (by simp; omega)] at hzero
        exact absurd hzero hb
  · rcases Nat.lt_or_ge (post.drop removed.length).length removed.length with hshort | hfull
    · rw [List.take_of_length_le (Nat.le_of_lt hshort)] at hzero
      obtain ⟨t, hrun, hcontent⟩ := @delete_short (kept ++ removed) post removed.length _ rfl hzero hshort
      rw [hends hrun hcontent]
      constructor
      · intro h
        cases hrest : post.drop removed.length with
        | nil => exact absurd (by rw [hrest]; rfl) hzero
        | cons b more =>
          rw [hrest] at h hzero hshort
          exact .inr ⟨b, more, h, hzero, hshort⟩
      · intro h
        rcases h with rfl | ⟨b, more, rfl, -, -⟩
        · rw [List.drop_left]
        · rw [List.drop_left]
    · constructor
      · intro h
        obtain ⟨fuel, s, hs, -⟩ := h
        rw [delete_endless hzero hfull fuel] at hs
        cases hs
      · intro h
        rcases h with rfl | ⟨b, more, rfl, -, hmore⟩
        · rw [List.drop_left, List.take_of_length_le (by simp)] at hzero
          refine absurd ?_ hzero
          cases removed.length <;> rfl
        · rw [List.drop_left] at hfull
          simp only [List.length_cons] at hfull
          omega

end

/-! ## The program -/

section

variable {room : Nat} {offset count : Int} {content : List UInt8}

/-- The interval ends behind the file. -/
theorem delete_truncates (h : 0 ≤ offset) (hle : offset ≤ content.length)
    (hroom : upper offset count - lower offset count + 1 ≤ room)
    (hbehind : content.length < upper offset count) (fuel : Nat) :
    delete room offset count content fuel = some (without offset count content) := by
  have hlower := lower_le_upper offset count
  have hstart : lower offset count ≤ content.length := by
    rw [lower]
    omega
  simp only [delete, forward_eq h, lseek_end]
  rw [if_pos (by omega), if_neg (by omega), if_pos (by omega), ftruncate_eq hstart, without,
    List.drop_eq_nil_of_le (Nat.le_of_lt hbehind), List.append_nil]

/-- The interval ends within the file: the loop starts at its end. -/
theorem delete_loops (h : 0 ≤ offset)
    (hroom : upper offset count - lower offset count + 1 ≤ room)
    (hwithin : upper offset count ≤ content.length) (fuel : Nat) :
    delete room offset count content fuel =
      (deleteLoop fuel (deleteStart (content.take (lower offset count) ++ slice offset count content)
        (content.drop (upper offset count)) (slice offset count content).length)).map
          fun s => s.file.content := by
  have hlower := lower_le_upper offset count
  have hslice : (slice offset count content).length = upper offset count - lower offset count := by
    rw [slice, List.length_drop, List.length_take, Nat.min_eq_left hwithin]
  have hbefore : content.take (lower offset count) ++ slice offset count content =
      content.take (upper offset count) := by
    rw [slice, ← List.take_append_drop (lower offset count) (content.take (upper offset count)),
      List.take_take, Nat.min_eq_left hlower, List.drop_left' (List.length_take_of_le (by omega))]
  have hend : (lower offset count : Int) + ((upper offset count - lower offset count : Nat) : Int) =
      (upper offset count : Int) := by omega
  have hsize : (((upper offset count - lower offset count : Nat) : Int) + 1).toNat =
      upper offset count - lower offset count + 1 := by omega
  simp only [delete, forward_eq h, lseek_end, hend, lseek_set, hsize, Int.toNat_natCast]
  rw [if_pos (by omega), if_neg (by omega), if_neg (by omega), hbefore, hslice, deleteStart,
    List.take_append_drop, List.length_take_of_le hwithin]

end

theorem delete_exact_iff (room : Nat) (offset count : Int) (content : List UInt8)
    (h : 0 ≤ offset) (hle : offset ≤ content.length) :
    (∃ fuel, delete room offset count content fuel = some (without offset count content)) ↔
      max offset (offset + count) - max 0 (min offset (offset + count)) + 1 ≤ room ∧
        (content.length < max offset (offset + count) ∨
          FollowsCopy (slice offset count content) (content.drop (upper offset count))) := by
  have hlower := lower_le_upper offset count
  have hsize : max offset (offset + count) - max 0 (min offset (offset + count)) + 1 ≤ (room : Int) ↔
      upper offset count - lower offset count + 1 ≤ room := by
    rw [upper, lower] at *
    omega
  have hend : (content.length : Int) < max offset (offset + count) ↔
      content.length < upper offset count := by
    rw [upper]
    omega
  have hstart : lower offset count ≤ content.length := by
    rw [lower]
    omega
  rw [hsize, hend]
  by_cases hroom : upper offset count - lower offset count + 1 ≤ room
  · rcases Nat.lt_or_ge content.length (upper offset count) with hbehind | hwithin
    · simp [delete_truncates h hle hroom hbehind, hroom, hbehind]
    · have hloop := deleteLoop_exact_iff (content.take (lower offset count))
        (slice offset count content) (content.drop (upper offset count))
      simp only [delete_loops h hroom hwithin, Option.map_eq_some_iff, without, hloop, hroom,
        Nat.not_lt.mpr hwithin, true_and, false_or]
  · have hnone : ∀ fuel, delete room offset count content fuel = none := by
      intro fuel
      simp only [delete, forward_eq h]
      rw [if_neg (by omega)]
    simp [hnone, hroom]

theorem delete_exact_iff_copy : ∃ fuel, delete 100 0 1 [97, 97, 0] fuel = some [97, 0] :=
  (delete_exact_iff 100 0 1 [97, 97, 0] (by decide) (by decide)).mpr
    ⟨by decide, .inr (.inl rfl)⟩

/-- One byte is removed from `abcdef`: the loop does not end. -/
theorem delete_never_ends :
    ¬ ∃ fuel, delete 8000000 1 1 [97, 98, 99, 100, 101, 102] fuel =
      some (without 1 1 [97, 98, 99, 100, 101, 102]) := by
  intro h
  obtain ⟨fuel, hfuel⟩ := h
  rw [delete_loops (by decide) (by decide) (by decide)] at hfuel
  rw [show (slice 1 1 [97, 98, 99, 100, 101, 102]).length = 1 from rfl,
    delete_endless (by decide) (by decide)] at hfuel
  cases hfuel

end FileStructure
end SsuComputer
