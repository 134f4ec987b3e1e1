import SsuComputer.Lib.CString
import SsuComputer.Lib.Separated

/-!
# SsuComputer.Sdup.ByteString

`get_byte_digit` and `get_byte_to_string`, the size of a file with commas, written from the right.

* `getByteDigit_eq` — the number of digits.
* `byteLoop_eq` — what the loop has written after each digit.
* `getByteToString_eq` — the length is that of the digits with commas, and so is the text.
-/

namespace SsuComputer
namespace Sdup

/-- `decimal_to_char`: `'0' + i % 10`. -/
def decimalToChar (i : Int) : Char := Char.ofNat ('0'.toNat + i.tmod 10).toNat

def digitLoop (byte : Int) (cnt : Nat) : Nat :=
  if byte = 0 then cnt else digitLoop (byte.tdiv 10) (cnt + 1)
termination_by byte.natAbs
decreasing_by
  rw [Int.natAbs_tdiv]
  exact Nat.div_lt_self (Int.natAbs_pos.mpr ‹_›) (by simp)

def getByteDigit (byte : Int) : Nat := digitLoop byte 0

/-- The loop that fills `result` from its end, with `rounds` more to go; `text` is what is there
from `result[rounds]` on. -/
def byteLoop : Nat → Int → Nat → CString → CString
  | 0, _, _, text => text
  | rounds + 1, byte, cnt, text =>
    if cnt = 3 then byteLoop rounds byte 0 (',' :: text)
    else byteLoop rounds (byte.tdiv 10) (cnt + 1) (decimalToChar (byte.tmod 10) :: text)

/-- `get_byte_to_string`. There is no result when the terminator goes before `result`. -/
def getByteToString (byte : Int) : Option CString :=
  let digits : Int := getByteDigit byte
  let len := if digits.tmod 3 ≠ 0 then digits + digits.tdiv 3 else digits + (digits.tdiv 3 - 1)
  if len < 0 then none else some (byteLoop len.toNat byte 0 [])

/-! ## The digits -/

/-- The digits that are still to be written. -/
def digitsText (m : Nat) : CString := if m = 0 then [] else Nat.toDigits 10 m

theorem decimalToChar_tmod (m : Nat) :
    decimalToChar ((m : Int).tmod 10) = Nat.digitChar (m % 10) := by
  have hchar : ∀ d < 10, decimalToChar (d : Nat) = Nat.digitChar d := by decide
  exact hchar (m % 10) (Nat.mod_lt _ (by simp))

theorem digitsText_of_pos {m : Nat} (h : 0 < m) :
    digitsText m = digitsText (m / 10) ++ [decimalToChar ((m : Int).tmod 10)] := by
  rw [decimalToChar_tmod, digitsText, if_neg h.ne', Nat.toDigits_eq_if (by simp)]
  by_cases hlt : m < 10
  · rw [if_pos hlt, Nat.div_eq_of_lt hlt, Nat.mod_eq_of_lt hlt]
    rfl
  · have hdiv : m / 10 ≠ 0 := by omega
    rw [if_neg hlt, digitsText, if_neg hdiv]

theorem tdiv_natCast (m : Nat) : (m : Int).tdiv 10 = (m / 10 : Nat) := rfl

theorem digitLoop_eq (m cnt : Nat) : digitLoop m cnt = cnt + (digitsText m).length := by
  induction m using Nat.strongRecOn generalizing cnt with
  | _ m ih =>
    rw [digitLoop]
    by_cases hm : m = 0
    · subst hm
      simp [digitsText]
    · have hpos : 0 < m := Nat.pos_of_ne_zero hm
      rw [if_neg (by simpa using hm), tdiv_natCast, ih _ (Nat.div_lt_self hpos (by simp)),
        digitsText_of_pos hpos, List.length_append, List.length_singleton]
      omega

theorem getByteDigit_eq (m : Nat) : getByteDigit m = (digitsText m).length := by
  rw [getByteDigit, digitLoop_eq, Nat.zero_add]

/-! ## The loop -/

/-- The counter after `written` digits. -/
def counter (written : Nat) : Nat := if written = 0 then 0 else (written - 1) % 3 + 1

theorem counter_eq_three {k : Nat} : counter k = 3 ↔ 0 < k ∧ k % 3 = 0 := by
  rw [counter]
  split <;> omega

theorem counter_succ (k : Nat) :
    counter (k + 1) = if 0 < k ∧ k % 3 = 0 then 1 else counter k + 1 := by
  rw [counter, if_neg k.succ_ne_zero]
  split
  · omega
  · rw [counter]
    split <;> omega

/-- With `written` on the right of the rest of the digits, the rounds that are left write the whole
text. -/
theorem byteLoop_eq (m : Nat) (written : CString) (rounds : Nat)
    (hrounds : (separated ',' 3 written).length + rounds =
      (separated ',' 3 (digitsText m ++ written)).length) :
    byteLoop rounds m (counter written.length) (separated ',' 3 written) =
      separated ',' 3 (digitsText m ++ written) := by
  induction m using Nat.strongRecOn generalizing written rounds with
  | _ m ih =>
    by_cases hm : m = 0
    · subst hm
      have hzero : rounds = 0 := by simpa [digitsText] using hrounds
      rw [hzero]
      rfl
    have hpos : 0 < m := Nat.pos_of_ne_zero hm
    have hlast := digitsText_of_pos hpos
    have ih := fun r => ih (m / 10) (Nat.div_lt_self hpos (by simp))
      (decimalToChar ((m : Int).tmod 10) :: written) r
    rw [hlast, List.append_assoc, List.singleton_append] at hrounds ⊢
    simp only [separated_length, List.length_append, List.length_cons, ← Nat.add_assoc,
      Nat.add_sub_cancel, counter_succ] at hrounds ih
    by_cases hgroup : 0 < written.length ∧ written.length % 3 = 0
    · -- a comma first
      obtain ⟨r, rfl⟩ : ∃ r, rounds = r + 2 := ⟨rounds - 2, by omega⟩
      rw [byteLoop, if_pos (counter_eq_three.mpr hgroup), byteLoop, if_neg (by simp),
        tdiv_natCast]
      rw [if_pos hgroup, separated_cons_of_group hgroup.1 hgroup.2] at ih
      exact ih r (by omega)
    · obtain ⟨r, rfl⟩ : ∃ r, rounds = r + 1 := ⟨rounds - 1, by omega⟩
      rw [byteLoop, if_neg (fun h => hgroup (counter_eq_three.mp h)), tdiv_natCast]
      rw [if_neg hgroup, separated_cons_of_not hgroup] at ih
      exact ih r (by omega)

theorem getByteToString_eq {m : Nat} (h : 0 < m) :
    getByteToString m = some (separated ',' 3 (Nat.toDigits 10 m)) := by
  have hdigits : digitsText m = Nat.toDigits 10 m := if_neg h.ne'
  have hpos : 0 < (digitsText m).length := by
    rw [hdigits]
    exact Nat.length_toDigits_pos
  have hlength : (separated ',' 3 (digitsText m)).length =
      (digitsText m).length + ((digitsText m).length - 1) / 3 := separated_length
  have hloop := byteLoop_eq m [] (separated ',' 3 (digitsText m)).length (by simp)
  rw [List.append_nil, hdigits] at hloop
  rw [getByteToString, getByteDigit_eq]
  generalize (digitsText m).length = d at hpos hlength
  have hlen : (if (d : Int).tmod 3 ≠ 0 then d + (d : Int).tdiv 3
      else d + ((d : Int).tdiv 3 - 1)) = ((separated ',' 3 (digitsText m)).length : Int) := by
    have hmod : (d : Int).tmod 3 = (d % 3 : Nat) := rfl
    have hdiv : (d : Int).tdiv 3 = (d / 3 : Nat) := rfl
    rw [hmod, hdiv, hlength]
    split <;> omega
  simp only [hlen, hdigits]
  rw [if_neg (by omega)]
  exact congrArg some hloop

end Sdup
end SsuComputer
