import Mathlib.Algebra.Ring.Parity
import Mathlib.Data.Int.GCD
import Mathlib.Tactic.Ring

/-!
# SsuComputer.Lib.Euclid

Euclid's algorithm on integers, with the remainder of a programming language.

* `Remainder` — a remainder that is the usual one on natural numbers, goes along with the sign of
  both numbers, and is smaller than the divisor. `truncated` and `floored` are those of the common
  languages.
* `euclid` — the algorithm; `euclid_natCast` and `euclid_neg` are its results on numbers of one sign.
* `euclid_floored` — with the floored remainder, the result has the sign of the divisor.
* `divisions` — the number of divisions that Euclid's algorithm makes on two natural numbers;
  `euclid_truncated` says that with the truncated remainder the sign is that of its parity.
-/

namespace SsuComputer

structure Remainder where
  mod : Int → Int → Int
  mod_natCast : ∀ a b : Nat, mod a b = ((a % b : Nat) : Int)
  mod_neg_neg : ∀ a b, mod (-a) (-b) = -mod a b
  natAbs_lt : ∀ a b, b ≠ 0 → (mod a b).natAbs < b.natAbs
  gcd_mod : ∀ a b, Int.gcd b (mod a b) = Int.gcd a b

def truncated : Remainder where
  mod := Int.tmod
  mod_natCast _ _ := rfl
  mod_neg_neg a b := by rw [Int.tmod_neg, Int.neg_tmod]
  natAbs_lt a b hb := by
    rw [Int.natAbs_tmod]
    exact Nat.mod_lt _ (Int.natAbs_pos.mpr hb)
  gcd_mod a b := by rw [Int.gcd, Int.gcd, Int.natAbs_tmod, Nat.gcd_comm, ← Nat.gcd_rec, Nat.gcd_comm]

theorem fmod_neg_neg (a b : Int) : (-a).fmod (-b) = -a.fmod b := by
  rw [Int.fmod_def, Int.fmod_def, Int.neg_fdiv_neg]
  ring

theorem natAbs_fmod_lt (a : Int) {b : Int} (hb : b ≠ 0) : (a.fmod b).natAbs < b.natAbs := by
  rcases Int.lt_or_gt_of_ne hb with h | h
  · have hpos : 0 < -b := by omega
    have h0 := Int.fmod_nonneg_of_pos (-a) hpos
    have hlt := Int.fmod_lt_of_pos (-a) hpos
    rw [fmod_neg_neg] at h0 hlt
    omega
  · have h0 := Int.fmod_nonneg_of_pos a h
    have hlt := Int.fmod_lt_of_pos a h
    omega

def floored : Remainder where
  mod := Int.fmod
  mod_natCast a b := by rw [Int.fmod_eq_emod_of_nonneg _ (Int.natCast_nonneg b), Int.natCast_mod]
  mod_neg_neg := fmod_neg_neg
  natAbs_lt a _ hb := natAbs_fmod_lt a hb
  gcd_mod a b := by rw [Int.fmod_def, Int.gcd_sub_mul_left_right, Int.gcd_comm]

/-- `while (b != 0) { temp = a % b; a = b; b = temp; }`, and `a` after it. -/
def euclid (R : Remainder) (a b : Int) : Int :=
  if _ : b = 0 then a else euclid R b (R.mod a b)
termination_by b.natAbs
decreasing_by exact R.natAbs_lt a b ‹_›

variable (R : Remainder)

theorem euclid_zero (a : Int) : euclid R a 0 = a := by
  rw [euclid, dif_pos rfl]

theorem euclid_of_ne {b : Int} (h : b ≠ 0) (a : Int) : euclid R a b = euclid R b (R.mod a b) := by
  rw [euclid, dif_neg h]

theorem euclid_neg (a b : Int) : euclid R (-a) (-b) = -euclid R a b := by
  induction a, b using euclid.induct R with
  | case1 a => rw [Int.neg_zero, euclid_zero, euclid_zero]
  | case2 a b h ih =>
    rw [euclid_of_ne R h, euclid_of_ne R (Int.neg_ne_zero.mpr h), R.mod_neg_neg, ih]

theorem euclid_natCast (a b : Nat) : euclid R a b = Nat.gcd a b := by
  induction b using Nat.strong_induction_on generalizing a with
  | h b ih =>
    rcases Nat.eq_zero_or_pos b with rfl | hb
    · rw [Int.natCast_zero, euclid_zero, Nat.gcd_zero_right]
    · rw [euclid_of_ne R (by omega), R.mod_natCast, ih _ (Nat.mod_lt a hb), Nat.gcd_comm b,
        ← Nat.gcd_rec, Nat.gcd_comm]

theorem euclid_floored (a : Int) {b : Nat} (h : 0 < b) :
    euclid floored a (-(b : Int)) = -(Int.gcd a b : Int) := by
  have hneg : floored.mod a (-(b : Int)) = -(-a).fmod b := by
    have := floored.mod_neg_neg (-a) b
    rwa [Int.neg_neg] at this
  obtain ⟨r, hr⟩ := Int.eq_ofNat_of_zero_le (Int.fmod_nonneg_of_pos (-a) (Int.natCast_pos.mpr h))
  have hgcd : Nat.gcd b r = Int.gcd a b := by
    have := floored.gcd_mod a (-(b : Int))
    rwa [hneg, hr, Int.gcd_neg, Int.neg_gcd, Int.gcd_neg] at this
  rw [euclid_of_ne _ (by omega), hneg, hr, euclid_neg, euclid_natCast, hgcd]

def divisions (a b : Nat) : Nat := if b = 0 then 0 else divisions b (a % b) + 1
termination_by b
decreasing_by exact Nat.mod_lt a (Nat.pos_of_ne_zero ‹_›)

theorem divisions_zero (a : Nat) : divisions a 0 = 0 := by
  rw [divisions, if_pos rfl]

theorem divisions_of_pos (a : Nat) {b : Nat} (h : 0 < b) :
    divisions a b = divisions b (a % b) + 1 := by
  rw [divisions, if_neg (Nat.ne_of_gt h)]

theorem euclid_truncated (a b : Nat) :
    euclid truncated a (-(b : Int)) = (-1) ^ divisions a b * (Nat.gcd a b : Int) := by
  induction b using Nat.strong_induction_on generalizing a with
  | h b ih =>
    rcases Nat.eq_zero_or_pos b with rfl | hb
    · rw [Int.natCast_zero, Int.neg_zero, euclid_zero, divisions_zero, Nat.gcd_zero_right, pow_zero,
        Int.one_mul]
    · have hmod : truncated.mod a (-(b : Int)) = - -((a % b : Nat) : Int) := by
        rw [Int.neg_neg]
        exact Int.tmod_neg a b
      rw [euclid_of_ne _ (by omega), hmod, euclid_neg, ih _ (Nat.mod_lt a hb), divisions_of_pos a hb,
        Nat.gcd_comm b, ← Nat.gcd_rec, Nat.gcd_comm, pow_succ]
      ring

end SsuComputer
