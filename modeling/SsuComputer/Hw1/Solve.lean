import Mathlib.Data.Set.Card
import SsuComputer.Lib.Euclid
import Mathlib

/-!
# SsuComputer.Hw1.Solve

The three programs of HW1: the greatest common divisor of some numbers, and the primes between each
two neighbours among them.

* `gcd`, `primeNumberBetween` — written alike in all three; a `Language` says what `%` is and what
  the variable of the inner loop holds.
* `gcdBack`, `gcdFront` — `gcdVector`, which takes a number off the end in C++ and Java, and off the
  front in Python.
* `primeNumberBetween_exact` — for bounds of 32 bits, the three programs count the primes between them.
* `solveSorted` — what is printed for the numbers that are left after duplicates are removed and the
  rest is sorted, which `Cpp.solve`, `Java.solve` and `Python.solve` do each in its own way.
-/

namespace SsuComputer
namespace Hw1

structure Language where
  remainder : Remainder
  /-- The variable of the inner loop of `prime_number_between` can hold the number. -/
  fits : Int → Bool

def gcd (R : Remainder) (a b : Int) : Int := if a < b then euclid R b a else euclid R a b

/-- An empty vector has no last number. -/
def gcdBack (R : Remainder) : List Int → Option Int
  | [] => none
  | [x] => some x
  | [x, y] => some (gcd R x y)
  | x :: y :: z :: rest =>
    (gcdBack R (x :: (y :: z :: rest).dropLast)).map
      (gcd R ((z :: rest).getLast (List.cons_ne_nil z rest)))
termination_by numbers => numbers.length

def gcdFront (R : Remainder) : List Int → Option Int
  | [] => none
  | [x] => some x
  | [x, y] => some (gcd R x y)
  | x :: y :: z :: rest => (gcdFront R (y :: z :: rest)).map (gcd R x)

/-- `for (i = 2; i <= a; i++) if (a % i == 0) break;` from some `i` on: the value of `i` after it,
unless the variable overflows. -/
def innerLoop (L : Language) (a i : Int) : Option Int :=
  if i ≤ a then
    if L.remainder.mod a i = 0 then some i
    else if L.fits (i + 1) then innerLoop L a (i + 1) else none
  else some i
termination_by (a + 1 - i).toNat

/-- `for (; a <= b; a++)`, and `result` after it. -/
def outerLoop (L : Language) (a b result : Int) : Option Int :=
  if a ≤ b then
    match innerLoop L a 2 with
    | some i => outerLoop L (a + 1) b (if a = i then result + 1 else result)
    | none => none
  else some result
termination_by (b + 1 - a).toNat

def primeNumberBetween (L : Language) (a b : Int) : Option Int :=
  if a > b then outerLoop L b a 0 else outerLoop L a b 0

/-- The lines that follow the first one: two neighbours, and the number of primes between them. -/
def triples (L : Language) (numbers : List Int) : Option (List (Int × Int × Int)) :=
  (numbers.zip numbers.tail).mapM fun p =>
    (primeNumberBetween L p.1 p.2).map fun count => (p.1, p.2, count)

def solveSorted (L : Language) (gcdVector : List Int → Option Int) (numbers : List Int) :
    Option (Int × List (Int × Int × Int)) := do
  let divisor ← gcdVector numbers
  let lines ← triples L numbers
  return (divisor, lines)

namespace Cpp

def language : Language := ⟨truncated, fun i => i ≤ 2147483647⟩

def gcdVector : List Int → Option Int := gcdBack truncated

/-- `unique` removes a number only when it follows its equal. -/
def solve (numbers : List Int) : Option (Int × List (Int × Int × Int)) :=
  solveSorted language gcdVector ((numbers.destutter (· ≠ ·)).insertionSort (· ≤ ·))

end Cpp

namespace Java

def language : Language := ⟨truncated, fun i => i ≤ 9223372036854775807⟩

def gcdVector : List Int → Option Int := gcdBack truncated

/-- A `LinkedHashSet` keeps the first of equal numbers. -/
def solve (numbers : List Int) : Option (Int × List (Int × Int × Int)) :=
  solveSorted language gcdVector (numbers.reverse.dedup.reverse.insertionSort (· ≤ ·))

end Java

namespace Python

def language : Language := ⟨floored, fun _ => true⟩

def gcdVector : List Int → Option Int := gcdFront floored

/-- `list(set(numbers))` has every number once; its order is lost in `sort`. -/
def solve (numbers : List Int) : Option (Int × List (Int × Int × Int)) :=
  solveSorted language gcdVector (numbers.dedup.insertionSort (· ≤ ·))

end Python

/-! ## The number of primes -/

noncomputable def primes (a b : Int) : Finset Int := (Finset.Icc a b).filter fun p => p.toNat.Prime

theorem mod_eq_zero_iff (R : Remainder) (a b : Nat) : R.mod a b = 0 ↔ b ∣ a := by
  rw [R.mod_natCast, Int.natCast_eq_zero, Nat.dvd_iff_mod_eq_zero]

/-- No number from `2` on divides `a` before the loop has reached `i`. -/
theorem innerLoop_eq {L : Language} {a i : Nat} (hfits : ∀ j ≤ (a : Int), L.fits j = true)
    (hi : 2 ≤ i) (hle : i ≤ a.minFac) (ha : 2 ≤ a) : innerLoop L a i = some (a.minFac : Int) := by
  have hmin : a.minFac ≤ a := Nat.minFac_le (by omega)
  induction hk : a.minFac - i generalizing i with
  | zero =>
    obtain rfl : i = a.minFac := by omega
    rw [innerLoop, if_pos (by omega), if_pos ((mod_eq_zero_iff _ _ _).mpr a.minFac_dvd)]
  | succ k ih =>
    have hne : ¬ i ∣ a := by
      intro hdvd
      have := Nat.minFac_le_of_dvd hi hdvd
      omega
    have hfit : L.fits ((i : Int) + 1) = true := hfits _ (by omega)
    have hnext := ih (i := i + 1) (by omega) (by omega) (by omega)
    rw [innerLoop, if_pos (by omega), if_neg (by rwa [mod_eq_zero_iff]), if_pos hfit, ← hnext]
    rfl

theorem innerLoop_two {L : Language} {a : Int} (hfits : ∀ j ≤ a, L.fits j = true) :
    ∃ i, innerLoop L a 2 = some i ∧ (a = i ↔ a.toNat.Prime) := by
  rcases lt_or_ge a 2 with h | h
  · refine ⟨2, by rw [innerLoop, if_neg (by omega)], ?_⟩
    constructor
    · omega
    · intro hp
      have := hp.two_le
      omega
  · obtain ⟨n, rfl⟩ := Int.eq_ofNat_of_zero_le (by omega : 0 ≤ a)
    have hn : 2 ≤ n := by omega
    refine ⟨(n.minFac : Int), innerLoop_eq hfits (Nat.le_refl 2) (Nat.minFac_prime (by omega)).two_le hn,
      ?_⟩
    rw [Int.toNat_natCast, Nat.prime_def_minFac]
    constructor
    · intro heq
      exact ⟨hn, by omega⟩
    · intro hp
      omega

theorem primes_of_lt {a b : Int} (h : b < a) : primes a b = ∅ := by
  rw [primes, Finset.Icc_eq_empty (by omega), Finset.filter_empty]

theorem card_primes {a b : Int} (h : a ≤ b) :
    (primes a b).card = (if a.toNat.Prime then 1 else 0) + (primes (a + 1) b).card := by
  have hsplit : Finset.Icc a b = insert a (Finset.Icc (a + 1) b) := by
    ext p
    simp only [Finset.mem_insert, Finset.mem_Icc]
    omega
  rw [primes, hsplit, Finset.filter_insert]
  split
  · rw [Finset.card_insert_of_notMem (by simp), Nat.add_comm, primes]
  · rw [Nat.zero_add, primes]

theorem outerLoop_eq {L : Language} {a b : Int} (hfits : ∀ j ≤ b, L.fits j = true) (result : Int) :
    outerLoop L a b result = some (result + (primes a b).card) := by
  induction hk : (b + 1 - a).toNat generalizing a result with
  | zero =>
    rw [outerLoop, if_neg (by omega), primes_of_lt (by omega)]
    simp
  | succ k ih =>
    have hle : a ≤ b := by omega
    obtain ⟨i, hi, hprime⟩ := innerLoop_two (a := a) fun j hj => hfits j (hj.trans hle)
    rw [outerLoop, if_pos hle, hi]
    dsimp only
    rw [ih _ (by omega), card_primes hle]
    simp only [hprime]
    split
    · rw [Nat.cast_add, Nat.cast_one, Int.add_assoc]
    · rw [Nat.zero_add]

theorem primeNumberBetween_eq {L : Language} {a b : Int}
    (hfits : ∀ j ≤ max a b, L.fits j = true) :
    primeNumberBetween L a b = some ((primes (min a b) (max a b)).card : Int) := by
  rw [primeNumberBetween]
  split
  · rename_i h
    rw [Int.max_eq_left (by omega)] at *
    rw [outerLoop_eq hfits, min_eq_right (by omega), Int.zero_add]
  · rename_i h
    rw [Int.max_eq_right (by omega)] at *
    rw [outerLoop_eq hfits, Int.min_eq_left (by omega), Int.zero_add]

/-- The primes from `a` to `b`, as natural numbers. -/
def primesBetween (a b : Int) : Set Nat := {p | p.Prime ∧ a ≤ p ∧ (p : Int) ≤ b}

theorem primesBetween_ncard (a b : Int) : (primesBetween a b).ncard = (primes a b).card := by
  have hcast : Function.Injective (Nat.cast : Nat → Int) := Nat.cast_injective
  have himage : Nat.cast '' primesBetween a b = (primes a b : Set Int) := by
    ext p
    rw [primes, Finset.mem_coe, Finset.mem_filter, Finset.mem_Icc]
    constructor
    · intro h
      obtain ⟨n, ⟨hn, ha, hb⟩, rfl⟩ := h
      exact ⟨⟨ha, hb⟩, hn⟩
    · intro h
      obtain ⟨⟨ha, hb⟩, hp⟩ := h
      have hpos := hp.pos
      have heq : (p.toNat : Int) = p := Int.toNat_of_nonneg (by omega)
      exact ⟨p.toNat, ⟨hp, by rwa [heq], by rwa [heq]⟩, heq⟩
  rw [← Set.ncard_image_of_injective _ hcast, himage, Set.ncard_coe_finset]

/-- The variable of the inner loop goes up to the bounds at most, whatever they are. -/
theorem primeNumberBetween_int32 {L : Language} (hfits : ∀ j < 2 ^ 31, L.fits j = true)
    (a b : Int32) :
    primeNumberBetween L a.toInt b.toInt =
      some ((primesBetween (min a.toInt b.toInt) (max a.toInt b.toInt)).ncard : Int) := by
  have ha := a.toInt_lt
  have hb := b.toInt_lt
  rw [primesBetween_ncard]
  exact primeNumberBetween_eq fun j hj => hfits j (by omega)

theorem primeNumberBetween_exact (a b : Int32) :
    let count : Int := (primesBetween (min a.toInt b.toInt) (max a.toInt b.toInt)).ncard
    primeNumberBetween Cpp.language a.toInt b.toInt = some count ∧
      primeNumberBetween Java.language a.toInt b.toInt = some count ∧
      primeNumberBetween Python.language a.toInt b.toInt = some count :=
  ⟨primeNumberBetween_int32 (fun j hj => decide_eq_true (by omega)) a b,
    primeNumberBetween_int32 (fun j hj => decide_eq_true (by omega)) a b,
    primeNumberBetween_int32 (fun _ _ => rfl) a b⟩

end Hw1
end SsuComputer
