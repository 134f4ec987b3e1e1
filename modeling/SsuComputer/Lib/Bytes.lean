import Mathlib.Algebra.Ring.Nat
import Mathlib.Data.List.Basic
import Mathlib.Logic.Function.Basic

/-!
# SsuComputer.Lib.Bytes

A region of memory as a function from addresses to bytes: copying bytes into it (`blit`) and out of
it (`load`), numbers in little-endian order (`bytesLE`, `getLE`), and single bits.
-/

namespace SsuComputer

/-! ## Copying -/

/-- The bytes `xs` stored from `a` on. -/
def blit (m : Nat → Nat) (a : Nat) (xs : List Nat) : Nat → Nat :=
  fun x => if a ≤ x ∧ x < a + xs.length then xs.getD (x - a) 0 else m x

def load (m : Nat → Nat) (a n : Nat) : List Nat := (List.range n).map fun i => m (a + i)

variable {m m' : Nat → Nat} {a b n w v i j : Nat} {xs : List Nat}

@[simp] theorem length_load : (load m a n).length = n := by simp [load]

theorem getElem?_load (h : i < n) : (load m a n)[i]? = some (m (a + i)) := by
  simp [load, List.getElem?_range h]

theorem load_congr (h : ∀ x, a ≤ x → x < a + n → m' x = m x) : load m' a n = load m a n :=
  List.map_congr_left fun i hi => h _ (Nat.le_add_right _ _) (by
    have := List.mem_range.mp hi
    omega)

theorem blit_of_not_mem {x : Nat} (h : x < a ∨ a + xs.length ≤ x) : blit m a xs x = m x := by
  rw [blit, if_neg (by omega)]

theorem blit_add (h : i < xs.length) : blit m a xs (a + i) = xs.getD i 0 := by
  rw [blit, if_pos (by omega), Nat.add_sub_cancel_left]

/-- What was stored, read back in any part of it. -/
theorem load_blit (h : i + n ≤ xs.length) :
    load (blit m a xs) (a + i) n = (xs.drop i).take n := by
  refine List.ext_getElem? fun j => ?_
  by_cases hj : j < n
  · rw [getElem?_load hj, Nat.add_assoc, blit_add (by omega), List.getElem?_take_of_lt hj,
      List.getElem?_drop, List.getD_eq_getElem?_getD, List.getElem?_eq_getElem (by omega),
      Option.getD_some]
  · rw [List.getElem?_eq_none (by simp; omega), List.getElem?_eq_none (by simp; omega)]

theorem load_blit_self : load (blit m a xs) a xs.length = xs := by
  have h : 0 + xs.length ≤ xs.length := by simp
  simpa using load_blit (m := m) (a := a) h

theorem load_blit_of_disjoint (h : a + n ≤ b ∨ b + xs.length ≤ a) :
    load (blit m b xs) a n = load m a n :=
  load_congr fun x hx hxn => blit_of_not_mem (by omega)

/-! ## Numbers -/

def bytesLE : Nat → Nat → List Nat
  | 0, _ => []
  | w + 1, v => v % 256 :: bytesLE w (v / 256)

def ofLE : List Nat → Nat
  | [] => 0
  | x :: xs => x % 256 + 256 * ofLE xs

/-- The number of `w` bytes at `a`. -/
def getLE (w : Nat) (m : Nat → Nat) (a : Nat) : Nat := ofLE (load m a w)

@[simp] theorem length_bytesLE : (bytesLE w v).length = w := by
  induction w generalizing v with
  | zero => rfl
  | succ w ih => simp [bytesLE, ih]

theorem ofLE_bytesLE (h : v < 256 ^ w) : ofLE (bytesLE w v) = v := by
  induction w generalizing v with
  | zero =>
    rw [Nat.pow_zero] at h
    simp [bytesLE, ofLE]
    omega
  | succ w ih =>
    rw [bytesLE, ofLE, ih (by rw [Nat.pow_succ] at h; omega)]
    omega

theorem getLE_congr (h : ∀ x, a ≤ x → x < a + w → m' x = m x) : getLE w m' a = getLE w m a := by
  rw [getLE, load_congr h, getLE]

theorem getLE_blit_of_disjoint (h : a + w ≤ b ∨ b + xs.length ≤ a) :
    getLE w (blit m b xs) a = getLE w m a := by
  rw [getLE, load_blit_of_disjoint h, getLE]

theorem getLE_blit (h : v < 256 ^ w) : getLE w (blit m a (bytesLE w v)) a = v := by
  have hload : load (blit m a (bytesLE w v)) a (bytesLE w v).length = bytesLE w v :=
    load_blit_self
  rw [length_bytesLE] at hload
  rw [getLE, hload, ofLE_bytesLE h]

theorem getLE_zero (h : ∀ x, a ≤ x → x < a + w → m x = 0) : getLE w m a = 0 := by
  have hz : ∀ n, ofLE (List.replicate n 0) = 0 := fun n => by
    induction n with
    | zero => rfl
    | succ n ih => rw [List.replicate_succ, ofLE, ih]
  have : load m a w = List.replicate w 0 := by
    refine List.eq_replicate_iff.mpr ⟨length_load, fun x hx => ?_⟩
    obtain ⟨i, hi, rfl⟩ := List.mem_map.mp hx
    have := List.mem_range.mp hi
    exact h _ (Nat.le_add_right _ _) (by omega)
  rw [getLE, this, hz]

/-! ## Bits -/

def bitAt (m : Nat → Nat) (i : Nat) : Bool := (m (i / 8)).testBit (i % 8)

def setBit (m : Nat → Nat) (i : Nat) : Nat → Nat :=
  Function.update m (i / 8) (m (i / 8) ||| 1 <<< (i % 8))

def clearBit (m : Nat → Nat) (i : Nat) : Nat → Nat :=
  Function.update m (i / 8) (m (i / 8) &&& (255 ^^^ 1 <<< (i % 8)))

theorem bitAt_setBit : bitAt (setBit m i) j = (decide (i = j) || bitAt m j) := by
  unfold bitAt setBit
  by_cases hd : j / 8 = i / 8
  · rw [hd, Function.update_self, Nat.testBit_or, Nat.one_shiftLeft, Nat.testBit_two_pow,
      Bool.or_comm]
    congr 2
    simp only [eq_iff_iff]
    omega
  · rw [Function.update_of_ne hd, decide_eq_false (by rintro rfl; exact hd rfl), Bool.false_or]

theorem bitAt_clearBit : bitAt (clearBit m i) j = (decide (i ≠ j) && bitAt m j) := by
  unfold bitAt clearBit
  by_cases hd : j / 8 = i / 8
  · have hlow : (255 : Nat).testBit (j % 8) = true := by
      rw [show (255 : Nat) = 2 ^ 8 - 1 from rfl, Nat.testBit_two_pow_sub_one]
      exact decide_eq_true (Nat.mod_lt _ (by decide))
    rw [hd, Function.update_self, Nat.testBit_and, Nat.testBit_xor, hlow, Nat.one_shiftLeft,
      Nat.testBit_two_pow, Bool.true_xor, Bool.and_comm, ← decide_not]
    congr 2
    simp only [eq_iff_iff]
    omega
  · rw [Function.update_of_ne hd, decide_eq_true (by rintro rfl; exact hd rfl), Bool.true_and]

end SsuComputer
