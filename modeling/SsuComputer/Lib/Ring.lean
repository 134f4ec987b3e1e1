import Mathlib.Logic.Function.Basic
import Mathlib.Data.List.Basic

/-!
# SsuComputer.Lib.Ring

A queue kept in a ring of `c` cells.

`RingHolds c data start xs`: from position `start` on, the cells hold `xs`. Positions count on
without end and are taken modulo `c`; cells behind the last element hold anything.
-/

namespace SsuComputer

variable {α : Type _} {c start : Nat} {data : Nat → α} {x : α} {xs : List α}

def RingHolds (c : Nat) (data : Nat → α) (start : Nat) (xs : List α) : Prop :=
  xs.length ≤ c ∧ ∀ i, ∀ h : i < xs.length, data ((start + i) % c) = xs[i]

namespace RingHolds

theorem nil : RingHolds c data start [] := ⟨Nat.zero_le c, nofun⟩

/-- Two positions of the occupied part are different cells. -/
theorem cell_ne {i j : Nat} (hij : i < j) (hj : j < i + c) : (start + i) % c ≠ (start + j) % c := by
  intro h
  have hmod : (j - i) % c = 0 := by
    have := Nat.sub_mod_eq_zero_of_mod_eq h.symm
    rwa [Nat.add_sub_add_left] at this
  rw [Nat.mod_eq_of_lt (by omega)] at hmod
  omega

theorem push (h : RingHolds c data start xs) (hlt : xs.length < c) :
    RingHolds c (Function.update data ((start + xs.length) % c) x) start (xs ++ [x]) := by
  refine ⟨by rw [List.length_append]; exact hlt, fun i hi => ?_⟩
  rw [List.length_append, List.length_singleton] at hi
  rcases Nat.lt_succ_iff_lt_or_eq.mp hi with hi | rfl
  · rw [Function.update_of_ne (cell_ne hi (by omega)), h.2 i hi, List.getElem_append_left hi]
  · rw [Function.update_self, List.getElem_append_right (Nat.le_refl _)]
    simp

theorem head (h : RingHolds c data start (x :: xs)) : data (start % c) = x :=
  h.2 0 (Nat.succ_pos _)

theorem pop (h : RingHolds c data start (x :: xs)) : RingHolds c data (start + 1) xs := by
  refine ⟨Nat.le_of_succ_le h.1, fun i hi => ?_⟩
  rw [Nat.add_assoc, Nat.add_comm 1 i]
  exact h.2 (i + 1) (Nat.succ_lt_succ hi)

/-- The position matters up to whole turns of the ring only. -/
theorem congr {start' : Nat} (h : RingHolds c data start xs) (hmod : start' % c = start % c) :
    RingHolds c data start' xs := by
  refine ⟨h.1, fun i hi => ?_⟩
  rw [Nat.add_mod, hmod, ← Nat.add_mod]
  exact h.2 i hi

end RingHolds

end SsuComputer
