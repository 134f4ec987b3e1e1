import Mathlib.Data.List.Forall2

/-!
# SsuComputer.Lib.Marks

Two lists whose marked elements pair up in order, as left behind by a traceback through a table.

`Marked R xs ys mx my i j`: from position `i` of `xs` and `j` of `ys` on, the elements marked by `mx`
and those marked by `my`, which count from 1, correspond one to one under `R`. `Marked.congr` and the
constructors build the relation from the end; the other rules walk along it from the start. `selected`
are the marked elements themselves, related one by one (`Marked.selected`).
-/

namespace SsuComputer

variable {α β : Type _} {R : α → β → Prop} {xs : List α} {ys : List β}

inductive Marked (R : α → β → Prop) (xs : List α) (ys : List β) (mx my : Nat → Bool) :
    Nat → Nat → Prop
  | done : Marked R xs ys mx my xs.length ys.length
  | skipLeft {i j : Nat} (hi : i < xs.length) (hx : mx (i + 1) = false)
      (h : Marked R xs ys mx my (i + 1) j) : Marked R xs ys mx my i j
  | skipRight {i j : Nat} (hj : j < ys.length) (hy : my (j + 1) = false)
      (h : Marked R xs ys mx my i (j + 1)) : Marked R xs ys mx my i j
  | pair {i j : Nat} (hi : i < xs.length) (hj : j < ys.length) (hx : mx (i + 1) = true)
      (hy : my (j + 1) = true) (hr : R xs[i] ys[j]) (h : Marked R xs ys mx my (i + 1) (j + 1)) :
      Marked R xs ys mx my i j

namespace Marked

variable {mx my mx' my' : Nat → Bool} {i j : Nat}

theorem le (h : Marked R xs ys mx my i j) : i ≤ xs.length ∧ j ≤ ys.length := by
  induction h with
  | done => exact ⟨Nat.le_refl _, Nat.le_refl _⟩
  | skipLeft hi _ _ ih => exact ⟨Nat.le_of_lt hi, ih.2⟩
  | skipRight hj _ _ ih => exact ⟨ih.1, Nat.le_of_lt hj⟩
  | pair hi hj _ _ _ _ _ => exact ⟨Nat.le_of_lt hi, Nat.le_of_lt hj⟩

/-- Only the marks behind the positions matter. -/
theorem congr (h : Marked R xs ys mx my i j) (hx : ∀ k, i < k → mx' k = mx k)
    (hy : ∀ k, j < k → my' k = my k) : Marked R xs ys mx' my' i j := by
  induction h with
  | done => exact .done
  | @skipLeft i j hi hm _ ih =>
    refine .skipLeft hi ?_ (ih (fun k hk => hx k (by omega)) hy)
    rw [hx _ (Nat.lt_succ_self i), hm]
  | @skipRight i j hj hm _ ih =>
    refine .skipRight hj ?_ (ih hx fun k hk => hy k (by omega))
    rw [hy _ (Nat.lt_succ_self j), hm]
  | @pair i j hi hj hmx hmy hr _ ih =>
    refine .pair hi hj ?_ ?_ hr (ih (fun k hk => hx k (by omega)) fun k hk => hy k (by omega))
    · rw [hx _ (Nat.lt_succ_self i), hmx]
    · rw [hy _ (Nat.lt_succ_self j), hmy]

/-- Unmarked elements in front of the positions can be taken in. -/
theorem back (h : Marked R xs ys mx my i j) {i' j' : Nat} (hi : i' ≤ i) (hj : j' ≤ j)
    (hx : ∀ k, i' < k → k ≤ i → mx k = false) (hy : ∀ k, j' < k → k ≤ j → my k = false) :
    Marked R xs ys mx my i' j' := by
  induction hi with
  | refl =>
    induction hj with
    | refl => exact h
    | @step j hj ih =>
      have hlast := hy (j + 1) (Nat.lt_succ_of_le hj) (Nat.le_refl _)
      exact ih (fun k hk hkj => hy k hk (Nat.le_succ_of_le hkj)) (.skipRight h.le.2 hlast h)
  | @step i hi ih =>
    have hlast := hx (i + 1) (Nat.lt_succ_of_le hi) (Nat.le_refl _)
    exact ih (.skipLeft h.le.1 hlast h) fun k hk hki => hx k hk (Nat.le_succ_of_le hki)

theorem extend (h : Marked R xs ys mx my i j) (hx : ∀ k ≤ i, mx k = false)
    (hy : ∀ k ≤ j, my k = false) : Marked R xs ys mx my 0 0 :=
  h.back (Nat.zero_le i) (Nat.zero_le j) (fun k _ => hx k) fun k _ => hy k

theorem skip_left (h : Marked R xs ys mx my i j) (hi : i < xs.length) (hx : mx (i + 1) = false) :
    Marked R xs ys mx my (i + 1) j := by
  induction h with
  | done => exact absurd hi (Nat.lt_irrefl _)
  | skipLeft _ _ h => exact h
  | skipRight hj hy _ ih => exact .skipRight hj hy (ih hi hx)
  | pair _ _ hx' => rw [hx] at hx'; cases hx'

theorem skip_right (h : Marked R xs ys mx my i j) (hj : j < ys.length) (hy : my (j + 1) = false) :
    Marked R xs ys mx my i (j + 1) := by
  induction h with
  | done => exact absurd hj (Nat.lt_irrefl _)
  | skipRight _ _ h => exact h
  | skipLeft hi hx _ ih => exact .skipLeft hi hx (ih hj hy)
  | pair _ _ _ hy' => rw [hy] at hy'; cases hy'

/-- Marked elements at both positions are a pair. -/
theorem pair_of_marked (h : Marked R xs ys mx my i j) (hi : i < xs.length) (hj : j < ys.length)
    (hx : mx (i + 1) = true) (hy : my (j + 1) = true) :
    R xs[i] ys[j] ∧ Marked R xs ys mx my (i + 1) (j + 1) := by
  cases h with
  | done => exact absurd hi (Nat.lt_irrefl _)
  | skipLeft _ hx' => rw [hx] at hx'; cases hx'
  | skipRight _ hy' => rw [hy] at hy'; cases hy'
  | pair _ _ _ _ hr h => exact ⟨hr, h⟩

end Marked

/-- The elements marked by `mx`, the first of them numbered `i + 1`. -/
def selected (mx : Nat → Bool) : Nat → List α → List α
  | _, [] => []
  | i, x :: xs => if mx (i + 1) then x :: selected mx (i + 1) xs else selected mx (i + 1) xs

theorem selected_sublist (mx : Nat → Bool) (i : Nat) (xs : List α) :
    (selected mx i xs).Sublist xs := by
  induction xs generalizing i with
  | nil => exact .refl _
  | cons x xs ih =>
    rw [selected]
    split
    · exact (ih _).cons_cons x
    · exact (ih _).cons x

theorem selected_congr {mx mx' : Nat → Bool} {i : Nat} (h : ∀ k, i < k → mx' k = mx k) (xs : List α) :
    selected mx' i xs = selected mx i xs := by
  induction xs generalizing i with
  | nil => rfl
  | cons x xs ih =>
    rw [selected, selected, h _ (Nat.lt_succ_self i), ih fun k hk => h k (by omega)]

theorem selected_drop (mx : Nat → Bool) {i : Nat} (h : i < xs.length) :
    selected mx i (xs.drop i) =
      if mx (i + 1) then xs[i] :: selected mx (i + 1) (xs.drop (i + 1))
      else selected mx (i + 1) (xs.drop (i + 1)) := by
  rw [List.drop_eq_getElem_cons h, selected]

theorem selected_of_below (mx : Nat → Bool) {i : Nat} (hi : i ≤ xs.length) (h : ∀ k ≤ i, mx k = false) :
    selected mx 0 xs = selected mx i (xs.drop i) := by
  induction i with
  | zero => rw [List.drop_zero]
  | succ i ih =>
    rw [ih (by omega) fun k hk => h k (by omega), selected_drop mx hi, h _ (Nat.le_refl _),
      if_neg Bool.false_ne_true]

theorem Marked.selected {mx my : Nat → Bool} {i j : Nat} (h : Marked R xs ys mx my i j) :
    List.Forall₂ R (selected mx i (xs.drop i)) (selected my j (ys.drop j)) := by
  induction h with
  | done =>
    rw [List.drop_length, List.drop_length]
    exact .nil
  | skipLeft hi hx _ ih =>
    rw [selected_drop mx hi, hx]
    exact ih
  | skipRight hj hy _ ih =>
    rw [selected_drop my hj, hy]
    exact ih
  | pair hi hj hx hy hr _ ih =>
    rw [selected_drop mx hi, selected_drop my hj, hx, hy]
    exact .cons hr ih

end SsuComputer
