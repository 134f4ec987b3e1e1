import Mathlib.Data.List.Basic
import SsuComputer.Lib.Marks

/-!
# SsuComputer.Lib.Alignment

Alignments of two lists: the pairs of positions, counted from 1, at which their elements correspond.

* `Aligns same m n i j ps` — `ps` are pairs of equal elements, ascending in both lists, behind the
  positions `i` and `j`; the lists have `m` and `n` elements.
* `gapsFrom` — the ranges between the pairs.
-/

namespace SsuComputer

def leftIn (ps : List (Nat × Nat)) (k : Nat) : Bool := ps.any fun p => p.1 = k

def rightIn (ps : List (Nat × Nat)) (k : Nat) : Bool := ps.any fun p => p.2 = k

inductive Aligns (same : Nat → Nat → Bool) (m n : Nat) : Nat → Nat → List (Nat × Nat) → Prop
  | nil {i j : Nat} (hi : i ≤ m) (hj : j ≤ n) : Aligns same m n i j []
  | cons {i j a b : Nat} {ps : List (Nat × Nat)} (hi : i < a) (hj : j < b) (ha : a ≤ m) (hb : b ≤ n)
      (hs : same a b = true) (h : Aligns same m n a b ps) : Aligns same m n i j ((a, b) :: ps)

/-- The elements from `o1 + 1` to `o2` of the first and from `n1 + 1` to `n2` of the second list. -/
structure Gap where
  o1 : Nat
  o2 : Nat
  n1 : Nat
  n2 : Nat
  last : Bool

def Gap.old (g : Gap) : Nat := g.o2 - g.o1

def Gap.new (g : Gap) : Nat := g.n2 - g.n1

/-- The ranges lie inside lists of `m` and `n` elements. -/
structure Gap.Within (g : Gap) (m n : Nat) : Prop where
  old : g.o1 ≤ g.o2 ∧ g.o2 ≤ m
  new : g.n1 ≤ g.n2 ∧ g.n2 ≤ n

def gapsFrom (m n : Nat) : Nat → Nat → List (Nat × Nat) → List Gap
  | i, j, [] => [⟨i, m, j, n, true⟩]
  | i, j, (a, b) :: ps => ⟨i, a - 1, j, b - 1, false⟩ :: gapsFrom m n a b ps

@[simp] theorem leftIn_nil (k : Nat) : leftIn [] k = false := rfl

@[simp] theorem rightIn_nil (k : Nat) : rightIn [] k = false := rfl

@[simp] theorem leftIn_cons (p : Nat × Nat) (ps : List (Nat × Nat)) (k : Nat) :
    leftIn (p :: ps) k = (decide (p.1 = k) || leftIn ps k) := rfl

@[simp] theorem rightIn_cons (p : Nat × Nat) (ps : List (Nat × Nat)) (k : Nat) :
    rightIn (p :: ps) k = (decide (p.2 = k) || rightIn ps k) := rfl

namespace Aligns

variable {same : Nat → Nat → Bool} {m n i j : Nat} {ps : List (Nat × Nat)}

theorem le (h : Aligns same m n i j ps) : i ≤ m ∧ j ≤ n := by
  cases h with
  | nil hi hj => exact ⟨hi, hj⟩
  | cons hi hj ha hb => exact ⟨by omega, by omega⟩

theorem earlier (h : Aligns same m n i j ps) {i' j' : Nat} (hi : i' ≤ i) (hj : j' ≤ j) :
    Aligns same m n i' j' ps := by
  cases h with
  | nil hi' hj' => exact .nil (Nat.le_trans hi hi') (Nat.le_trans hj hj')
  | cons hi' hj' ha hb hs h =>
    exact .cons (Nat.lt_of_le_of_lt hi hi') (Nat.lt_of_le_of_lt hj hj') ha hb hs h

theorem le_of_leftIn (h : Aligns same m n i j ps) {k : Nat} (hk : leftIn ps k = true) :
    i < k ∧ k ≤ m := by
  induction h with
  | nil => cases hk
  | cons hi _ ha _ _ _ ih =>
    rw [leftIn_cons, Bool.or_eq_true, decide_eq_true_eq] at hk
    rcases hk with rfl | hk
    · exact ⟨hi, ha⟩
    · exact ⟨Nat.lt_trans hi (ih hk).1, (ih hk).2⟩

theorem le_of_rightIn (h : Aligns same m n i j ps) {k : Nat} (hk : rightIn ps k = true) :
    j < k ∧ k ≤ n := by
  induction h with
  | nil => cases hk
  | cons _ hj _ hb _ _ ih =>
    rw [rightIn_cons, Bool.or_eq_true, decide_eq_true_eq] at hk
    rcases hk with rfl | hk
    · exact ⟨hj, hb⟩
    · exact ⟨Nat.lt_trans hj (ih hk).1, (ih hk).2⟩

theorem leftIn_of_le (h : Aligns same m n i j ps) {k : Nat} (hk : k ≤ i) : leftIn ps k = false := by
  rw [← Bool.not_eq_true]
  exact fun hin => Nat.not_lt_of_le hk (h.le_of_leftIn hin).1

theorem rightIn_of_le (h : Aligns same m n i j ps) {k : Nat} (hk : k ≤ j) :
    rightIn ps k = false := by
  rw [← Bool.not_eq_true]
  exact fun hin => Nat.not_lt_of_le hk (h.le_of_rightIn hin).1

theorem length_le (h : Aligns same m n i j ps) : i + ps.length ≤ m := by
  induction h with
  | nil hi _ => exact hi
  | cons hi _ _ _ _ _ ih => rw [List.length_cons]; omega

/-- The elements at the positions of the pairs, marked in both lists, pair up. -/
theorem marked {α β : Type _} {R : α → β → Prop} {xs : List α} {ys : List β}
    (hR : ∀ a (ha : a < xs.length) b (hb : b < ys.length), same (a + 1) (b + 1) = true → R xs[a] ys[b])
    (h : Aligns same xs.length ys.length i j ps) :
    Marked R xs ys (leftIn ps) (rightIn ps) i j := by
  induction h with
  | nil hi hj => exact Marked.done.back hi hj (fun _ _ _ => rfl) fun _ _ _ => rfl
  | @cons i j a b ps hi hj ha hb hs h ih =>
    obtain ⟨a, rfl⟩ : ∃ k, a = k + 1 := ⟨a - 1, by omega⟩
    obtain ⟨b, rfl⟩ : ∃ k, b = k + 1 := ⟨b - 1, by omega⟩
    have hrest : Marked R xs ys (leftIn ((a + 1, b + 1) :: ps)) (rightIn ((a + 1, b + 1) :: ps))
        (a + 1) (b + 1) := by
      refine ih.congr (fun k hk => ?_) fun k hk => ?_
      · simp [Nat.ne_of_lt hk]
      · simp [Nat.ne_of_lt hk]
    refine (Marked.pair ha hb (by simp) (by simp) (hR a ha b hb hs) hrest).back
      (Nat.le_of_lt_succ hi) (Nat.le_of_lt_succ hj) (fun k _ hk => ?_) fun k _ hk => ?_
    · have hne : a + 1 ≠ k := by omega
      simp [hne, h.leftIn_of_le (Nat.le_succ_of_le hk)]
    · have hne : b + 1 ≠ k := by omega
      simp [hne, h.rightIn_of_le (Nat.le_succ_of_le hk)]

end Aligns

end SsuComputer
