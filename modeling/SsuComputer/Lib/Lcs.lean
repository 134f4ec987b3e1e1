import Mathlib.Data.List.Forall2
import SsuComputer.Lib.Table

/-!
# SsuComputer.Lib.Lcs

The lengths of longest common subsequences, by the usual recursion over prefixes.

* `lcs_mono_left`, `lcs_step_left` and their mirror images — one element more makes the length grow
  by at most one.
* `lcs_corner` — where both shorter prefixes lose, the last elements are equal.
* `longest_iff` — it is the number of elements of a longest common subsequence of two lists, whatever
  relates their elements.
-/

namespace SsuComputer

/-- The value of a cell, from the cells before it. -/
def lcsCell (same : Nat → Nat → Bool) (i j diag up left : Nat) : Nat :=
  if same i j then diag + 1 else max up left

def lcs (same : Nat → Nat → Bool) : Nat → Nat → Nat := table (lcsCell same)

variable {same : Nat → Nat → Bool}

@[simp] theorem lcs_zero_left (j : Nat) : lcs same 0 j = 0 := table_zero_left j

@[simp] theorem lcs_zero_right (i : Nat) : lcs same i 0 = 0 := table_zero_right i

theorem lcs_succ (i j : Nat) : lcs same (i + 1) (j + 1) =
    if same (i + 1) (j + 1) then lcs same i j + 1
    else max (lcs same i (j + 1)) (lcs same (i + 1) j) := table_succ i j

/-- The four bounds at once: each one needs the others at the cells before. -/
theorem lcs_unit (i j : Nat) :
    (lcs same i j ≤ lcs same (i + 1) j ∧ lcs same (i + 1) j ≤ lcs same i j + 1) ∧
      (lcs same i j ≤ lcs same i (j + 1) ∧ lcs same i (j + 1) ≤ lcs same i j + 1) := by
  induction i generalizing j with
  | zero =>
    induction j with
    | zero => simp
    | succ j ih =>
      obtain ⟨⟨-, hstep⟩, -⟩ := ih
      rw [lcs_succ]
      simp only [lcs_zero_left] at hstep ⊢
      split <;> omega
  | succ i ihi =>
    induction j with
    | zero =>
      obtain ⟨-, -, hstep⟩ := ihi 0
      rw [lcs_succ]
      simp only [lcs_zero_right] at hstep ⊢
      split <;> omega
    | succ j ihj =>
      obtain ⟨⟨hdown, hdown'⟩, hright, hright'⟩ := ihj
      obtain ⟨⟨hup, hup'⟩, hover, hover'⟩ := ihi (j + 1)
      rw [lcs_succ (i + 1) j, lcs_succ i (j + 1)]
      split <;> split <;> omega

theorem lcs_mono_left (i j : Nat) : lcs same i j ≤ lcs same (i + 1) j := (lcs_unit i j).1.1

theorem lcs_step_left (i j : Nat) : lcs same (i + 1) j ≤ lcs same i j + 1 := (lcs_unit i j).1.2

theorem lcs_mono_right (i j : Nat) : lcs same i j ≤ lcs same i (j + 1) := (lcs_unit i j).2.1

theorem lcs_step_right (i j : Nat) : lcs same i (j + 1) ≤ lcs same i j + 1 := (lcs_unit i j).2.2

theorem lcs_mono_left_of_le {i i' : Nat} (h : i ≤ i') (j : Nat) : lcs same i j ≤ lcs same i' j := by
  induction h with
  | refl => exact Nat.le_refl _
  | step _ ih => exact Nat.le_trans ih (lcs_mono_left _ j)

theorem lcs_mono_right_of_le (i : Nat) {j j' : Nat} (h : j ≤ j') : lcs same i j ≤ lcs same i j' := by
  induction h with
  | refl => exact Nat.le_refl _
  | step _ ih => exact Nat.le_trans ih (lcs_mono_right i _)

theorem lcs_succ_of_same {i j : Nat} (h : same (i + 1) (j + 1) = true) :
    lcs same (i + 1) (j + 1) = lcs same i j + 1 := by rw [lcs_succ, if_pos h]

theorem lcs_corner {i j : Nat} (hup : lcs same (i + 1) (j + 1) ≠ lcs same i (j + 1))
    (hleft : lcs same (i + 1) (j + 1) ≠ lcs same (i + 1) j) :
    same (i + 1) (j + 1) = true ∧ lcs same i (j + 1) = lcs same i j ∧
      lcs same (i + 1) j = lcs same i j := by
  have h := @lcs_succ same i j
  split at h
  · rename_i hsame
    have := @lcs_mono_left same i (j + 1)
    have := @lcs_mono_right same (i + 1) j
    have := @lcs_mono_left same i j
    have := @lcs_mono_right same i j
    refine ⟨hsame, ?_, ?_⟩ <;> omega
  · omega

theorem lcs_diagonal {m : Nat} (h : ∀ k < m, same (k + 1) (k + 1) = true) : lcs same m m = m := by
  induction m with
  | zero => simp
  | succ m ih =>
    rw [lcs_succ_of_same (h m (Nat.lt_succ_self m)), ih fun k hk => h k (Nat.lt_succ_of_lt hk)]

theorem lcs_le (i j : Nat) : lcs same i j ≤ i ∧ lcs same i j ≤ j := by
  constructor
  · induction i with
    | zero => simp
    | succ i ih => exact Nat.le_trans (lcs_step_left i j) (Nat.succ_le_succ ih)
  · induction j with
    | zero => simp
    | succ j ih => exact Nat.le_trans (lcs_step_right i j) (Nat.succ_le_succ ih)

/-- A full table has the diagonal only. -/
theorem same_of_diagonal {m : Nat} (h : lcs same m m = m) : ∀ k < m, same (k + 1) (k + 1) = true := by
  induction m with
  | zero => intro k hk; omega
  | succ m ih =>
    have hup := (@lcs_le same m (m + 1)).1
    have hleft := (@lcs_le same (m + 1) m).2
    by_cases hsame : same (m + 1) (m + 1) = true
    · rw [lcs_succ_of_same hsame] at h
      intro k hk
      by_cases hkm : k = m
      · rw [hkm, hsame]
      · exact ih (by omega) k (by omega)
    · rw [lcs_succ, if_neg hsame] at h
      omega

/-! ## Common subsequences -/

variable {α β : Type _} {R : α → β → Prop}

/-- `s` and `t` are subsequences of `xs` and `ys`, related one by one. -/
structure Common (R : α → β → Prop) (xs : List α) (ys : List β) (s : List α) (t : List β) : Prop where
  left : s.Sublist xs
  right : t.Sublist ys
  related : List.Forall₂ R s t

theorem sublist_concat {s l : List α} {x : α} (h : s.Sublist (l ++ [x])) :
    s.Sublist l ∨ ∃ s', s = s' ++ [x] ∧ s'.Sublist l := by
  obtain ⟨s', s'', rfl, h', h''⟩ := List.sublist_append_iff.mp h
  rcases List.sublist_singleton.mp h'' with rfl | rfl
  · exact .inl (by rwa [List.append_nil])
  · exact .inr ⟨s', rfl, h'⟩

theorem forall₂_concat {s : List α} {t : List β} {x : α} {y : β}
    (h : List.Forall₂ R (s ++ [x]) (t ++ [y])) : List.Forall₂ R s t ∧ R x y := by
  have hrev := List.rel_reverse h
  rw [List.reverse_append, List.reverse_append] at hrev
  obtain ⟨hxy, hst⟩ := List.forall₂_cons.mp hrev
  exact ⟨List.forall₂_reverse_iff.mp hst, hxy⟩

/-- By recursion over the prefixes: a common subsequence that uses both last elements uses them
with each other. -/
theorem lcs_longest {xs : List α} {ys : List β}
    (hsame : ∀ i (hi : i < xs.length) j (hj : j < ys.length),
      same (i + 1) (j + 1) = true ↔ R xs[i] ys[j]) :
    ∀ i j, i ≤ xs.length → j ≤ ys.length → ∀ s t, Common R (xs.take i) (ys.take j) s t →
      s.length ≤ lcs same i j := by
  intro i j
  induction i, j using table.induct with
  | case1 j =>
    intro _ _ s t h
    have := h.left.length_le
    simpa using this
  | case2 i =>
    intro _ _ s t h
    have := h.right.length_le
    rw [h.related.length_eq]
    simpa using this
  | case3 i j ihd ihu ihl =>
    intro hi hj s t h
    rw [List.take_succ_eq_append_getElem hi, List.take_succ_eq_append_getElem hj] at h
    obtain ⟨hs, ht, hst⟩ := h
    have hs' := hs
    have ht' := ht
    rw [← List.take_succ_eq_append_getElem hi] at hs'
    rw [← List.take_succ_eq_append_getElem hj] at ht'
    rcases sublist_concat hs with hs₁ | ⟨s', rfl, hs₁⟩
    · exact Nat.le_trans (ihu (by omega) hj s t ⟨hs₁, ht', hst⟩) (lcs_mono_left i (j + 1))
    · rcases sublist_concat ht with ht₁ | ⟨t', rfl, ht₁⟩
      · exact Nat.le_trans (ihl hi (by omega) _ t ⟨hs', ht₁, hst⟩) (lcs_mono_right (i + 1) j)
      · obtain ⟨hst₁, hlast⟩ := forall₂_concat hst
        rw [lcs_succ_of_same ((hsame i hi j hj).mpr hlast), List.length_append]
        exact Nat.succ_le_succ (ihd (by omega) (by omega) s' t' ⟨hs₁, ht₁, hst₁⟩)

theorem Common.mono {xs xs' : List α} {ys ys' : List β} {s : List α} {t : List β}
    (h : Common R xs ys s t) (hx : xs.Sublist xs') (hy : ys.Sublist ys') : Common R xs' ys' s t :=
  ⟨h.left.trans hx, h.right.trans hy, h.related⟩

theorem Common.concat {xs : List α} {ys : List β} {s : List α} {t : List β} {i j : Nat}
    (hi : i < xs.length) (hj : j < ys.length) (h : Common R (xs.take i) (ys.take j) s t)
    (hr : R xs[i] ys[j]) :
    Common R (xs.take (i + 1)) (ys.take (j + 1)) (s ++ [xs[i]]) (t ++ [ys[j]]) := by
  rw [List.take_succ_eq_append_getElem hi, List.take_succ_eq_append_getElem hj]
  exact ⟨h.left.append_right _, h.right.append_right _, List.rel_append h.related (.cons hr .nil)⟩

theorem lcs_attained {xs : List α} {ys : List β}
    (hsame : ∀ i (hi : i < xs.length) j (hj : j < ys.length),
      same (i + 1) (j + 1) = true ↔ R xs[i] ys[j]) :
    ∀ i j, i ≤ xs.length → j ≤ ys.length →
      ∃ s t, Common R (xs.take i) (ys.take j) s t ∧ s.length = lcs same i j := by
  intro i j
  induction i, j using table.induct with
  | case1 j =>
    intro _ _
    exact ⟨[], [], ⟨List.nil_sublist _, List.nil_sublist _, .nil⟩, by simp⟩
  | case2 i =>
    intro _ _
    exact ⟨[], [], ⟨List.nil_sublist _, List.nil_sublist _, .nil⟩, by simp⟩
  | case3 i j ihd ihu ihl =>
    intro hi hj
    by_cases hs : same (i + 1) (j + 1) = true
    · obtain ⟨s, t, hst, hlen⟩ := ihd (by omega) (by omega)
      refine ⟨_, _, hst.concat hi hj ((hsame i hi j hj).mp hs), ?_⟩
      rw [lcs_succ_of_same hs, List.length_append, hlen, List.length_singleton]
    · have hmax : lcs same (i + 1) (j + 1) = max (lcs same i (j + 1)) (lcs same (i + 1) j) := by
        rw [lcs_succ, if_neg hs]
      rcases Nat.le_total (lcs same i (j + 1)) (lcs same (i + 1) j) with hle | hle
      · obtain ⟨s, t, hst, hlen⟩ := ihl hi (by omega)
        refine ⟨s, t, hst.mono (.refl _) (List.take_sublist_take_left (Nat.le_succ j)), ?_⟩
        exact hlen.trans (hmax.trans (Nat.max_eq_right hle)).symm
      · obtain ⟨s, t, hst, hlen⟩ := ihu (by omega) hj
        refine ⟨s, t, hst.mono (List.take_sublist_take_left (Nat.le_succ i)) (.refl _), ?_⟩
        exact hlen.trans (hmax.trans (Nat.max_eq_left hle)).symm

/-- The longest common subsequences have `k` elements. -/
structure Longest (R : α → β → Prop) (xs : List α) (ys : List β) (k : Nat) : Prop where
  attained : ∃ s t, Common R xs ys s t ∧ s.length = k
  bound : ∀ s t, Common R xs ys s t → s.length ≤ k

theorem Longest.unique {xs : List α} {ys : List β} {k k' : Nat} (h : Longest R xs ys k)
    (h' : Longest R xs ys k') : k = k' := by
  obtain ⟨s, t, hst, hlen⟩ := h.attained
  obtain ⟨s', t', hst', hlen'⟩ := h'.attained
  have hle := h'.bound s t hst
  have hle' := h.bound s' t' hst'
  omega

theorem longest_iff {xs : List α} {ys : List β}
    (hsame : ∀ i (hi : i < xs.length) j (hj : j < ys.length),
      same (i + 1) (j + 1) = true ↔ R xs[i] ys[j]) {i j k : Nat} (hi : i ≤ xs.length)
    (hj : j ≤ ys.length) : Longest R (xs.take i) (ys.take j) k ↔ lcs same i j = k := by
  have h : Longest R (xs.take i) (ys.take j) (lcs same i j) :=
    ⟨lcs_attained hsame i j hi hj, lcs_longest hsame i j hi hj⟩
  constructor
  · exact fun h' => h.unique h'
  · rintro rfl
    exact h

end SsuComputer
