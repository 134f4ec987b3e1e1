import Mathlib.Algebra.BigOperators.Group.List.Basic
import Mathlib.Algebra.Group.Action.Defs
import Mathlib.Algebra.Order.Group.Nat

/-!
# SsuComputer.Lib.Separated

Lists with a separator between groups of `width` elements, counted from the right.

* `separated_filter` — without the separators it is the list.
* `separated_length` — the length, from that of the list.
* `separated_groups` — the first group has one to `width` elements, and the other ones have `width`.
-/

namespace SsuComputer

variable {α : Type _}

def separated (sep : α) (width : Nat) : List α → List α
  | [] => []
  | x :: xs =>
    if 0 < xs.length ∧ xs.length % width = 0 then x :: sep :: separated sep width xs
    else x :: separated sep width xs

variable {sep : α} {width : Nat} {xs : List α}

@[simp] theorem separated_nil : separated sep width [] = [] := rfl

theorem separated_cons_of_group {x : α} (h : 0 < xs.length) (hgroup : xs.length % width = 0) :
    separated sep width (x :: xs) = x :: sep :: separated sep width xs :=
  if_pos ⟨h, hgroup⟩

theorem separated_cons_of_not {x : α} (h : ¬(0 < xs.length ∧ xs.length % width = 0)) :
    separated sep width (x :: xs) = x :: separated sep width xs :=
  if_neg h

theorem separated_filter [DecidableEq α] (h : sep ∉ xs) :
    (separated sep width xs).filter (· ≠ sep) = xs := by
  induction xs with
  | nil => rfl
  | cons x xs ih =>
    rw [List.mem_cons, not_or] at h
    have hx : x ≠ sep := fun heq => h.1 heq.symm
    have ih := ih h.2
    simp only [decide_not] at ih ⊢
    rw [separated]
    split <;> simp [hx, ih]

theorem separated_length :
    (separated sep width xs).length = xs.length + (xs.length - 1) / width := by
  induction xs with
  | nil => simp
  | cons x xs ih =>
    have hstep : (x :: xs).length - 1 = xs.length := by simp
    rw [hstep]
    by_cases h : 0 < xs.length ∧ xs.length % width = 0
    · have hdvd : width ∣ xs.length - 1 + 1 := by
        rw [Nat.sub_add_cancel h.1]
        exact Nat.dvd_of_mod_eq_zero h.2
      have hdiv : xs.length / width = (xs.length - 1) / width + 1 := by
        conv_lhs => rw [← Nat.sub_add_cancel h.1, Nat.succ_div_of_dvd hdvd]
      rw [separated_cons_of_group h.1 h.2, hdiv]
      simp only [List.length_cons, ih]
      omega
    · have hdiv : xs.length / width = (xs.length - 1) / width := by
        by_cases hpos : 0 < xs.length
        · have hndvd : ¬width ∣ xs.length - 1 + 1 := by
            rw [Nat.sub_add_cancel hpos]
            exact fun hdvd => h ⟨hpos, Nat.mod_eq_zero_of_dvd hdvd⟩
          conv_lhs => rw [← Nat.sub_add_cancel hpos, Nat.succ_div_of_not_dvd hndvd]
        · rw [Nat.eq_zero_of_not_pos hpos]
      rw [separated_cons_of_not h, hdiv]
      simp only [List.length_cons, ih]
      omega

theorem separated_groups (hwidth : 0 < width) (hne : xs ≠ []) :
    ∃ (first : List α) (groups : List (List α)), 0 < first.length ∧ first.length ≤ width ∧
      (∀ g ∈ groups, g.length = width) ∧ first ++ groups.flatten = xs ∧
      separated sep width xs = first ++ groups.flatMap (sep :: ·) := by
  induction xs with
  | nil => exact absurd rfl hne
  | cons x xs ih =>
    by_cases hxs : xs = []
    · subst hxs
      exact ⟨[x], [], by simp, hwidth, by simp, rfl, rfl⟩
    obtain ⟨first, groups, hpos, hle, hgroups, hflat, hsep⟩ := ih hxs
    have hlen : xs.length = first.length + groups.length * width := by
      rw [← hflat, List.length_append, List.length_flatten, List.map_congr_left hgroups,
        List.map_const', List.sum_replicate, smul_eq_mul]
    have hmod : xs.length % width = first.length % width := by
      rw [hlen, Nat.add_mul_mod_self_right]
    by_cases hfull : first.length = width
    · -- the first group is full, and a new one begins
      have hgroup : xs.length % width = 0 := by rw [hmod, hfull, Nat.mod_self]
      refine ⟨[x], first :: groups, by simp, hwidth, List.forall_mem_cons.mpr ⟨hfull, hgroups⟩,
        by simp [← hflat], ?_⟩
      rw [separated_cons_of_group (List.length_pos_of_ne_nil hxs) hgroup, hsep]
      simp
    · have hlt : first.length < width := lt_of_le_of_ne hle hfull
      have hnot : ¬(0 < xs.length ∧ xs.length % width = 0) := by
        rw [hmod, Nat.mod_eq_of_lt hlt]
        omega
      refine ⟨x :: first, groups, by simp, hlt, hgroups, by simp [← hflat], ?_⟩
      rw [separated_cons_of_not hnot, hsep]
      simp

end SsuComputer
