import Mathlib.Data.List.Basic

/-!
# SsuComputer.Lib.EditScript

Edit scripts in the normal format of `diff`.

* `Hunk` — the ranges of lines a hunk names, both ends included, and the lines it shows. The range
  of the first list in an `append`, and of the second in a `delete`, is the line before.
* `patch` — applying hunks to a list, checking the ranges and the lines taken away.
* `Correct` — the hunks turn the first list into the second, and reversed the second into the first.
* `Scripts` — hunks derived from left to right by a walk over both lists. `Scripts.correct` is the
  rule for programs that print while they walk.
-/

namespace SsuComputer

variable {α : Type _}

inductive HunkKind
  | append
  | delete
  | change
deriving DecidableEq

structure Hunk (α : Type _) where
  kind : HunkKind
  o1 : Nat
  o2 : Nat
  n1 : Nat
  n2 : Nat
  old : List α
  new : List α
deriving DecidableEq

namespace Hunk

/-- How many lines of the first list come before those it takes away. -/
def oFrom (h : Hunk α) : Nat :=
  match h.kind with
  | .append => h.o1
  | .delete => h.o1 - 1
  | .change => h.o1 - 1

def reverse (h : Hunk α) : Hunk α where
  kind := match h.kind with
    | .append => .delete
    | .delete => .append
    | .change => .change
  o1 := h.n1
  o2 := h.n2
  n1 := h.o1
  n2 := h.o2
  old := h.new
  new := h.old

end Hunk

/-- The lines from `a + 1` to `b`, counted from 1. -/
def slice (xs : List α) (a b : Nat) : List α := (xs.take b).drop a

/-- The hunk applies to `o` with the lines up to `pos` behind. -/
structure Hunk.Applies (h : Hunk α) (o : List α) (pos : Nat) : Prop where
  first : h.kind ≠ .append → 1 ≤ h.o1
  pos_le : pos ≤ h.oFrom
  from_le : h.oFrom ≤ h.o2
  le_length : h.o2 ≤ o.length
  old_eq : h.old = slice o h.oFrom h.o2

instance [DecidableEq α] (h : Hunk α) (o : List α) (pos : Nat) : Decidable (h.Applies o pos) :=
  decidable_of_iff ((h.kind ≠ .append → 1 ≤ h.o1) ∧ pos ≤ h.oFrom ∧ h.oFrom ≤ h.o2 ∧
      h.o2 ≤ o.length ∧ h.old = slice o h.oFrom h.o2)
    ⟨fun ⟨a, b, c, d, e⟩ => ⟨a, b, c, d, e⟩, fun ⟨a, b, c, d, e⟩ => ⟨a, b, c, d, e⟩⟩

/-- The ranges lie inside the lists; those that name the line before may name line 0. -/
structure Hunk.Inside (h : Hunk α) (o n : List α) : Prop where
  first : h.kind ≠ .append → 1 ≤ h.o1
  old : h.o1 ≤ h.o2 ∧ h.o2 ≤ o.length
  second : h.kind ≠ .delete → 1 ≤ h.n1
  new : h.n1 ≤ h.n2 ∧ h.n2 ≤ n.length

section Patch

variable [DecidableEq α]

/-- What becomes of the lines after `pos`. -/
def patch (o : List α) : Nat → List (Hunk α) → Option (List α)
  | pos, [] => some (o.drop pos)
  | pos, h :: hs =>
    if h.Applies o pos then (patch o h.o2 hs).map fun rest => slice o pos h.oFrom ++ h.new ++ rest
    else none

theorem patch_cons {o rest : List α} {pos : Nat} {h : Hunk α} {hs : List (Hunk α)}
    (ha : h.Applies o pos) (hrest : patch o h.o2 hs = some rest) :
    patch o pos (h :: hs) = some (slice o pos h.oFrom ++ h.new ++ rest) := by
  rw [patch, if_pos ha, hrest, Option.map_some]

def Correct (o n : List α) (hs : List (Hunk α)) : Prop :=
  patch o 0 hs = some n ∧ patch n 0 (hs.map Hunk.reverse) = some o

instance (o n : List α) (hs : List (Hunk α)) : Decidable (Correct o n hs) :=
  inferInstanceAs (Decidable (_ ∧ _))

end Patch

/-! ## Slices -/

@[simp] theorem slice_self (xs : List α) (a : Nat) : slice xs a a = [] := by simp [slice]

theorem slice_append_drop (xs : List α) {a b : Nat} (h : a ≤ b) :
    slice xs a b ++ xs.drop b = xs.drop a := by
  rw [slice, List.drop_take]
  have hdrop : xs.drop b = (xs.drop a).drop (b - a) := by
    rw [List.drop_drop, Nat.add_sub_cancel' h]
  rw [hdrop, List.take_append_drop]

theorem slice_succ (xs : List α) {a : Nat} (h : a < xs.length) : slice xs a (a + 1) = [xs[a]] := by
  rw [slice, List.drop_take, Nat.add_sub_cancel_left, List.drop_eq_getElem_cons h]
  rfl

theorem slice_append (xs : List α) {a b c : Nat} (hab : a ≤ b) (hbc : b ≤ c) :
    slice xs a b ++ slice xs b c = slice xs a c := by
  have h := slice_append_drop (xs.take c) hab
  rwa [slice, List.take_take, Nat.min_eq_left hbc] at h

/-! ## Walks -/

/-- The hunks that a walk derives from line `i` of the first and line `j` of the second list on. -/
inductive Scripts (o n : List α) : Nat → Nat → List (Hunk α) → Prop
  | done : Scripts o n o.length n.length []
  | same {i j : Nat} {hs : List (Hunk α)} (hi : i < o.length) (hj : j < n.length)
      (heq : o[i] = n[j]) (h : Scripts o n (i + 1) (j + 1) hs) : Scripts o n i j hs
  | append {i j j' : Nat} {hs : List (Hunk α)} (hi : i ≤ o.length) (hj : j < j')
      (hj' : j' ≤ n.length) (h : Scripts o n i j' hs) :
      Scripts o n i j (⟨.append, i, i, j + 1, j', [], slice n j j'⟩ :: hs)
  | delete {i i' j : Nat} {hs : List (Hunk α)} (hi : i < i') (hi' : i' ≤ o.length)
      (hj : j ≤ n.length) (h : Scripts o n i' j hs) :
      Scripts o n i j (⟨.delete, i + 1, i', j, j, slice o i i', []⟩ :: hs)
  | change {i i' j j' : Nat} {hs : List (Hunk α)} (hi : i < i') (hi' : i' ≤ o.length) (hj : j < j')
      (hj' : j' ≤ n.length) (h : Scripts o n i' j' hs) :
      Scripts o n i j (⟨.change, i + 1, i', j + 1, j', slice o i i', slice n j j'⟩ :: hs)

namespace Scripts

variable {o n : List α} {i j : Nat} {hs : List (Hunk α)}

theorem reverse (h : Scripts o n i j hs) : Scripts n o j i (hs.map Hunk.reverse) := by
  induction h with
  | done => exact .done
  | same hi hj heq _ ih => exact .same hj hi heq.symm ih
  | append hi hj hj' _ ih => exact .delete hj hj' hi ih
  | delete hi hi' hj _ ih => exact .append hj hi hi' ih
  | change hi hi' hj hj' _ ih => exact .change hj hj' hi hi' ih

variable [DecidableEq α]

/-- Lines kept in front of the hunks. -/
theorem patch_earlier {pos pos' : Nat} {rest : List α} (h : patch o pos hs = some rest)
    (hle : pos' ≤ pos) : patch o pos' hs = some (slice o pos' pos ++ rest) := by
  cases hs with
  | nil =>
    rw [patch, Option.some.injEq] at h
    rw [patch, ← h, slice_append_drop o hle]
  | cons k ks =>
    rw [patch] at h ⊢
    split at h
    · rename_i ha
      have ha' : k.Applies o pos' :=
        ⟨ha.first, Nat.le_trans hle ha.pos_le, ha.from_le, ha.le_length, ha.old_eq⟩
      obtain ⟨r, hr, rfl⟩ := Option.map_eq_some_iff.mp h
      rw [if_pos ha', hr, Option.map_some, ← slice_append o hle ha.pos_le]
      simp only [List.append_assoc]
    · cases h

theorem patch_eq (h : Scripts o n i j hs) : patch o i hs = some (n.drop j) := by
  induction h with
  | done => simp [patch]
  | @same i j hs hi hj heq _ ih =>
    rw [patch_earlier ih (Nat.le_succ i), slice_succ o hi, heq, List.singleton_append,
      ← List.drop_eq_getElem_cons hj]
  | @append i j j' hs hi hj hj' _ ih =>
    have ha : (Hunk.mk .append i i (j + 1) j' [] (slice n j j')).Applies o i :=
      ⟨fun h => absurd rfl h, Nat.le_refl _, Nat.le_refl _, hi, (slice_self o i).symm⟩
    rw [patch, if_pos ha, ih, Option.map_some, Hunk.oFrom, slice_self, List.nil_append,
      slice_append_drop n (Nat.le_of_lt hj)]
  | @delete i i' j hs hi hi' hj _ ih =>
    have ha : (Hunk.mk .delete (i + 1) i' j j (slice o i i') []).Applies o i :=
      ⟨fun _ => Nat.succ_pos _, Nat.le_refl _, Nat.le_of_lt hi, hi', rfl⟩
    rw [patch, if_pos ha, ih, Option.map_some, Hunk.oFrom, Nat.add_sub_cancel, slice_self]
    rfl
  | @change i i' j j' hs hi hi' hj hj' _ ih =>
    have ha : (Hunk.mk .change (i + 1) i' (j + 1) j' (slice o i i') (slice n j j')).Applies o i :=
      ⟨fun _ => Nat.succ_pos _, Nat.le_refl _, Nat.le_of_lt hi, hi', rfl⟩
    rw [patch, if_pos ha, ih, Option.map_some, Hunk.oFrom, Nat.add_sub_cancel, slice_self,
      List.nil_append, slice_append_drop n (Nat.le_of_lt hj)]

/-- The hunks of a walk from the start are a correct script. -/
theorem correct (h : Scripts o n 0 0 hs) : Correct o n hs := by
  refine ⟨?_, ?_⟩
  · simpa using h.patch_eq
  · simpa using h.reverse.patch_eq

end Scripts

end SsuComputer
