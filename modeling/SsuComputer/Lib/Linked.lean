import Mathlib.Logic.Function.Basic
import Mathlib.Logic.Relation
import Mathlib.Data.List.Nodup

/-!
# SsuComputer.Lib.Linked

Singly linked lists in a heap, the links a map from nodes to nodes.

`Linked next o xs`: starting at `o` and following `next`, the nodes passed are `xs`, and then the
links end. Two stores are covered: unlinking the node after another one (`linked_unlink`), and
linking a node that is not in the list in front of it (`linked_push`). The nodes that such a start
reaches lie on no cycle (`Linked.acyclic`).
-/

namespace SsuComputer

variable {ν : Type _} {next next' : ν → Option ν}

def Linked (next : ν → Option ν) : Option ν → List ν → Prop
  | o, [] => o = none
  | o, x :: xs => o = some x ∧ Linked next (next x) xs

def Points (next : ν → Option ν) (x y : ν) : Prop := next x = some y

/-- No node that `x` reaches comes back to itself. -/
def Acyclic (next : ν → Option ν) (x : ν) : Prop :=
  ∀ y, Relation.ReflTransGen (Points next) x y → ¬ Relation.TransGen (Points next) y y

namespace Linked

variable {o : Option ν} {x : ν} {xs ys : List ν}

@[simp] theorem nil : Linked next o [] ↔ o = none := Iff.rfl

@[simp] theorem cons : Linked next o (x :: xs) ↔ o = some x ∧ Linked next (next x) xs := Iff.rfl

/-- The nodes are determined by the heap. -/
theorem unique (h : Linked next o xs) (h' : Linked next o ys) : xs = ys := by
  induction xs generalizing o ys with
  | nil =>
    cases ys with
    | nil => rfl
    | cons y ys => rw [nil] at h; rw [h] at h'; cases h'.1
  | cons x xs ih =>
    cases ys with
    | nil => rw [nil] at h'; rw [h'] at h; cases h.1
    | cons y ys =>
      obtain ⟨rfl, h⟩ := h
      obtain ⟨heq, h'⟩ := h'
      cases heq
      rw [ih h h']

/-- Only the links of the nodes passed matter. -/
theorem congr (h : Linked next o xs) (heq : ∀ y ∈ xs, next' y = next y) : Linked next' o xs := by
  induction xs generalizing o with
  | nil => exact h
  | cons x xs ih =>
    refine ⟨h.1, ?_⟩
    rw [heq x (by simp)]
    exact ih h.2 fun y hy => heq y (by simp [hy])

theorem drop {pre : List ν} (h : Linked next o (pre ++ x :: xs)) : Linked next (next x) xs := by
  induction pre generalizing o with
  | nil => exact h.2
  | cons y pre ih => exact ih h.2

/-- No node comes twice, or the links would not end. -/
theorem nodup {o : Option ν} {xs : List ν} (h : Linked next o xs) : xs.Nodup := by
  induction xs generalizing o with
  | nil => exact List.nodup_nil
  | cons x xs ih =>
    refine List.nodup_cons.mpr ⟨fun hmem => ?_, ih h.2⟩
    obtain ⟨pre, post, rfl⟩ := List.append_of_mem hmem
    have hlength := congrArg List.length (h.2.drop.unique h.2)
    rw [List.length_append, List.length_cons] at hlength
    omega

/-- Following a link shortens what is left. -/
theorem follow {y : ν} (h : Linked next (some x) xs) (hxy : Points next x y) :
    ∃ ys, Linked next (some y) ys ∧ ys.length < xs.length := by
  cases xs with
  | nil => cases h
  | cons z xs =>
    obtain ⟨hz, h⟩ := h
    cases hz
    rw [hxy] at h
    exact ⟨xs, h, Nat.lt_succ_self xs.length⟩

theorem follow_trans {y : ν} (h : Linked next (some x) xs)
    (hxy : Relation.TransGen (Points next) x y) :
    ∃ ys, Linked next (some y) ys ∧ ys.length < xs.length := by
  induction hxy with
  | single hy => exact h.follow hy
  | tail _ hz ih =>
    obtain ⟨ys, hys, hlt⟩ := ih
    obtain ⟨zs, hzs, hlt'⟩ := hys.follow hz
    exact ⟨zs, hzs, Nat.lt_trans hlt' hlt⟩

theorem acyclic (h : Linked next (some x) xs) : Acyclic next x := by
  intro y hxy hcycle
  obtain ⟨ys, hys⟩ : ∃ ys, Linked next (some y) ys := by
    rcases Relation.reflTransGen_iff_eq_or_transGen.mp hxy with rfl | hxy
    · exact ⟨xs, h⟩
    · obtain ⟨ys, hys, -⟩ := h.follow_trans hxy
      exact ⟨ys, hys⟩
  obtain ⟨zs, hzs, hlt⟩ := hys.follow_trans hcycle
  rw [hzs.unique hys] at hlt
  exact Nat.lt_irrefl _ hlt

variable [DecidableEq ν]

theorem update_of_not_mem {p : ν} {v : Option ν} (h : Linked next o xs) (hp : p ∉ xs) :
    Linked (Function.update next p v) o xs :=
  h.congr fun _ hy => Function.update_of_ne (ne_of_mem_of_not_mem hy hp) _ _

/-- `p->next = p->next->next` takes the node after `p` out. -/
theorem unlink {pre post : List ν} {p t : ν} (h : Linked next o (pre ++ p :: t :: post))
    (hnd : (pre ++ p :: t :: post).Nodup) :
    Linked (Function.update next p (next t)) o (pre ++ p :: post) := by
  induction pre generalizing o with
  | nil =>
    obtain ⟨ho, ht, hpost⟩ := h
    refine ⟨ho, ?_⟩
    rw [Function.update_self]
    refine hpost.update_of_not_mem ?_
    rw [List.nil_append, List.nodup_cons] at hnd
    exact fun hmem => hnd.1 (by simp [hmem])
  | cons y pre ih =>
    rw [List.cons_append, List.nodup_cons] at hnd
    refine ⟨h.1, ?_⟩
    have hy : y ≠ p := by rintro rfl; exact hnd.1 (by simp)
    rw [Function.update_of_ne hy]
    exact ih h.2 hnd.2

/-- `t->next = a` for a list that starts at `a` puts `t` in front. -/
theorem push {t : ν} (h : Linked next o xs) (ht : t ∉ xs) :
    Linked (Function.update next t o) (some t) (t :: xs) := by
  refine ⟨rfl, ?_⟩
  rw [Function.update_self]
  exact h.update_of_not_mem ht

end Linked

end SsuComputer
