import Mathlib.Data.List.Chain
import Mathlib.Order.Lattice

/-!
# SsuComputer.Lib.StrictWeak

Comparisons by a key: strict weak orders given as tests.

`StrictWeak.of_key` gives one from a key in a linear order. A list whose neighbours are in order is
in order throughout, ascending (`StrictWeak.ascending`) or descending (`StrictWeak.descending`).
-/

namespace SsuComputer

variable {α κ : Type _} {lt : α → α → Bool}

structure StrictWeak (lt : α → α → Bool) : Prop where
  asymm : ∀ {a b}, lt a b = true → lt b a = false
  negTrans : ∀ {a b c}, lt a b = false → lt b c = false → lt a c = false

namespace StrictWeak

theorem of_key [LinearOrder κ] (key : α → κ) (h : ∀ a b, lt a b = true ↔ key a < key b) :
    StrictWeak lt := by
  have hfalse : ∀ a b, lt a b = false ↔ key b ≤ key a := fun a b => by
    rw [← not_lt, ← h, Bool.not_eq_true]
  refine ⟨fun {a b} hab => ?_, fun {a b c} hab hbc => ?_⟩
  · rw [hfalse]; exact ((h a b).mp hab).le
  · rw [hfalse] at *; exact hbc.trans hab

theorem descending (h : StrictWeak lt) {xs : List α} (hxs : xs.IsChain fun a b => lt a b = false) :
    xs.Pairwise fun a b => lt a b = false := by
  have htrans : IsTrans α fun a b => lt a b = false := ⟨fun _ _ _ => h.negTrans⟩
  exact List.isChain_iff_pairwise.mp hxs

theorem ascending (h : StrictWeak lt) {xs : List α} (hxs : xs.IsChain fun a b => lt a b = true) :
    xs.Pairwise fun a b => lt b a = false := by
  have htrans : IsTrans α fun a b => lt b a = false :=
    ⟨fun _ _ _ hab hbc => h.negTrans hbc hab⟩
  exact List.isChain_iff_pairwise.mp (hxs.imp fun _ _ => h.asymm)

end StrictWeak

end SsuComputer
