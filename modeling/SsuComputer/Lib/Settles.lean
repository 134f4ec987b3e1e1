import Mathlib.Data.Nat.Basic

/-!
# SsuComputer.Lib.Settles

Functions of a fuel argument that give the same result from some amount of fuel on.

* `Settles f a` — with enough fuel `f` is `a`; `Settles.unique` makes `a` the result.
* `settles_succ`, `Settles.bind`, `Settles.bind_error`, `bind_eq_ok` — one call deeper, and sequencing
  in `Except`.
* `Extends stop f g` — `g` is `f` unless `f` ran out of fuel; `settles_of_extends` turns a chain of
  these into a result.
-/

namespace SsuComputer

def Settles {α : Type _} (f : Nat → α) (a : α) : Prop := ∃ N, ∀ n, N ≤ n → f n = a

variable {α β ε : Type _}

theorem settles_const (a : α) : Settles (fun _ => a) a := ⟨0, fun _ _ => rfl⟩

theorem Settles.unique {f : Nat → α} {a b : α} (ha : Settles f a) (hb : Settles f b) : a = b := by
  obtain ⟨N, hN⟩ := ha
  obtain ⟨M, hM⟩ := hb
  rw [← hN (max N M) (Nat.le_max_left N M), hM (max N M) (Nat.le_max_right N M)]

theorem Settles.map {f : Nat → α} {a : α} (h : Settles f a) (k : α → β) :
    Settles (fun n => k (f n)) (k a) := by
  obtain ⟨N, hN⟩ := h
  refine ⟨N, ?_⟩
  intro n hn
  show k (f n) = k a
  rw [hN n hn]

theorem settles_succ {f : Nat → α} {a : α} (h : Settles (fun n => f (n + 1)) a) : Settles f a := by
  obtain ⟨N, hN⟩ := h
  refine ⟨N + 1, ?_⟩
  intro n hn
  obtain ⟨m, rfl⟩ : ∃ m, n = m + 1 := ⟨n - 1, by omega⟩
  exact hN m (by omega)

theorem settles_add {f : Nat → α} {a : α} (k : Nat) (h : ∀ n, f (n + k) = a) : Settles f a := by
  refine ⟨k, ?_⟩
  intro n hn
  rw [← Nat.sub_add_cancel hn]
  exact h (n - k)

theorem Settles.bind {f : Nat → Except ε α} {k : Nat → α → Except ε β} {a : α} {r : Except ε β}
    (hf : Settles f (.ok a)) (hk : Settles (fun n => k n a) r) :
    Settles (fun n => f n >>= k n) r := by
  obtain ⟨N, hN⟩ := hf
  obtain ⟨M, hM⟩ := hk
  refine ⟨max N M, ?_⟩
  intro n hn
  show f n >>= k n = r
  rw [hN n (Nat.le_trans (Nat.le_max_left N M) hn)]
  exact hM n (Nat.le_trans (Nat.le_max_right N M) hn)

theorem Settles.bind_error {f : Nat → Except ε α} {k : Nat → α → Except ε β} {e : ε}
    (hf : Settles f (.error e)) : Settles (fun n => f n >>= k n) (.error e) := by
  obtain ⟨N, hN⟩ := hf
  refine ⟨N, ?_⟩
  intro n hn
  show f n >>= k n = .error e
  rw [hN n hn]
  rfl

theorem bind_eq_ok {x : Except ε α} {k : α → Except ε β} {b : β} (h : x >>= k = .ok b) :
    ∃ a, x = .ok a ∧ k a = .ok b := by
  cases x with
  | error e => cases h
  | ok a => exact ⟨a, rfl, h⟩

def Extends (stop : ε) (f g : Except ε α) : Prop := f ≠ .error stop → g = f

theorem extends_refl (stop : ε) (f : Except ε α) : Extends stop f f := fun _ => rfl

theorem Extends.bind {stop : ε} {f g : Except ε α} {k k' : α → Except ε β} (hf : Extends stop f g)
    (hk : ∀ a, Extends stop (k a) (k' a)) : Extends stop (f >>= k) (g >>= k') := by
  cases f with
  | error e =>
    intro h
    have hne : (Except.error e : Except ε α) ≠ .error stop := by
      rintro ⟨⟩
      exact h rfl
    rw [hf hne]
    rfl
  | ok a =>
    intro h
    obtain rfl : g = .ok a := hf (by intro h'; cases h')
    exact hk a h

theorem settles_of_extends {stop : ε} {f : Nat → Except ε α}
    (h : ∀ n, Extends stop (f n) (f (n + 1))) {n : Nat} (hn : f n ≠ .error stop) :
    Settles f (f n) := by
  refine ⟨n, ?_⟩
  intro m hm
  induction m, hm using Nat.le_induction with
  | base => rfl
  | succ m _ ih =>
    rw [h m (by rw [ih]; exact hn), ih]

end SsuComputer
