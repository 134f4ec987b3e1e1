import Mathlib.Order.Basic

/-!
# SsuComputer.Lib.While

`while` loops with fuel, over a body that can fail itself.

`whileLoop cond body fuel s` is `none` when the fuel runs out or the body fails. The rule
`whileLoop_of_measure` gives an end state from an invariant with a number that goes down;
`visits_invariant` is the rule for what holds whenever the condition is tested, and
`whileLoop_of_stuck` the one for loops that do not end.
-/

namespace SsuComputer

variable {σ : Type _}

def whileLoop (cond : σ → Bool) (body : σ → Option σ) : Nat → σ → Option σ
  | 0, s => if cond s then none else some s
  | fuel + 1, s => if cond s then (body s).bind (whileLoop cond body fuel) else some s

variable {cond : σ → Bool} {body : σ → Option σ}

theorem whileLoop_of_not {s : σ} (h : cond s = false) (fuel : Nat) :
    whileLoop cond body fuel s = some s := by
  cases fuel <;> simp [whileLoop, h]

theorem whileLoop_step {s s' : σ} (h : cond s = true) (hs : body s = some s') (fuel : Nat) :
    whileLoop cond body (fuel + 1) s = whileLoop cond body fuel s' := by
  rw [whileLoop, if_pos h, hs, Option.bind_some]

theorem whileLoop_of_measure {I : Nat → σ → Prop}
    (hstep : ∀ n s, I n s → cond s = true → ∃ s' m, body s = some s' ∧ m < n ∧ I m s') (n : Nat)
    (s : σ) (h : I n s) {fuel : Nat} (hfuel : n ≤ fuel) :
    ∃ s' m, whileLoop cond body fuel s = some s' ∧ I m s' ∧ cond s' = false := by
  induction fuel generalizing n s with
  | zero =>
    cases hc : cond s with
    | false => exact ⟨s, n, whileLoop_of_not hc 0, h, hc⟩
    | true =>
      obtain ⟨s', m, -, hlt, -⟩ := hstep n s h hc
      omega
  | succ fuel ih =>
    cases hc : cond s with
    | false => exact ⟨s, n, whileLoop_of_not hc _, h, hc⟩
    | true =>
      obtain ⟨s', m, hs', hlt, hI⟩ := hstep n s h hc
      obtain ⟨s'', k, hrun, hI', hc'⟩ := ih m s' hI (by omega)
      exact ⟨s'', k, by rw [whileLoop, if_pos hc, hs', Option.bind_some, hrun], hI', hc'⟩

theorem whileLoop_invariant {I : σ → Prop}
    (hstep : ∀ s s', I s → cond s = true → body s = some s' → I s') {fuel : Nat} {s s' : σ} (h : I s)
    (hrun : whileLoop cond body fuel s = some s') : I s' ∧ cond s' = false := by
  induction fuel generalizing s with
  | zero =>
    rw [whileLoop] at hrun
    split at hrun
    · cases hrun
    · rename_i hc
      cases hrun
      exact ⟨h, eq_false_of_ne_true hc⟩
  | succ fuel ih =>
    rw [whileLoop] at hrun
    split at hrun
    · rename_i hc
      obtain ⟨t, hbody, hrest⟩ := Option.bind_eq_some_iff.mp hrun
      exact ih (hstep s t h hc hbody) hrest
    · rename_i hc
      cases hrun
      exact ⟨h, eq_false_of_ne_true hc⟩

theorem whileLoop_more {fuel fuel' : Nat} {s s' : σ} (hrun : whileLoop cond body fuel s = some s')
    (hle : fuel ≤ fuel') : whileLoop cond body fuel' s = some s' := by
  induction fuel generalizing s fuel' with
  | zero =>
    rw [whileLoop] at hrun
    split at hrun
    · cases hrun
    · rename_i hc
      cases hrun
      exact whileLoop_of_not (eq_false_of_ne_true hc) fuel'
  | succ fuel ih =>
    obtain ⟨more, rfl⟩ : ∃ more, fuel' = more + 1 := ⟨fuel' - 1, by omega⟩
    rw [whileLoop] at hrun ⊢
    split at hrun
    · rename_i hc
      obtain ⟨t, hbody, hrest⟩ := Option.bind_eq_some_iff.mp hrun
      rw [if_pos hc, hbody, Option.bind_some]
      exact ih hrest (by omega)
    · rename_i hc
      rw [if_neg hc, hrun]

/-- Rounds that are always followed by another one. -/
theorem whileLoop_of_stuck {I : σ → Prop}
    (hstep : ∀ s, I s → cond s = true ∧ ∃ s', body s = some s' ∧ I s') {s : σ} (h : I s)
    (fuel : Nat) : whileLoop cond body fuel s = none := by
  induction fuel generalizing s with
  | zero => rw [whileLoop, if_pos (hstep s h).1]
  | succ fuel ih =>
    obtain ⟨hc, s', hs', hI⟩ := hstep s h
    rw [whileLoop_step hc hs', ih hI]

theorem whileLoop_of_same {s : σ} (h : cond s = true) (hs : body s = some s) (fuel : Nat) :
    whileLoop cond body fuel s = none := by
  refine whileLoop_of_stuck (I := fun t => t = s) ?_ rfl fuel
  rintro _ rfl
  exact ⟨h, _, hs, rfl⟩

theorem whileLoop_unique {fuel fuel' : Nat} {s t t' : σ} (h : whileLoop cond body fuel s = some t)
    (h' : whileLoop cond body fuel' s = some t') : t = t' :=
  Option.some.inj ((whileLoop_more h (Nat.le_max_left fuel fuel')).symm.trans
    (whileLoop_more h' (Nat.le_max_right fuel fuel')))

/-- A loop on a part of the state. -/
theorem whileLoop_map {τ : Type _} {cond' : τ → Bool} {body' : τ → Option τ} (f : σ → τ)
    (hcond : ∀ s, cond' (f s) = cond s) (hbody : ∀ s, body' (f s) = (body s).map f) (fuel : Nat)
    (s : σ) : whileLoop cond' body' fuel (f s) = (whileLoop cond body fuel s).map f := by
  induction fuel generalizing s with
  | zero => cases hc : cond s <;> simp [whileLoop, hcond, hc]
  | succ fuel ih =>
    cases hc : cond s with
    | false => simp [whileLoop, hcond, hc]
    | true =>
      cases hb : body s with
      | none => simp [whileLoop, hcond, hbody, hc, hb]
      | some s' => simp [whileLoop, hcond, hbody, hc, hb, ih]

/-- The states in which the loop tests its condition. -/
inductive Visits (cond : σ → Bool) (body : σ → Option σ) (s : σ) : σ → Prop
  | start : Visits cond body s s
  | next {t t' : σ} (h : Visits cond body s t) (hc : cond t = true) (hb : body t = some t') :
    Visits cond body s t'

theorem visits_invariant {I : σ → Prop} {s : σ} (h0 : I s)
    (hstep : ∀ t t', I t → cond t = true → body t = some t' → I t') {t : σ}
    (h : Visits cond body s t) : I t := by
  induction h with
  | start => exact h0
  | next _ hc hb ih => exact hstep _ _ ih hc hb

theorem Visits.prepend {s s' t : σ} (hc : cond s = true) (hb : body s = some s')
    (h : Visits cond body s' t) : Visits cond body s t := by
  induction h with
  | start => exact .next .start hc hb
  | next _ hc' hb' ih => exact .next ih hc' hb'

theorem visits_of_not {s t : σ} (hc : cond s = false) (h : Visits cond body s t) : t = s := by
  induction h with
  | start => rfl
  | next _ hc' _ ih =>
    rw [ih, hc] at hc'
    cases hc'

/-- The states visited, by the first pass through the body. -/
theorem visits_step {s s' t : σ} (hc : cond s = true) (hb : body s = some s') :
    Visits cond body s t ↔ t = s ∨ Visits cond body s' t := by
  constructor
  · intro h
    induction h with
    | start => exact .inl rfl
    | @next t t' _ hc' hb' ih =>
      rcases ih with rfl | ih
      · rw [hb] at hb'
        cases hb'
        exact .inr .start
      · exact .inr (.next ih hc' hb')
  · rintro (rfl | h)
    · exact .start
    · exact h.prepend hc hb

end SsuComputer
