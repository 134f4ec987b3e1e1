import Mathlib.Control.Monad.Writer
import SsuComputer.Lib.While

/-!
# SsuComputer.Lib.Noted

Programs that note what they do beside what they compute.

`Gives P m a`: the program `m` computes `a`, and all that it notes satisfies `P`. It follows `pure`,
`>>=` and `note`; `whileLoop_noted` is the rule for loops.
-/

namespace SsuComputer

variable {ρ σ α β : Type _}

abbrev Noted (ρ : Type _) := Writer (List ρ)

def note (r : ρ) (a : α) : Noted ρ α := WriterT.mk (a, [r])

structure Gives (P : ρ → Prop) (m : Noted ρ α) (a : α) : Prop where
  value : m.run.1 = a
  notes : ∀ r ∈ m.run.2, P r

section Rules

variable {P : ρ → Prop} {m : Noted ρ α} {a : α} {b : β}

theorem Gives.pure (P : ρ → Prop) (a : α) : Gives P (pure a : Noted ρ α) a :=
  ⟨rfl, List.forall_mem_nil P⟩

theorem Gives.note {r : ρ} (hr : P r) (a : α) : Gives P (note r a) a :=
  ⟨rfl, List.forall_mem_singleton.mpr hr⟩

theorem Gives.bind {f : α → Noted ρ β} (h : Gives P m a) (hf : Gives P (f a) b) :
    Gives P (m >>= f) b := by
  obtain ⟨rfl, hnotes⟩ := h
  exact ⟨hf.value, List.forall_mem_append.mpr ⟨hnotes, hf.notes⟩⟩

end Rules

/-- One pass of a loop, with all that has been noted. -/
def notedBody (body : σ → Noted ρ σ) (s : σ × List ρ) : Option (σ × List ρ) :=
  some ((body s.1).run.1, s.2 ++ (body s.1).run.2)

/-- A loop and the same loop with notes: the results agree, and the notes satisfy `P`. -/
theorem whileLoop_noted {I : σ → Prop} {P : ρ → Prop} {cond : σ → Bool} {body : σ → Option σ}
    {body' : σ → Noted ρ σ}
    (hstep : ∀ s, I s → cond s = true → ∃ s', body s = some s' ∧ I s' ∧ Gives P (body' s) s')
    {fuel : Nat} {s t : σ} (h : I s) {log : List ρ} (hlog : ∀ r ∈ log, P r)
    (hrun : whileLoop cond body fuel s = some t) :
    ∃ notes, whileLoop (cond ∘ Prod.fst) (notedBody body') fuel (s, log) = some (t, notes) ∧
      ∀ r ∈ notes, P r := by
  induction fuel generalizing s log with
  | zero =>
    cases hc : cond s with
    | false =>
      have hc' : (cond ∘ Prod.fst) (s, log) = false := hc
      rw [whileLoop_of_not hc] at hrun
      cases hrun
      exact ⟨log, whileLoop_of_not hc' 0, hlog⟩
    | true =>
      rw [whileLoop, if_pos hc] at hrun
      cases hrun
  | succ fuel ih =>
    cases hc : cond s with
    | false =>
      have hc' : (cond ∘ Prod.fst) (s, log) = false := hc
      rw [whileLoop_of_not hc] at hrun
      cases hrun
      exact ⟨log, whileLoop_of_not hc' _, hlog⟩
    | true =>
      have hc' : (cond ∘ Prod.fst) (s, log) = true := hc
      obtain ⟨s', hs', hI, hgives⟩ := hstep s h hc
      rw [whileLoop_step hc hs'] at hrun
      obtain ⟨rfl, hnotes⟩ := hgives
      obtain ⟨notes, hnoted, hall⟩ := ih hI (List.forall_mem_append.mpr ⟨hlog, hnotes⟩) hrun
      have hpass : notedBody body' (s, log) = some ((body' s).run.1, log ++ (body' s).run.2) := rfl
      exact ⟨notes, by rw [whileLoop_step hc' hpass, hnoted], hall⟩

end SsuComputer
