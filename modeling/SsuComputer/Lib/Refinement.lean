import SsuComputer.Lib.Run
import Mathlib.Logic.Relation
import Mathlib.Logic.Function.Basic
import Mathlib.Data.Finset.Basic

/-!
# SsuComputer.Lib.Refinement

Runs of a step relation, and the rule by which one machine refines another.

* `runs_invariant` — what every step keeps holds after every run.
* `Trace` — a run with the labels of its steps in order.
* `trace_refines` — when each step of a machine is what an abstract one does on the event that the
  step shows, if it shows one, so is each run: the events come in the same order.
* `Store`, `Store.apply` — an abstract store with atomic operations: what is written between `start`
  and `finish` becomes durable in one piece, at a moment when no operation is open, and a crash
  takes the store back to what is durable.
-/

namespace SsuComputer

open Relation

variable {σ τ ε δ : Type _}

theorem runs_invariant {step : σ → σ → Prop} {I : σ → Prop}
    (hstep : ∀ s s', I s → step s s' → I s') {s s' : σ} (h : I s)
    (hrun : ReflTransGen step s s') : I s' := by
  induction hrun with
  | refl => exact h
  | tail _ hs ih => exact hstep _ _ ih hs

/-! ## Steps with labels -/

inductive Trace (step : σ → ε → σ → Prop) : σ → List ε → σ → Prop
  | refl {s : σ} : Trace step s [] s
  | cons {s s' s'' : σ} {e : ε} {es : List ε} (hs : step s e s') (h : Trace step s' es s'') :
    Trace step s (e :: es) s''

/-- A step, whatever its label. -/
def Unlabelled (step : σ → ε → σ → Prop) (s s' : σ) : Prop := ∃ e, step s e s'

variable {step : σ → ε → σ → Prop}

theorem Trace.single {s s' : σ} {e : ε} (hs : step s e s') : Trace step s [e] s' := .cons hs .refl

theorem Trace.append {s s' s'' : σ} {es es' : List ε} (h : Trace step s es s')
    (h' : Trace step s' es' s'') : Trace step s (es ++ es') s'' := by
  induction h with
  | refl => exact h'
  | cons hs _ ih => exact .cons hs (ih h')

theorem Trace.runs {s s' : σ} {es : List ε} (h : Trace step s es s') :
    ReflTransGen (Unlabelled step) s s' := by
  induction h with
  | refl => exact .refl
  | cons hs _ ih => exact .head ⟨_, hs⟩ ih

theorem filterMap_cons_toList (f : ε → Option δ) (e : ε) (es : List ε) :
    (e :: es).filterMap f = (f e).toList ++ es.filterMap f := by
  cases h : f e <;> simp [h]

/-- By induction on the run of the concrete machine. -/
theorem trace_refines {apply : τ → δ → τ} {ok : τ → δ → Prop} {seen : ε → Option δ}
    {R : σ → τ → Prop}
    (hstep : ∀ s a e s', R s a → step s e s' →
      Run.Guarded apply ok a (seen e).toList ∧ R s' (Run.exec apply a (seen e).toList))
    {s s' : σ} {a : τ} {es : List ε} (h : R s a) (hrun : Trace step s es s') :
    Run.Guarded apply ok a (es.filterMap seen) ∧
      R s' (Run.exec apply a (es.filterMap seen)) := by
  induction hrun generalizing a with
  | refl => exact ⟨trivial, h⟩
  | @cons s s' s'' e es hs _ ih =>
    obtain ⟨hok, hR⟩ := hstep s a e s' h hs
    obtain ⟨hoks, hRs⟩ := ih hR
    rw [filterMap_cons_toList, Run.guarded_append, Run.exec_append]
    exact ⟨⟨hok, hoks⟩, hRs⟩

/-! ## A store with atomic operations -/

/-- `durable` is what a crash leaves, `live` what the open operations see. -/
structure Store (π ι β : Type _) where
  durable : ι → β
  live : ι → β
  active : Finset π

namespace Store

variable {π ι β : Type _} [DecidableEq π] [DecidableEq ι]

def init (d : ι → β) : Store π ι β := ⟨d, d, ∅⟩

/-- `commit` is the moment when all that was written becomes durable. -/
inductive Event (π ι β : Type _)
  | start (p : π)
  | write (p : π) (i : ι) (v : β)
  | finish (p : π)
  | commit
  | crash

def apply (a : Store π ι β) : Event π ι β → Store π ι β
  | .start p => { a with active := insert p a.active }
  | .write _ i v => { a with live := Function.update a.live i v }
  | .finish p => { a with active := a.active.erase p }
  | .commit => { a with durable := a.live }
  | .crash => init a.durable

/-- Operations write between their start and their finish, and no commit falls inside of one. -/
def Allowed (a : Store π ι β) : Event π ι β → Prop
  | .start p => p ∉ a.active
  | .write p _ _ => p ∈ a.active
  | .finish p => p ∈ a.active
  | .commit => a.active = ∅
  | .crash => True

end Store

end SsuComputer
