import Mathlib.Data.List.Induction
import Mathlib.Data.List.Infix

/-!
# SsuComputer.Lib.Run

Runs of a deterministic step function over a list of inputs.

* `exec step s as` — the state reached from `s` by the inputs `as`.
* `Guarded step ok s as` — every step of that run is taken in a state where `ok` holds.
* `exec_induction` — the invariant rule: the invariant may also speak of the inputs consumed so far.
* `always_iff_guarded`, `always_iff_guarded_of` — when one step keeps `P` exactly under `ok`, a whole
  run keeps `P` at every prefix exactly when it is guarded by `ok`.
* `exec_last` — a part of the state that some inputs set holds what the last of them set.
* `exec?`, `exec?_invariant` — runs of a step that can fail.
* `Independent` — what a state leads to does not depend on the run before it.
-/

namespace SsuComputer
namespace Run

variable {σ α : Type _}

def exec (step : σ → α → σ) (s : σ) (as : List α) : σ := as.foldl step s

def Guarded (step : σ → α → σ) (ok : σ → α → Prop) : σ → List α → Prop
  | _, [] => True
  | s, a :: as => ok s a ∧ Guarded step ok (step s a) as

instance decidableGuarded (step : σ → α → σ) (ok : σ → α → Prop) [∀ s a, Decidable (ok s a)] :
    ∀ (s : σ) (as : List α), Decidable (Guarded step ok s as)
  | _, [] => isTrue trivial
  | s, a :: as =>
    have := decidableGuarded step ok (step s a) as
    inferInstanceAs (Decidable (ok s a ∧ Guarded step ok (step s a) as))

variable {step : σ → α → σ} {ok : σ → α → Prop} {adm : α → Prop}

@[simp] theorem exec_nil (s : σ) : exec step s [] = s := rfl

@[simp] theorem exec_cons (s : σ) (a : α) (as : List α) :
    exec step s (a :: as) = exec step (step s a) as := rfl

@[simp] theorem exec_concat (s : σ) (as : List α) (a : α) :
    exec step s (as ++ [a]) = step (exec step s as) a := by
  simp [exec]

theorem exec_append (s : σ) (as bs : List α) :
    exec step s (as ++ bs) = exec step (exec step s as) bs := List.foldl_append

theorem guarded_append (s : σ) (as bs : List α) :
    Guarded step ok s (as ++ bs) ↔ Guarded step ok s as ∧ Guarded step ok (exec step s as) bs := by
  induction as generalizing s with
  | nil => simp [Guarded]
  | cons a as ih => simp [Guarded, ih, and_assoc]

theorem guarded_concat (s : σ) (as : List α) (a : α) :
    Guarded step ok s (as ++ [a]) ↔ Guarded step ok s as ∧ ok (exec step s as) a := by
  simp [guarded_append, Guarded]

theorem guarded_prefix {s : σ} {pre post : List α} (h : Guarded step ok s (pre ++ post)) :
    Guarded step ok s pre := ((guarded_append s pre post).mp h).1

theorem guarded_true (s : σ) (as : List α) : Guarded step (fun _ _ => True) s as := by
  induction as generalizing s with
  | nil => trivial
  | cons a as ih => exact ⟨trivial, ih _⟩

/-- The invariant rule for guarded runs, by induction on the run read from its end. -/
theorem exec_induction {s : σ} {I : List α → σ → Prop} (h0 : I [] s)
    (hstep : ∀ h t a, I h t → adm a → ok t a → I (h ++ [a]) (step t a)) :
    ∀ as : List α, (∀ a ∈ as, adm a) → Guarded step ok s as → I as (exec step s as) := by
  intro as
  induction as using List.reverseRecOn with
  | nil => intro _ _; exact h0
  | append_singleton as a ih =>
    intro hadm hg
    obtain ⟨hg, hok⟩ := (guarded_concat s as a).mp hg
    rw [exec_concat]
    exact hstep as _ a (ih (fun b hb => hadm b (by simp [hb])) hg) (hadm a (by simp)) hok

theorem exec_invariant {s : σ} {I : List α → σ → Prop} (h0 : I [] s)
    (hstep : ∀ h t a, I h t → adm a → I (h ++ [a]) (step t a))
    (as : List α) (hadm : ∀ a ∈ as, adm a) : I as (exec step s as) :=
  exec_induction h0 (fun h t a hi ha _ => hstep h t a hi ha) as hadm (guarded_true s as)

/-- When `I` holds along every run, `Q` holds as long as the steps are guarded, and one step from a
state with all three keeps `P` exactly when `ok` holds, then `P` holds at every prefix of a run
exactly when the run is guarded. -/
theorem always_iff_guarded_of {s : σ} {I Q P : List α → σ → Prop} (hI0 : I [] s) (hQ0 : Q [] s)
    (hP0 : P [] s) (hI : ∀ h t a, I h t → adm a → I (h ++ [a]) (step t a))
    (hQ : ∀ h t a, I h t → Q h t → P h t → adm a → ok t a → Q (h ++ [a]) (step t a))
    (hP : ∀ h t a, I h t → Q h t → P h t → adm a → (P (h ++ [a]) (step t a) ↔ ok t a)) :
    ∀ as : List α, (∀ a ∈ as, adm a) →
      ((∀ pre, pre <+: as → P pre (exec step s pre)) ↔ Guarded step ok s as) := by
  intro as hadm
  have key : ((∀ pre, pre <+: as → P pre (exec step s pre)) ↔ Guarded step ok s as) ∧
      (Guarded step ok s as → Q as (exec step s as)) := by
    induction as using List.reverseRecOn with
    | nil => simpa [Guarded, List.prefix_nil] using ⟨hP0, hQ0⟩
    | append_singleton as a ih =>
      have hadm' : ∀ b ∈ as, adm b := fun b hb => hadm b (by simp [hb])
      obtain ⟨hiff, hq⟩ := ih hadm'
      have hIas : I as (exec step s as) := exec_invariant hI0 hI as hadm'
      have hlast := fun hg hPas => hP as _ a hIas (hq hg) hPas (hadm a (by simp))
      rw [guarded_concat, ← hiff]
      refine ⟨⟨?_, ?_⟩, ?_⟩
      · intro h
        have hpre : ∀ pre, pre <+: as → P pre (exec step s pre) := fun pre hp =>
          h pre (hp.trans (List.prefix_append as [a]))
        refine ⟨hpre, (hlast (hiff.mp hpre) (hpre as (List.prefix_refl as))).mp ?_⟩
        simpa using h (as ++ [a]) (List.prefix_refl _)
      · rintro ⟨hpre, hok⟩ pre hp
        rcases List.prefix_concat_iff.mp hp with rfl | hp
        · rw [exec_concat]
          exact (hlast (hiff.mp hpre) (hpre as (List.prefix_refl as))).mpr hok
        · exact hpre pre hp
      · rintro ⟨hpre, hok⟩
        rw [exec_concat]
        exact hQ as _ a hIas (hq (hiff.mp hpre)) (hpre as (List.prefix_refl as)) (hadm a (by simp)) hok
  exact key.1

/-- When `I` holds along every run and one step from a state with `I` and `P` keeps `P` exactly
when `ok` holds, then `P` holds at every prefix of a run exactly when the run is guarded. -/
theorem always_iff_guarded {s : σ} {I P : List α → σ → Prop} (hI0 : I [] s) (hP0 : P [] s)
    (hI : ∀ h t a, I h t → adm a → I (h ++ [a]) (step t a))
    (hP : ∀ h t a, I h t → P h t → adm a → (P (h ++ [a]) (step t a) ↔ ok t a)) :
    ∀ as : List α, (∀ a ∈ as, adm a) →
      ((∀ pre, pre <+: as → P pre (exec step s pre)) ↔ Guarded step ok s as) :=
  always_iff_guarded_of (Q := fun _ _ => True) hI0 trivial hP0 hI (fun _ _ _ _ _ _ _ _ => trivial)
    fun h t a hi _ => hP h t a hi

theorem exec_last {β γ : Type _} (get : σ → γ) (pick : α → Option β) (value : β → γ)
    (hget : ∀ s a, get (step s a) = ((pick a).map value).getD (get s)) (s : σ) (as : List α) :
    get (exec step s as) = ((as.filterMap pick).getLast?.map value).getD (get s) := by
  induction as generalizing s with
  | nil => rfl
  | cons a as ih =>
    rw [exec_cons, ih, hget]
    cases h : pick a with
    | none => simp [h]
    | some b =>
      rw [List.filterMap_cons_some h, List.getLast?_cons]
      cases (as.filterMap pick).getLast? <;> rfl

/-! ## Steps that can fail -/

def exec? (step : σ → α → Option σ) (s : σ) (as : List α) : Option σ :=
  exec (fun r a => r.bind fun t => step t a) (some s) as

variable {step? : σ → α → Option σ}

@[simp] theorem exec?_nil (s : σ) : exec? step? s [] = some s := rfl

@[simp] theorem exec?_concat (s : σ) (as : List α) (a : α) :
    exec? step? s (as ++ [a]) = (exec? step? s as).bind fun t => step? t a :=
  exec_concat _ _ _

/-- A run does not fail when no step from a state with the invariant does. -/
theorem exec?_invariant {s : σ} {I : σ → Prop} (h0 : I s)
    (hstep : ∀ t a, I t → ∃ t', step? t a = some t' ∧ I t') (as : List α) :
    ∃ t, exec? step? s as = some t ∧ I t := by
  refine exec_invariant (I := fun _ r => ∃ t, r = some t ∧ I t)
    ⟨s, rfl, h0⟩ ?_ as fun _ _ => trivial
  rintro _ r a ⟨t, rfl, ht⟩ _
  exact hstep t a ht

/-- Whatever two runs from `s` come before, the same comes out. -/
def Independent {ω : Type _} (step? : σ → α → Option σ) (s : σ) (outcome : σ → ω → Prop) : Prop :=
  ∀ as₁ as₂ t₁ t₂ o₁ o₂, exec? step? s as₁ = some t₁ → exec? step? s as₂ = some t₂ →
    outcome t₁ o₁ → outcome t₂ o₂ → o₁ = o₂

end Run
end SsuComputer
