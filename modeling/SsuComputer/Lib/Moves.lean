import Mathlib.Data.List.Nodup
import Mathlib.Logic.Function.Basic

/-!
# SsuComputer.Lib.Moves

Things that are moved from their slots into slots of a store, one after the other. A thing may be in
further slots of the store too; moving it onto itself does nothing.

* `Plan.move` — a thing whose move fails is dropped; otherwise it replaces what is in its target.
* `Plan.run_frame`, `Plan.run_ne` — what a run leaves alone, and what it does not bring about.
* `Plan.Free.run_last` — the last thing that goes into a slot is there in the end.
* `Plan.lossless_iff` — when nothing is lost.
-/

namespace SsuComputer

structure Plan (ι σ α : Type _) where
  source : ι → σ
  target : ι → σ
  thing : ι → α
  fails : ι → Bool

namespace Plan

variable {ι σ α : Type _} (p : Plan ι σ α)

/-- What a store has to hold before the moves. -/
structure Ready (store : σ → Prop) (k : σ → Option α) (l : List ι) : Prop where
  source : ∀ f ∈ l, k (p.source f) = some (p.thing f)
  target : ∀ f ∈ l, store (p.target f)
  inside : ∀ f ∈ l, store (p.source f) → p.source f = p.target f
  distinct : l.Pairwise fun f g => p.thing f ≠ p.thing g

/-- Nothing is lost: what has been moved is in the store, what was there still is, and what could not
be moved has stayed. -/
structure Lossless (store : σ → Prop) (k k' : σ → Option α) (l : List ι) : Prop where
  stored : ∀ f ∈ l, p.fails f = false → ∃ e, store e ∧ k' e = some (p.thing f)
  before : ∀ e x, store e → k e = some x → k' e = some x
  intact : ∀ f ∈ l, p.fails f = true → k' (p.source f) = some (p.thing f)

/-- Every move works, into a target that is free or holds a thing that goes there. Of two things with
one target the second comes from elsewhere, and the first is in the store already, in another slot. -/
structure Free (store : σ → Prop) (k : σ → Option α) (l : List ι) : Prop where
  works : ∀ f ∈ l, p.fails f = false
  free : ∀ f ∈ l, k (p.target f) = none ∨
    ∃ g ∈ l, p.target g = p.target f ∧ k (p.target f) = some (p.thing g)
  apart : l.Pairwise fun f g => p.target f = p.target g → p.source g ≠ p.target g ∧
    k (p.target f) ≠ some (p.thing f) ∧ ∃ e, store e ∧ k e = some (p.thing f)

variable {p} {store : σ → Prop} {k : σ → Option α} {l : List ι}

theorem Ready.things_ne {pre post : List ι} {f g : ι} (h : p.Ready store k (pre ++ f :: post))
    (hg : g ∈ post) : p.thing g ≠ p.thing f :=
  Ne.symm ((List.pairwise_cons.mp (List.pairwise_append.mp h.distinct).2.1).1 g hg)

theorem Ready.eq_of_thing {f g : ι} (h : p.Ready store k l) (hf : f ∈ l) (hg : g ∈ l)
    (heq : p.thing f = p.thing g) : f = g := by
  have hnodup : (l.map p.thing).Nodup := List.pairwise_map.mpr h.distinct
  exact List.inj_on_of_nodup_map hnodup hf hg heq

/-- A slot of the store that no thing goes into is not one that a thing comes from. -/
theorem Ready.ne_source {f : ι} {e : σ} (h : p.Ready store k l) (hf : f ∈ l) (he : store e)
    (hne : e ≠ p.target f) : e ≠ p.source f := fun heq =>
  hne (heq.trans (h.inside f hf (heq ▸ he)))

/-! ## The run -/

variable [DecidableEq σ] [DecidableEq α]

def move (p : Plan ι σ α) (k : σ → Option α) (f : ι) : σ → Option α :=
  if p.fails f then Function.update k (p.source f) none
  else if p.source f = p.target f ∨ k (p.target f) = some (p.thing f) then k
  else Function.update (Function.update k (p.source f) none) (p.target f) (some (p.thing f))

def run (p : Plan ι σ α) (k : σ → Option α) (l : List ι) : σ → Option α := l.foldl p.move k

theorem move_fails {f : ι} (h : p.fails f = true) :
    p.move k f = Function.update k (p.source f) none := if_pos h

theorem move_stays {f : ι} (h : p.fails f = false)
    (hst : p.source f = p.target f ∨ k (p.target f) = some (p.thing f)) : p.move k f = k := by
  rw [move, if_neg (by rw [h]; exact Bool.false_ne_true), if_pos hst]

theorem move_moves {f : ι} (h : p.fails f = false) (hst : p.source f ≠ p.target f)
    (hk : k (p.target f) ≠ some (p.thing f)) : p.move k f =
      Function.update (Function.update k (p.source f) none) (p.target f) (some (p.thing f)) := by
  rw [move, if_neg (by rw [h]; exact Bool.false_ne_true), if_neg (not_or.mpr ⟨hst, hk⟩)]

theorem move_target {f : ι} (h : p.fails f = false) (hst : p.source f ≠ p.target f) :
    p.move k f (p.target f) = some (p.thing f) := by
  by_cases hk : k (p.target f) = some (p.thing f)
  · rw [move_stays h (.inr hk), hk]
  · rw [move_moves h hst hk, Function.update_self]

theorem move_of_ne {f : ι} {e : σ} (hs : e ≠ p.source f) (ht : e ≠ p.target f) : p.move k f e = k e := by
  rw [move]
  split
  · exact Function.update_of_ne hs _ _
  · split
    · rfl
    · rw [Function.update_of_ne ht, Function.update_of_ne hs]

theorem move_ne {f : ι} {e : σ} {x : α} (hk : k e ≠ some x)
    (hx : p.fails f = false → p.source f ≠ p.target f → p.target f = e → p.thing f ≠ x) :
    p.move k f e ≠ some x := by
  by_cases ht : p.fails f = false ∧ p.source f ≠ p.target f ∧ e = p.target f
  · obtain ⟨hfails, hst, rfl⟩ := ht
    rw [move_target hfails hst]
    exact fun heq => hx hfails hst rfl (Option.some.inj heq)
  · -- the slot keeps what it has, or is emptied
    have hnone : p.move k f e = k e ∨ p.move k f e = none := by
      rw [move]
      split
      · by_cases hs : e = p.source f
        · exact .inr (by rw [hs, Function.update_self])
        · exact .inl (Function.update_of_ne hs _ _)
      · rename_i hfails
        split
        · exact .inl rfl
        · rename_i hst
          have hne : e ≠ p.target f := fun heq =>
            ht ⟨eq_false_of_ne_true hfails, (not_or.mp hst).1, heq⟩
          rw [Function.update_of_ne hne]
          by_cases hs : e = p.source f
          · exact .inr (by rw [hs, Function.update_self])
          · exact .inl (Function.update_of_ne hs _ _)
    rcases hnone with heq | heq <;> rw [heq]
    · exact hk
    · exact (Option.some_ne_none _).symm

/-- A slot that no move takes from or puts into keeps what it has. -/
theorem run_frame {e : σ} (h : ∀ f ∈ l, e ≠ p.source f ∧ e ≠ p.target f) : p.run k l e = k e := by
  induction l generalizing k with
  | nil => rfl
  | cons f l ih =>
    obtain ⟨⟨hs, ht⟩, hl⟩ := List.forall_mem_cons.mp h
    exact (ih hl).trans (move_of_ne hs ht)

/-- A thing comes into a slot only by its own move. -/
theorem run_ne {e : σ} {x : α} (hk : k e ≠ some x) (hx : ∀ f ∈ l, p.fails f = false →
    p.source f ≠ p.target f → p.target f = e → p.thing f ≠ x) : p.run k l e ≠ some x := by
  induction l generalizing k with
  | nil => exact hk
  | cons f l ih =>
    obtain ⟨hf, hl⟩ := List.forall_mem_cons.mp hx
    exact ih (move_ne hk hf) hl

theorem run_split (k : σ → Option α) (pre post : List ι) (f : ι) :
    p.run k (pre ++ f :: post) = p.run (p.move (p.run k pre) f) post := by
  rw [run, List.foldl_append]
  rfl

/-- What is put over the thing in a slot stays over it, unless the thing is moved there later. -/
theorem run_overwritten {pre post : List ι} {f : ι} {x : α} (hfails : p.fails f = false)
    (hst : p.source f ≠ p.target f) (hne : p.thing f ≠ x)
    (hx : ∀ g ∈ post, p.fails g = false → p.source g ≠ p.target g → p.target g = p.target f →
      p.thing g ≠ x) : p.run k (pre ++ f :: post) (p.target f) ≠ some x := by
  rw [run_split]
  refine run_ne ?_ hx
  rw [move_target hfails hst]
  exact fun heq => hne (Option.some.inj heq)

/-! ## Losses -/

theorem Lossless.works (h : p.Ready store k l) (hl : p.Lossless store k (p.run k l) l) :
    ∀ f ∈ l, p.fails f = false := by
  intro f hf
  by_contra hfails
  rw [Bool.not_eq_false] at hfails
  have hintact := hl.intact f hf hfails
  obtain ⟨pre, post, rfl⟩ := List.append_of_mem hf
  rw [run_split] at hintact
  refine run_ne ?_ ?_ hintact
  · rw [move_fails hfails, Function.update_self]
    exact (Option.some_ne_none _).symm
  · exact fun g hg _ _ _ => h.things_ne hg

theorem Lossless.free (h : p.Ready store k l) (hl : p.Lossless store k (p.run k l) l) :
    ∀ f ∈ l, k (p.target f) = none ∨
      ∃ g ∈ l, p.target g = p.target f ∧ k (p.target f) = some (p.thing g) := by
  intro f hf
  by_contra hno
  rw [not_or] at hno
  obtain ⟨x, hx⟩ := Option.ne_none_iff_exists'.mp hno.1
  have hother : ∀ g ∈ l, p.target g = p.target f → p.thing g ≠ x := fun g hg ht heq =>
    hno.2 ⟨g, hg, ht, by rw [hx, heq]⟩
  have hst : p.source f ≠ p.target f := fun hst => by
    have hsource := h.source f hf
    rw [hst, hx] at hsource
    exact hother f hf rfl (Option.some.inj hsource).symm
  have hworks := hl.works h f hf
  have hbefore := hl.before _ x (h.target f hf) hx
  obtain ⟨pre, post, rfl⟩ := List.append_of_mem hf
  refine run_overwritten hworks hst (hother f hf rfl) (fun g hg _ _ ht => ?_) hbefore
  exact hother g (List.mem_append_right _ (List.mem_cons_of_mem _ hg)) ht

theorem Lossless.apart (h : p.Ready store k l) (hl : p.Lossless store k (p.run k l) l) :
    l.Pairwise fun f g => p.target f = p.target g → p.source g ≠ p.target g ∧
      k (p.target f) ≠ some (p.thing f) ∧ ∃ e, store e ∧ k e = some (p.thing f) := by
  have hworks := hl.works h
  rw [List.pairwise_iff_forall_sublist]
  intro f g hsub heq
  have hf : f ∈ l := hsub.subset List.mem_cons_self
  have hg : g ∈ l := hsub.subset (List.mem_cons_of_mem _ (List.mem_singleton_self g))
  have hne : p.thing f ≠ p.thing g := List.pairwise_iff_forall_sublist.mp h.distinct hsub
  obtain ⟨pre, mid, post, hl'⟩ : ∃ pre mid post, l = pre ++ f :: (mid ++ g :: post) := by
    obtain ⟨l₁, l₂, rfl, h₁, h₂⟩ := List.cons_sublist_iff.mp hsub
    obtain ⟨mid, post, rfl⟩ := List.append_of_mem (List.singleton_sublist.mp h₂)
    obtain ⟨pre, rest, rfl⟩ := List.append_of_mem h₁
    exact ⟨pre, rest ++ mid, post, by simp⟩
  have hlater : ∀ x ∈ mid ++ g :: post, x ∈ l := fun x hx => by
    rw [hl']
    exact List.mem_append_right _ (List.mem_cons_of_mem _ hx)
  -- the second thing does not lie in the target
  have hgst : p.source g ≠ p.target g := by
    intro hst
    have hsource := h.source g hg
    rw [hst, ← heq] at hsource
    have hfst : p.source f ≠ p.target f := fun hfst => by
      have hsource' := h.source f hf
      rw [hfst, hsource] at hsource'
      exact hne (Option.some.inj hsource').symm
    have hbefore := hl.before _ _ (h.target f hf) hsource
    rw [hl'] at hbefore
    refine run_overwritten (hworks f hf) hfst hne (fun x hx _ hxst _ hthing => ?_) hbefore
    rw [h.eq_of_thing (hlater x hx) hg hthing] at hxst
    exact hxst hst
  -- and replaces the first one for good
  have hreplaced : p.run k l (p.target f) ≠ some (p.thing f) := by
    rw [hl', ← List.cons_append, ← List.append_assoc, heq]
    refine run_overwritten (hworks g hg) hgst hne.symm fun x hx _ _ _ => ?_
    rw [hl'] at h
    exact h.things_ne (List.mem_append_right _ (List.mem_cons_of_mem _ hx))
  refine ⟨hgst, fun hk => hreplaced (hl.before _ _ (h.target f hf) hk), ?_⟩
  obtain ⟨e, hstore, hstored⟩ := hl.stored f hf (hworks f hf)
  refine ⟨e, hstore, ?_⟩
  by_contra hk
  refine run_ne hk (fun x hx _ _ ht hthing => ?_) hstored
  rw [h.eq_of_thing hx hf hthing] at ht
  rw [← ht] at hstored
  exact hreplaced hstored

/-- The last thing that goes into a slot is there in the end. -/
theorem Free.run_last {pre post : List ι} {g : ι} (h : p.Ready store k (pre ++ g :: post))
    (hl : p.Free store k (pre ++ g :: post)) (hlast : ∀ f ∈ post, p.target f ≠ p.target g) :
    p.run k (pre ++ g :: post) (p.target g) = some (p.thing g) := by
  have hg : g ∈ pre ++ g :: post := List.mem_append_right _ List.mem_cons_self
  have hframe : ∀ {f}, f ∈ pre ++ g :: post → p.target f ≠ p.target g →
      p.target g ≠ p.source f ∧ p.target g ≠ p.target f := fun hf hne =>
    ⟨h.ne_source hf (h.target g hg) hne.symm, hne.symm⟩
  rw [run_split, run_frame fun f hf =>
    hframe (List.mem_append_right _ (List.mem_cons_of_mem _ hf)) (hlast f hf)]
  by_cases hst : p.source g = p.target g
  · -- a thing that lies in its target is not overwritten before
    rw [move_stays (hl.works g hg) (.inl hst), run_frame, ← hst, h.source g hg]
    intro f hf
    refine hframe (List.mem_append_left _ hf) fun heq => ?_
    have hapart := (List.pairwise_append.mp hl.apart).2.2 f hf g List.mem_cons_self heq
    exact hapart.1 hst
  · exact move_target (hl.works g hg) hst

theorem Free.before (h : p.Ready store k l) (hl : p.Free store k l) {e : σ} {x : α}
    (hstore : store e) (hk : k e = some x) : p.run k l e = some x := by
  by_cases htarget : ∃ f ∈ l, p.target f = e
  · obtain ⟨f, hf, rfl⟩ := htarget
    obtain ⟨g, hg, ht, hthing⟩ := (hl.free f hf).resolve_left (by rw [hk]; exact Option.some_ne_none _)
    rw [hk, Option.some.injEq] at hthing
    rw [← ht] at hk ⊢
    obtain ⟨pre, post, rfl⟩ := List.append_of_mem hg
    rw [hl.run_last h fun f' hf' heq => ?_, hthing]
    -- a later thing would replace it
    have hapart := (List.pairwise_cons.mp (List.pairwise_append.mp hl.apart).2.1).1 f' hf' heq.symm
    exact hapart.2.1 (by rw [hk, hthing])
  · rw [run_frame, hk]
    intro f hf
    have hne : e ≠ p.target f := fun heq => htarget ⟨f, hf, heq.symm⟩
    exact ⟨h.ne_source hf hstore hne, hne⟩

theorem Free.lossless (h : p.Ready store k l) (hl : p.Free store k l) :
    p.Lossless store k (p.run k l) l := by
  refine ⟨fun f hf _ => ?_, fun e x hstore hk => hl.before h hstore hk, fun f hf hfails => ?_⟩
  · obtain ⟨pre, post, hl'⟩ := List.append_of_mem hf
    by_cases hlater : ∃ g ∈ post, p.target f = p.target g
    · -- it is in another slot already
      obtain ⟨g, hg, heq⟩ := hlater
      have hapart := hl.apart
      rw [hl'] at hapart
      obtain ⟨-, -, e, hstore, hk⟩ :=
        (List.pairwise_cons.mp (List.pairwise_append.mp hapart).2.1).1 g hg heq
      exact ⟨e, hstore, hl.before h hstore hk⟩
    · refine ⟨p.target f, h.target f hf, ?_⟩
      subst hl'
      exact hl.run_last h fun g hg heq => hlater ⟨g, hg, heq.symm⟩
  · rw [hl.works f hf] at hfails
    cases hfails

/-- **Nothing is lost** exactly when every move works, and what is in a target or goes there too is
in the store all the same. -/
theorem lossless_iff (h : p.Ready store k l) :
    p.Lossless store k (p.run k l) l ↔ p.Free store k l :=
  ⟨fun hl => ⟨hl.works h, hl.free h, hl.apart h⟩, fun hl => hl.lossless h⟩

end Plan

end SsuComputer
