import SsuComputer.Xv6.Proc

/-!
# SsuComputer.Xv6.ProcTable

What the functions on the process table do, slot by slot.

* `wakeup1_woken`, `wakeup1_chan` — a sleeper on the channel runs again, all else stays.
* `exit_ok` — the slot is a zombie, its children are those of init, and neither the parent nor,
  when a zombie was among the children, init sleeps in `wait` afterwards.
* `wait_cases` — a zombie is freed, or the caller has no reason to sleep, or it sleeps.
-/

namespace SsuComputer
namespace Xv6

open Relation

/-- `SLEEPING`, `RUNNABLE` and `RUNNING` in one. -/
def ProcState.kind : ProcState → ProcState
  | .sleeping => .running
  | .runnable => .running
  | state => state

namespace Ptable

variable {t t' : Ptable} {i j p np : Fin NPROC} {chan : Option Chan} {pid : Int}

@[simp] theorem set_proc (q : Proc) (j : Fin NPROC) :
    (t.set i q).proc j = if j = i then q else t.proc j := Function.update_apply ..

@[simp] theorem set_nextpid (q : Proc) : (t.set i q).nextpid = t.nextpid := rfl

@[simp] theorem set_initproc (q : Proc) : (t.set i q).initproc = t.initproc := rfl

theorem find_some {test : Proc → Bool} (h : t.find test = some i) : test (t.proc i) = true :=
  List.find?_some (p := fun i => test (t.proc i)) h

theorem find_none {test : Proc → Bool} (h : t.find test = none) (i : Fin NPROC) :
    test (t.proc i) = false := by
  have := List.find?_eq_none.mp h i (List.mem_finRange i)
  simpa using this

theorem allocproc_some (h : t.allocproc = some (np, t')) :
    (t.proc np).state = .unused ∧
      t' = { t.set np { t.proc np with state := .embryo, pid := t.nextpid } with
        nextpid := nextOf t.nextpid } := by
  obtain ⟨i, hi, heq⟩ := Option.map_eq_some_iff.mp h
  obtain ⟨rfl, rfl⟩ := Prod.mk.inj heq
  exact ⟨by simpa using find_some hi, rfl⟩

theorem kill_some (h : t.kill pid = some t') :
    ∃ i, (t.proc i).pid = pid ∧ t' = t.set i { t.proc i with
      killed := true
      state := if (t.proc i).state = .sleeping then .runnable else (t.proc i).state } := by
  obtain ⟨i, hi, rfl⟩ := Option.map_eq_some_iff.mp h
  exact ⟨i, by simpa using find_some hi, rfl⟩

/-- What `wakeup1` may do to a slot. -/
def Woken (q q' : Proc) : Prop :=
  q' = q ∨ q.state = .sleeping ∧ q' = { q with state := .runnable }

theorem Woken.kind {q q' : Proc} (h : Woken q q') : q'.state.kind = q.state.kind := by
  rcases h with rfl | ⟨hs, rfl⟩
  · rfl
  · rw [hs]
    rfl

theorem wakeup1_woken (t : Ptable) (chan : Option Chan) (j : Fin NPROC) :
    Woken (t.proc j) ((t.wakeup1 chan).proc j) := by
  simp only [wakeup1]
  split
  next h => exact .inr ⟨h.1, rfl⟩
  next => exact .inl rfl

/-- Nobody sleeps on the channel afterwards. -/
theorem wakeup1_chan (h : ((t.wakeup1 chan).proc j).state = .sleeping) :
    (t.proc j).state = .sleeping ∧ (t.proc j).chan ≠ chan := by
  simp only [wakeup1] at h
  split at h
  next => cases h
  next hno => exact ⟨h, fun hc => hno ⟨h, hc⟩⟩

theorem Woken.trans {q q' q'' : Proc} (h : Woken q q') (h' : Woken q' q'') : Woken q q'' := by
  rcases h with rfl | ⟨hs, rfl⟩
  · exact h'
  · rcases h' with rfl | ⟨hs', rfl⟩
    · exact .inr ⟨hs, rfl⟩
    · cases hs'

/-- Waking looks at the state and the channel only. -/
theorem Woken.withParent {q q' : Proc} {r : Option (Fin NPROC)}
    (h : Woken { q with parent := r } q') : Woken q { q' with parent := q.parent } ∧
      q'.parent = r := by
  rcases h with rfl | ⟨hs, rfl⟩
  · exact ⟨.inl rfl, rfl⟩
  · exact ⟨.inr ⟨hs, rfl⟩, rfl⟩

/-- What the loop of `exit` makes of the table when it has seen the slots `is`. -/
structure Passed (p : Fin NPROC) (is : List (Fin NPROC)) (t t' : Ptable) : Prop where
  nextpid : t'.nextpid = t.nextpid
  initproc : t'.initproc = t.initproc
  parent : ∀ j, (t'.proc j).parent =
    if j ∈ is ∧ (t.proc j).parent = some p then some t.initproc else (t.proc j).parent
  woken : ∀ j, Woken (t.proc j) { t'.proc j with parent := (t.proc j).parent }
  wakes : (∃ k ∈ is, (t.proc k).parent = some p ∧ (t.proc k).state = .zombie) →
    ∀ j, (t'.proc j).state = .sleeping → (t.proc j).chan ≠ some (.proc t.initproc)

theorem Woken.sleeping {q q' : Proc} (h : Woken q q') (hs : q'.state = .sleeping) : q' = q := by
  rcases h with h | ⟨-, rfl⟩
  · exact h
  · cases hs

theorem Woken.parent {q q' : Proc} (h : Woken q q') : q'.parent = q.parent := by
  rcases h with rfl | ⟨-, rfl⟩ <;> rfl

theorem Woken.chan_eq {q q' : Proc} (h : Woken q q') : q'.chan = q.chan := by
  rcases h with rfl | ⟨-, rfl⟩ <;> rfl

theorem Woken.pid_eq {q q' : Proc} (h : Woken q q') : q'.pid = q.pid := by
  rcases h with rfl | ⟨-, rfl⟩ <;> rfl

theorem Woken.killed_eq {q q' : Proc} (h : Woken q q') : q'.killed = q.killed := by
  rcases h with rfl | ⟨-, rfl⟩ <;> rfl

theorem Woken.running {q q' : Proc} (h : Woken q q') :
    q'.state = .running ↔ q.state = .running := by
  rcases h with rfl | ⟨hs, rfl⟩
  · exact Iff.rfl
  · simp [hs]

theorem pass_passed (p : Fin NPROC) (t : Ptable) (i : Fin NPROC) :
    Passed p [i] t (pass p t i) := by
  by_cases hp : (t.proc i).parent = some p
  · obtain ⟨t₁, ht₁⟩ : ∃ t₁, t.set i { t.proc i with parent := some t.initproc } = t₁ := ⟨_, rfl⟩
    have hset : ∀ j, t₁.proc j =
        { t.proc j with parent := if j ∈ [i] ∧ (t.proc j).parent = some p then some t.initproc
          else (t.proc j).parent } := fun j => by
      rw [← ht₁, set_proc]
      by_cases hj : j = i
      · subst hj
        simp [hp]
      · simp [hj]
    have hnext : t₁.nextpid = t.nextpid := by rw [← ht₁, set_nextpid]
    have hinit : t₁.initproc = t.initproc := by rw [← ht₁, set_initproc]
    have hstate : (t₁.proc i).state = (t.proc i).state := by rw [hset]
    simp only [pass, if_pos hp, ht₁, hstate, hinit]
    by_cases hz : (t.proc i).state = .zombie
    · rw [if_pos hz]
      refine ⟨hnext, hinit, fun j => ?_, fun j => ?_, fun _ j hs => ?_⟩
      · rw [(wakeup1_woken _ _ j).parent, hset]
      · have hw := wakeup1_woken t₁ (some (.proc t.initproc)) j
        rw [hset] at hw
        exact hw.withParent.1
      · have hchan := (wakeup1_chan hs).2
        rwa [hset] at hchan
    · rw [if_neg hz]
      refine ⟨hnext, hinit, fun j => by rw [hset], fun j => .inl ?_, ?_⟩
      · rw [hset]
      · rintro ⟨k, hk, -, hkz⟩
        obtain rfl := List.mem_singleton.mp hk
        exact absurd hkz hz
  · rw [pass, if_neg hp]
    refine ⟨rfl, rfl, fun j => ?_, fun j => .inl rfl, ?_⟩
    · rw [if_neg]
      rintro ⟨hj, hjp⟩
      obtain rfl := List.mem_singleton.mp hj
      exact hp hjp
    · rintro ⟨k, hk, hkp, -⟩
      obtain rfl := List.mem_singleton.mp hk
      exact absurd hkp hp

theorem Passed.kind {is : List (Fin NPROC)} (h : Passed p is t t') (j : Fin NPROC) :
    (t'.proc j).state.kind = (t.proc j).state.kind :=
  (h.woken j).kind

theorem Passed.trans {is : List (Fin NPROC)} {t'' : Ptable} (h₁ : Passed p [i] t t')
    (h₂ : Passed p is t' t'') : Passed p (i :: is) t t'' := by
  refine ⟨h₂.nextpid.trans h₁.nextpid, h₂.initproc.trans h₁.initproc, fun j => ?_, fun j => ?_,
    ?_⟩
  · have hp₁ := h₁.parent j
    have hp₂ := h₂.parent j
    rw [h₁.initproc] at hp₂
    simp only [List.mem_singleton] at hp₁
    simp only [List.mem_cons]
    grind
  · have hw := h₂.woken j
    have hw₁ := h₁.woken j
    rcases hw with hw | ⟨hs, hw⟩
    · rw [← hw] at hw₁
      exact hw₁
    · refine hw₁.trans (.inr ⟨hs, ?_⟩)
      rw [Proc.mk.injEq] at hw ⊢
      exact ⟨hw.1, hw.2.1, rfl, hw.2.2.2⟩
  · have hchild : ∀ k, (t.proc k).parent = some p → (t.proc k).state = .zombie → k ≠ i →
        (t'.proc k).parent = some p ∧ (t'.proc k).state = .zombie := fun k hkp hkz hki => by
      refine ⟨?_, ?_⟩
      · rw [h₁.parent, if_neg (by simp [hki]), hkp]
      · rcases h₁.woken k with hw | ⟨hs, -⟩
        · exact (congrArg Proc.state hw).trans hkz
        · rw [hkz] at hs
          cases hs
    rintro ⟨k, hk, hkp, hkz⟩ j hs
    have hback := congrArg Proc.state ((h₂.woken j).sleeping hs)
    by_cases hki : k = i
    · exact h₁.wakes ⟨k, by simp [hki], hkp, hkz⟩ j (hback ▸ hs)
    · obtain ⟨hkp', hkz'⟩ := hchild k hkp hkz hki
      have hwakes := h₂.wakes ⟨k, (List.mem_cons.mp hk).resolve_left hki, hkp', hkz'⟩ j hs
      rwa [h₁.initproc, show (t'.proc j).chan = (t.proc j).chan from (h₁.woken j).chan_eq] at hwakes

theorem passed (p : Fin NPROC) (is : List (Fin NPROC)) (t : Ptable) :
    Passed p is t (is.foldl (pass p) t) := by
  induction is generalizing t with
  | nil => exact ⟨rfl, rfl, fun j => by simp, fun j => .inl rfl, fun ⟨k, hk, _⟩ => by cases hk⟩
  | cons i is ih => exact (pass_passed p t i).trans (ih (pass p t i))

/-- What `exit` of the process in slot `p` makes of the table. -/
structure Exited (p : Fin NPROC) (t t' : Ptable) : Prop where
  notInit : p ≠ t.initproc
  nextpid : t'.nextpid = t.nextpid
  initproc : t'.initproc = t.initproc
  pid : ∀ j, (t'.proc j).pid = (t.proc j).pid
  parent : ∀ j, (t'.proc j).parent =
    if (t.proc j).parent = some p then some t.initproc else (t.proc j).parent
  zombie : (t'.proc p).state = .zombie
  woken : ∀ j, j ≠ p → Woken (t.proc j) { t'.proc j with parent := (t.proc j).parent }
  wakesParent : ∀ j, j ≠ p → (t'.proc j).state = .sleeping →
    (t.proc j).chan ≠ (t.proc p).parent.map .proc
  wakesInit : (∃ k, (t.proc k).parent = some p ∧ (t.proc k).state = .zombie) →
    ∀ j, j ≠ p → (t'.proc j).state = .sleeping → (t.proc j).chan ≠ some (.proc t.initproc)

theorem exit_ok (h : t.exit p = .ok t') : Exited p t t' := by
  unfold exit at h
  split at h
  next => cases h
  next hinit =>
    obtain ⟨t₁, ht₁⟩ : ∃ t₁, t.wakeup1 ((t.proc p).parent.map .proc) = t₁ := ⟨_, rfl⟩
    obtain ⟨t₂, ht₂⟩ : ∃ t₂, (List.finRange NPROC).foldl (pass p) t₁ = t₂ := ⟨_, rfl⟩
    simp only [ht₁, ht₂] at h
    obtain rfl := Except.ok.inj h
    have hw : ∀ j, Woken (t.proc j) (t₁.proc j) := fun j => ht₁ ▸ wakeup1_woken t _ j
    have hp : Passed p (List.finRange NPROC) t₁ t₂ := ht₂ ▸ passed p _ t₁
    have hinit₁ : t₁.initproc = t.initproc := by rw [← ht₁]; rfl
    have hwoken : ∀ j, Woken (t.proc j) { t₂.proc j with parent := (t.proc j).parent } :=
      fun j => by
        have := (hw j).trans (hp.woken j)
        rwa [(hw j).parent] at this
    refine ⟨hinit, ?_, ?_, fun j => ?_, fun j => ?_, by simp, fun j hj => ?_, fun j hj hs => ?_,
      fun hz j hj hs => ?_⟩
    · rw [set_nextpid, hp.nextpid, ← ht₁]
      rfl
    · rw [set_initproc, hp.initproc, hinit₁]
    · have : (t₂.proc j).pid = (t.proc j).pid := (hwoken j).pid_eq
      rw [set_proc]
      split
      next hj =>
        subst hj
        exact this
      next => exact this
    · have hparent : ((t₂.set p { t₂.proc p with state := .zombie }).proc j).parent =
          (t₂.proc j).parent := by
        rw [set_proc]
        split
        next hj => rw [hj]
        next => rfl
      rw [hparent, hp.parent, (hw j).parent, hinit₁]
      simp
    · rw [set_proc, if_neg hj]
      exact hwoken j
    · rw [set_proc, if_neg hj] at hs
      have hs₁ := congrArg Proc.state ((hp.woken j).sleeping hs)
      have hs' : (t₁.proc j).state = .sleeping := hs₁.symm.trans hs
      rw [← ht₁] at hs'
      exact (wakeup1_chan hs').2
    · rw [set_proc, if_neg hj] at hs
      obtain ⟨k, hkp, hkz⟩ := hz
      have hkz' : (t₁.proc k).state = .zombie := by
        rcases hw k with hk | ⟨hk, -⟩
        · rw [hk, hkz]
        · rw [hkz] at hk
          cases hk
      have := hp.wakes ⟨k, List.mem_finRange k, by rw [(hw k).parent, hkp], hkz'⟩ j hs
      rwa [hinit₁, (hw j).chan_eq] at this

/-- What a round of `wait` of the process in slot `p` finds and does. -/
theorem wait_cases {w : Waited} (h : t.wait p = (w, t')) :
    (∃ i, (t.proc i).parent = some p ∧ (t.proc i).state = .zombie ∧ w = .reaped (t.proc i).pid ∧
      t' = t.set i
        { t.proc i with pid := 0, parent := none, killed := false, state := .unused }) ∨
    (∀ i, (t.proc i).parent = some p → (t.proc i).state ≠ .zombie) ∧
      ((w = .failed ∧ t' = t) ∨
        w = .asleep ∧ t' = t.sleep p (.proc p) ∧ (t.proc p).killed = false ∧
          ∃ i, (t.proc i).parent = some p) := by
  unfold wait at h
  split at h
  next i hi =>
    obtain ⟨rfl, rfl⟩ := Prod.mk.inj h
    have hcond := find_some hi
    simp only [Bool.and_eq_true, beq_iff_eq] at hcond
    exact .inl ⟨i, hcond.1, hcond.2, rfl, rfl⟩
  next hnone =>
    refine .inr ⟨fun i hip hz => ?_, ?_⟩
    · have := find_none hnone i
      simp [hip, hz] at this
    split at h
    next =>
      obtain ⟨rfl, rfl⟩ := Prod.mk.inj h
      exact .inl ⟨rfl, rfl⟩
    next hkids =>
      obtain ⟨rfl, rfl⟩ := Prod.mk.inj h
      simp only [Bool.or_eq_true, not_or, Bool.not_eq_true] at hkids
      obtain ⟨i, hi⟩ : ∃ i, t.find (fun q => q.parent == some p) = some i := by
        cases hf : t.find fun q => q.parent == some p with
        | none => simp [hf] at hkids
        | some i => exact ⟨i, rfl⟩
      have hchild := find_some hi
      exact .inr ⟨rfl, rfl, hkids.2, i, by simpa using hchild⟩

end Ptable

end Xv6
end SsuComputer
