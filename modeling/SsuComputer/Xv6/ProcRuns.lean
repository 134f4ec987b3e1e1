import SsuComputer.Xv6.ProcInv

/-!
# SsuComputer.Xv6.ProcRuns

Every step keeps the invariants of the process table, and so does every run.

* `proc_tree` — every process descends from init, and pids are unique until they overflow.
* `wait_wakeups` — nobody sleeps in `wait` with a zombie to reap.
-/

namespace SsuComputer
namespace Xv6

open Relation

namespace ProcSys

variable {K : Ptable → Int → Prop} {s s' : ProcSys} {i j p q np : Fin NPROC} {c : Nat}
  {x : Proc} {pc : ProcPc} {born : Fin NPROC → Nat}

structure Inv (s : ProcSys) : Prop where
  cpus : s.Cpus
  tree : ∃ born, s.Tree born
  waits : s.Waits

theorem Inv.runs (h : s.Inv) (hc : s.cpu c = some p) :
    (s.proc p).state = .running ∧ s.kind p = .running := by
  have hr := (h.cpus.running c p hc).1
  exact ⟨hr, by rw [kind, hr]; rfl⟩

theorem Tree.parent_ne (h : s.Tree born) (hr : s.kind p = .running) : (s.proc p).parent ≠ some p := by
  intro hp
  by_cases hinit : p = s.table.initproc
  · have := h.orphan
    rw [← hinit, hp] at this
    cases this
  · obtain ⟨q, hq, -, hlt⟩ := h.parent p (.inl hr) hinit
    obtain rfl := Option.some.inj (hp.symm.trans hq)
    exact absurd hlt (Nat.lt_irrefl _)

theorem Inv.parent_ne (h : s.Inv) (hc : s.cpu c = some p) : (s.proc p).parent ≠ some p := by
  obtain ⟨born, ht⟩ := h.tree
  exact ht.parent_ne (h.runs hc).2

theorem Inv.rest (h : s.Inv) (hk : s.kind p ≠ .running) : s.pc p = .user := by
  obtain ⟨born, ht⟩ := h.tree
  exact ht.rest hk

theorem Inv.making (h : s.Inv) (hp : s.makes p = some np) : s.kind np = .embryo ∧
    (s.proc np).parent = if s.pc p = .forked np then some p else none := by
  obtain ⟨born, ht⟩ := h.tree
  obtain ⟨hk, -, hparent⟩ := ht.making p np hp
  exact ⟨hk, hparent⟩

theorem kind_eq {state : ProcState} (hs : (s.proc i).state = state) : s.kind i = state.kind :=
  congrArg ProcState.kind hs

theorem unused_of_kind (h : s.kind i = .unused) : (s.proc i).state = .unused := by
  cases hs : (s.proc i).state <;> simp [kind, hs, ProcState.kind] at h ⊢

theorem embryo_of_kind (h : s.kind i = .embryo) : (s.proc i).state = .embryo := by
  cases hs : (s.proc i).state <;> simp [kind, hs, ProcState.kind] at h ⊢

theorem zero_allocproc : Ptable.zero.allocproc = some (0, { Ptable.zero.set 0
    { Ptable.zero.proc 0 with state := .embryo, pid := 1 } with nextpid := 2 }) := rfl

theorem start_proc : start.proc i =
    if i = 0 then ⟨.runnable, 1, none, none, false⟩ else ⟨.unused, 0, none, none, false⟩ := by
  simp only [proc, start, Ptable.userinit, zero_allocproc, Option.elim, Ptable.set_proc]
  by_cases hi : i = 0
  · rw [if_pos hi, if_pos hi]
    rfl
  · rw [if_neg hi, if_neg hi, if_neg hi]
    rfl

theorem start_kind : start.kind i = if i = 0 then .running else .unused := by
  rw [kind, start_proc]
  split <;> rfl

theorem start_inv : start.Inv := by
  have hinit : start.table.initproc = 0 := rfl
  have hstate : ∀ i, (start.proc i).state ≠ .running ∧ (start.proc i).state ≠ .sleeping :=
    fun i => by
      rw [start_proc]
      split <;> simp
  refine ⟨⟨fun c p hc => (by cases hc), fun c c' p hc => (by cases hc),
    fun p hp => absurd hp (hstate p).1⟩, ⟨fun _ => 0, ?_, ?_, fun i hi hii => ?_, fun i _ => ?_,
    fun i hi hii => ?_, fun p hp => absurd rfl hp, fun p np hp => (by cases hp), fun np hn => ?_,
    fun p q np hp => (by cases hp)⟩, fun i hi => absurd hi (hstate i).2⟩
  · rw [hinit, start_kind, if_pos rfl]
  · rw [hinit, start_proc, if_pos rfl]
  · rw [start_kind, if_neg (by rwa [hinit] at hii)] at hi
    exact absurd rfl hi
  · rw [start_proc]
    split <;> rfl
  · rw [hinit] at hii
    rw [start_kind, if_neg hii] at hi
    rcases hi with hi | hi <;> cases hi
  · rw [start_kind] at hn
    split at hn <;> cases hn

theorem start_pids : start.Pids := by
  have hnext : start.table.nextpid = 2 := rfl
  refine ⟨?_, fun i => ?_, fun i j hij hi => ?_, fun i hi => ?_⟩
  · rw [hnext]
    decide
  · rw [hnext, start_proc]
    split <;> decide
  · have hzero : ∀ k, (start.proc k).pid ≠ 0 → k = 0 := fun k hk => by
      rw [start_proc] at hk
      split at hk
      next h => exact h
      next => exact absurd rfl hk
    rw [hzero i hi, hzero j (hij ▸ hi)]
  · rw [start_kind] at hi
    split at hi
    next h =>
      rw [h, start_proc, if_pos rfl]
      decide
    next => exact absurd rfl hi

/-- One slot changes, and runs or not as before. -/
theorem set_running (hx : x.state = .running ↔ (s.proc i).state = .running) (q : Fin NPROC) :
    ((s.table.set i x).proc q).state = .running ↔ (s.proc q).state = .running := by
  rw [Ptable.set_proc]
  split
  next hq =>
    subst hq
    exact hx
  next => exact Iff.rfl

/-- `wait` begins with a table that differs in the channel of its caller only. -/
theorem waitTable_eq (s : ProcSys) (p : Fin NPROC) :
    ∃ r, s.waitTable p = s.table.set p { s.proc p with chan := r } := by
  unfold waitTable
  split
  · exact ⟨none, rfl⟩
  · exact ⟨(s.proc p).chan, congrArg (fun f => { s.table with proc := f })
      (Function.update_eq_self p s.table.proc).symm⟩

theorem waitTable_state (j : Fin NPROC) : ((s.waitTable p).proc j).state = (s.proc j).state := by
  obtain ⟨r, hr⟩ := waitTable_eq s p
  rw [hr, Ptable.set_proc]
  split
  next hj => rw [hj]
  next => rfl

theorem step_cpus (h : s.Inv) (hs : Step K s s') : s'.Cpus := by
  cases hs with
  | skip c hidle hs =>
    refine h.cpus.congr rfl (fun c' hc' => ?_) fun _ => Iff.rfl
    have hne : c' ≠ c := fun heq => hc' (heq ▸ hidle)
    exact Function.update_of_ne hne _ _
  | pick c hidle hs => exact h.cpus.swtch hidle hs
  | @forkAlloc p np t c hc hpc ha =>
    obtain ⟨hnp, rfl⟩ := Ptable.allocproc_some ha
    have hnp' : (s.proc np).state = .unused := hnp
    exact h.cpus.congr rfl (fun _ _ => rfl) (set_running (by simp [hnp']))
  | @forkFail p np c hc hpc =>
    have hnp := embryo_of_kind (h.making (congrArg ProcPc.makes hpc)).1
    exact h.cpus.congr rfl (fun _ _ => rfl) (set_running (by simp [hnp]))
  | @forkCopy p np c hc hpc => exact h.cpus.congr rfl (fun _ _ => rfl) (set_running Iff.rfl)
  | @forkReady p np c hc hpc =>
    have hnp := embryo_of_kind (h.making (congrArg ProcPc.makes hpc)).1
    exact h.cpus.congr rfl (fun _ _ => rfl) (set_running (by simp [hnp]))
  | @exit p t c hc hpc he =>
    have e := Ptable.exit_ok he
    refine h.cpus.leave { s with table := t } hc ?_ (fun q hq => ?_) rfl rfl
    · change (t.proc p).state ≠ _
      simp [e.zombie]
    · exact (e.woken q hq).running
  | @wait p w t c hc hpc hw hret =>
    refine h.cpus.congr rfl (fun _ _ => rfl) fun q => ?_
    change (t.proc q).state = _ ↔ _
    rcases Ptable.wait_cases hw with ⟨i, -, hz, -, rfl⟩ | ⟨-, ⟨-, rfl⟩ | ⟨rfl, -⟩⟩
    · rw [Ptable.set_proc]
      split
      next hq =>
        rw [waitTable_state] at hz
        rw [hq, hz]
        simp
      next => rw [waitTable_state]
    · rw [waitTable_state]
    · exact absurd rfl hret
  | @waitSleep p t c hc hpc hw =>
    rcases Ptable.wait_cases hw with ⟨i, -, -, hno, -⟩ | ⟨-, ⟨hno, -⟩ | ⟨-, rfl, -⟩⟩
    · cases hno
    · cases hno
    · refine h.cpus.leave ({ s with table := (s.waitTable p).sleep p (.proc p) }.goto p _) hc ?_
        (fun q hq => ?_) rfl rfl
      · change (((s.waitTable p).sleep p (.proc p)).proc p).state ≠ _
        rw [Ptable.sleep, Ptable.set_proc, if_pos rfl]
        simp
      · change (((s.waitTable p).sleep p (.proc p)).proc q).state = _ ↔ _
        rw [Ptable.sleep, Ptable.set_proc, if_neg hq, waitTable_state]
  | @sleep p c a hc hpc =>
    refine h.cpus.leave ({ s with table := s.table.sleep p (.other a) }.goto p _) hc ?_
      (fun q hq => ?_) rfl rfl
    · change ((s.table.sleep p (.other a)).proc p).state ≠ _
      rw [Ptable.sleep, Ptable.set_proc, if_pos rfl]
      simp
    · change ((s.table.sleep p (.other a)).proc q).state = _ ↔ _
      rw [Ptable.sleep, Ptable.set_proc, if_neg hq]
      exact Iff.rfl
  | @woken p c hc hpc => exact h.cpus.congr rfl (fun _ _ => rfl) (set_running Iff.rfl)
  | wakeup a =>
    exact h.cpus.congr rfl (fun _ _ => rfl) fun q =>
      (Ptable.wakeup1_woken s.table (some (.other a)) q).running
  | @kill p t c pid hc hpc hK hk =>
    obtain ⟨i, -, rfl⟩ := Ptable.kill_some hk
    refine h.cpus.congr rfl (fun _ _ => rfl) (set_running ?_)
    change (if (s.proc i).state = .sleeping then ProcState.runnable else (s.proc i).state) = _ ↔ _
    split
    next hi => simp [hi]
    next => exact Iff.rfl
  | @fault p c hc hpc => exact h.cpus.congr rfl (fun _ _ => rfl) (set_running Iff.rfl)
  | @yield p c hc hpc =>
    refine h.cpus.leave (s.setProc p { s.proc p with state := .runnable }) hc ?_
      (fun q hq => ?_) rfl rfl
    · rw [setProc_proc, if_pos rfl]
      simp
    · rw [setProc_proc, if_neg hq]

/-- `kill` wakes a sleeper. -/
theorem kill_kind (state : ProcState) :
    (if state = .sleeping then ProcState.runnable else state).kind = state.kind := by
  cases state <;> rfl

/-- A process that is not in `fork` goes on elsewhere, not in `fork` either. -/
theorem goto_makes (hr : s.kind p = .running) (hm : s.makes p = none) (hm' : pc.makes = none)
    (q : Fin NPROC) : (s.goto p pc).pc q = s.pc q ∨
      s.makes q = none ∧ (s.goto p pc).makes q = none ∧ s.kind q = .running := by
  by_cases hq : q = p
  · subst hq
    refine .inr ⟨hm, ?_, hr⟩
    rw [makes, goto_pc, if_pos rfl, hm']
  · rw [goto_pc, if_neg hq]
    exact .inl rfl

/-- One slot changes, but neither its family nor its kind. -/
theorem Tree.set (h : s.Tree born) (htable : s'.table = s.table.set i x)
    (hparent : x.parent = (s.proc i).parent)
    (hkind : x.state.kind = s.kind i)
    (hpc : ∀ p, s'.pc p = s.pc p ∨ s.makes p = none ∧ s'.makes p = none ∧ s.kind p = .running) :
    s'.Tree born := by
  have hproc : ∀ j, s'.proc j = if j = i then x else s.proc j := fun j => by
    rw [proc, htable, Ptable.set_proc]
    rfl
  refine h.congr (by rw [htable]; rfl) (fun j => ?_) (fun j => ?_) hpc
  · rw [hproc]
    split
    next hj => rw [hj, hparent]
    next => rfl
  · rw [kind, hproc]
    split
    next hj => rw [hj, hkind]
    next => rfl

theorem waiting_makes (hpc : s.pc p = .user ∨ s.pc p = .waiting) : s.makes p = none := by
  rcases hpc with hpc | hpc <;> exact congrArg ProcPc.makes hpc

/-- The edit that a step of `fork` or `wait` in the process `p` is. -/
theorem edit_of_set (h : s.Inv) (hc : s.cpu c = some p) (hidle : s.kind np ≠ .running)
    (hset : s'.proc = Function.update s.proc np x)
    (hinit : s'.table.initproc = s.table.initproc) (hpc : s'.pc = (s.goto p pc).pc) :
    s.Edit s' np x p pc := by
  have hr := (h.runs hc).2
  have hne : np ≠ p := fun heq => hidle (heq ▸ hr)
  obtain ⟨hself, hothers⟩ := Function.eq_update_iff.mp hset
  refine ⟨hself, hothers, hinit, ?_, fun q hq _ => ?_, ?_, hidle, hr⟩
  · rw [hpc, goto_pc, if_pos rfl]
  · rw [hpc, goto_pc, if_neg hq]
  · rw [hpc, goto_pc, if_neg hne, h.rest hidle]

/-- The table that a round of `wait` begins with is as good as the one before. -/
theorem Inv.waitTable (h : s.Inv) (hc : s.cpu c = some p) :
    Inv { s with table := s.waitTable p } := by
  obtain ⟨r, hr⟩ := waitTable_eq s p
  obtain ⟨born, ht⟩ := h.tree
  rw [hr]
  exact ⟨h.cpus.congr rfl (fun _ _ => rfl) (set_running Iff.rfl),
    ⟨born, ht.set rfl rfl rfl fun _ => .inl rfl⟩,
    h.waits.edit p rfl (fun _ _ _ => rfl) (by simp [(h.runs hc).1])
      fun i _ _ => ⟨id, fun h₁ h₂ => ⟨h₁, h₂⟩⟩⟩

theorem wait_tree {w : Waited} {t : Ptable} (h : s.Inv) (hc : s.cpu c = some p)
    (hpc : s.makes p = none) (hw : s.table.wait p = (w, t)) (hpc' : pc.makes = none)
    (hret : w ≠ .asleep → pc = .user) : ∃ born, ({ s with table := t }.goto p pc).Tree born := by
  have hr := (h.runs hc).2
  obtain ⟨born, ht⟩ := h.tree
  rcases Ptable.wait_cases hw with ⟨i, -, hz, rfl, rfl⟩ | ⟨-, ⟨-, rfl⟩ | ⟨-, rfl, -⟩⟩
  · obtain rfl := hret (by simp)
    have hi : s.kind i = .zombie := kind_eq hz
    exact ⟨born, ht.reap (edit_of_set h hc (by simp [hi]) rfl rfl rfl) hi hpc⟩
  · exact ⟨born, ht.congr rfl (fun _ => rfl) (fun _ => rfl) (goto_makes hr hpc hpc')⟩
  · exact ⟨born, ht.set (i := p) rfl rfl hr.symm (goto_makes hr hpc hpc')⟩

theorem step_tree (h : s.Inv) (hs : Step K s s') : ∃ born, s'.Tree born := by
  obtain ⟨born, ht⟩ := h.tree
  cases hs with
  | skip c hidle hs =>
    exact ⟨born, ht.congr rfl (fun _ => rfl) (fun _ => rfl) fun _ => .inl rfl⟩
  | pick c hidle hs =>
    refine ⟨born, ht.set (i := s.cursor c) rfl rfl ?_ fun _ => .inl rfl⟩
    rw [kind_eq hs]
    rfl
  | @forkAlloc p np t c hc hpc ha =>
    obtain ⟨hnp, rfl⟩ := Ptable.allocproc_some ha
    have hnp' : s.kind np = .unused := by
      rw [kind_eq hnp]
      rfl
    exact ht.forkAlloc (edit_of_set h hc (by simp [hnp']) rfl rfl rfl) hnp' hpc
  | @forkFail p np c hc hpc =>
    have hnp := (h.making (congrArg ProcPc.makes hpc)).1
    exact ⟨born, ht.forkFail (edit_of_set h hc (by simp [hnp]) rfl rfl rfl) hpc⟩
  | @forkCopy p np c hc hpc =>
    have hnp := (h.making (congrArg ProcPc.makes hpc)).1
    exact ⟨born, ht.forkCopy (edit_of_set h hc (by simp [hnp]) rfl rfl rfl) hpc⟩
  | @forkReady p np c hc hpc =>
    have hnp := (h.making (congrArg ProcPc.makes hpc)).1
    have hrest := h.rest (p := np) (by simp [hnp])
    refine ⟨born, ht.forkReady (edit_of_set h hc (by simp [hnp]) rfl rfl ?_) hpc⟩
    funext q
    simp only [goto_pc, setProc_pc]
    split
    next => rfl
    next =>
      split
      next hq => rw [hq, hrest]
      next => rfl
  | @exit p t c hc hpc he =>
    exact ⟨born, ht.exit (Ptable.exit_ok he) (h.runs hc).2 hpc rfl⟩
  | @wait p w t c hc hpc hw hret =>
    exact wait_tree (s := { s with table := s.waitTable p }) (h.waitTable hc) hc
      (waiting_makes hpc) hw rfl fun _ => rfl
  | @waitSleep p t c hc hpc hw =>
    obtain ⟨born, ht⟩ : ∃ born, Tree ({ s with table := t }.goto p .waiting) born :=
      wait_tree (s := { s with table := s.waitTable p }) (h.waitTable hc) hc
        (waiting_makes hpc) hw rfl fun hno => absurd rfl hno
    exact ⟨born, ht.congr rfl (fun _ => rfl) (fun _ => rfl) fun _ => .inl rfl⟩
  | @sleep p c a hc hpc =>
    have hr := (h.runs hc).2
    exact ⟨born, ht.set (i := p) rfl rfl hr.symm (goto_makes hr (makes_user hpc) rfl)⟩
  | @woken p c hc hpc =>
    have hr := (h.runs hc).2
    exact ⟨born, ht.set (i := p) rfl rfl rfl (goto_makes hr (congrArg ProcPc.makes hpc) rfl)⟩
  | wakeup a =>
    have hw := Ptable.wakeup1_woken s.table (some (.other a))
    exact ⟨born, ht.congr rfl (fun i => (hw i).parent) (fun i => (hw i).kind) fun _ => .inl rfl⟩
  | @kill p t c pid hc hpc hK hk =>
    obtain ⟨i, -, rfl⟩ := Ptable.kill_some hk
    exact ⟨born, ht.set (i := i) rfl rfl (kill_kind _) fun _ => .inl rfl⟩
  | @fault p c hc hpc => exact ⟨born, ht.set (i := p) rfl rfl rfl fun _ => .inl rfl⟩
  | @yield p c hc hpc =>
    exact ⟨born, ht.set (i := p) rfl rfl (h.runs hc).2.symm fun _ => .inl rfl⟩

theorem wait_waits {w : Waited} {t : Ptable} (h : s.Inv) (hc : s.cpu c = some p)
    (hw : s.table.wait p = (w, t)) (hpc : pc = if w = .asleep then .waiting else .user) :
    ({ s with table := t }.goto p pc).Waits := by
  have hr := (h.runs hc).1
  rcases Ptable.wait_cases hw with ⟨i, hip, hz, rfl, rfl⟩ |
    ⟨hzombie, ⟨rfl, rfl⟩ | ⟨rfl, rfl, halive, hchild⟩⟩
  · refine h.waits.edit i rfl (fun j hj _ => ?_) (by simp) fun k hk _ => ⟨fun h₁ => ?_, fun h₁ => by cases h₁⟩
    · rw [goto_pc, if_neg]
      rintro rfl
      rw [hr] at hj
      cases hj
    · obtain rfl := Option.some.inj (hip.symm.trans h₁)
      rw [hr] at hk
      cases hk
  · intro i hi
    have hi' : (s.proc i).state = .sleeping := hi
    refine (h.waits i hi').congr ?_ rfl rfl (fun _ => id) fun _ _ h₁ h₂ => ⟨h₁, h₂⟩
    rw [goto_pc, if_neg]
    rintro rfl
    rw [hr] at hi'
    cases hi'
  · obtain rfl : pc = .waiting := hpc
    have hself : (({ s with table := s.table.sleep p (.proc p) } : ProcSys).goto p
        .waiting).proc p = { s.proc p with chan := some (.proc p), state := .sleeping } :=
      Function.update_self ..
    have hothers : ∀ j, j ≠ p → (({ s with table := s.table.sleep p (.proc p) } : ProcSys).goto p
        .waiting).proc j = s.proc j := fun j hj => Function.update_of_ne hj _ _
    have hne : ∀ j, (s.proc j).parent = some p → j ≠ p := fun j hj heq =>
      h.parent_ne hc (heq ▸ hj)
    have hpc' : (({ s with table := s.table.sleep p (.proc p) } : ProcSys).goto p
        .waiting).pc p = .waiting := Function.update_self ..
    refine h.waits.sleep hothers (fun j hj => Function.update_of_ne hj _ _) (by rw [hself])
      (by rw [hself]) ⟨.inl ⟨hpc', by rw [hself]⟩, fun _ => ?_, fun _ => ?_, fun _ j hj => ?_⟩
    · rw [hself]
      exact halive
    · obtain ⟨j, hj⟩ := hchild
      exact ⟨j, by rwa [hothers j (hne j hj)]⟩
    · by_cases hjp : j = p
      · subst hjp
        rw [hself]
        simp
      · rw [hothers j hjp] at hj ⊢
        exact hzombie j hj

theorem step_waits (h : s.Inv) (hs : Step K s s') : s'.Waits := by
  have hawake : ∀ {c p}, s.cpu c = some p → (s.proc p).state ≠ .sleeping := fun hc => by
    simp [(h.runs hc).1]
  have hne' : ∀ {c p j}, s.cpu c = some p → (s.proc j).state = .sleeping → j ≠ p :=
    fun hc hj heq => hawake hc (heq ▸ hj)
  cases hs with
  | skip c hidle hs =>
    exact fun i hi => (h.waits i hi).congr rfl rfl rfl (fun _ => id) fun _ _ h₁ h₂ => ⟨h₁, h₂⟩
  | pick c hidle hs =>
    exact h.waits.edit (s.cursor c) rfl (fun _ _ _ => rfl) (by simp)
      fun i _ _ => ⟨id, fun h₁ h₂ => ⟨h₁, by cases h₂⟩⟩
  | @forkAlloc p np t c hc hpc ha =>
    obtain ⟨hnp, rfl⟩ := Ptable.allocproc_some ha
    refine h.waits.edit np rfl (fun j hj _ => ?_) (by simp)
      fun i _ _ => ⟨id, fun h₁ h₂ => ⟨h₁, by cases h₂⟩⟩
    rw [goto_pc, if_neg (hne' hc hj)]
  | @forkFail p np c hc hpc =>
    refine h.waits.edit np rfl (fun j hj _ => ?_) (by simp)
      fun i _ _ => ⟨id, fun h₁ h₂ => ⟨h₁, by cases h₂⟩⟩
    rw [goto_pc, if_neg (hne' hc hj)]
    rfl
  | @forkCopy p np c hc hpc =>
    obtain ⟨hk, hparent⟩ := h.making (congrArg ProcPc.makes hpc)
    rw [hpc, if_neg (by simp)] at hparent
    have hnp := embryo_of_kind hk
    refine h.waits.edit np rfl (fun j hj _ => ?_) (by simp [hnp])
      fun i hi _ => ⟨fun h₁ => ?_, fun h₁ h₂ => ?_⟩
    · rw [goto_pc, if_neg (hne' hc hj)]
      rfl
    · rw [hparent] at h₁
      cases h₁
    · exact absurd (hnp.symm.trans h₂) (by simp)
  | @forkReady p np c hc hpc =>
    refine h.waits.edit np rfl (fun j hj hne => ?_) (by simp)
      fun i _ _ => ⟨id, fun h₁ h₂ => ⟨h₁, by cases h₂⟩⟩
    rw [goto_pc, if_neg (hne' hc hj), goto_pc, if_neg hne]
    rfl
  | @exit p t c hc hpc he =>
    exact h.waits.exit (Ptable.exit_ok he) rfl (h.parent_ne hc)
  | @wait p w t c hc hpc hw hret =>
    exact wait_waits (s := { s with table := s.waitTable p }) (h.waitTable hc) hc hw
      (if_neg hret).symm
  | @waitSleep p t c hc hpc hw =>
    have hwaits : Waits ({ s with table := t }.goto p .waiting) :=
      wait_waits (s := { s with table := s.waitTable p }) (h.waitTable hc) hc hw rfl
    exact fun i hi =>
      (hwaits i hi).congr rfl rfl rfl (fun _ => id) fun _ _ h₁ h₂ => ⟨h₁, h₂⟩
  | @sleep p c a hc hpc =>
    have hself : ((({ s with table := s.table.sleep p (.other a) } : ProcSys).goto p
        .asleep).sched c).proc p = { s.proc p with chan := some (.other a), state := .sleeping } :=
      Function.update_self ..
    have hpc' : ((({ s with table := s.table.sleep p (.other a) } : ProcSys).goto p
        .asleep).sched c).pc p = .asleep := Function.update_self ..
    refine h.waits.sleep (p := p) (fun j hj => Function.update_of_ne hj _ _)
      (fun j hj => Function.update_of_ne hj _ _) (by rw [hself]) (by rw [hself])
      ⟨.inr ⟨hpc', a, by rw [hself]⟩, ?_, ?_, ?_⟩ <;>
    · intro hw
      rw [hpc'] at hw
      cases hw
  | @woken p c hc hpc =>
    refine h.waits.edit p rfl (fun j hj hne => ?_) (hawake hc)
      fun i _ _ => ⟨id, fun h₁ h₂ => ⟨h₁, h₂⟩⟩
    rw [goto_pc, if_neg hne]
  | wakeup a => exact h.waits.wakeup1 _
  | @kill p t c pid hc hpc hK hk =>
    obtain ⟨i, -, rfl⟩ := Ptable.kill_some hk
    refine h.waits.edit i rfl (fun _ _ _ => rfl) ?_
      fun k _ _ => ⟨id, fun h₁ h₂ => ⟨h₁, ?_⟩⟩
    · simp only
      split
      next => simp
      next hno => exact hno
    · simp only at h₂
      split at h₂
      next => cases h₂
      next => exact h₂
  | @fault p c hc hpc =>
    exact h.waits.edit p rfl (fun _ _ _ => rfl) (hawake hc)
      fun i _ _ => ⟨id, fun h₁ h₂ => ⟨h₁, h₂⟩⟩
  | @yield p c hc hpc =>
    exact h.waits.edit p rfl (fun _ _ _ => rfl) (by simp)
      fun i _ _ => ⟨id, fun h₁ h₂ => ⟨h₁, by cases h₂⟩⟩

theorem step_inv (h : s.Inv) (hs : Step K s s') : s'.Inv :=
  ⟨step_cpus h hs, step_tree h hs, step_waits h hs⟩

theorem run_inv (hr : ReflTransGen (Step K) start s) : s.Inv :=
  runs_invariant (I := Inv) (fun _ _ => step_inv) start_inv hr

theorem alive_of_kind (h : s.kind i = .running) : (s.proc i).state = .sleeping ∨
    (s.proc i).state = .runnable ∨ (s.proc i).state = .running := by
  cases hs : (s.proc i).state <;> simp [kind, hs, ProcState.kind] at h ⊢

theorem Tree.parent_alive (h : s.Tree born) (hp : (s.proc i).parent = some q) :
    s.kind q = .running := by
  by_cases hinit : i = s.table.initproc
  · rw [hinit, h.orphan] at hp
    cases hp
  · cases hs : (s.proc i).state with
    | unused =>
      rw [h.fresh i (kind_eq hs)] at hp
      cases hp
    | embryo =>
      obtain ⟨p, hm⟩ := h.maker i (kind_eq hs)
      obtain ⟨-, -, hpar⟩ := h.making p i hm
      rw [hp] at hpar
      split at hpar
      next => rw [Option.some.inj hpar, h.makes_runs hm]
      next => cases hpar
    | sleeping | runnable | running | zombie =>
      obtain ⟨r, hr, hk, -⟩ := h.parent i (by simp [kind_eq hs, ProcState.kind]) hinit
      rwa [Option.some.inj (hp.symm.trans hr)]

/-- From parent to parent to init, by induction on the order of birth. -/
theorem Tree.root (h : s.Tree born) : ∀ n i, born i = n →
    s.kind i = .running ∨ s.kind i = .zombie →
      ReflTransGen (fun a b => (s.proc a).parent = some b) i s.table.initproc := by
  intro n
  induction n using Nat.strong_induction_on with
  | _ n ih =>
    intro i hn hi
    by_cases hinit : i = s.table.initproc
    · rw [hinit]
    · obtain ⟨q, hq, hk, hlt⟩ := h.parent i hi hinit
      exact .head hq (ih _ (hn ▸ hlt) q rfl (.inl hk))

/-- A step after which `nextpid` has not overflowed. -/
def Unwrapped (K : Ptable → Int → Prop) (s s' : ProcSys) : Prop :=
  Step K s s' ∧ 0 < s'.table.nextpid

theorem wait_pids {w : Waited} {t : Ptable} (h : s.Inv) (hc : s.cpu c = some p) (hpids : s.Pids)
    (hw : s.table.wait p = (w, t)) : Pids { s with table := t } := by
  rcases Ptable.wait_cases hw with ⟨i, -, -, -, rfl⟩ | ⟨-, ⟨-, rfl⟩ | ⟨-, rfl, -⟩⟩
  · exact hpids.edit i rfl hpids.next.2 (Int.le_refl _) hpids.next.1 (.inl rfl)
      fun hx => absurd rfl hx
  · exact hpids
  · exact hpids.keep p rfl rfl rfl fun _ => by simp [(h.runs hc).2]

/-- The process ids stay in order until `nextpid` overflows. -/
theorem step_pids (h : s.Inv) (hpids : s.Pids) (hs : Unwrapped K s s') : s'.Pids := by
  obtain ⟨hs, hnext⟩ := hs
  cases hs with
  | skip c hidle hs => exact hpids.congr rfl (fun _ => rfl) fun _ => id
  | pick c hidle hs =>
    exact hpids.keep (s.cursor c) rfl rfl rfl fun _ => by simp [kind_eq hs, ProcState.kind]
  | @forkAlloc p np t c hc hpc ha =>
    obtain ⟨hnp, rfl⟩ := Ptable.allocproc_some ha
    obtain ⟨hnext, hlt⟩ := nextOf_eq hpids.next hnext
    have hle : s.table.nextpid < Ptable.nextOf s.table.nextpid := by omega
    exact hpids.edit np rfl (hnext ▸ hlt) (Int.le_of_lt hle) hle (.inr (.inr (Int.le_refl _)))
      fun _ => Int.ne_of_gt hpids.next.1
  | @forkFail p np c hc hpc => exact hpids.keep np rfl rfl rfl fun hx => absurd rfl hx
  | @forkCopy p np c hc hpc => exact hpids.keep np rfl rfl rfl id
  | @forkReady p np c hc hpc =>
    have hnp := (h.making (congrArg ProcPc.makes hpc)).1
    exact hpids.keep np rfl rfl rfl fun _ => by simp [hnp]
  | @exit p t c hc hpc he =>
    have e := Ptable.exit_ok he
    refine hpids.congr e.nextpid e.pid fun i hi => ?_
    by_cases hip : i = p
    · simp [hip, (h.runs hc).2]
    · exact fun hk => hi ((e.woken i hip).kind.trans hk)
  | @wait p w t c hc hpc hw hret =>
    obtain ⟨r, hr⟩ := waitTable_eq s p
    have hstart : Pids { s with table := s.waitTable p } := by
      rw [hr]
      exact hpids.keep p rfl rfl rfl id
    exact (wait_pids (h.waitTable hc) hc hstart hw).congr rfl (fun _ => rfl) fun _ => id
  | @waitSleep p t c hc hpc hw =>
    obtain ⟨r, hr⟩ := waitTable_eq s p
    have hstart : Pids { s with table := s.waitTable p } := by
      rw [hr]
      exact hpids.keep p rfl rfl rfl id
    exact (wait_pids (h.waitTable hc) hc hstart hw).congr rfl (fun _ => rfl) fun _ => id
  | @sleep p c a hc hpc => exact hpids.keep p rfl rfl rfl fun _ => by simp [(h.runs hc).2]
  | @woken p c hc hpc => exact hpids.keep p rfl rfl rfl id
  | wakeup a =>
    have hw := Ptable.wakeup1_woken s.table (some (.other a))
    exact hpids.congr rfl (fun i => (hw i).pid_eq) fun i hi hk => hi ((hw i).kind.trans hk)
  | @kill p t c pid hc hpc hK hk =>
    obtain ⟨i, -, rfl⟩ := Ptable.kill_some hk
    exact hpids.keep i rfl rfl rfl fun hx hk => hx ((kill_kind _).trans hk)
  | @fault p c hc hpc => exact hpids.keep p rfl rfl rfl id
  | @yield p c hc hpc => exact hpids.keep p rfl rfl rfl fun _ => by simp [(h.runs hc).2]

theorem unwrapped_run (hr : ReflTransGen (Unwrapped K) start s) : ReflTransGen (Step K) start s :=
  hr.lift id fun _ _ => And.left

theorem unwrapped_inv (hr : ReflTransGen (Unwrapped K) start s) : s.Inv ∧ s.Pids :=
  runs_invariant (I := fun s => s.Inv ∧ s.Pids)
    (fun _ _ h hs => ⟨step_inv h.1 hs.1, step_pids h.1 h.2 hs⟩) ⟨start_inv, start_pids⟩ hr

/-- In every run: a parent is never a zombie, and every process descends from init; and as long as
`nextpid` does not overflow, process ids are unique. -/
theorem proc_tree (hr : ReflTransGen (Step K) start s) :
    (∀ i q, (s.proc i).parent = some q → (s.proc q).state = .sleeping ∨
        (s.proc q).state = .runnable ∨ (s.proc q).state = .running) ∧
      (∀ i, (s.proc i).state ≠ .unused → (s.proc i).state ≠ .embryo →
        ReflTransGen (fun a b => (s.proc a).parent = some b) i s.table.initproc) ∧
      (ReflTransGen (Unwrapped K) start s →
        (∀ i j, (s.proc i).pid = (s.proc j).pid → (s.proc i).pid ≠ 0 → i = j) ∧
          ∀ i, (s.proc i).state ≠ .unused → (s.proc i).pid ≠ 0) := by
  obtain ⟨born, h⟩ := (run_inv hr).tree
  refine ⟨fun i q hq => alive_of_kind (h.parent_alive hq), fun i hu he => h.root _ i rfl ?_,
    fun hr => ?_⟩
  · cases hs : (s.proc i).state with
    | unused => exact absurd hs hu
    | embryo => exact absurd hs he
    | sleeping | runnable | running | zombie => simp [kind_eq hs, ProcState.kind]
  · have hpids := (unwrapped_inv hr).2
    exact ⟨hpids.inj, fun i hi => hpids.pos i fun hk => hi (unused_of_kind hk)⟩

/-- Init forks and waits. -/
theorem fork_wait_run : ∃ s, ReflTransGen (Unwrapped K) start s ∧ (s.proc 0).state = .sleeping ∧
    s.pc 0 = .waiting ∧ (s.proc 1).state = .runnable ∧ (s.proc 1).pid = 2 ∧
    s.table.initproc = 0 := by
  have hrun : ReflTransGen (Unwrapped K) start _ := .single ⟨.pick 0 rfl rfl, by decide⟩
  have hrun := hrun.tail ⟨.forkAlloc 0 rfl rfl rfl, by decide⟩
  have hrun := hrun.tail ⟨.forkCopy 0 rfl rfl, by decide⟩
  have hrun := hrun.tail ⟨.forkReady 0 rfl rfl, by decide⟩
  exact ⟨_, hrun.tail ⟨.waitSleep 0 rfl (.inl rfl) rfl, by decide⟩, rfl, rfl, rfl, rfl, rfl⟩

theorem proc_tree_child : ∃ s : ProcSys, (s.proc 1).state = .runnable ∧ (s.proc 1).pid = 2 ∧
    ReflTransGen (fun a b => (s.proc a).parent = some b) 1 0 ∧
    ∀ i, (s.proc i).pid = 2 → i = 1 := by
  obtain ⟨s, hr, -, -, hs, hpid, hinit⟩ := fork_wait_run (K := fun _ _ => True)
  obtain ⟨-, hroot, hpids⟩ := proc_tree (unwrapped_run hr)
  refine ⟨s, hs, hpid, hinit ▸ hroot 1 (by simp [hs]) (by simp [hs]), fun i hi => ?_⟩
  exact (hpids hr).1 i 1 (hi.trans hpid.symm) (by simp [hi])

/-- In every run a process that sleeps in `wait` was not killed and waits for a child, none of
which is a zombie. So the parent of a zombie does not sleep in `wait`, and finds a zombie when it
gets to the next round. -/
theorem wait_wakeups (hr : ReflTransGen (Step K) start s) :
    (∀ i, (s.proc i).state = .sleeping → s.pc i = .waiting → (s.proc i).killed = false ∧
      (∃ j, (s.proc j).parent = some i) ∧
      ∀ j, (s.proc j).parent = some i → (s.proc j).state ≠ .zombie) ∧
      ∀ i, (s.proc i).state = .zombie → ∃ p, (s.proc i).parent = some p ∧
        ¬ ((s.proc p).state = .sleeping ∧ s.pc p = .waiting) ∧
        ∃ pid t, (s.waitTable p).wait p = (.reaped pid, t) := by
  have h := run_inv hr
  refine ⟨fun i hs hpc => ⟨(h.waits i hs).alive hpc, (h.waits i hs).child hpc,
    (h.waits i hs).zombie hpc⟩, fun i hi => ?_⟩
  obtain ⟨born, ht⟩ := h.tree
  have hinit : i ≠ s.table.initproc := by
    rintro rfl
    have := ht.init
    rw [kind_eq hi] at this
    cases this
  obtain ⟨p, hp, hk, -⟩ := ht.parent i (.inr (kind_eq hi)) hinit
  have hne : i ≠ p := by
    rintro rfl
    rw [kind_eq hi] at hk
    cases hk
  refine ⟨p, hp, fun ⟨hs, hpc⟩ => (h.waits p hs).zombie hpc i hp hi, ?_⟩
  obtain ⟨r, hr⟩ := waitTable_eq s p
  have hsame : (s.waitTable p).proc i = s.proc i := by
    rw [hr, Ptable.set_proc, if_neg hne]
    rfl
  rcases Ptable.wait_cases (w := ((s.waitTable p).wait p).1) rfl with ⟨j, -, -, hw, -⟩ | ⟨hno, -⟩
  · exact ⟨_, _, Prod.ext hw rfl⟩
  · exact absurd (hsame ▸ hi) (hno i (hsame ▸ hp))

theorem wait_wakeups_init : ∃ s : ProcSys, (s.proc 0).state = .sleeping ∧ s.pc 0 = .waiting ∧
    (s.proc 0).killed = false ∧ ∃ j, (s.proc j).parent = some 0 := by
  obtain ⟨s, hr, hs, hpc, -⟩ := fork_wait_run (K := fun _ _ => True)
  obtain ⟨hk, hchild, -⟩ := (wait_wakeups (unwrapped_run hr)).1 0 hs hpc
  exact ⟨s, hs, hpc, hk, hchild⟩

end ProcSys
end Xv6
end SsuComputer
