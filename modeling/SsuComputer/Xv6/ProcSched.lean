import SsuComputer.Xv6.ProcRuns

/-!
# SsuComputer.Xv6.ProcSched

What the scheduler promises a process, and what `kill` does to a slot nobody uses.

* `cpu_exclusive` — a process runs on one CPU at most, and what a CPU runs is `RUNNING`.
* `scheduler_bounded` — while a process stays `RUNNABLE`, a CPU starts at most `NPROC - 1` others.
* `kill_newborn` — `allocproc` leaves `killed` as it is. Killing processes that exist never marks a
  free slot, but `kill(0)` does, and the next child of `fork` is born killed.
-/

namespace SsuComputer
namespace Xv6

open Relation

namespace ProcSys

variable {K : Ptable → Int → Prop} {s s' : ProcSys} {p : Fin NPROC} {c : Nat}

/-- In every run, a process is on exactly one CPU when it is `RUNNING`, and on none otherwise. -/
theorem cpu_exclusive (hr : ReflTransGen (Step K) start s) (p : Fin NPROC) :
    ((s.proc p).state = .running ↔ ∃ c, s.cpu c = some p) ∧
      ∀ c c', s.cpu c = some p → s.cpu c' = some p → c = c' := by
  have h := (run_inv hr).cpus
  exact ⟨⟨h.placed p, fun ⟨c, hc⟩ => (h.running c p hc).1⟩, fun c c' => h.one c c' p⟩

theorem cpu_exclusive_init : ((start.swtch 0).proc 0).state = .running ∧
    ∃ c, (start.swtch 0).cpu c = some 0 := by
  have h := (cpu_exclusive (K := fun _ _ => True) (.single (.pick 0 rfl rfl)) 0).1
  exact ⟨h.mpr ⟨0, rfl⟩, 0, rfl⟩

/-! ## Waiting for a CPU -/

/-- How far the cursor of a CPU is from the slot. -/
def distance (s : ProcSys) (p : Fin NPROC) (c : Nat) : Nat := (p - s.cursor c).val

theorem sub_succ {p k : Fin NPROC} (h : k ≠ p) : (p - (k + 1)).val + 1 = (p - k).val := by
  have hne : k.val ≠ p.val := fun heq => h (Fin.ext heq)
  have hk : k.val < 64 := k.isLt
  have hp : p.val < 64 := p.isLt
  change (64 - (k.val + 1 % 64) % 64 + p.val) % 64 + 1 = (64 - k.val + p.val) % 64
  omega

/-- The processes that a CPU can still start before it comes to the slot. -/
def turns (s : ProcSys) (p : Fin NPROC) (c : Nat) : Nat :=
  s.distance p c - if s.cpu c = none then 0 else 1

theorem turns_idle (h : s.cpu c = none) : s.turns p c = s.distance p c := by
  rw [turns, if_pos h, Nat.sub_zero]

theorem turns_lt (s : ProcSys) (p : Fin NPROC) (c : Nat) : s.turns p c ≤ NPROC - 1 := by
  have hlt : s.distance p c < NPROC := (p - s.cursor c).isLt
  unfold turns
  omega

/-- What a step does to a CPU. -/
inductive Moves (s s' : ProcSys) (c : Nat) : Prop
  | stays (hcpu : s'.cpu c = s.cpu c) (hcursor : s'.cursor c = s.cursor c)
    (hpicks : s'.picks c = s.picks c)
  | skips (hidle : s.cpu c = none) (hs : (s.proc (s.cursor c)).state ≠ .runnable)
    (hcpu : s'.cpu c = none) (hcursor : s'.cursor c = s.cursor c + 1)
    (hpicks : s'.picks c = s.picks c)
  | picks (hidle : s.cpu c = none) (hs : (s'.proc (s.cursor c)).state = .running)
    (hcpu : s'.cpu c = some (s.cursor c)) (hcursor : s'.cursor c = s.cursor c)
    (hpicks : s'.picks c = s.picks c + 1)
  | leaves (hbusy : s.cpu c ≠ none) (hcpu : s'.cpu c = none)
    (hcursor : s'.cursor c = s.cursor c + 1) (hpicks : s'.picks c = s.picks c)

theorem sched_moves {c' : Nat} {q : Fin NPROC} (hc : s.cpu c' = some q) (c : Nat)
    (hcpu : s'.cpu = s.cpu) (hcursor : s'.cursor = s.cursor) (hpicks : s'.picks = s.picks) :
    Moves s (s'.sched c') c := by
  by_cases h : c = c'
  · subst h
    refine .leaves (by simp [hc]) ?_ ?_ (congrFun hpicks c)
    · simp [sched]
    · simp [sched, advance, hcursor]
  · refine .stays ?_ ?_ (congrFun hpicks c)
    · simp [sched, h, hcpu]
    · simp [sched, advance, h, hcursor]

theorem step_moves (hs : Step K s s') (c : Nat) : Moves s s' c := by
  cases hs with
  | skip c' hidle hs =>
    by_cases h : c = c'
    · subst h
      exact .skips hidle hs hidle (Function.update_self ..) rfl
    · exact .stays rfl (Function.update_of_ne h _ _) rfl
  | pick c' hidle hs =>
    by_cases h : c = c'
    · subst h
      exact .picks hidle (by simp) (Function.update_self ..) rfl (Function.update_self ..)
    · exact .stays (Function.update_of_ne h _ _) rfl (Function.update_of_ne h _ _)
  | exit c' hc hpc he =>
    refine sched_moves hc c ?_ ?_ ?_ <;> rfl
  | waitSleep c' hc hpc hw =>
    refine sched_moves hc c ?_ ?_ ?_ <;> rfl
  | sleep c' a hc hpc =>
    refine sched_moves hc c ?_ ?_ ?_ <;> rfl
  | yield c' hc hpc =>
    refine sched_moves hc c ?_ ?_ ?_ <;> rfl
  | forkAlloc | forkFail | forkCopy | forkReady | wait | woken | wakeup | kill | fault =>
    exact .stays rfl rfl rfl

/-- A step in which the process stays `RUNNABLE`. -/
def StepWhile (K : Ptable → Int → Prop) (p : Fin NPROC) (s s' : ProcSys) : Prop :=
  Step K s s' ∧ (s.proc p).state = .runnable ∧ (s'.proc p).state = .runnable

theorem step_turns (h : s.Inv) (hs : StepWhile K p s s') (c : Nat) :
    s'.picks c + s'.turns p c ≤ s.picks c + s.turns p c := by
  obtain ⟨hstep, hp, hp'⟩ := hs
  rcases step_moves hstep c with ⟨hcpu, hcursor, hpicks⟩ | ⟨hidle, hk, hcpu, hcursor, hpicks⟩ |
    ⟨hidle, hk, hcpu, hcursor, hpicks⟩ | ⟨hbusy, hcpu, hcursor, hpicks⟩
  · rw [turns, turns, distance, distance, hcpu, hcursor, hpicks]
  · have hne : s.cursor c ≠ p := fun heq => hk (heq ▸ hp)
    have := sub_succ hne
    rw [turns_idle hcpu, turns_idle hidle, distance, distance, hcursor, hpicks]
    omega
  · have hne : s.cursor c ≠ p := by
      rintro rfl
      rw [hk] at hp'
      cases hp'
    have := sub_succ hne
    rw [turns_idle hidle, turns, distance, distance, hcpu, hcursor, hpicks, if_neg (by simp)]
    omega
  · obtain ⟨q, hq⟩ := Option.ne_none_iff_exists'.mp hbusy
    obtain ⟨hrun, hcur⟩ := h.cpus.running c q hq
    have hne : s.cursor c ≠ p := by
      rintro rfl
      rw [hcur, hrun] at hp
      cases hp
    have := sub_succ hne
    rw [turns_idle hcpu, turns, distance, distance, hcursor, hpicks, if_neg hbusy]
    omega

/-- While a process stays `RUNNABLE`, every CPU starts at most `NPROC - 1` other processes. -/
theorem scheduler_bounded {s₀ : ProcSys} (hr₀ : ReflTransGen (Step K) start s₀)
    (hr : ReflTransGen (StepWhile K p) s₀ s) (c : Nat) : s.picks c ≤ s₀.picks c + (NPROC - 1) := by
  have hrun : s.Inv ∧ s.picks c + s.turns p c ≤ s₀.picks c + s₀.turns p c := by
    refine runs_invariant (I := fun s => s.Inv ∧
      s.picks c + s.turns p c ≤ s₀.picks c + s₀.turns p c) ?_ ⟨run_inv hr₀, Nat.le_refl _⟩ hr
    rintro s s' ⟨hinv, hle⟩ hs
    exact ⟨step_inv hinv hs.1, Nat.le_trans (step_turns hinv hs c) hle⟩
  have := turns_lt s₀ p c
  omega

/-- Init and its child are `RUNNABLE`, and the CPU is at the child. -/
theorem scheduler_bounded_child : ∃ s₀ s : ProcSys, (s₀.proc 0).state = .runnable ∧
    (s₀.proc 1).state = .runnable ∧ (s.proc 0).state = .runnable ∧ s.cpu 0 = some 1 ∧
    s.picks 0 = s₀.picks 0 + 1 ∧ s.picks 0 ≤ s₀.picks 0 + (NPROC - 1) := by
  have hrun : ReflTransGen (Step fun _ _ => True) start _ := .single (.pick 0 rfl rfl)
  have hrun := hrun.tail (.forkAlloc 0 rfl rfl rfl)
  have hrun := hrun.tail (.forkCopy 0 rfl rfl)
  have hrun := hrun.tail (.forkReady 0 rfl rfl)
  have hrun := hrun.tail (.yield 0 rfl ⟨by decide, by decide⟩)
  exact ⟨_, _, rfl, rfl, rfl, rfl, rfl,
    scheduler_bounded (p := 0) hrun (.single ⟨.pick 0 rfl rfl, rfl, rfl⟩) 0⟩

/-! ## Killing a free slot -/

/-- The process ids of processes that can run or are zombies. -/
def Present (t : Ptable) (pid : Int) : Prop :=
  ∃ i, (t.proc i).pid = pid ∧ (t.proc i).state ≠ .unused ∧ (t.proc i).state ≠ .embryo

/-- No slot that is free or being filled is marked. -/
def Clean (s : ProcSys) : Prop :=
  ∀ i, (s.proc i).state = .unused ∨ (s.proc i).state = .embryo → (s.proc i).killed = false

/-- Steps that change one slot. -/
theorem Clean.edit (h : s.Clean) (n : Fin NPROC) {x : Proc}
    (hset : s'.proc = Function.update s.proc n x)
    (hx : x.state = .unused ∨ x.state = .embryo → x.killed = false) : s'.Clean :=
  forall_slots (P := fun _ y => y.state = .unused ∨ y.state = .embryo → y.killed = false) hset
    hx fun j _ => h j

theorem Clean.kept (h : s.Clean) {q : Proc} {i : Fin NPROC}
    (hkind : q.state.kind = (s.proc i).state.kind) (hkilled : q.killed = (s.proc i).killed)
    (hq : q.state = .unused ∨ q.state = .embryo) : q.killed = false := by
  rw [hkilled]
  refine h i ?_
  rcases hq with hq | hq
  · rw [hq] at hkind
    exact .inl (unused_of_kind hkind.symm)
  · rw [hq] at hkind
    exact .inr (embryo_of_kind hkind.symm)

theorem Clean.waitTable (h : s.Clean) (p : Fin NPROC) :
    Clean { s with table := s.waitTable p } := by
  obtain ⟨r, hr⟩ := waitTable_eq s p
  rw [hr]
  exact h.edit p rfl fun hx => h p hx

theorem step_clean (h : s.Inv) (hpids : s.Pids) (hclean : s.Clean) (hs : Step Present s s') :
    s'.Clean := by
  have hawake : ∀ {x : Proc}, x.state = .running ∨ x.state = .runnable ∨ x.state = .sleeping →
      x.state = .unused ∨ x.state = .embryo → x.killed = false := fun hx hx' => by
    rcases hx with hx | hx | hx <;> rcases hx' with hx' | hx' <;>
      exact absurd (hx.symm.trans hx') (by simp)
  cases hs with
  | skip c hidle hs => exact hclean
  | pick c hidle hs =>
    exact hclean.edit (s.cursor c) rfl (hawake (.inl rfl))
  | @forkAlloc p np t c hc hpc ha =>
    obtain ⟨hnp, rfl⟩ := Ptable.allocproc_some ha
    exact hclean.edit np rfl fun _ => hclean np (.inl hnp)
  | @forkFail p np c hc hpc =>
    have hnp := embryo_of_kind (h.making (congrArg ProcPc.makes hpc)).1
    exact hclean.edit np rfl fun _ => hclean np (.inr hnp)
  | @forkCopy p np c hc hpc =>
    exact hclean.edit np rfl fun hx => hclean np hx
  | @forkReady p np c hc hpc =>
    exact hclean.edit np rfl (hawake (.inr (.inl rfl)))
  | @exit p t c hc hpc he =>
    have e := Ptable.exit_ok he
    intro i hi
    have hip : i ≠ p := by
      rintro rfl
      have hz := e.zombie
      rcases hi with hi | hi <;> exact absurd (hz.symm.trans hi) (by simp)
    exact hclean.kept (e.woken i hip).kind (e.woken i hip).killed_eq hi
  | @wait p w t c hc hpc hw hret =>
    have hclean' := hclean.waitTable p
    rcases Ptable.wait_cases hw with ⟨i, -, -, -, rfl⟩ | ⟨-, ⟨-, rfl⟩ | ⟨rfl, -⟩⟩
    · exact hclean'.edit i rfl fun _ => rfl
    · exact hclean'
    · exact absurd rfl hret
  | @waitSleep p t c hc hpc hw =>
    have hclean' := hclean.waitTable p
    rcases Ptable.wait_cases hw with ⟨i, -, -, hno, -⟩ | ⟨-, ⟨hno, -⟩ | ⟨-, rfl, -⟩⟩
    · cases hno
    · cases hno
    · exact hclean'.edit p rfl (hawake (.inr (.inr rfl)))
  | @sleep p c a hc hpc =>
    exact hclean.edit p rfl (hawake (.inr (.inr rfl)))
  | @woken p c hc hpc =>
    exact hclean.edit p rfl (hawake (.inl (h.runs hc).1))
  | wakeup a =>
    have hw := Ptable.wakeup1_woken s.table (some (.other a))
    exact fun i hi => hclean.kept (hw i).kind (hw i).killed_eq hi
  | @kill p t c pid hc hpc hK hk =>
    obtain ⟨i, hi, rfl⟩ := Ptable.kill_some hk
    obtain ⟨j, hj, hju, hje⟩ := hK
    -- the slot that the scan finds is the one of the process that exists
    have hpos : (s.proc j).pid ≠ 0 := hpids.pos j fun hu => hju (unused_of_kind hu)
    have hpid : (s.proc j).pid = (s.proc i).pid := hj.trans hi.symm
    obtain rfl := hpids.inj j i hpid hpos
    refine hclean.edit j rfl ?_
    simp only
    split
    next => rintro (hx | hx) <;> cases hx
    next =>
      rintro (hx | hx)
      · exact absurd hx hju
      · exact absurd hx hje
  | @fault p c hc hpc =>
    exact hclean.edit p rfl (hawake (.inl (h.runs hc).1))
  | @yield p c hc hpc =>
    exact hclean.edit p rfl (hawake (.inr (.inl rfl)))

/-- When `kill` is only called with the ids of processes that exist, and as long as `nextpid` does
not overflow, a child of `fork` is not killed before it runs. With `kill(0)`, which finds a slot that
was never used, it is. -/
theorem kill_newborn :
    (∀ s, ReflTransGen (Unwrapped Present) start s → ∀ i,
      (s.proc i).state = .unused ∨ (s.proc i).state = .embryo → (s.proc i).killed = false) ∧
      ∃ s, ReflTransGen (Step fun _ pid => pid = 0) start s ∧ (s.proc 1).state = .runnable ∧
        (s.proc 1).pid = 2 ∧ (s.proc 1).killed = true := by
  constructor
  · intro s hr
    have hrun : s.Inv ∧ s.Pids ∧ s.Clean := by
      refine runs_invariant (I := fun s => s.Inv ∧ s.Pids ∧ s.Clean) ?_
        ⟨start_inv, start_pids, fun i _ => ?_⟩ hr
      · rintro s s' ⟨hinv, hpids, hclean⟩ hs
        exact ⟨step_inv hinv hs.1, step_pids hinv hpids hs, step_clean hinv hpids hclean hs.1⟩
      · rw [start_proc]
        split <;> rfl
    exact hrun.2.2
  · have hrun : ReflTransGen (Step fun _ pid => pid = 0) start _ := .single (.pick 0 rfl rfl)
    have hrun := hrun.tail (.kill 0 0 rfl rfl rfl rfl)
    have hrun := hrun.tail (.forkAlloc 0 rfl rfl rfl)
    have hrun := hrun.tail (.forkCopy 0 rfl rfl)
    exact ⟨_, hrun.tail (.forkReady 0 rfl rfl), rfl, rfl, rfl⟩

/-- Init kills its child and makes another one. -/
theorem kill_newborn_present : ∃ s, ReflTransGen (Unwrapped Present) start s ∧
    (s.proc 1).killed = true ∧ (s.proc 2).state = .embryo ∧ (s.proc 2).killed = false := by
  have hrun : ReflTransGen (Unwrapped Present) start _ := .single ⟨.pick 0 rfl rfl, by decide⟩
  have hrun := hrun.tail ⟨.forkAlloc 0 rfl rfl rfl, by decide⟩
  have hrun := hrun.tail ⟨.forkCopy 0 rfl rfl, by decide⟩
  have hrun := hrun.tail ⟨.forkReady 0 rfl rfl, by decide⟩
  have hrun := hrun.tail ⟨.kill 0 2 rfl rfl ⟨1, rfl, nofun, nofun⟩ rfl, by decide⟩
  have hrun := hrun.tail ⟨.forkAlloc 0 rfl rfl rfl, by decide⟩
  exact ⟨_, hrun, rfl, rfl, kill_newborn.1 _ hrun 2 (.inr rfl)⟩

end ProcSys
end Xv6
end SsuComputer
