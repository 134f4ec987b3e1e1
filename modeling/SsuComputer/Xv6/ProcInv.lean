import Mathlib.Algebra.Ring.Int.Defs
import Mathlib.Data.Fintype.Lattice
import SsuComputer.Xv6.ProcTable

/-!
# SsuComputer.Xv6.ProcInv

The invariants of the process table.

`Cpus` says which process runs where, `Tree` what the parents are like and who is filling which slot
in `fork`, `Pids` what the process ids are like until they overflow, `Waits` what a sleeper sleeps
on. Most steps change one slot (`Tree.edit`, `Pids.edit`, `Waits.edit`); `exit` changes all of its
children (`Tree.exit`, `Waits.exit`).
-/

namespace SsuComputer
namespace Xv6

open Relation

/-- The slot that a process in `fork` is filling. -/
def ProcPc.makes : ProcPc → Option (Fin NPROC)
  | .forking np => some np
  | .forked np => some np
  | _ => none

namespace ProcSys

variable {K : Ptable → Nat → Prop} {s s' : ProcSys} {i j p q np : Fin NPROC} {c : Nat}

@[simp] theorem goto_pc (pc : ProcPc) : (s.goto p pc).pc q = if q = p then pc else s.pc q :=
  Function.update_apply ..

@[simp] theorem setProc_proc (q : Proc) :
    (s.setProc i q).proc j = if j = i then q else s.proc j := Function.update_apply ..

@[simp] theorem setProc_pc (q : Proc) : (s.setProc i q).pc = s.pc := rfl

@[simp] theorem swtch_proc : (s.swtch c).proc q =
    if q = s.cursor c then { s.proc (s.cursor c) with state := .running } else s.proc q :=
  Function.update_apply ..

@[simp] theorem swtch_cursor : (s.swtch c).cursor = s.cursor := rfl

/-! ## The CPUs -/

structure Cpus (s : ProcSys) : Prop where
  running : ∀ c p, s.cpu c = some p → (s.proc p).state = .running ∧ s.cursor c = p
  one : ∀ c c' p, s.cpu c = some p → s.cpu c' = some p → c = c'
  placed : ∀ p, (s.proc p).state = .running → ∃ c, s.cpu c = some p

theorem Cpus.congr (h : s.Cpus) (hcpu : s'.cpu = s.cpu)
    (hcur : ∀ c, s.cpu c ≠ none → s'.cursor c = s.cursor c)
    (hrun : ∀ p, (s'.proc p).state = .running ↔ (s.proc p).state = .running) : s'.Cpus := by
  refine ⟨fun c p hc => ?_, fun c c' p hc hc' => ?_, fun p hp => ?_⟩
  · rw [hcpu] at hc
    obtain ⟨hp, hcp⟩ := h.running c p hc
    exact ⟨(hrun p).mpr hp, by rw [hcur c (by simp [hc]), hcp]⟩
  · rw [hcpu] at hc hc'
    exact h.one c c' p hc hc'
  · rw [hcpu]
    exact h.placed p ((hrun p).mp hp)

/-- The process on the CPU `c` leaves it. -/
theorem Cpus.leave (h : s.Cpus) (s' : ProcSys) (hc : s.cpu c = some p)
    (hself : (s'.proc p).state ≠ .running)
    (hrun : ∀ q, q ≠ p → ((s'.proc q).state = .running ↔ (s.proc q).state = .running))
    (hcpu : s'.cpu = s.cpu) (hcur : s'.cursor = s.cursor) : (s'.sched c).Cpus := by
  have hother : ∀ c', c' ≠ c → s.cpu c' ≠ some p := fun c' hne hc' => hne (h.one c' c p hc' hc)
  have hget : ∀ c' q, (s'.sched c).cpu c' = some q → c' ≠ c ∧ s.cpu c' = some q := fun c' q hq => by
    simp only [sched, Function.update_apply, hcpu] at hq
    split at hq
    next => cases hq
    next hne => exact ⟨hne, hq⟩
  refine ⟨fun c' q hq => ?_, fun c' c'' q hq hq' => ?_, fun q hq => ?_⟩
  · obtain ⟨hne, hc'⟩ := hget c' q hq
    obtain ⟨hr, hcq⟩ := h.running c' q hc'
    refine ⟨(hrun q fun heq => hother c' hne (heq ▸ hc')).mpr hr, ?_⟩
    simp only [sched, advance, Function.update_of_ne hne, hcur, hcq]
  · exact h.one c' c'' q (hget c' q hq).2 (hget c'' q hq').2
  · have hqp : q ≠ p := fun heq => hself (heq ▸ hq)
    obtain ⟨c', hc'⟩ := h.placed q ((hrun q hqp).mp hq)
    refine ⟨c', ?_⟩
    have hne : c' ≠ c := fun heq => hqp (Option.some.inj ((heq ▸ hc').symm.trans hc))
    simp only [sched, Function.update_of_ne hne, hcpu, hc']

theorem Cpus.swtch (h : s.Cpus) (hidle : s.cpu c = none)
    (hs : (s.proc (s.cursor c)).state = .runnable) : (s.swtch c).Cpus := by
  have hnot : ∀ c', s.cpu c' ≠ some (s.cursor c) := fun c' hc' => by
    rw [(h.running _ _ hc').1] at hs
    cases hs
  have hget : ∀ c' q, (s.swtch c).cpu c' = some q →
      c' = c ∧ q = s.cursor c ∨ c' ≠ c ∧ s.cpu c' = some q ∧ q ≠ s.cursor c := fun c' q hq => by
    simp only [ProcSys.swtch, Function.update_apply] at hq
    split at hq
    next heq => exact .inl ⟨heq, (Option.some.inj hq).symm⟩
    next hne => exact .inr ⟨hne, hq, fun heq => hnot c' (heq ▸ hq)⟩
  refine ⟨fun c' q hq => ?_, fun c' c'' q hq hq' => ?_, fun q hq => ?_⟩
  · rcases hget c' q hq with ⟨rfl, rfl⟩ | ⟨hne, hc', hqc⟩
    · simp [swtch_proc, swtch_cursor]
    · obtain ⟨hr, hcq⟩ := h.running c' q hc'
      simp [swtch_proc, swtch_cursor, hqc, hr, hcq]
  · rcases hget c' q hq with ⟨rfl, rfl⟩ | ⟨hne, hc', hqc⟩
    · rcases hget c'' _ hq' with ⟨rfl, -⟩ | ⟨-, -, hqc⟩
      · rfl
      · exact absurd rfl hqc
    · rcases hget c'' q hq' with ⟨-, rfl⟩ | ⟨-, hc'', -⟩
      · exact absurd rfl hqc
      · exact h.one c' c'' q hc' hc''
  · by_cases hqc : q = s.cursor c
    · exact ⟨c, by simp [ProcSys.swtch, hqc]⟩
    · rw [swtch_proc, if_neg hqc] at hq
      obtain ⟨c', hc'⟩ := h.placed q hq
      have hne : c' ≠ c := by
        rintro rfl
        rw [hidle] at hc'
        cases hc'
      exact ⟨c', by simp [ProcSys.swtch, hne, hc']⟩

/-! ## The processes -/

def kind (s : ProcSys) (i : Fin NPROC) : ProcState := (s.proc i).state.kind

def makes (s : ProcSys) (p : Fin NPROC) : Option (Fin NPROC) := (s.pc p).makes

/-- `born` tells the order in which the slots were taken; the process ids may have wrapped around. -/
structure Tree (s : ProcSys) (born : Fin NPROC → Nat) : Prop where
  init : s.kind s.table.initproc = .running
  orphan : (s.proc s.table.initproc).parent = none
  eldest : ∀ i, s.kind i ≠ .unused → i ≠ s.table.initproc → born s.table.initproc < born i
  fresh : ∀ i, s.kind i = .unused → (s.proc i).parent = none
  parent : ∀ i, s.kind i = .running ∨ s.kind i = .zombie → i ≠ s.table.initproc →
    ∃ q, (s.proc i).parent = some q ∧ s.kind q = .running ∧ born q < born i
  busy : ∀ p, s.pc p ≠ .user → s.kind p = .running
  making : ∀ p np, s.makes p = some np →
    s.kind np = .embryo ∧ born p < born np ∧
      (s.proc np).parent = if s.pc p = .forked np then some p else none
  maker : ∀ np, s.kind np = .embryo → ∃ p, s.makes p = some np
  one : ∀ p q np, s.makes p = some np → s.makes q = some np → p = q

variable {born born' : Fin NPROC → Nat}

theorem makes_of_eq {s s' : ProcSys} (h : s'.pc p = s.pc p) : s'.makes p = s.makes p := by
  rw [makes, makes, h]

/-- Steps that leave the family and the state up to `kind` alone. -/
theorem Tree.congr (h : s.Tree born) (hinit : s'.table.initproc = s.table.initproc)
    (hparent : ∀ i, (s'.proc i).parent = (s.proc i).parent) (hkind : ∀ i, s'.kind i = s.kind i)
    (hpc : ∀ p, s'.pc p = s.pc p ∨ s.makes p = none ∧ s'.makes p = none ∧ s.kind p = .running) :
    s'.Tree born := by
  have hmakes : ∀ p, s'.makes p = s.makes p := fun p => by
    rcases hpc p with heq | ⟨h₁, h₂, -⟩
    · exact makes_of_eq heq
    · rw [h₁, h₂]
  have hforked : ∀ p np, s.makes p = some np → s'.pc p = s.pc p := fun p np hp => by
    rcases hpc p with heq | ⟨h₁, -, -⟩
    · exact heq
    · rw [h₁] at hp
      cases hp
  refine ⟨?_, ?_, fun i => ?_, fun i => ?_, fun i => ?_, fun p hp => ?_, fun p np hp => ?_,
    fun np => ?_, fun p q np => ?_⟩
  · rw [hinit, hkind, h.init]
  · rw [hinit, hparent, h.orphan]
  · rw [hkind, hinit]
    exact h.eldest i
  · rw [hkind, hparent]
    exact h.fresh i
  · simp only [hkind, hinit, hparent]
    exact h.parent i
  · rw [hkind]
    rcases hpc p with heq | ⟨-, -, hr⟩
    · exact h.busy p (heq ▸ hp)
    · exact hr
  · rw [hmakes] at hp
    rw [hkind, hparent, hforked p np hp]
    exact h.making p np hp
  · simp only [hkind, hmakes]
    exact h.maker np
  · rw [hmakes, hmakes]
    exact h.one p q np

/-- A step that changes one slot, in which no process runs, and where one process goes on. -/
structure Edit (s s' : ProcSys) (np : Fin NPROC) (x : Proc) (p : Fin NPROC) (pc : ProcPc) :
    Prop where
  self : s'.proc np = x
  others : ∀ j, j ≠ np → s'.proc j = s.proc j
  initproc : s'.table.initproc = s.table.initproc
  here : s'.pc p = pc
  there : ∀ q, q ≠ p → q ≠ np → s'.pc q = s.pc q
  rest : s'.pc np = .user
  idle : s.kind np ≠ .running
  runs : s.kind p = .running

variable {x : Proc} {pc : ProcPc}

theorem Edit.ne (e : s.Edit s' np x p pc) : p ≠ np := fun heq => e.idle (heq ▸ e.runs)

theorem Edit.kind (e : s.Edit s' np x p pc) (hj : j ≠ np) : s'.kind j = s.kind j :=
  congrArg (fun x => x.state.kind) (e.others j hj)

theorem makes_user (h : s.pc p = .user) : s.makes p = none := congrArg ProcPc.makes h

theorem Tree.makes_runs (h : s.Tree born) {n : Fin NPROC} (hp : s.makes p = some n) :
    s.kind p = .running :=
  h.busy p fun hpc => by
    rw [makes_user hpc] at hp
    cases hp

theorem Edit.makes {n : Fin NPROC} (e : s.Edit s' np x p pc) (hq : s'.makes q = some n)
    (hqp : q ≠ p) : s'.pc q = s.pc q ∧ s.makes q = some n := by
  have hqn : q ≠ np := by
    rintro rfl
    rw [makes_user e.rest] at hq
    cases hq
  have hpc := e.there q hqp hqn
  exact ⟨hpc, makes_of_eq hpc ▸ hq⟩

theorem Edit.set (e : s.Edit s' np x p pc) : s'.proc = Function.update s.proc np x :=
  Function.eq_update_iff.mpr ⟨e.self, e.others⟩

/-- What holds of every slot, when a step changed the slot `np` alone. -/
theorem forall_slots {P : Fin NPROC → Proc → Prop} (hset : s'.proc = Function.update s.proc np x)
    (hx : P np x) (hold : ∀ j, j ≠ np → P j (s.proc j)) (j : Fin NPROC) : P j (s'.proc j) := by
  rw [hset]
  exact (Function.forall_update_iff s.proc P).mpr ⟨hx, hold⟩ j

/-- What has to be said of the slot for the table to stay a tree. -/
structure Placed (s : ProcSys) (born born' : Fin NPROC → Nat) (np : Fin NPROC) (x : Proc)
    (p : Fin NPROC) (pc : ProcPc) : Prop where
  since : ∀ j, j ≠ np → born' j = born j
  pos : x.state.kind ≠ .unused → born s.table.initproc < born' np
  fresh : x.state.kind = .unused → x.parent = none
  parent : x.state.kind = .running ∨ x.state.kind = .zombie →
    ∃ q, x.parent = some q ∧ s.kind q = .running ∧ born q < born' np
  new : ∀ n, pc.makes = some n → n = np ∧ x.state.kind = .embryo ∧ born p < born' np ∧
    x.parent = if pc = .forked np then some p else none
  maker : x.state.kind = .embryo → pc.makes = some np
  old : ∀ n, s.makes p = some n → n = np
  mine : s.kind np = .embryo → s.makes p = some np

theorem Edit.makes_here (e : s.Edit s' np x p pc) : s'.makes p = pc.makes :=
  congrArg ProcPc.makes e.here

/-- Another process in `fork` fills another slot, and did so before. -/
theorem Tree.edit_makes (h : s.Tree born) (e : s.Edit s' np x p pc)
    (hs : s.Placed born born' np x p pc) {n : Fin NPROC} (hqp : q ≠ p)
    (hq : s'.makes q = some n) : n ≠ np ∧ q ≠ np ∧ s'.pc q = s.pc q ∧ s.makes q = some n := by
  obtain ⟨hsame, hq⟩ := e.makes hq hqp
  refine ⟨fun hn => ?_, fun hqn => e.idle (hqn ▸ h.makes_runs hq), hsame, hq⟩
  subst hn
  exact hqp (h.one q p n hq (hs.mine (h.making q n hq).1))

theorem Tree.edit_parent (h : s.Tree born) (e : s.Edit s' np x p pc)
    (hs : s.Placed born born' np x p pc) (hi : s'.kind i = .running ∨ s'.kind i = .zombie)
    (hii : i ≠ s.table.initproc) :
    ∃ q, (s'.proc i).parent = some q ∧ s'.kind q = .running ∧ born' q < born' i := by
  have hlift : ∀ q r n, r = some q → s.kind q = .running → born q < n →
      ∃ q, r = some q ∧ s'.kind q = .running ∧ born' q < n := fun q r n hr hk hp => by
    have hqn : q ≠ np := fun heq => e.idle (heq ▸ hk)
    exact ⟨q, hr, (e.kind hqn).trans hk, by rwa [hs.since q hqn]⟩
  by_cases hin : i = np
  · subst hin
    rw [kind, e.self] at hi
    rw [e.self]
    obtain ⟨q, hq, hk, hp⟩ := hs.parent hi
    exact hlift q _ _ hq hk hp
  · rw [e.kind hin] at hi
    rw [e.others i hin, hs.since i hin]
    obtain ⟨q, hq, hk, hp⟩ := h.parent i hi hii
    exact hlift q _ _ hq hk hp

theorem Tree.edit_busy (h : s.Tree born) (e : s.Edit s' np x p pc) (hq : s'.pc q ≠ .user) :
    s'.kind q = .running := by
  by_cases hqp : q = p
  · subst hqp
    exact (e.kind e.ne).trans e.runs
  · by_cases hqn : q = np
    · subst hqn
      exact absurd e.rest hq
    · rw [e.there q hqp hqn] at hq
      rw [e.kind hqn]
      exact h.busy q hq

theorem Tree.edit_making (h : s.Tree born) (e : s.Edit s' np x p pc)
    (hs : s.Placed born born' np x p pc) {n : Fin NPROC} (hq : s'.makes q = some n) :
    s'.kind n = .embryo ∧ born' q < born' n ∧
      (s'.proc n).parent = if s'.pc q = .forked n then some q else none := by
  by_cases hqp : q = p
  · subst hqp
    obtain ⟨rfl, hk, hlt, hpar⟩ := hs.new n (e.makes_here ▸ hq)
    rw [kind, hs.since q e.ne, e.self, e.here]
    exact ⟨hk, hlt, hpar⟩
  · obtain ⟨hn, hqn, hsame, hq⟩ := h.edit_makes e hs hqp hq
    rw [e.kind hn, hs.since q hqn, hs.since n hn, e.others n hn, hsame]
    exact h.making q n hq

theorem Tree.edit_maker (h : s.Tree born) (e : s.Edit s' np x p pc)
    (hs : s.Placed born born' np x p pc) {n : Fin NPROC} (hn : s'.kind n = .embryo) :
    ∃ q, s'.makes q = some n := by
  by_cases hnn : n = np
  · subst hnn
    rw [kind, e.self] at hn
    exact ⟨p, e.makes_here.trans (hs.maker hn)⟩
  · rw [e.kind hnn] at hn
    obtain ⟨q, hq⟩ := h.maker n hn
    have hqp : q ≠ p := fun heq => hnn (hs.old n (heq ▸ hq))
    have hqn : q ≠ np := fun heq => e.idle (heq ▸ h.makes_runs hq)
    exact ⟨q, (makes_of_eq (e.there q hqp hqn)).trans hq⟩

theorem Tree.edit_one (h : s.Tree born) (e : s.Edit s' np x p pc)
    (hs : s.Placed born born' np x p pc) {r n : Fin NPROC} (hq : s'.makes q = some n)
    (hr : s'.makes r = some n) : q = r := by
  have hback : ∀ q, q ≠ p → s'.makes q = some n → s'.makes p ≠ some n := fun q hqp hq hp =>
    (h.edit_makes e hs hqp hq).1 (hs.new n (e.makes_here ▸ hp)).1
  by_cases hqp : q = p <;> by_cases hrp : r = p
  · rw [hqp, hrp]
  · exact absurd (hqp ▸ hq) (hback r hrp hr)
  · exact absurd (hrp ▸ hr) (hback q hqp hq)
  · exact h.one q r n (h.edit_makes e hs hqp hq).2.2.2 (h.edit_makes e hs hrp hr).2.2.2

theorem Tree.edit (h : s.Tree born) (e : s.Edit s' np x p pc)
    (hs : s.Placed born born' np x p pc) : s'.Tree born' := by
  have hinit : s.table.initproc ≠ np := fun heq => e.idle (heq ▸ h.init)
  refine ⟨?_, ?_, fun i hi hii => ?_, fun i hi => ?_, fun i hi hii => ?_,
    fun q hq => h.edit_busy e hq, fun q n hq => h.edit_making e hs hq,
    fun n hn => h.edit_maker e hs hn, fun q r n hq hr => h.edit_one e hs hq hr⟩
  · rw [e.initproc, e.kind hinit, h.init]
  · rw [e.initproc, e.others _ hinit, h.orphan]
  · rw [e.initproc] at hii ⊢
    rw [hs.since _ hinit]
    exact forall_slots (P := fun j y => y.state.kind ≠ .unused → j ≠ s.table.initproc →
      born s.table.initproc < born' j) e.set (fun hx _ => hs.pos hx)
      (fun j hj => hs.since j hj ▸ h.eldest j) i hi hii
  · exact forall_slots (P := fun _ y => y.state.kind = .unused → y.parent = none) e.set hs.fresh
      (fun j _ => h.fresh j) i hi
  · rw [e.initproc] at hii
    exact h.edit_parent e hs hi hii

theorem Tree.rest (h : s.Tree born) (hk : s.kind p ≠ .running) : s.pc p = .user :=
  Classical.byContradiction fun hpc => hk (h.busy p hpc)

/-- The new process is younger than all others. -/
theorem Tree.forkAlloc {pid : Int} (h : s.Tree born)
    (e : s.Edit s' np { s.proc np with state := .embryo, pid := pid } p (.forking np))
    (hnp : s.kind np = .unused) (hpc : s.pc p = .user) : ∃ born', s'.Tree born' := by
  obtain ⟨n, hn⟩ : ∃ n, ∀ i, born i < n :=
    ⟨Finset.univ.sup born + 1, fun i => Nat.lt_succ_of_le (Finset.le_sup (Finset.mem_univ i))⟩
  have hself : Function.update born np n np = n := Function.update_self ..
  refine ⟨Function.update born np n, h.edit e ⟨fun j hj => Function.update_of_ne hj _ _,
    fun _ => ?_, (fun hk => by cases hk), (fun hk => by rcases hk with hk | hk <;> cases hk),
    fun m hm => ?_, fun _ => rfl, fun m hm => ?_, fun hk => ?_⟩⟩
  · rw [hself]
    exact hn _
  · rw [hself]
    exact ⟨(Option.some.inj hm).symm, rfl, hn p, h.fresh np hnp⟩
  · rw [makes_user hpc] at hm
    cases hm
  · rw [hnp] at hk
    cases hk

theorem Tree.forkFail (h : s.Tree born)
    (e : s.Edit s' np { s.proc np with state := .unused } p .user) (hpc : s.pc p = .forking np) :
    s'.Tree born := by
  have hmakes : s.makes p = some np := by rw [makes, hpc, ProcPc.makes]
  obtain ⟨-, -, hparent⟩ := h.making p np hmakes
  rw [hpc, if_neg (by simp)] at hparent
  exact h.edit e ⟨fun _ _ => rfl, fun hk => absurd rfl hk, fun _ => hparent,
    (fun hk => by rcases hk with hk | hk <;> cases hk), (fun n hn => by cases hn),
    (fun hk => by cases hk), fun n hn => Option.some.inj (hn.symm.trans hmakes), fun _ => hmakes⟩

theorem Tree.forkCopy (h : s.Tree born)
    (e : s.Edit s' np { s.proc np with parent := some p } p (.forked np))
    (hpc : s.pc p = .forking np) : s'.Tree born := by
  have hmakes : s.makes p = some np := by rw [makes, hpc, ProcPc.makes]
  obtain ⟨hkind, hlt, -⟩ := h.making p np hmakes
  have hkind' : (s.proc np).state.kind = .embryo := hkind
  refine h.edit e ⟨fun _ _ => rfl, fun hk => h.eldest np hk fun heq => ?_, fun hk => ?_,
    fun hk => ?_, fun n hn => ⟨(Option.some.inj hn).symm, hkind', hlt, by simp⟩, fun _ => rfl,
    fun n hn => Option.some.inj (hn.symm.trans hmakes), fun _ => hmakes⟩
  · exact e.idle (heq ▸ h.init)
  · rw [hkind'] at hk
    cases hk
  · rw [hkind'] at hk
    rcases hk with hk | hk <;> cases hk

theorem Tree.forkReady (h : s.Tree born)
    (e : s.Edit s' np { s.proc np with state := .runnable } p .user)
    (hpc : s.pc p = .forked np) : s'.Tree born := by
  have hmakes : s.makes p = some np := by rw [makes, hpc, ProcPc.makes]
  obtain ⟨hkind, hlt, hparent⟩ := h.making p np hmakes
  rw [hpc, if_pos rfl] at hparent
  exact h.edit e ⟨fun _ _ => rfl,
    fun _ => h.eldest np (by simp [hkind]) fun heq => e.idle (heq ▸ h.init),
    (fun hk => by cases hk), fun _ => ⟨p, hparent, e.runs, hlt⟩, (fun n hn => by cases hn),
    (fun hk => by cases hk), fun n hn => Option.some.inj (hn.symm.trans hmakes), fun _ => hmakes⟩

theorem Tree.reap (h : s.Tree born)
    (e : s.Edit s' i { s.proc i with pid := 0, parent := none, killed := false, state := .unused }
      p .user)
    (hi : s.kind i = .zombie) (hp : s.makes p = none) : s'.Tree born := by
  refine h.edit e ⟨fun _ _ => rfl, fun hk => absurd rfl hk, fun _ => rfl,
    (fun hk => by rcases hk with hk | hk <;> cases hk), (fun n hn => by cases hn),
    (fun hk => by cases hk), fun n hn => ?_, fun hk => ?_⟩
  · rw [hp] at hn
    cases hn
  · rw [hi] at hk
    cases hk

theorem exited_kind (e : Ptable.Exited p s.table s'.table) (hj : j ≠ p) :
    s'.kind j = s.kind j :=
  (e.woken j hj).kind

theorem Tree.exit (h : s.Tree born) (e : Ptable.Exited p s.table s'.table)
    (hr : s.kind p = .running) (hpc : s.pc p = .user) (hsame : s'.pc = s.pc) : s'.Tree born := by
  have hinit : s.table.initproc ≠ p := e.notInit.symm
  have hzombie : s'.kind p = .zombie := congrArg ProcState.kind e.zombie
  have hmakes : ∀ q, s'.makes q = s.makes q := fun q => makes_of_eq (congrFun hsame q)
  have hkind : ∀ j, s'.kind j ≠ .zombie → s'.kind j = s.kind j := fun j hj =>
    exited_kind e fun heq => hj (heq ▸ hzombie)
  have hparent : ∀ j, (s'.proc j).parent =
      if (s.proc j).parent = some p then some s.table.initproc else (s.proc j).parent := e.parent
  have hwas : ∀ j, s'.kind j ≠ .unused → s.kind j ≠ .unused := fun j hj hk => by
    by_cases hjp : j = p
    · rw [hjp, hr] at hk
      cases hk
    · exact hj ((exited_kind e hjp).trans hk)
  refine ⟨?_, ?_, fun i hi hii => ?_, fun i hi => ?_, fun i hi hii => ?_, fun q hq => ?_,
    fun q n hq => ?_, fun n hn => ?_, fun q r n hq hr => ?_⟩
  · rw [e.initproc, exited_kind e hinit, h.init]
  · rw [e.initproc, hparent, if_neg (by rw [h.orphan]; simp), h.orphan]
  · rw [e.initproc] at hii ⊢
    exact h.eldest i (hwas i hi) hii
  · rw [hkind i (by simp [hi])] at hi
    rw [hparent, h.fresh i hi]
    simp
  · -- the children of the process that exits are those of init, which is older than it
    have hi' : s.kind i = .running ∨ s.kind i = .zombie := by
      by_cases hip : i = p
      · exact .inl (hip ▸ hr)
      · rwa [exited_kind e hip] at hi
    rw [e.initproc] at hii
    obtain ⟨q, hq, hqk, hqp⟩ := h.parent i hi' hii
    rw [hparent]
    by_cases hqe : q = p
    · subst hqe
      refine ⟨s.table.initproc, if_pos hq, ?_, ?_⟩
      · rw [exited_kind e hinit, h.init]
      · exact h.eldest i (by rcases hi' with hi' | hi' <;> simp [hi']) hii
    · refine ⟨q, ?_, ?_, hqp⟩
      · rw [if_neg (by rw [hq]; simpa using hqe), hq]
      · rw [exited_kind e hqe, hqk]
  · rw [hsame] at hq
    have hqp : q ≠ p := fun heq => hq (heq ▸ hpc)
    rw [exited_kind e hqp]
    exact h.busy q hq
  · rw [hmakes] at hq
    have hqp : q ≠ p := by
      rintro rfl
      rw [makes_user hpc] at hq
      cases hq
    obtain ⟨hk, hlt, hpar⟩ := h.making q n hq
    have hnp : n ≠ p := by
      rintro rfl
      rw [hr] at hk
      cases hk
    rw [exited_kind e hnp, hparent, hsame]
    refine ⟨hk, hlt, ?_⟩
    have hne : (s.proc n).parent ≠ some p := by
      rw [hpar]
      split <;> simp [hqp]
    rw [if_neg hne, hpar]
  · rw [hkind n (by simp [hn])] at hn
    obtain ⟨q, hq⟩ := h.maker n hn
    exact ⟨q, (hmakes q).trans hq⟩
  · rw [hmakes] at hq hr
    exact h.one q r n hq hr

/-! ## Process ids -/

structure Pids (s : ProcSys) : Prop where
  next : 0 < s.table.nextpid ∧ s.table.nextpid < 2 ^ 31
  bound : ∀ i, (s.proc i).pid < s.table.nextpid
  inj : ∀ i j, (s.proc i).pid = (s.proc j).pid → (s.proc i).pid ≠ 0 → i = j
  pos : ∀ i, s.kind i ≠ .unused → (s.proc i).pid ≠ 0

/-- As long as the next process id is positive, it has not wrapped around. -/
theorem nextOf_eq {n : Int} (h : 0 < n ∧ n < 2 ^ 31) (hpos : 0 < Ptable.nextOf n) :
    Ptable.nextOf n = n + 1 ∧ n + 1 < 2 ^ 31 := by
  unfold Ptable.nextOf at hpos ⊢
  rw [Int.bmod_def] at hpos ⊢
  split at hpos <;> omega

theorem Pids.congr (h : s.Pids) (hnext : s'.table.nextpid = s.table.nextpid)
    (hpid : ∀ i, (s'.proc i).pid = (s.proc i).pid)
    (hused : ∀ i, s'.kind i ≠ .unused → s.kind i ≠ .unused) : s'.Pids := by
  refine ⟨?_, fun i => ?_, fun i j => ?_, fun i hi => ?_⟩
  · rw [hnext]
    exact h.next
  · rw [hpid, hnext]
    exact h.bound i
  · rw [hpid, hpid]
    exact h.inj i j
  · rw [hpid]
    exact h.pos i (hused i hi)

/-- What has to be said of the slot that a step changes. -/
theorem Pids.edit (h : s.Pids) (np : Fin NPROC) (hset : s'.proc = Function.update s.proc np x)
    (hnext : s'.table.nextpid < 2 ^ 31) (hle : s.table.nextpid ≤ s'.table.nextpid)
    (hbound : x.pid < s'.table.nextpid)
    (hinj : x.pid = 0 ∨ x.pid = (s.proc np).pid ∨ s.table.nextpid ≤ x.pid)
    (hpos : x.state.kind ≠ .unused → x.pid ≠ 0) : s'.Pids := by
  obtain ⟨hself, hothers⟩ := Function.eq_update_iff.mp hset
  have hfar : ∀ k, k ≠ np → (s.proc k).pid ≠ 0 → (s.proc k).pid ≠ x.pid := fun k hk hk0 heq => by
    rcases hinj with hx | hx | hx
    · exact hk0 (heq.trans hx)
    · exact hk (h.inj k np (heq.trans hx) hk0)
    · have := h.bound k
      omega
  refine ⟨⟨Int.lt_of_lt_of_le h.next.1 hle, hnext⟩, fun i => ?_, fun i j hij hi => ?_,
    fun i hi => ?_⟩
  · exact forall_slots (P := fun _ y => y.pid < s'.table.nextpid) hset hbound
      (fun j _ => Int.lt_of_lt_of_le (h.bound j) hle) i
  · by_cases hin : i = np <;> by_cases hjn : j = np
    · rw [hin, hjn]
    · rw [hin, hself] at hij hi
      rw [hothers j hjn] at hij
      exact absurd hij.symm (hfar j hjn (hij ▸ hi))
    · rw [hothers i hin] at hij hi
      rw [hjn, hself] at hij
      exact absurd hij (hfar i hin hi)
    · rw [hothers i hin] at hij hi
      rw [hothers j hjn] at hij
      exact h.inj i j hij hi
  · exact forall_slots (P := fun _ y => y.state.kind ≠ .unused → y.pid ≠ 0) hset hpos
      (fun j _ => h.pos j) i hi

/-- The slot keeps its process id. -/
theorem Pids.keep (h : s.Pids) (np : Fin NPROC) (hset : s'.proc = Function.update s.proc np x)
    (hnext : s'.table.nextpid = s.table.nextpid) (hpid : x.pid = (s.proc np).pid)
    (hused : x.state.kind ≠ .unused → s.kind np ≠ .unused) : s'.Pids :=
  h.edit np hset (hnext ▸ h.next.2) (Int.le_of_eq hnext.symm) (hpid ▸ hnext ▸ h.bound np)
    (.inr (.inl hpid)) fun hx => hpid ▸ h.pos np (hused hx)

/-! ## Sleepers -/

/-- What holds of a process that sleeps: in `wait` it has something to wait for. -/
structure Sleeper (s : ProcSys) (i : Fin NPROC) : Prop where
  chan : s.pc i = .waiting ∧ (s.proc i).chan = some (.proc i) ∨
    s.pc i = .asleep ∧ ∃ a, (s.proc i).chan = some (.other a)
  alive : s.pc i = .waiting → (s.proc i).killed = false
  child : s.pc i = .waiting → ∃ j, (s.proc j).parent = some i
  zombie : s.pc i = .waiting → ∀ j, (s.proc j).parent = some i → (s.proc j).state ≠ .zombie

def Waits (s : ProcSys) : Prop := ∀ i, (s.proc i).state = .sleeping → s.Sleeper i

theorem Sleeper.congr (h : s.Sleeper i) (hpc : s'.pc i = s.pc i)
    (hchan : (s'.proc i).chan = (s.proc i).chan) (hkilled : (s'.proc i).killed = (s.proc i).killed)
    (hchild : ∀ j, (s.proc j).parent = some i → (s'.proc j).parent = some i)
    (hzombie : s.pc i = .waiting → ∀ j, (s'.proc j).parent = some i →
      (s'.proc j).state = .zombie → (s.proc j).parent = some i ∧ (s.proc j).state = .zombie) :
    s'.Sleeper i := by
  refine ⟨?_, fun hw => ?_, fun hw => ?_, fun hw j hj hz => ?_⟩
  · rw [hpc, hchan]
    exact h.chan
  · rw [hkilled]
    exact h.alive (hpc ▸ hw)
  · obtain ⟨j, hj⟩ := h.child (hpc ▸ hw)
    exact ⟨j, hchild j hj⟩
  · obtain ⟨hj, hz⟩ := hzombie (hpc ▸ hw) j hj hz
    exact h.zombie (hpc ▸ hw) j hj hz

/-- Steps that change one slot, whose process is awake afterwards. -/
theorem Waits.edit (h : s.Waits) (np : Fin NPROC) (hset : s'.proc = Function.update s.proc np x)
    (hpc : ∀ j, (s.proc j).state = .sleeping → j ≠ np → s'.pc j = s.pc j)
    (hx : x.state ≠ .sleeping)
    (hparent : ∀ i, (s.proc i).state = .sleeping → i ≠ np →
      ((s.proc np).parent = some i → x.parent = some i) ∧
      (x.parent = some i → x.state = .zombie →
        (s.proc np).parent = some i ∧ (s.proc np).state = .zombie)) : s'.Waits := by
  obtain ⟨hself, hothers⟩ := Function.eq_update_iff.mp hset
  intro i hi
  have hin : i ≠ np := by
    rintro rfl
    rw [hself] at hi
    exact hx hi
  rw [hothers i hin] at hi
  obtain ⟨hp₁, hp₂⟩ := hparent i hi hin
  refine (h i hi).congr (hpc i hi hin) (by rw [hothers i hin]) (by rw [hothers i hin])
    (fun j hj => ?_) fun _ j hj hz => ?_
  · exact forall_slots (P := fun j y => (s.proc j).parent = some i → y.parent = some i) hset hp₁
      (fun _ _ hj => hj) j hj
  · exact forall_slots (P := fun j y => y.parent = some i → y.state = .zombie →
      (s.proc j).parent = some i ∧ (s.proc j).state = .zombie) hset hp₂
      (fun _ _ hj hz => ⟨hj, hz⟩) j hj hz

/-- The process in slot `p` goes to sleep. -/
theorem Waits.sleep (h : s.Waits) (hothers : ∀ j, j ≠ p → s'.proc j = s.proc j)
    (hpc : ∀ j, j ≠ p → s'.pc j = s.pc j) (hparent : (s'.proc p).parent = (s.proc p).parent)
    (hstate : (s'.proc p).state = .sleeping) (hp : s'.Sleeper p) : s'.Waits := by
  intro i hi
  by_cases hip : i = p
  · rwa [hip]
  · rw [hothers i hip] at hi
    refine (h i hi).congr (hpc i hip) (by rw [hothers i hip]) (by rw [hothers i hip])
      (fun j hj => ?_) fun _ j hj hz => ?_
    · by_cases hjp : j = p
      · subst hjp
        rwa [hparent]
      · rwa [hothers j hjp]
    · by_cases hjp : j = p
      · subst hjp
        rw [hstate] at hz
        cases hz
      · rw [hothers j hjp] at hj hz
        exact ⟨hj, hz⟩

theorem Waits.wakeup1 (h : s.Waits) (chan : Option Chan) :
    Waits { s with table := s.table.wakeup1 chan } := by
  intro i hi
  obtain ⟨hs, -⟩ := Ptable.wakeup1_chan hi
  have hw : ∀ j, Ptable.Woken (s.proc j) ((s.table.wakeup1 chan).proc j) :=
    Ptable.wakeup1_woken s.table chan
  have hsame : (s.table.wakeup1 chan).proc i = s.proc i := (hw i).sleeping hi
  refine (h i hs).congr rfl (congrArg _ hsame) (congrArg _ hsame)
    (fun j hj => (hw j).parent.trans hj) fun _ j hj hz => ⟨(hw j).parent.symm.trans hj, ?_⟩
  rcases hw j with hj | ⟨-, hj⟩
  · exact (congrArg _ hj).symm.trans hz
  · exact absurd ((congrArg _ hj).symm.trans hz) (by simp)

theorem Waits.exit (h : s.Waits) (e : Ptable.Exited p s.table s'.table) (hsame : s'.pc = s.pc)
    (hself : (s.proc p).parent ≠ some p) : s'.Waits := by
  intro i hi
  have hip : i ≠ p := by
    rintro rfl
    exact absurd (e.zombie.symm.trans hi) (by simp)
  have hback := (e.woken i hip).sleeping hi
  have hs : (s.proc i).state = .sleeping := (congrArg Proc.state hback).symm.trans hi
  have hparent : ∀ j, (s'.proc j).parent =
      if (s.proc j).parent = some p then some s.table.initproc else (s.proc j).parent := e.parent
  have hchan : s.pc i = .waiting → (s.proc i).chan = some (.proc i) := fun hw => by
    rcases (h i hs).chan with ⟨-, hc⟩ | ⟨hc, -⟩
    · exact hc
    · rw [hw] at hc
      cases hc
  have hsleep := congrArg Proc.chan hback
  have hkilled := congrArg Proc.killed hback
  refine (h i hs).congr (congrFun hsame i) hsleep hkilled
    (fun j hj => ?_) fun hw j hj hz => ?_
  · rw [hparent, if_neg (by rw [hj]; simpa using hip), hj]
  · have hwakes : (s.proc i).chan ≠ (s.proc p).parent.map .proc := e.wakesParent i hip hi
    have hnot : (s.proc p).parent ≠ some i := fun hp => by
      rw [hp, hchan hw] at hwakes
      exact hwakes rfl
    by_cases hjp : j = p
    · subst hjp
      rw [hparent, if_neg hself] at hj
      exact absurd hj hnot
    · have hzj : (s.proc j).state = .zombie := by
        rcases e.woken j hjp with hj' | ⟨-, hj'⟩
        · exact (congrArg Proc.state hj').symm.trans hz
        · exact absurd ((congrArg Proc.state hj').symm.trans hz) (by simp)
      refine ⟨?_, hzj⟩
      rw [hparent] at hj
      split at hj
      next hchild =>
        obtain rfl := Option.some.inj hj
        exact absurd (hchan hw) (e.wakesInit ⟨j, hchild, hzj⟩ _ hip hi)
      next => exact hj

end ProcSys
end Xv6
end SsuComputer
