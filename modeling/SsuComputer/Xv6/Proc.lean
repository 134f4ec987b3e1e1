import SsuComputer.Lib.Refinement
import Mathlib.Algebra.Ring.Nat
import Mathlib.Data.List.FinRange

/-!
# SsuComputer.Xv6.Proc

The process table and the scheduler: `allocproc`, `userinit`, `fork`, `exit`, `wait`, `sleep`,
`wakeup`, `kill`, `yield` and `scheduler`, on any number of CPUs.

What happens under `ptable.lock` is one step. `fork` gives the lock back in between: `allocproc`
takes a slot, the copy may fail, the parent is entered, and only then the child can run. `sleep`
ends the step of its caller, and `ProcPc` says where a process goes on. `Step` is one step of the
whole system, in any order; its parameter restricts the process ids that `kill` is called with.
-/

namespace SsuComputer
namespace Xv6

def NPROC : Nat := 64

instance : NeZero NPROC := ⟨by decide⟩

inductive ProcState
  | unused
  | embryo
  | sleeping
  | runnable
  | running
  | zombie
deriving DecidableEq, Repr

/-- `wait` sleeps on the address of the caller's slot. -/
inductive Chan
  | proc (i : Fin NPROC)
  | other (a : Nat)
deriving DecidableEq, Repr

structure Proc where
  state : ProcState
  pid : Int
  parent : Option (Fin NPROC)
  chan : Option Chan
  killed : Bool
deriving DecidableEq, Repr

structure Ptable where
  proc : Fin NPROC → Proc
  nextpid : Int
  initproc : Fin NPROC

/-- How a round of `wait` ends. -/
inductive Waited
  | reaped (pid : Int)
  | failed
  | asleep
deriving DecidableEq, Repr

namespace Ptable

def set (t : Ptable) (i : Fin NPROC) (p : Proc) : Ptable :=
  { t with proc := Function.update t.proc i p }

/-- The first slot of a scan of the table. -/
def find (t : Ptable) (test : Proc → Bool) : Option (Fin NPROC) :=
  (List.finRange NPROC).find? fun i => test (t.proc i)

/-- `nextpid++`: an `int`, which wraps around. -/
def nextOf (pid : Int) : Int := (pid + 1).bmod (2 ^ 32)

/-- The slot keeps whatever `killed` was. -/
def allocproc (t : Ptable) : Option (Fin NPROC × Ptable) :=
  (t.find fun p => p.state == .unused).map fun i =>
    (i, { t.set i { t.proc i with state := .embryo, pid := t.nextpid } with
      nextpid := nextOf t.nextpid })

def wakeup1 (t : Ptable) (chan : Option Chan) : Ptable :=
  { t with
    proc := fun i =>
      if (t.proc i).state = .sleeping ∧ (t.proc i).chan = chan then
        { t.proc i with state := .runnable }
      else t.proc i }

def sleep (t : Ptable) (p : Fin NPROC) (chan : Chan) : Ptable :=
  t.set p { t.proc p with chan := some chan, state := .sleeping }

/-- The end of `sleep`. -/
def tidy (t : Ptable) (p : Fin NPROC) : Ptable := t.set p { t.proc p with chan := none }

/-- The body of the loop of `exit` that passes abandoned children to init. -/
def pass (p : Fin NPROC) (t : Ptable) (i : Fin NPROC) : Ptable :=
  if (t.proc i).parent = some p then
    let t := t.set i { t.proc i with parent := some t.initproc }
    if (t.proc i).state = .zombie then t.wakeup1 (some (.proc t.initproc)) else t
  else t

def exit (t : Ptable) (p : Fin NPROC) : Except String Ptable :=
  if p = t.initproc then .error "init exiting"
  else
    let t := t.wakeup1 ((t.proc p).parent.map .proc)
    let t := (List.finRange NPROC).foldl (pass p) t
    .ok (t.set p { t.proc p with state := .zombie })

/-- One round of the loop of `wait`. -/
def wait (t : Ptable) (p : Fin NPROC) : Waited × Ptable :=
  match t.find fun q => q.parent == some p && q.state == .zombie with
  | some i =>
    (.reaped (t.proc i).pid,
      t.set i { t.proc i with pid := 0, parent := none, killed := false, state := .unused })
  | none =>
    if (t.find fun q => q.parent == some p).isNone || (t.proc p).killed then (.failed, t)
    else (.asleep, t.sleep p (.proc p))

/-- `none`: no slot has this process id. -/
def kill (t : Ptable) (pid : Int) : Option Ptable :=
  (t.find fun p => p.pid == pid).map fun i =>
    t.set i { t.proc i with
      killed := true
      state := if (t.proc i).state = .sleeping then .runnable else (t.proc i).state }

def zero : Ptable := ⟨fun _ => ⟨.unused, 0, none, none, false⟩, 1, 0⟩

def userinit : Ptable :=
  zero.allocproc.elim zero fun (p, t) =>
    { t.set p { t.proc p with state := .runnable } with initproc := p }

end Ptable

/-- Where a process goes on when it runs. -/
inductive ProcPc
  | user
  | forking (np : Fin NPROC)
  | forked (np : Fin NPROC)
  | waiting
  | asleep
deriving DecidableEq, Repr

/-- `cursor c` is the loop variable of `scheduler` on the CPU `c`, and `picks c` the number of
times that it has switched to a process. -/
structure ProcSys where
  table : Ptable
  pc : Fin NPROC → ProcPc
  cpu : Nat → Option (Fin NPROC)
  cursor : Nat → Fin NPROC
  picks : Nat → Nat

namespace ProcSys

def start : ProcSys := ⟨.userinit, fun _ => .user, fun _ => none, fun _ => 0, fun _ => 0⟩

/-- The next slot, or the first one again. -/
def advance (s : ProcSys) (c : Nat) : ProcSys :=
  { s with cursor := Function.update s.cursor c (s.cursor c + 1) }

/-- `sched`: back to the scheduler of this CPU. -/
def sched (s : ProcSys) (c : Nat) : ProcSys :=
  { s.advance c with cpu := Function.update s.cpu c none }

def goto (s : ProcSys) (p : Fin NPROC) (pc : ProcPc) : ProcSys :=
  { s with pc := Function.update s.pc p pc }

def setProc (s : ProcSys) (i : Fin NPROC) (q : Proc) : ProcSys :=
  { s with table := s.table.set i q }

def proc (s : ProcSys) (i : Fin NPROC) : Proc := s.table.proc i

/-- `swtch` to the process under the cursor. -/
def swtch (s : ProcSys) (c : Nat) : ProcSys :=
  { s.setProc (s.cursor c) { s.proc (s.cursor c) with state := .running } with
    cpu := Function.update s.cpu c (some (s.cursor c))
    picks := Function.update s.picks c (s.picks c + 1) }

/-- The table that a round of `wait` begins with: the first one comes from the caller, the others
from the end of `sleep`. -/
def waitTable (s : ProcSys) (p : Fin NPROC) : Ptable :=
  if s.pc p = .waiting then s.table.tidy p else s.table

inductive Step (K : Ptable → Int → Prop) : ProcSys → ProcSys → Prop
  | skip {s : ProcSys} (c : Nat) (hidle : s.cpu c = none)
    (hs : (s.proc (s.cursor c)).state ≠ .runnable) : Step K s (s.advance c)
  | pick {s : ProcSys} (c : Nat) (hidle : s.cpu c = none)
    (hs : (s.proc (s.cursor c)).state = .runnable) : Step K s (s.swtch c)
  | forkAlloc {s : ProcSys} {p np : Fin NPROC} {t : Ptable} (c : Nat) (hc : s.cpu c = some p)
    (hpc : s.pc p = .user) (ha : s.table.allocproc = some (np, t)) :
    Step K s ({ s with table := t }.goto p (.forking np))
  -- `kalloc` or `copyuvm` fails
  | forkFail {s : ProcSys} {p np : Fin NPROC} (c : Nat) (hc : s.cpu c = some p)
    (hpc : s.pc p = .forking np) :
    Step K s ((s.setProc np { s.proc np with state := .unused }).goto p .user)
  | forkCopy {s : ProcSys} {p np : Fin NPROC} (c : Nat) (hc : s.cpu c = some p)
    (hpc : s.pc p = .forking np) :
    Step K s ((s.setProc np { s.proc np with parent := some p }).goto p (.forked np))
  | forkReady {s : ProcSys} {p np : Fin NPROC} (c : Nat) (hc : s.cpu c = some p)
    (hpc : s.pc p = .forked np) :
    Step K s (((s.setProc np { s.proc np with state := .runnable }).goto np .user).goto p .user)
  | exit {s : ProcSys} {p : Fin NPROC} {t : Ptable} (c : Nat) (hc : s.cpu c = some p)
    (hpc : s.pc p = .user) (he : s.table.exit p = .ok t) : Step K s ({ s with table := t }.sched c)
  | wait {s : ProcSys} {p : Fin NPROC} {w : Waited} {t : Ptable} (c : Nat) (hc : s.cpu c = some p)
    (hpc : s.pc p = .user ∨ s.pc p = .waiting) (hw : (s.waitTable p).wait p = (w, t))
    (hret : w ≠ .asleep) : Step K s ({ s with table := t }.goto p .user)
  | waitSleep {s : ProcSys} {p : Fin NPROC} {t : Ptable} (c : Nat) (hc : s.cpu c = some p)
    (hpc : s.pc p = .user ∨ s.pc p = .waiting) (hw : (s.waitTable p).wait p = (.asleep, t)) :
    Step K s (({ s with table := t }.goto p .waiting).sched c)
  | sleep {s : ProcSys} {p : Fin NPROC} (c a : Nat) (hc : s.cpu c = some p)
    (hpc : s.pc p = .user) :
    Step K s (({ s with table := s.table.sleep p (.other a) }.goto p .asleep).sched c)
  | woken {s : ProcSys} {p : Fin NPROC} (c : Nat) (hc : s.cpu c = some p)
    (hpc : s.pc p = .asleep) : Step K s ({ s with table := s.table.tidy p }.goto p .user)
  | wakeup (s : ProcSys) (a : Nat) :
    Step K s { s with table := s.table.wakeup1 (some (.other a)) }
  | kill {s : ProcSys} {p : Fin NPROC} {t : Ptable} (c : Nat) (pid : Int) (hc : s.cpu c = some p)
    (hpc : s.pc p = .user) (hK : K s.table pid) (hk : s.table.kill pid = some t) :
    Step K s { s with table := t }
  -- a fault of the process, in `trap`
  | fault {s : ProcSys} {p : Fin NPROC} (c : Nat) (hc : s.cpu c = some p) (hpc : s.pc p = .user) :
    Step K s (s.setProc p { s.proc p with killed := true })
  -- the timer, while interrupts are on
  | yield {s : ProcSys} {p : Fin NPROC} (c : Nat) (hc : s.cpu c = some p)
    (hpc : s.pc p ≠ .waiting ∧ s.pc p ≠ .asleep) :
    Step K s ((s.setProc p { s.proc p with state := .runnable }).sched c)

end ProcSys

end Xv6
end SsuComputer
