import SsuComputer.Lib.Refinement
import SsuComputer.Lib.Ring
import Mathlib.Data.UInt

/-!
# SsuComputer.Xv6.Pipe

Pipes: `pipewrite`, `piperead` and `pipeclose`, called by any number of processes.

The lock of the pipe is held from a call, or from the moment a sleeper runs again, up to the next
`sleep` or `return`. So `pipewrite` and `piperead` are functions for one such piece, and `Step`
takes the pieces of all the processes in any order.

* `pipe_fifo` — what was read and what is still in the pipe is, in order, what was written.
* `pipe_wakeups` — a sleeping writer means a full pipe. A sleeping reader means an empty one as
  long as nobody was killed: a killed writer that finds the pipe full goes without a `wakeup`.
-/

namespace SsuComputer
namespace Xv6

open Relation

structure Pipe where
  data : Nat → UInt8
  nread : UInt32
  nwrite : UInt32
  readopen : Bool
  writeopen : Bool

namespace Pipe

def full (p : Pipe) : Bool := p.nwrite == p.nread + 512

def empty (p : Pipe) : Bool := p.nread == p.nwrite

/-- `p->data[p->nwrite++ % PIPESIZE] = b`. -/
def store (p : Pipe) (b : UInt8) : Pipe :=
  { p with data := Function.update p.data (p.nwrite % 512).toNat b, nwrite := p.nwrite + 1 }

/-- `p->data[p->nread++ % PIPESIZE]`. -/
def front (p : Pipe) : UInt8 := p.data (p.nread % 512).toNat

def skip (p : Pipe) : Pipe := { p with nread := p.nread + 1 }

end Pipe

/-- How a piece of a call ends. -/
inductive End
  | returned
  | failed
  | asleep
deriving DecidableEq, Repr

structure Wrote where
  pipe : Pipe
  rest : List UInt8
  status : End

/-- `pipewrite` where these bytes are left to write. -/
def pipewrite (killed : Bool) : Pipe → List UInt8 → Wrote
  | p, [] => ⟨p, [], .returned⟩
  | p, b :: rest =>
    if p.full then ⟨p, b :: rest, if !p.readopen || killed then .failed else .asleep⟩
    else pipewrite killed (p.store b) rest

structure Read where
  pipe : Pipe
  got : List UInt8
  status : End

/-- The copy loop of `piperead`. -/
def copyOut : Nat → Pipe → Read
  | 0, p => ⟨p, [], .returned⟩
  | n + 1, p =>
    if p.empty then ⟨p, [], .returned⟩
    else
      let r := copyOut n p.skip
      ⟨r.pipe, p.front :: r.got, r.status⟩

def piperead (killed : Bool) (p : Pipe) (n : Nat) : Read :=
  if p.empty && p.writeopen then ⟨p, [], if killed then .failed else .asleep⟩
  else copyOut n p

/-- What a process is doing with the pipe. The woken ones run again and test their condition. -/
inductive Act
  | out
  | writing (rest : List UInt8)
  | writeSleep (rest : List UInt8)
  | reading (n : Nat)
  | readSleep (n : Nat)
deriving DecidableEq, Repr

/-- `wakeup(&p->nread)`. -/
def Act.wakeNread : Act → Act
  | .readSleep n => .reading n
  | a => a

/-- `wakeup(&p->nwrite)`. -/
def Act.wakeNwrite : Act → Act
  | .writeSleep rest => .writing rest
  | a => a

/-- `written` and `taken` are the bytes that went into the pipe and came out of it so far. -/
structure PipeSys where
  pipe : Pipe
  act : Nat → Act
  killed : Nat → Bool
  written : List UInt8
  taken : List UInt8

namespace PipeSys

/-- Process `q` in `pipewrite`, with these bytes left. The readers are woken before a `sleep` and
before the last `return`, not before the one that fails. -/
def write (s : PipeSys) (q : Nat) (buf : List UInt8) : PipeSys :=
  let r := pipewrite (s.killed q) s.pipe buf
  { s with
    pipe := r.pipe
    written := s.written ++ buf.take (buf.length - r.rest.length)
    act := Function.update
      (if r.status = .failed then s.act else fun i => (s.act i).wakeNread) q
      (if r.status = .asleep then .writeSleep r.rest else .out) }

/-- Process `q` in `piperead`. -/
def read (s : PipeSys) (q n : Nat) : PipeSys :=
  let r := piperead (s.killed q) s.pipe n
  { s with
    pipe := r.pipe
    taken := s.taken ++ r.got
    act := Function.update
      (if r.status = .returned then fun i => (s.act i).wakeNwrite else s.act) q
      (if r.status = .asleep then .readSleep n else .out) }

/-- `pipeclose`, called with the last file of one end. -/
def pipeclose (s : PipeSys) (writable : Bool) : PipeSys :=
  if writable then
    { s with pipe := { s.pipe with writeopen := false }, act := fun i => (s.act i).wakeNread }
  else { s with pipe := { s.pipe with readopen := false }, act := fun i => (s.act i).wakeNwrite }

/-- `kill`, which may find process `q` asleep or come between its test and its `sleep`. -/
def kill (s : PipeSys) (q : Nat) (found : Bool) : PipeSys :=
  { s with
    killed := Function.update s.killed q true
    act := if found then Function.update s.act q (s.act q).wakeNread.wakeNwrite else s.act }

/-- The state after `pipealloc`. -/
def start : PipeSys where
  pipe := ⟨fun _ => 0, 0, 0, true, true⟩
  act _ := .out
  killed _ := false
  written := []
  taken := []

def Writes (a : Act) : Prop := ∃ rest, a = .writing rest ∨ a = .writeSleep rest

def Reads (a : Act) : Prop := ∃ n, a = .reading n ∨ a = .readSleep n

/-- An end is closed with its last file, so by nobody who is in a call on it. -/
inductive Step : PipeSys → PipeSys → Prop
  | write {s : PipeSys} {q : Nat} {buf : List UInt8} (hq : s.act q = .out)
    (h : s.pipe.writeopen = true) : Step s (s.write q buf)
  | writeOn {s : PipeSys} {q : Nat} {rest : List UInt8} (hq : s.act q = .writing rest) :
    Step s (s.write q rest)
  | read {s : PipeSys} {q n : Nat} (hq : s.act q = .out) (h : s.pipe.readopen = true) :
    Step s (s.read q n)
  | readOn {s : PipeSys} {q n : Nat} (hq : s.act q = .reading n) : Step s (s.read q n)
  | closeWrite {s : PipeSys} (h : ∀ i, ¬ Writes (s.act i)) : Step s (s.pipeclose true)
  | closeRead {s : PipeSys} (h : ∀ i, ¬ Reads (s.act i)) : Step s (s.pipeclose false)
  | kill {s : PipeSys} (q : Nat) (found : Bool) : Step s (s.kill q found)

end PipeSys

/-! ## The ring -/

namespace Pipe

def Holds (p : Pipe) (xs : List UInt8) : Prop :=
  RingHolds 512 p.data p.nread.toNat xs ∧ p.nwrite = p.nread + UInt32.ofNat xs.length

variable {p : Pipe} {xs : List UInt8} {b : UInt8}

theorem Holds.full_iff (h : p.Holds xs) : p.full = true ↔ xs.length = 512 := by
  have hle : xs.length ≤ 512 := h.1.1
  rw [full, h.2, beq_iff_eq]
  constructor
  · intro heq
    have h512 : UInt32.ofNat xs.length = 512 := by simpa using heq
    have := congrArg UInt32.toNat h512
    rw [UInt32.toNat_ofNat'] at this
    simp at this
    omega
  · intro heq
    rw [heq]
    rfl

theorem Holds.empty_iff (h : p.Holds xs) : p.empty = true ↔ xs = [] := by
  have hle : xs.length ≤ 512 := h.1.1
  rw [empty, h.2, beq_iff_eq]
  constructor
  · intro heq
    have h0 : UInt32.ofNat xs.length = 0 := by simpa using heq.symm
    have := congrArg UInt32.toNat h0
    rw [UInt32.toNat_ofNat'] at this
    simp at this
    exact List.eq_nil_of_length_eq_zero (by omega)
  · intro heq
    simp [heq]

theorem Holds.store (h : p.Holds xs) (hfull : p.full = false) : (p.store b).Holds (xs ++ [b]) := by
  have hlt : xs.length < 512 := by
    refine lt_of_le_of_ne h.1.1 fun heq => ?_
    rw [h.full_iff.mpr heq] at hfull
    cases hfull
  refine ⟨?_, ?_⟩
  · have hcell : (p.nwrite % 512).toNat = (p.nread.toNat + xs.length) % 512 := by
      rw [h.2, UInt32.toNat_mod, UInt32.toNat_add, UInt32.toNat_ofNat']
      simp
    have := h.1.push (x := b) hlt
    rwa [← hcell] at this
  · change p.nwrite + 1 = _
    rw [h.2, List.length_append, List.length_singleton, UInt32.ofNat_add, UInt32.add_assoc]
    rfl

theorem Holds.front (h : p.Holds (b :: xs)) : p.front = b := by
  have hcell : (p.nread % 512).toNat = p.nread.toNat % 512 := by simp
  rw [Pipe.front, hcell, h.1.head]

theorem Holds.skip (h : p.Holds (b :: xs)) : p.skip.Holds xs := by
  refine ⟨h.1.pop.congr ?_, ?_⟩
  · change (p.nread + 1).toNat % 512 = _
    rw [UInt32.toNat_add]
    simp
  · change p.nwrite = p.nread + 1 + _
    rw [h.2, List.length_cons, UInt32.ofNat_add, UInt32.add_assoc, UInt32.add_comm (UInt32.ofNat _)]
    rfl

end Pipe

/-! ## One piece of a call -/

/-- What `pipewrite` did: `stored` went into the pipe and the rest waits. -/
structure WroteSpec (killed : Bool) (p : Pipe) (xs buf stored : List UInt8) (r : Wrote) : Prop where
  split : buf = stored ++ r.rest
  holds : r.pipe.Holds (xs ++ stored)
  readopen : r.pipe.readopen = p.readopen
  writeopen : r.pipe.writeopen = p.writeopen
  returned : r.status = .returned → r.rest = []
  failed : r.status = .failed → killed = true ∨ p.readopen = false
  asleep : r.status = .asleep → killed = false ∧ p.readopen = true
  stopped : r.status ≠ .returned → r.pipe.full = true

theorem pipewrite_spec (killed : Bool) {p : Pipe} {xs : List UInt8} (h : p.Holds xs)
    (buf : List UInt8) :
    ∃ stored, WroteSpec killed p xs buf stored (pipewrite killed p buf) := by
  induction buf generalizing p xs with
  | nil =>
    exact ⟨[], rfl, by simpa [pipewrite] using h, rfl, rfl, fun _ => rfl, nofun, nofun,
      fun hne => absurd rfl hne⟩
  | cons b rest ih =>
    unfold pipewrite
    by_cases hfull : p.full = true
    · rw [if_pos hfull]
      refine ⟨[], rfl, by simpa using h, rfl, rfl, ?_, ?_, ?_, fun _ => hfull⟩
      all_goals cases hopen : p.readopen <;> cases killed <;> simp
    · rw [if_neg hfull]
      have hstore := h.store (b := b) (eq_false_of_ne_true hfull)
      obtain ⟨stored, hsplit, hholds, hread, hwrite, hret, hfail, hsleep, hstop⟩ := ih hstore
      refine ⟨b :: stored, ?_, ?_, hread, hwrite, hret, hfail, hsleep, hstop⟩
      · rw [List.cons_append, ← hsplit]
      · simpa using hholds

structure ReadSpec (p : Pipe) (xs : List UInt8) (left : List UInt8) (r : Read) : Prop where
  split : xs = r.got ++ left
  holds : r.pipe.Holds left
  readopen : r.pipe.readopen = p.readopen
  writeopen : r.pipe.writeopen = p.writeopen

theorem copyOut_spec {p : Pipe} {xs : List UInt8} (h : p.Holds xs) (n : Nat) :
    (copyOut n p).status = .returned ∧ ∃ left, ReadSpec p xs left (copyOut n p) := by
  induction n generalizing p xs with
  | zero => exact ⟨rfl, xs, rfl, h, rfl, rfl⟩
  | succ n ih =>
    unfold copyOut
    by_cases hempty : p.empty = true
    · rw [if_pos hempty]
      exact ⟨rfl, xs, rfl, h, rfl, rfl⟩
    · rw [if_neg hempty]
      cases xs with
      | nil => exact absurd (h.empty_iff.mpr rfl) hempty
      | cons b xs =>
        obtain ⟨hstatus, left, hsplit, hholds, hread, hwrite⟩ := ih h.skip
        refine ⟨hstatus, left, ?_, hholds, hread, hwrite⟩
        rw [h.front, List.cons_append, ← hsplit]

/-- A call that does not return takes nothing out, and one that sleeps found the pipe empty. -/
theorem piperead_spec (killed : Bool) {p : Pipe} {xs : List UInt8} (h : p.Holds xs) (n : Nat) :
    (∃ left, ReadSpec p xs left (piperead killed p n)) ∧
      ((piperead killed p n).status ≠ .returned →
        (piperead killed p n).pipe = p ∧ (piperead killed p n).got = []) ∧
      ((piperead killed p n).status = .asleep → p.empty = true ∧ p.writeopen = true) := by
  unfold piperead
  by_cases hc : (p.empty && p.writeopen) = true
  · rw [if_pos hc]
    exact ⟨⟨xs, rfl, h, rfl, rfl⟩, fun _ => ⟨rfl, rfl⟩, fun _ => by simpa using hc⟩
  · rw [if_neg hc]
    obtain ⟨hstatus, hspec⟩ := copyOut_spec h n
    exact ⟨hspec, fun hne => absurd hstatus hne, fun hs => by simp [hstatus] at hs⟩

namespace PipeSys

/-- `xs` is in the pipe. -/
structure Inv (s : PipeSys) (xs : List UInt8) : Prop where
  holds : s.pipe.Holds xs
  fifo : s.written = s.taken ++ xs
  readers : s.pipe.readopen = false → ∀ i, ¬ Reads (s.act i)
  writeSleep : ∀ i rest, s.act i = .writeSleep rest → s.pipe.readopen = true ∧ s.pipe.full = true
  readSleep : (∀ i, s.killed i = false) → ∀ i n, s.act i = .readSleep n →
    s.pipe.empty = true ∧ s.pipe.writeopen = true

theorem wakeNread_reads {a : Act} : Reads a.wakeNread ↔ Reads a := by
  cases a <;> simp [Act.wakeNread, Reads]

theorem wakeNwrite_reads {a : Act} : Reads a.wakeNwrite ↔ Reads a := by
  cases a <;> simp [Act.wakeNwrite, Reads]

theorem wakeNread_ne {a : Act} {n : Nat} : a.wakeNread ≠ .readSleep n := by
  cases a <;> simp [Act.wakeNread]

theorem wakeNwrite_ne {a : Act} {rest : List UInt8} : a.wakeNwrite ≠ .writeSleep rest := by
  cases a <;> simp [Act.wakeNwrite]

theorem wakeNread_writeSleep {a : Act} {rest : List UInt8} :
    a.wakeNread = .writeSleep rest ↔ a = .writeSleep rest := by
  cases a <;> simp [Act.wakeNread]

theorem wakeNwrite_readSleep {a : Act} {n : Nat} : a.wakeNwrite = .readSleep n ↔ a = .readSleep n := by
  cases a <;> simp [Act.wakeNwrite]

theorem inv_start : start.Inv [] :=
  ⟨⟨.nil, rfl⟩, rfl, nofun, nofun, nofun⟩

section Steps

variable {s : PipeSys} {xs : List UInt8} {q : Nat}

theorem write_act (s : PipeSys) (q : Nat) (buf : List UInt8) (i : Nat) :
    (s.write q buf).act i =
      if i = q then
        if (pipewrite (s.killed q) s.pipe buf).status = .asleep then
          .writeSleep (pipewrite (s.killed q) s.pipe buf).rest
        else .out
      else if (pipewrite (s.killed q) s.pipe buf).status = .failed then s.act i
      else (s.act i).wakeNread := by
  simp only [write, Function.update_apply]
  split
  · rfl
  · split <;> rfl

theorem read_act (s : PipeSys) (q n i : Nat) :
    (s.read q n).act i =
      if i = q then
        if (piperead (s.killed q) s.pipe n).status = .asleep then .readSleep n else .out
      else if (piperead (s.killed q) s.pipe n).status = .returned then (s.act i).wakeNwrite
      else s.act i := by
  simp only [read, Function.update_apply]
  split
  · rfl
  · split <;> rfl

theorem kill_act (s : PipeSys) (q : Nat) (found : Bool) (i : Nat) :
    (s.kill q found).act i =
      if found = true ∧ i = q then (s.act i).wakeNread.wakeNwrite else s.act i := by
  cases found
  · simp [kill]
  · simp only [kill, if_true, Function.update_apply, true_and]
    split
    · rename_i hi
      rw [hi]
    · rfl

theorem Inv.write (h : s.Inv xs) (buf : List UInt8) : ∃ ys, (s.write q buf).Inv ys := by
  obtain ⟨stored, hspec⟩ := pipewrite_spec (s.killed q) h.holds buf
  let r := pipewrite (s.killed q) s.pipe buf
  have hstored : buf.take (buf.length - r.rest.length) = stored := by
    have hsplit : buf = stored ++ r.rest := hspec.split
    rw [congrArg List.length hsplit, List.length_append, Nat.add_sub_cancel]
    conv_lhs => rw [hsplit]
    exact List.take_left
  -- a full pipe takes nothing more
  have hfull : s.pipe.full = true → r.pipe.full = true := by
    rw [h.holds.full_iff, hspec.holds.full_iff, List.length_append]
    have hle := hspec.holds.1.1
    rw [List.length_append] at hle
    omega
  have hsleepers : ∀ i rest, s.act i = .writeSleep rest →
      r.pipe.readopen = true ∧ r.pipe.full = true := fun i rest hi => by
    obtain ⟨hopen, hf⟩ := h.writeSleep i rest hi
    exact ⟨hspec.readopen.trans hopen, hfull hf⟩
  have hreads : r.pipe.readopen = false → ∀ i, ¬ Reads (s.act i) := fun hopen =>
    h.readers (hspec.readopen ▸ hopen)
  have hfifo : s.written ++ buf.take (buf.length - r.rest.length) = s.taken ++ (xs ++ stored) := by
    rw [hstored, h.fifo, List.append_assoc]
  refine ⟨xs ++ stored, hspec.holds, hfifo, fun hopen i => ?_, fun i rest hi => ?_,
    fun hkill i n hi => ?_⟩
  · rw [write_act]
    split
    · split <;> simp [Reads]
    · split
      · exact hreads hopen i
      · rw [wakeNread_reads]
        exact hreads hopen i
  · rw [write_act] at hi
    split at hi
    · -- the writer itself, asleep
      split at hi
      · rename_i hstatus
        exact ⟨hspec.readopen.trans (hspec.asleep hstatus).2,
          hspec.stopped (by rw [hstatus]; simp)⟩
      · cases hi
    · split at hi
      · exact hsleepers i rest hi
      · exact hsleepers i rest (wakeNread_writeSleep.mp hi)
  · rw [write_act] at hi
    split at hi
    · split at hi <;> cases hi
    · split at hi
      · -- nobody was killed, so the write failed because nobody can read
        rename_i hstatus
        have hq : s.killed q = false := hkill q
        have hclosed := (hspec.failed hstatus).resolve_left (by simp [hq])
        exact absurd ⟨n, .inr hi⟩ (h.readers hclosed i)
      · exact absurd hi wakeNread_ne

theorem Inv.read (h : s.Inv xs) (hopen : s.pipe.readopen = true) (n : Nat) :
    ∃ ys, (s.read q n).Inv ys := by
  obtain ⟨⟨left, hspec⟩, hstays, hsleep⟩ := piperead_spec (s.killed q) h.holds n
  let r := piperead (s.killed q) s.pipe n
  have hreadopen : r.pipe.readopen = true := hspec.readopen.trans hopen
  have hfifo : s.written = s.taken ++ r.got ++ left := by
    rw [h.fifo, List.append_assoc]
    exact congrArg _ hspec.split
  refine ⟨left, hspec.holds, hfifo, fun hclosed => ?_, fun i rest hi => ?_, fun hkill i m hi => ?_⟩
  · exact absurd (hclosed.symm.trans hreadopen) (by simp)
  · rw [read_act] at hi
    split at hi
    · split at hi <;> cases hi
    · split at hi
      · exact absurd hi wakeNwrite_ne
      · rename_i hstatus
        obtain ⟨hpipe, -⟩ := hstays hstatus
        change r.pipe.readopen = true ∧ r.pipe.full = true
        rw [hpipe]
        exact h.writeSleep i rest hi
  · -- what was empty before is empty now
    have hempty : s.pipe.empty = true ∧ s.pipe.writeopen = true →
        r.pipe.empty = true ∧ r.pipe.writeopen = true := by
      rw [h.holds.empty_iff, hspec.holds.empty_iff]
      intro ⟨hnil, hw⟩
      have hsplit := hspec.split
      rw [hnil] at hsplit
      exact ⟨(List.append_eq_nil_iff.mp hsplit.symm).2, hspec.writeopen.trans hw⟩
    rw [read_act] at hi
    split at hi
    · split at hi
      · exact hempty (hsleep ‹_›)
      · cases hi
    · split at hi
      · exact hempty (h.readSleep hkill i m (wakeNwrite_readSleep.mp hi))
      · exact hempty (h.readSleep hkill i m hi)

theorem Inv.pipeclose (h : s.Inv xs) (writable : Bool)
    (hread : writable = false → ∀ i, ¬ Reads (s.act i)) : (s.pipeclose writable).Inv xs := by
  cases writable with
  | true =>
    refine ⟨h.holds, h.fifo, fun hopen i => ?_, fun i rest hi => ?_, fun _ i n hi => ?_⟩
    · change ¬ Reads (s.act i).wakeNread
      rw [wakeNread_reads]
      exact h.readers hopen i
    · exact h.writeSleep i rest (wakeNread_writeSleep.mp hi)
    · exact absurd hi wakeNread_ne
  | false =>
    refine ⟨h.holds, h.fifo, fun _ i => ?_, fun i rest hi => ?_, fun _ i n hi => ?_⟩
    · change ¬ Reads (s.act i).wakeNwrite
      rw [wakeNwrite_reads]
      exact hread rfl i
    · exact absurd hi wakeNwrite_ne
    · exact absurd ⟨n, .inr (wakeNwrite_readSleep.mp hi)⟩ (hread rfl i)

theorem Inv.kill (h : s.Inv xs) (found : Bool) : (s.kill q found).Inv xs := by
  have hself : ∀ i, Reads ((s.kill q found).act i) ↔ Reads (s.act i) := by
    intro i
    rw [kill_act]
    split
    · rw [wakeNwrite_reads, wakeNread_reads]
    · rfl
  refine ⟨h.holds, h.fifo, fun hopen i => ?_, fun i rest hi => ?_, fun hkill => ?_⟩
  · rw [hself]
    exact h.readers hopen i
  · rw [kill_act] at hi
    split at hi
    · exact absurd hi wakeNwrite_ne
    · exact h.writeSleep i rest hi
  · have : Function.update s.killed q true q = false := hkill q
    simp at this

end Steps

theorem step_inv {s s' : PipeSys} (h : ∃ xs, s.Inv xs) (hs : Step s s') : ∃ xs, s'.Inv xs := by
  obtain ⟨xs, h⟩ := h
  cases hs with
  | write hq hopen => exact h.write _
  | writeOn hq => exact h.write _
  | read hq hopen => exact h.read hopen _
  | @readOn q n hq =>
    refine h.read ?_ n
    by_contra hopen
    exact h.readers (eq_false_of_ne_true hopen) q ⟨n, .inl hq⟩
  | closeWrite hw => exact ⟨xs, h.pipeclose true nofun⟩
  | closeRead hr => exact ⟨xs, h.pipeclose false fun _ => hr⟩
  | kill q found => exact ⟨xs, h.kill found⟩

theorem run_inv {s : PipeSys} (h : ReflTransGen Step start s) : ∃ xs, s.Inv xs :=
  runs_invariant (I := fun s : PipeSys => ∃ xs, s.Inv xs) (fun _ _ h hs => step_inv h hs)
    ⟨[], inv_start⟩ h

theorem pipe_fifo {s : PipeSys} (h : ReflTransGen Step start s) :
    ∃ xs, s.pipe.Holds xs ∧ xs.length ≤ 512 ∧ s.written = s.taken ++ xs := by
  obtain ⟨xs, hinv⟩ := run_inv h
  exact ⟨xs, hinv.holds, hinv.holds.1.1, hinv.fifo⟩

theorem pipe_fifo_two : ∃ xs, ((start.write 1 [7, 8]).read 0 1).pipe.Holds xs ∧ xs.length ≤ 512 ∧
    [7, 8] = [7] ++ xs :=
  pipe_fifo ((ReflTransGen.single (.write rfl rfl)).tail (.read rfl rfl))

/-- Process 0 sleeps for one byte; process 1, killed on its way, fills the pipe and leaves. -/
def missed (buf : List UInt8) : PipeSys := ((start.read 0 1).kill 1 false).write 1 buf

theorem missed_sleeps {buf : List UInt8} (hbuf : 512 < buf.length) :
    (missed buf).act 0 = .readSleep 1 ∧ (missed buf).pipe.full = true := by
  let s := (start.read 0 1).kill 1 false
  have hholds : s.pipe.Holds [] := ⟨.nil, rfl⟩
  obtain ⟨stored, hspec⟩ := pipewrite_spec (s.killed 1) hholds buf
  have hfailed : (pipewrite (s.killed 1) s.pipe buf).status = .failed := by
    cases hstatus : (pipewrite (s.killed 1) s.pipe buf).status with
    | returned =>
      have hlen := congrArg List.length hspec.split
      have hle := hspec.holds.1.1
      rw [hspec.returned hstatus, List.append_nil] at hlen
      rw [List.nil_append] at hle
      omega
    | failed => rfl
    | asleep =>
      have hkilled : s.killed 1 = true := rfl
      exact absurd (hspec.asleep hstatus).1 (by simp [hkilled])
  refine ⟨?_, hspec.stopped (by rw [hfailed]; simp)⟩
  have hact := write_act s 1 buf 0
  rw [if_neg Nat.zero_ne_one, if_pos hfailed] at hact
  exact hact

theorem pipe_wakeups :
    (∀ s, ReflTransGen Step start s →
      (∀ i rest, s.act i = .writeSleep rest → s.pipe.readopen = true ∧ s.pipe.full = true) ∧
      ((∀ i, s.killed i = false) → ∀ i n, s.act i = .readSleep n →
        s.pipe.writeopen = true ∧ s.pipe.empty = true)) ∧
    ∃ s, ReflTransGen Step start s ∧
      ∃ i n, s.act i = .readSleep n ∧ s.pipe.full = true := by
  refine ⟨fun s h => ?_, missed (List.replicate 513 0), ?_, 0, 1, missed_sleeps ?_⟩
  · obtain ⟨xs, hinv⟩ := run_inv h
    exact ⟨hinv.writeSleep, fun hkill i n hi => (hinv.readSleep hkill i n hi).symm⟩
  · exact ((ReflTransGen.single (.read rfl rfl)).tail (.kill 1 false)).tail (.write rfl rfl)
  · rw [List.length_replicate]
    omega

end PipeSys

end Xv6
end SsuComputer
