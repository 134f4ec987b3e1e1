import SsuComputer.Lib.Refinement
import Mathlib.Algebra.Order.Group.Int

/-!
# SsuComputer.Xv6.Log

The write-ahead log of the file system: `begin_op`, `log_write`, `end_op`, `commit` and
`recover_from_log`, with the disk and the buffer cache they work on.

A block is the sequence of its words. The cache holds a buffer for some blocks; a buffer that is
not dirty may be dropped at any time. `Pc` is where the process stands that is inside `commit` or
`recover_from_log`: every round of their loops writes at most one block, so a crash between two
rounds is a crash between two disk writes. `Does` is one step of the whole system, the processes
that call the log included, in any order; its label is the `Event`.
-/

namespace SsuComputer
namespace Xv6

def MAXOPBLOCKS : Nat := 10

def LOGSIZE : Nat := MAXOPBLOCKS * 3

abbrev Block := Nat → Nat

/-- `struct logheader` read from the words of a block: `n`, then `n` block numbers. -/
def readHeader (b : Block) : List Nat := (List.range (b 0)).map fun i => b (i + 1)

/-- The words behind the last block number keep what they were. -/
def writeHeader (lh : List Nat) (b : Block) : Block :=
  fun i => if i = 0 then lh.length else lh.getD (i - 1) (b i)

structure Log where
  start : Nat
  size : Nat
  outstanding : Int
  committing : Bool
  lh : List Nat

/-- Blocks outside the log. -/
def Home (log : Log) (b : Nat) : Prop := b < log.start ∨ log.start + log.size ≤ b

/-- `none`: the caller sleeps and tries again. -/
def begin_op (log : Log) : Option Log :=
  if log.committing then none
  else if (log.lh.length : Int) + (log.outstanding + 1) * MAXOPBLOCKS > LOGSIZE then none
  else some { log with outstanding := log.outstanding + 1 }

/-- `end_op` up to the release of its lock; the caller commits when `committing` is set. -/
def end_op (log : Log) : Except String Log :=
  if log.committing then .error "log.committing"
  else if log.outstanding - 1 = 0 then
    .ok { log with outstanding := log.outstanding - 1, committing := true }
  else .ok { log with outstanding := log.outstanding - 1 }

/-- The scan of `log_write`: the slot of `blockno`, or a new one at the end. -/
def absorb (lh : List Nat) (blockno : Nat) : List Nat :=
  let i := lh.findIdx (· == blockno)
  if i = lh.length then lh ++ [blockno] else lh.set i blockno

def log_write (log : Log) (blockno : Nat) : Except String Log :=
  if log.lh.length ≥ LOGSIZE ∨ (log.lh.length : Int) ≥ (log.size : Int) - 1 then
    .error "too big a transaction"
  else if log.outstanding < 1 then .error "log_write outside of trans"
  else .ok { log with lh := absorb log.lh blockno }

structure Buf where
  data : Block
  dirty : Bool

inductive Pc
  | idle
  | commit
  | writeLog (tail : Nat)
  | writeHead
  | readHead
  | install (tail : Nat)
  | clear
  | done
deriving DecidableEq, Repr

/-- `ops` are the processes between `begin_op` and `end_op`, `wrote` the blocks each of them has
logged since its `begin_op`. -/
structure Sys where
  disk : Nat → Block
  cache : Nat → Option Buf
  log : Log
  pc : Pc
  booting : Bool
  ops : Finset Nat
  wrote : Nat → Finset Nat

namespace Sys

/-- What `bread` would return. -/
def view (s : Sys) (b : Nat) : Block :=
  match s.cache b with
  | some buf => buf.data
  | none => s.disk b

def bread (s : Sys) (b : Nat) : Sys :=
  { s with
    cache := match s.cache b with
      | some _ => s.cache
      | none => Function.update s.cache b (some ⟨s.disk b, false⟩) }

/-- `bwrite` of the buffer of block `b`, which holds `data`. -/
def bwrite (s : Sys) (b : Nat) (data : Block) : Sys :=
  { s with
    disk := Function.update s.disk b data
    cache := Function.update s.cache b (some ⟨data, false⟩) }

/-- One round of `write_log`. -/
def write_log (s : Sys) (tail : Nat) : Sys :=
  let dst := s.log.start + tail + 1
  let src := s.log.lh.getD tail 0
  let s := (s.bread dst).bread src
  s.bwrite dst (s.view src)

def write_head (s : Sys) : Sys :=
  let s := s.bread s.log.start
  s.bwrite s.log.start (writeHeader s.log.lh (s.view s.log.start))

def read_head (s : Sys) : Sys :=
  let s := s.bread s.log.start
  { s with log := { s.log with lh := readHeader (s.view s.log.start) } }

/-- One round of `install_trans`. -/
def install (s : Sys) (tail : Nat) : Sys :=
  let src := s.log.start + tail + 1
  let dst := s.log.lh.getD tail 0
  let s := (s.bread src).bread dst
  s.bwrite dst (s.view src)

def forget (s : Sys) : Sys := { s with log := { s.log with lh := [] } }

/-- `commit` and `recover_from_log`, one round of a loop or one call at a time. -/
def advance (s : Sys) : Sys :=
  match s.pc with
  | .idle => s
  | .commit => { s with pc := if s.log.lh.length > 0 then .writeLog 0 else .done }
  | .writeLog tail =>
    if tail < s.log.lh.length then { s.write_log tail with pc := .writeLog (tail + 1) }
    else { s with pc := .writeHead }
  | .writeHead => { s.write_head with pc := .install 0 }
  | .readHead => { s.read_head with pc := .install 0 }
  | .install tail =>
    if tail < s.log.lh.length then { s.install tail with pc := .install (tail + 1) }
    else { s.forget with pc := .clear }
  | .clear => { s.write_head with pc := .done }
  | .done => { s with log := { s.log with committing := false }, pc := .idle, booting := false }

def install_trans (s : Sys) : Sys := (List.range s.log.lh.length).foldl install s

def recover_from_log (s : Sys) : Sys := s.read_head.install_trans.forget.write_head

/-- The machine started on a disk, `start` and `size` read from its superblock. -/
def boot (start size : Nat) (disk : Nat → Block) : Sys where
  disk := disk
  cache _ := none
  log := { start, size, outstanding := 0, committing := false, lh := [] }
  pc := .readHead
  booting := true
  ops := ∅
  wrote _ := ∅

def crash (s : Sys) : Sys := boot s.log.start s.log.size s.disk

/-- What a step is: a call by the process `p`, a piece of `commit` or `recover_from_log` and where
it stands, a buffer that is filled or dropped, or a crash. -/
inductive Event
  | begin_op (p : Nat)
  | log_write (p b : Nat) (v : Block)
  | end_op (p : Nat)
  | advance (pc : Pc)
  | fetch (b : Nat)
  | evict (b : Nat)
  | crash

inductive Does : Sys → Event → Sys → Prop
  | begin_op {s : Sys} {p : Nat} {log : Log} (hup : s.booting = false) (hp : p ∉ s.ops)
    (h : begin_op s.log = some log) :
    Does s (.begin_op p) { s with
      log := log, ops := insert p s.ops, wrote := Function.update s.wrote p ∅ }
  | log_write {s : Sys} {p b : Nat} {v : Block} {buf : Buf} {log : Log} (hp : p ∈ s.ops)
    (hb : Home s.log b) (hbuf : s.cache b = some buf) (h : log_write s.log b = .ok log) :
    Does s (.log_write p b v) { s with
      log := log
      cache := Function.update s.cache b (some ⟨v, true⟩)
      wrote := Function.update s.wrote p (insert b (s.wrote p)) }
  | end_op {s : Sys} {p : Nat} {log : Log} (hp : p ∈ s.ops) (h : end_op s.log = .ok log) :
    Does s (.end_op p) { s with
      log := log, ops := s.ops.erase p, pc := if log.committing then .commit else s.pc }
  | advance {s : Sys} (h : s.pc ≠ .idle) : Does s (.advance s.pc) s.advance
  | fetch {s : Sys} (b : Nat) : Does s (.fetch b) (s.bread b)
  | evict {s : Sys} {b : Nat} {buf : Buf} (hbuf : s.cache b = some buf) (h : buf.dirty = false) :
    Does s (.evict b) { s with cache := Function.update s.cache b none }
  | crash {s : Sys} : Does s .crash s.crash

def Step : Sys → Sys → Prop := Unlabelled Does

end Sys

end Xv6
end SsuComputer
