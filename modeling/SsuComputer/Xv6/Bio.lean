import SsuComputer.Xv6.Log
import SsuComputer.Lib.Cycle
import Mathlib.Data.Multiset.Basic

/-!
# SsuComputer.Xv6.Bio

The buffer cache: `binit`, `bget`, `bread`, `bwrite` and `brelse` over the disk driver's `iderw`.

Buffers are numbered below `NBUF`, and `NBUF` is the head of the list through `prev` and `next`. A
`Handle` is one use of a buffer by a process, from `bread` to the end of `brelse`; any number of
handles are under way at once, and `Does` takes their pieces in any order: `bget` and the second
half of `brelse` under the lock of the cache, the rest under the sleep lock of the buffer.
-/

namespace SsuComputer
namespace Xv6

def NBUF : Nat := MAXOPBLOCKS * 3

structure BufHdr where
  valid : Bool
  dirty : Bool
  dev : Nat
  blockno : Nat
  refcnt : Nat
  locked : Bool
  data : Block

/-- Where a process is with a buffer: waiting for its sleep lock, holding it (`changed`: with data
that is neither written nor marked dirty), or past `releasesleep`. -/
inductive Stage
  | waiting
  | holding (changed : Bool)
  | leaving
deriving DecidableEq, Repr

structure Handle where
  buf : Nat
  stage : Stage
deriving DecidableEq, Repr

/-- `changes` are the contents that holders gave to blocks, in order; `released b` is the moment,
by `clock`, when the last reference to `b` went. -/
structure Bio where
  buf : Nat → BufHdr
  prev : Nat → Nat
  next : Nat → Nat
  disk : Nat → Block
  disksize : Nat
  handles : Multiset Handle
  changes : List (Nat × Block)
  clock : Nat
  released : Nat → Nat

namespace Bio

def set (s : Bio) (b : Nat) (h : BufHdr) : Bio := { s with buf := Function.update s.buf b h }

/-- `b` becomes the first of the list. -/
def push (s : Bio) (b : Nat) : Bio :=
  { s with
    next := Function.update (Function.update s.next b (s.next NBUF)) NBUF b
    prev := Function.update (Function.update s.prev b NBUF) (s.next NBUF) b }

def unlink (s : Bio) (b : Nat) : Bio :=
  { s with
    prev := Function.update s.prev (s.next b) (s.prev b)
    next := Function.update s.next (s.prev b) (s.next b) }

/-- The machine before `binit`: static storage is zero. -/
def blank (disk : Nat → Block) (disksize : Nat) : Bio where
  buf _ := ⟨false, false, 0, 0, 0, false, fun _ => 0⟩
  prev _ := NBUF
  next _ := NBUF
  disk := disk
  disksize := disksize
  handles := 0
  changes := []
  clock := 0
  released _ := 0

/-- One round of the loop of `binit`. -/
def initBuf (s : Bio) (b : Nat) : Bio :=
  { s.push b with released := Function.update s.released b s.clock, clock := s.clock + 1 }

def binit (disk : Nat → Block) (disksize : Nat) : Bio :=
  (List.range NBUF).foldl initBuf (blank disk disksize)

/-- The buffer that caches a block, looked for from the most recently used on. -/
def cached (s : Bio) (dev blockno : Nat) : Option Nat :=
  scan s.next NBUF (fun b => (s.buf b).dev == dev && (s.buf b).blockno == blockno) (NBUF + 1)
    (s.next NBUF)

/-- The buffer to recycle, looked for from the least recently used on. -/
def unused (s : Bio) : Option Nat :=
  scan s.prev NBUF (fun b => (s.buf b).refcnt == 0 && !(s.buf b).dirty) (NBUF + 1) (s.prev NBUF)

def bget (s : Bio) (dev blockno : Nat) : Except String (Nat × Bio) :=
  match s.cached dev blockno with
  | some b => .ok (b, s.set b { s.buf b with refcnt := (s.buf b).refcnt + 1 })
  | none =>
    match s.unused with
    | some b =>
      .ok (b, s.set b { s.buf b with dev, blockno, valid := false, dirty := false, refcnt := 1 })
    | none => .error "bget: no buffers"

def iderw (s : Bio) (b : Nat) : Except String Bio :=
  let h := s.buf b
  if h.locked = false then .error "iderw: buf not locked"
  else if h.valid = true ∧ h.dirty = false then .error "iderw: nothing to do"
  else if h.dev ≠ 1 then .error "iderw: request not for disk 1"
  else if h.blockno ≥ s.disksize then .error "iderw: block out of range"
  else if h.dirty then
    .ok { s.set b { h with dirty := false, valid := true } with
      disk := Function.update s.disk h.blockno h.data }
  else .ok (s.set b { h with data := s.disk h.blockno, valid := true })

/-- The rest of `bread`, once `bget` has the sleep lock. -/
def bread (s : Bio) (b : Nat) : Except String Bio :=
  let s := s.set b { s.buf b with locked := true }
  if (s.buf b).valid then .ok s else s.iderw b

def bwrite (s : Bio) (b : Nat) : Except String Bio :=
  (s.set b { s.buf b with dirty := true }).iderw b

def releasesleep (s : Bio) (b : Nat) : Bio := s.set b { s.buf b with locked := false }

/-- `brelse` behind `releasesleep`. -/
def brelse (s : Bio) (b : Nat) : Bio :=
  let s := s.set b { s.buf b with refcnt := (s.buf b).refcnt - 1 }
  if (s.buf b).refcnt = 0 then
    { (s.unlink b).push b with
      released := Function.update s.released b s.clock, clock := s.clock + 1 }
  else s

/-- The block that loses its buffer in a call of `bget`. -/
def evicted (s : Bio) (dev blockno : Nat) : Option Nat :=
  match s.cached dev blockno with
  | some _ => none
  | none => s.unused.bind fun b => if (s.buf b).valid then some (s.buf b).blockno else none

/-- What a step is, with the block it is about: `loaded` tells whether `bread` goes to the disk. -/
inductive Event
  | bget (dev blockno : Nat) (out : Option Nat)
  | bread (n : Nat) (loaded : Bool)
  | change (n : Nat) (v : Block)
  | bwrite (n : Nat)
  | log_write (n : Nat)
  | releasesleep (n : Nat)
  | brelse (n : Nat)

/-- Holders write changed data to disk, or mark it dirty as `log_write` does, before `brelse`. -/
inductive Does : Bio → Event → Bio → Prop
  | bget {s s' : Bio} {dev blockno b : Nat} (h : s.bget dev blockno = .ok (b, s')) :
    Does s (.bget dev blockno (s.evicted dev blockno))
      { s' with handles := ⟨b, .waiting⟩ ::ₘ s.handles }
  | bread {s s' : Bio} {b : Nat} {hs : Multiset Handle} (hh : s.handles = ⟨b, .waiting⟩ ::ₘ hs)
    (hfree : (s.buf b).locked = false) (h : s.bread b = .ok s') :
    Does s (.bread (s.buf b).blockno (!(s.buf b).valid))
      { s' with handles := ⟨b, .holding false⟩ ::ₘ hs }
  | change {s : Bio} {b : Nat} {c : Bool} {hs : Multiset Handle} (v : Block)
    (hh : s.handles = ⟨b, .holding c⟩ ::ₘ hs) :
    Does s (.change (s.buf b).blockno v) { s.set b { s.buf b with data := v } with
      handles := ⟨b, .holding true⟩ ::ₘ hs, changes := s.changes ++ [((s.buf b).blockno, v)] }
  | bwrite {s s' : Bio} {b : Nat} {c : Bool} {hs : Multiset Handle}
    (hh : s.handles = ⟨b, .holding c⟩ ::ₘ hs) (h : s.bwrite b = .ok s') :
    Does s (.bwrite (s.buf b).blockno) { s' with handles := ⟨b, .holding false⟩ ::ₘ hs }
  | log_write {s : Bio} {b : Nat} {c : Bool} {hs : Multiset Handle}
    (hh : s.handles = ⟨b, .holding c⟩ ::ₘ hs) :
    Does s (.log_write (s.buf b).blockno) { s.set b { s.buf b with dirty := true } with
      handles := ⟨b, .holding false⟩ ::ₘ hs }
  | releasesleep {s : Bio} {b : Nat} {hs : Multiset Handle}
    (hh : s.handles = ⟨b, .holding false⟩ ::ₘ hs) :
    Does s (.releasesleep (s.buf b).blockno)
      { s.releasesleep b with handles := ⟨b, .leaving⟩ ::ₘ hs }
  | brelse {s : Bio} {b : Nat} {hs : Multiset Handle} (hh : s.handles = ⟨b, .leaving⟩ ::ₘ hs) :
    Does s (.brelse (s.buf b).blockno) { s.brelse b with handles := hs }

def Step : Bio → Bio → Prop := Unlabelled Does

end Bio

end Xv6
end SsuComputer
