import Mathlib.Algebra.Ring.Nat
import SsuComputer.Lib.Cycle
import Mathlib.Logic.Relation

/-!
# SsuComputer.Xv6.Umalloc

The user memory allocator: `malloc`, `free` and `morecore` over `sbrk`.

Addresses count bytes. `ptr` and `size` are the two fields of the header at an address, which takes
eight bytes; `size` counts units of eight bytes, the header among them. `base` is the static header
that the list of free blocks starts from; a null `freep` means that `malloc` was not called yet.
`Step` is a program that calls the two and writes to the memory it was given.
-/

namespace SsuComputer
namespace Xv6

structure Heap where
  ptr : Nat → Nat
  size : Nat → Nat
  freep : Nat
  base : Nat
  brk : Nat

namespace Heap

/-- The two ways out of the loop of `free`: `bp` lies between `p` and its successor, or outside of
the list with `p` the last of it. -/
def closes (h : Heap) (bp p : Nat) : Bool :=
  (decide (p < bp) && decide (bp < h.ptr p)) ||
    (decide (h.ptr p ≤ p) && (decide (p < bp) || decide (bp < h.ptr p)))

def findPlace (fuel : Nat) (h : Heap) (bp : Nat) : Option Nat :=
  whileLoop (fun p => !h.closes bp p) (fun p => some (h.ptr p)) fuel h.freep

def joinUpper (h : Heap) (bp p : Nat) : Heap :=
  if bp + 8 * h.size bp = h.ptr p then
    { h with
      size := Function.update h.size bp (h.size bp + h.size (h.ptr p))
      ptr := Function.update h.ptr bp (h.ptr (h.ptr p)) }
  else { h with ptr := Function.update h.ptr bp (h.ptr p) }

def joinLower (h : Heap) (bp p : Nat) : Heap :=
  if p + 8 * h.size p = bp then
    { h with
      size := Function.update h.size p (h.size p + h.size bp)
      ptr := Function.update h.ptr p (h.ptr bp) }
  else { h with ptr := Function.update h.ptr p bp }

/-- `free`, with the address behind the header. `none`: the fuel ran out. -/
def free (fuel : Nat) (h : Heap) (ap : Nat) : Option Heap :=
  let bp := ap - 8
  (h.findPlace fuel bp).map fun p => { (h.joinUpper bp p).joinLower bp p with freep := p }

/-- `sbrk`, whose argument is an `int`: from `2^31` on the memory shrinks. `limit` is the address
up to which the kernel has memory to give. -/
def sbrk (limit : Nat) (h : Heap) (n : Nat) : Option (Nat × Heap) :=
  let n := n % 2 ^ 32
  if n < 2 ^ 31 then
    if h.brk + n ≤ limit then some (h.brk, { h with brk := h.brk + n }) else none
  else if 2 ^ 32 - n < h.brk then some (h.brk, { h with brk := h.brk - (2 ^ 32 - n) })
  else if 2 ^ 32 - n = h.brk then none
  else some (h.brk, h)

/-- The inner `none` is the null pointer. -/
def morecore (fuel limit : Nat) (h : Heap) (nu : Nat) : Option (Option Heap) :=
  let nu := if nu < 4096 then 4096 else nu
  match h.sbrk limit (nu * 8) with
  | none => some none
  | some (hp, h) =>
    (free fuel { h with size := Function.update h.size hp nu } (hp + 8)).map some

/-- The block at `p`, which is large enough, or the end of it; `prevp` is the block in front. -/
def take (h : Heap) (prevp p nunits : Nat) : Heap × Nat :=
  if h.size p = nunits then
    ({ h with ptr := Function.update h.ptr prevp (h.ptr p), freep := prevp }, p)
  else
    let q := p + 8 * (h.size p - nunits)
    ({ h with
      size := Function.update (Function.update h.size p (h.size p - nunits)) q nunits
      freep := prevp }, q)

/-- The loop of `malloc`. The second component of the result is the address of the header, `none`
for the null pointer. -/
def mallocLoop (limit nunits : Nat) : Nat → Heap → Nat → Nat → Option (Heap × Option Nat)
  | 0, _, _, _ => none
  | fuel + 1, h, prevp, p =>
    if h.size p ≥ nunits then some ((h.take prevp p nunits).1, some (h.take prevp p nunits).2)
    else if p = h.freep then
      match morecore fuel limit h nunits with
      | none => none
      | some none => some (h, none)
      | some (some h) => mallocLoop limit nunits fuel h h.freep (h.ptr h.freep)
    else mallocLoop limit nunits fuel h p (h.ptr p)

/-- The arithmetic of `uint`. -/
def nunits (nbytes : Nat) : Nat := (nbytes + 8 - 1) % 2 ^ 32 / 8 + 1

def init (h : Heap) : Heap :=
  if h.freep = 0 then
    { h with
      ptr := Function.update h.ptr h.base h.base
      size := Function.update h.size h.base 0
      freep := h.base }
  else h

/-- `malloc`, which returns the address behind the header. -/
def malloc (fuel limit : Nat) (h : Heap) (nbytes : Nat) : Option (Heap × Option Nat) :=
  let h := h.init
  (mallocLoop limit (nunits nbytes) fuel h h.freep (h.ptr h.freep)).map fun r =>
    (r.1, r.2.map (· + 8))

end Heap

/-- `used` are the blocks handed out, as header and units; `grown` is what `morecore` got so far. -/
structure Arena where
  heap : Heap
  used : List (Nat × Nat)
  grown : Nat

namespace Arena

def start (base brk : Nat) (ptr size : Nat → Nat) : Arena := ⟨⟨ptr, size, 0, base, brk⟩, [], 0⟩

/-- A program asks for less than `2^31` bytes at a time, frees what it was given, and writes to no
other block than its own. -/
inductive Step : Arena → Arena → Prop
  | malloc {a : Arena} {h : Heap} {ap : Nat} (fuel limit nbytes : Nat)
    (hn : 8 * Heap.nunits nbytes < 2 ^ 31)
    (hm : a.heap.malloc fuel limit nbytes = some (h, some ap)) :
    Step a ⟨h, (ap - 8, Heap.nunits nbytes) :: a.used, a.grown + (h.brk - a.heap.brk) / 8⟩
  | fail {a : Arena} {h : Heap} (fuel limit nbytes : Nat) (hn : 8 * Heap.nunits nbytes < 2 ^ 31)
    (hm : a.heap.malloc fuel limit nbytes = some (h, none)) : Step a { a with heap := h }
  | free {a : Arena} {h : Heap} {l r : List (Nat × Nat)} {bp n : Nat} (fuel : Nat)
    (hu : a.used = l ++ (bp, n) :: r) (hf : a.heap.free fuel (bp + 8) = some h) :
    Step a { a with heap := h, used := l ++ r }
  | sbrk {a : Arena} (n : Nat) : Step a { a with heap := { a.heap with brk := a.heap.brk + n } }
  | write {a : Arena} (ptr size : Nat → Nat)
    (hw : ∀ x, (∀ u ∈ a.used, ¬ (u.1 < x ∧ x < u.1 + 8 * u.2)) →
      ptr x = a.heap.ptr x ∧ size x = a.heap.size x) :
    Step a { a with heap := { a.heap with ptr := ptr, size := size } }

end Arena

end Xv6
end SsuComputer
