import SsuComputer.Ftl.Device

/-!
# SsuComputer.Ftl.Ftl

`ftl.c`: the block-mapping translation layer, function by function.

The state is the device, the mapping table `addrmaptbl.pbn` (outside the array, whatever the memory
there holds), the number of the reserved block and, as an instrument of the model only, the list of
the accesses made so far. `junk` stands for what an uninitialised page buffer on the stack holds
when a call starts; it may differ from call to call.

* `saveStep`, `savePages`, `restorePages`, `remapFirst` — the loops of `move_block`, which the
  recovery branch of `ftl_write` repeats.
* `moveBlock` — the relocation itself.
* `printAddrmaptblInfo` — the debugging print at the head of `ftl_write` and `ftl_read`.
* `writeMapped`, `writeUnmapped`, `recoverUnused` — the branches of `ftlWrite`.
* `boot` — a device of `0xFF` bytes after `ftl_open`; `stepCall` — one call of `ftl_write`.

An `Event` is one access: a page read, a page programmed (with the page found there), a block
erased, or an index used on `addrmaptbl.pbn` or on the scratch array `saved_page`.
-/

namespace SsuComputer
namespace Ftl

inductive Event where
  | read (ppn : Int)
  | program (ppn : Int) (found : Page)
  | erase (pbn : Int)
  | table (i : Int)
  | savedPage (i : Nat)

structure State where
  dev : Device
  pbn : Int → Int
  reservedEmptyBlk : Int
  trace : List Event

namespace State

def log (s : State) (e : Event) : State := { s with trace := s.trace ++ [e] }

def ddRead (s : State) (ppn : Int) (pagebuf : Page) : Bool × Page × State :=
  let r := s.dev.ddRead ppn pagebuf
  (r.1, r.2.1, { s.log (.read ppn) with dev := r.2.2 })

def ddWrite (s : State) (ppn : Int) (pagebuf : Page) : State :=
  let found := s.dev.page (s.dev.fseek ppn).pos
  { s.log (.program ppn found) with dev := s.dev.ddWrite ppn pagebuf }

def ddErase (g : Geometry) (s : State) (pbn : Int) : State :=
  { s.log (.erase pbn) with dev := s.dev.ddErase g pbn }

def setPbn (s : State) (i v : Int) : State :=
  { s.log (.table i) with pbn := Function.update s.pbn i v }

end State

variable (g : Geometry)

/-- C's `%` truncates: a negative `lsn` gives a negative offset. -/
def calSectorOffset (lsn : Int) : Int := lsn.tmod g.sectorsPerBlock

def calLbn (lsn : Int) : Int := lsn.tdiv g.sectorsPerBlock

def calPpn (pbn sectorOffset : Int) : Int := pbn * g.pagesPerBlock + sectorOffset

def createPage (sectorbuf : Sector) (spare : SpareData) : Page := ⟨sectorbuf, spare⟩

/-- `get_page`; the flag is false where the source returns `NULL`. -/
def getPage (ppn : Int) (pagebuf : Page) (s : State) : Bool × Page × State := s.ddRead ppn pagebuf

/-- `is_used`: 1 in use, 0 erased, -2 deleted, -1 when the page cannot be read. -/
def isUsed (junk : Page) (ppn : Int) (s : State) : Int × State :=
  match getPage ppn junk s with
  | (false, _, s) => (-1, s)
  | (true, pg, s) =>
    if pg.spare.lsn ≥ 0 then (1, s) else if pg.spare.lsn = -1 then (0, s) else (-2, s)

structure Saved where
  pagebuf : Page
  savedPage : Nat → Page
  savedElement : BitVec 32

/-- One pass of the copy-out loop: page `t` of block `pbn` is saved when its spare `lsn` is
positive. `lsn` 0 is not. -/
def saveStep (pbn : Int) (t : Nat) (x : Saved × State) : Saved × State :=
  let r := getPage (calPpn g pbn t) x.1.pagebuf x.2
  let pagebuf := r.2.1
  if pagebuf.spare.lsn > 0 then
    ({ pagebuf := pagebuf
       savedPage := Function.update x.1.savedPage t pagebuf
       savedElement := x.1.savedElement ||| (1#32 <<< t) }, r.2.2.log (.savedPage t))
  else ({ x.1 with pagebuf := pagebuf }, r.2.2)

def savePages (pbn : Int) (skip : Nat → Bool) (ts : List Nat) (x : Saved × State) : Saved × State :=
  ts.foldl (fun x t => if skip t then x else saveStep g pbn t x) x

def restorePages (pbn : Int) (sv : Saved) (ts : List Nat) (s : State) : State :=
  ts.foldl (fun s t =>
    if sv.savedElement &&& (1#32 <<< t) ≠ 0 then
      (s.log (.savedPage t)).ddWrite (calPpn g pbn t) (sv.savedPage t)
    else s) s

def remapFirst (oldPbn newPbn : Int) : List Nat → State → State
  | [], s => s
  | lbn :: rest, s =>
    if s.pbn lbn = oldPbn then (s.log (.table lbn)).setPbn lbn newPbn
    else remapFirst oldPbn newPbn rest (s.log (.table lbn))

/-- `move_block`. The block erased at the end is `reserved_empty_blk`. -/
def moveBlock (junk : Page) (newPbn oldPbn exceptSectorOffset : Int) (s : State) : State :=
  let offsets := List.range g.sectorsPerBlock
  let r := savePages g oldPbn (fun t => decide (exceptSectorOffset = t)) offsets
    (⟨junk, fun _ => junk, 0⟩, s)
  let s := restorePages g newPbn r.1 offsets r.2
  let s := remapFirst oldPbn newPbn (List.range g.datablksPerDevice) s
  s.ddErase g s.reservedEmptyBlk

def ftlOpen (s : State) : State :=
  (List.range g.datablksPerDevice).foldl (fun s (i : Nat) => s.setPbn i (-1)) s

/-- `print_addrmaptbl_info`: a debugging print, compiled in, that reads a page of its own. -/
def printAddrmaptblInfo (junk : Page) (lsn : Int) (s : State) : State :=
  let s := s.log (.table (calLbn g lsn))
  (getPage (calPpn g (s.pbn (calLbn g lsn)) (calSectorOffset g lsn)) junk s).2.2

/-- The search loop of `ftl_write`: the first block of `pbns`, the reserved one passed over, whose
page at the offset is erased (`none` when the loop runs to its end), and the last block seen whose
page there counts as deleted. -/
def searchEmpty (junk : Page) (sectorOffset : Int) :
    List Nat → Int → State → Option Nat × Int × State
  | [], unusedPbn, s => (none, unusedPbn, s)
  | pbn :: rest, unusedPbn, s =>
    if pbn = s.reservedEmptyBlk then searchEmpty junk sectorOffset rest unusedPbn s
    else
      let r := isUsed junk (calPpn g pbn sectorOffset) s
      if r.1 = 0 then (some pbn, unusedPbn, r.2)
      else searchEmpty junk sectorOffset rest (if r.1 < -1 then pbn else unusedPbn) r.2

def writeMapped (junk : Page) (lsn : Int) (sectorbuf : Sector) (s : State) : State :=
  let sectorOffset := calSectorOffset g lsn
  let lbn := calLbn g lsn
  let r := isUsed junk (calPpn g (s.pbn lbn) sectorOffset) s
  if r.1 = 0 then
    r.2.ddWrite (calPpn g (r.2.pbn lbn) sectorOffset) (createPage sectorbuf ⟨lsn⟩)
  else
    let oldPbn := r.2.pbn lbn
    let s := moveBlock g junk r.2.reservedEmptyBlk (r.2.pbn lbn) sectorOffset r.2
    let s := s.ddWrite (calPpn g s.reservedEmptyBlk sectorOffset) (createPage sectorbuf ⟨lsn⟩)
    { s with reservedEmptyBlk := oldPbn }

/-- The recovery branch of `ftl_write`: the live pages of `unusedPbn` move to the reserved block.
The requested sector is put together in a local buffer that nothing writes out. -/
def recoverUnused (junk : Page) (unusedPbn : Int) (s : State) : State :=
  let offsets := List.range g.sectorsPerBlock
  let r := savePages g unusedPbn (fun _ => false) offsets (⟨junk, fun _ => junk, 0⟩, s)
  let s := restorePages g r.2.reservedEmptyBlk r.1 offsets r.2
  let s := remapFirst unusedPbn s.reservedEmptyBlk (List.range g.datablksPerDevice) s
  let s := { s with reservedEmptyBlk := unusedPbn }
  s.ddErase g s.reservedEmptyBlk

def findPbn (junk : Page) (lsn : Int) (s : State) : Option Nat × Int × State :=
  searchEmpty g junk (calSectorOffset g lsn) (List.range g.blocksPerDevice) (-1) s

/-- The branch of `ftl_write` for an unmapped logical block. When no block is found and none is
unused, the source only prints `Memory is fulled!!`. -/
def writeUnmapped (junk : Page) (lsn : Int) (sectorbuf : Sector) (s : State) : State :=
  match findPbn g junk lsn s with
  | (some pbn, _, s) =>
    (s.setPbn (calLbn g lsn) pbn).ddWrite (calPpn g pbn (calSectorOffset g lsn))
      (createPage sectorbuf ⟨lsn⟩)
  | (none, unusedPbn, s) => if unusedPbn ≠ -1 then recoverUnused g junk unusedPbn s else s

def writePrologue (junk : Page) (lsn : Int) (s : State) : State :=
  (printAddrmaptblInfo g junk lsn s).log (.table (calLbn g lsn))

def ftlWrite (junk : Page) (lsn : Int) (sectorbuf : Sector) (s : State) : State :=
  if lsn ≥ g.datablksPerDevice * g.sectorsPerBlock then printAddrmaptblInfo g junk lsn s
  else
    let s := writePrologue g junk lsn s
    if s.pbn (calLbn g lsn) ≠ -1 then writeMapped g junk lsn sectorbuf s
    else writeUnmapped g junk lsn sectorbuf s

def ftlRead (junk : Page) (lsn : Int) (sectorbuf : Sector) (s : State) : Sector × State :=
  let s := printAddrmaptblInfo g junk lsn s
  if lsn ≥ g.datablksPerDevice * g.sectorsPerBlock then (sectorbuf, s)
  else
    let s := s.log (.table (calLbn g lsn))
    let r := getPage (calPpn g (s.pbn (calLbn g lsn)) (calSectorOffset g lsn)) junk s
    (r.2.1.data, r.2.2)

def blankDevice : Device :=
  let n := g.blocksPerDevice * g.pagesPerBlock
  { page := fun _ => Page.blank, npages := n, pos := n }

/-- The state `main` starts from: a blank device, `reserved_empty_blk` at its initial value and
the table set by `ftl_open`. -/
def boot : State :=
  ftlOpen g { dev := blankDevice g, pbn := fun _ => 0, reservedEmptyBlk := g.datablksPerDevice
              trace := [] }

structure Call where
  lsn : Int
  sectorbuf : Sector
  junk : Page

def stepCall (s : State) (c : Call) : State := ftlWrite g c.junk c.lsn c.sectorbuf s

end Ftl
end SsuComputer
