import Mathlib.Logic.Function.Basic
import Mathlib.Tactic.Ring

/-!
# SsuComputer.Ftl.Device

The flash device of `devicedriver.h`: a file of pages behind `fseek`, `fread` and `fwrite`, and
the three driver calls `dd_read`, `dd_write`, `dd_erase` on top of it.

Every transfer moves whole pages, so the file position is counted in pages. A seek to a negative
offset fails and leaves the position alone, and the driver never looks at the result of `fseek`:
the transfer then happens at the old position.
-/

namespace SsuComputer
namespace Ftl

/-- The two constants of `blkmap.h` a user may change. `saved_element` has one bit a page. -/
structure Geometry where
  blocksPerDevice : Nat
  pagesPerBlock : Nat
  two_le_blocks : 2 ≤ blocksPerDevice
  pages_pos : 1 ≤ pagesPerBlock
  pages_le : pagesPerBlock ≤ 32

abbrev sectorSize : Nat := 512

def sectorsPerPage : Nat := 1

namespace Geometry

def sectorsPerBlock (g : Geometry) : Nat := sectorsPerPage * g.pagesPerBlock

def datablksPerDevice (g : Geometry) : Nat := g.blocksPerDevice - 1

@[simp] theorem sectorsPerBlock_eq (g : Geometry) : g.sectorsPerBlock = g.pagesPerBlock := by
  simp [sectorsPerBlock, sectorsPerPage]

end Geometry

abbrev Sector := Fin sectorSize → UInt8

/-- The spare area; its other bytes travel with `lsn` and nothing reads them. -/
structure SpareData where
  lsn : Int

structure Page where
  data : Sector
  spare : SpareData

/-- All bytes `0xFF`: as an `int`, the spare `lsn` then reads `-1`. -/
def Page.blank : Page := ⟨fun _ => 0xFF, ⟨-1⟩⟩

def Page.zero : Page := ⟨fun _ => 0, ⟨0⟩⟩

def Page.Erased (p : Page) : Prop := p.spare.lsn = -1

instance (p : Page) : Decidable p.Erased := inferInstanceAs (Decidable (_ = _))

@[simp] theorem Page.blank_lsn : Page.blank.spare.lsn = -1 := rfl

theorem Page.blank_erased : Page.blank.Erased := rfl

structure Device where
  page : Nat → Page
  npages : Nat
  pos : Nat

namespace Device

def fseek (d : Device) (off : Int) : Device :=
  if off < 0 then d else { d with pos := off.toNat }

def fread (d : Device) : Option Page × Device :=
  if d.pos < d.npages then (some (d.page d.pos), { d with pos := d.pos + 1 }) else (none, d)

/-- `fwrite` of one page; past the end the file grows, with zeros in the gap. -/
def fwrite (d : Device) (pg : Page) : Device :=
  { page := fun k =>
      if k = d.pos then pg else if d.npages ≤ k ∧ k < d.pos then Page.zero else d.page k
    npages := max d.npages (d.pos + 1)
    pos := d.pos + 1 }

/-- `dd_read`: the buffer keeps its contents when the read fails. -/
def ddRead (d : Device) (ppn : Int) (pagebuf : Page) : Bool × Page × Device :=
  match (d.fseek ppn).fread with
  | (some pg, d') => (true, pg, d')
  | (none, d') => (false, pagebuf, d')

def ddWrite (d : Device) (ppn : Int) (pagebuf : Page) : Device := (d.fseek ppn).fwrite pagebuf

def ddErase (g : Geometry) (d : Device) (pbn : Int) : Device :=
  (List.replicate g.pagesPerBlock Page.blank).foldl fwrite (d.fseek (g.pagesPerBlock * pbn))

@[simp] theorem fseek_page (d : Device) (off : Int) : (d.fseek off).page = d.page := by
  unfold fseek; split <;> rfl

@[simp] theorem fseek_npages (d : Device) (off : Int) : (d.fseek off).npages = d.npages := by
  unfold fseek; split <;> rfl

@[simp] theorem fseek_natCast (d : Device) (k : Nat) : d.fseek (k : Int) = { d with pos := k } := by
  simp [fseek, show ¬ ((k : Int) < 0) by omega]

@[simp] theorem fread_page (d : Device) : d.fread.2.page = d.page := by
  unfold fread; split <;> rfl

@[simp] theorem fread_npages (d : Device) : d.fread.2.npages = d.npages := by
  unfold fread; split <;> rfl

/-- Reading leaves the contents of the file alone, whatever the page number. -/
theorem ddRead_page (d : Device) (ppn : Int) (pagebuf : Page) :
    (d.ddRead ppn pagebuf).2.2.page = d.page := by
  have h := fread_page (d.fseek ppn)
  unfold ddRead
  split <;> simp_all

theorem ddRead_npages (d : Device) (ppn : Int) (pagebuf : Page) :
    (d.ddRead ppn pagebuf).2.2.npages = d.npages := by
  have h := fread_npages (d.fseek ppn)
  unfold ddRead
  split <;> simp_all

theorem ddRead_ok (d : Device) {k : Nat} (hk : k < d.npages) (pagebuf : Page) :
    d.ddRead k pagebuf = (true, d.page k, { d with pos := k + 1 }) := by
  simp [ddRead, fread, hk]

/-- A write inside the device replaces that page and nothing else. -/
theorem ddWrite_ok (d : Device) {k : Nat} (hk : k < d.npages) (pg : Page) :
    d.ddWrite k pg = { page := Function.update d.page k pg, npages := d.npages, pos := k + 1 } := by
  simp only [ddWrite, fseek_natCast, fwrite, Device.mk.injEq, and_true]
  refine ⟨?_, by omega⟩
  funext j
  by_cases h : j = k
  · subst h; simp
  · simp [h, show ¬ (d.npages ≤ j ∧ j < k) by omega]

theorem foldl_fwrite (n : Nat) (pg : Page) :
    ∀ d : Device, d.pos + n ≤ d.npages →
      (List.replicate n pg).foldl fwrite d =
        { page := fun k => if d.pos ≤ k ∧ k < d.pos + n then pg else d.page k
          npages := d.npages
          pos := d.pos + n } := by
  induction n with
  | zero => intro d _; simp [show ∀ k, ¬ (d.pos ≤ k ∧ k < d.pos) by omega]
  | succ n ih =>
    intro d h
    have hpos : (d.fwrite pg).pos = d.pos + 1 := rfl
    have hnp : (d.fwrite pg).npages = d.npages := by simp only [fwrite]; omega
    rw [List.replicate_succ, List.foldl_cons, ih _ (by rw [hpos, hnp]; omega), hpos, hnp]
    simp only [Device.mk.injEq, true_and]
    refine ⟨?_, by omega⟩
    funext k
    by_cases hk : k = d.pos
    · rw [if_neg (by omega : ¬(d.pos + 1 ≤ k ∧ k < d.pos + 1 + n)), if_pos (by omega), fwrite]
      exact if_pos hk
    · by_cases h1 : d.pos ≤ k ∧ k < d.pos + (n + 1)
      · rw [if_pos h1, if_pos (by omega)]
      · rw [if_neg h1, if_neg (by omega), fwrite]
        exact (if_neg hk).trans (if_neg (by omega))

/-- Erasing a block of the device blanks its pages and nothing else. -/
theorem ddErase_ok (g : Geometry) (d : Device) {b : Nat}
    (hb : (b + 1) * g.pagesPerBlock ≤ d.npages) :
    d.ddErase g b =
      { page := fun k => if b * g.pagesPerBlock ≤ k ∧ k < (b + 1) * g.pagesPerBlock then Page.blank
          else d.page k
        npages := d.npages
        pos := (b + 1) * g.pagesPerBlock } := by
  have hoff : (g.pagesPerBlock : Int) * b = ((b * g.pagesPerBlock : Nat) : Int) := by
    push_cast; ring
  have hsucc : (b + 1) * g.pagesPerBlock = b * g.pagesPerBlock + g.pagesPerBlock := by ring
  rw [ddErase, hoff, fseek_natCast, foldl_fwrite _ _ _ (by simpa [hsucc] using hb)]
  simp only [hsucc]

end Device

end Ftl
end SsuComputer
