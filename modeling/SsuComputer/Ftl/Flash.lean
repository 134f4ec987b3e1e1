import SsuComputer.Ftl.Ftl
import Mathlib.Data.List.FinRange
import Mathlib.Tactic.Positivity

/-!
# SsuComputer.Ftl.Flash

The net effect of one in-range `ftl_write`, on block and page numbers that cannot leave the device.

* `Flash g` — pages by block and offset, the mapping table, the reserved block.
* `Flash.write` — what one write does to it: an in-place write, a first allocation, or a relocation,
  in which the block copied to is erased before the new page is programmed.
* `Represents s f` — the state `s` of the program holds exactly the flash `f`.
-/

namespace SsuComputer
namespace Ftl

structure Flash (g : Geometry) where
  page : Fin g.blocksPerDevice → Fin g.pagesPerBlock → Page
  map : Fin g.datablksPerDevice → Option (Fin g.blocksPerDevice)
  reserved : Fin g.blocksPerDevice

variable {g : Geometry}

/-- The sector number of offset `o` of logical block `l`. -/
def sectorOf (l : Fin g.datablksPerDevice) (o : Fin g.pagesPerBlock) : Int :=
  l * g.pagesPerBlock + o

theorem sectorOf_nonneg (l : Fin g.datablksPerDevice) (o : Fin g.pagesPerBlock) :
    0 ≤ sectorOf l o := by
  unfold sectorOf; positivity

theorem find_finRange_least {n : Nat} {p : Fin n → Bool} {i j : Fin n}
    (h : (List.finRange n).find? p = some i) (hj : p j = true) : i ≤ j := by
  obtain ⟨_, k, hk, hi, hmin⟩ := List.find?_eq_some_iff_getElem.mp h
  by_contra hlt
  have hki : (i : Nat) = k := by rw [← hi]; simp
  have := hmin j (by rw [← hki]; omega)
  simp [hj] at this

namespace Flash

def program (f : Flash g) (b : Fin g.blocksPerDevice) (o : Fin g.pagesPerBlock) (pg : Page) :
    Flash g :=
  { f with page := fun b' o' => if b' = b ∧ o' = o then pg else f.page b' o' }

def erase (f : Flash g) (b : Fin g.blocksPerDevice) : Flash g :=
  { f with page := fun b' o' => if b' = b then Page.blank else f.page b' o' }

def assign (f : Flash g) (l : Fin g.datablksPerDevice) (b : Fin g.blocksPerDevice) : Flash g :=
  { f with map := Function.update f.map l (some b) }

/-- The lowest-numbered logical block mapped to `b`. -/
def firstMapped (f : Flash g) (b : Fin g.blocksPerDevice) : Option (Fin g.datablksPerDevice) :=
  (List.finRange _).find? fun l => f.map l = some b

/-- The table update of `move_block`: only the first matching entry changes. -/
def remap (f : Flash g) (old new : Fin g.blocksPerDevice) : Flash g :=
  match f.firstMapped old with
  | some l => f.assign l new
  | none => f

/-- The lowest-numbered block, the reserved one passed over, whose page `o` is erased. -/
def freeBlock (f : Flash g) (o : Fin g.pagesPerBlock) : Option (Fin g.blocksPerDevice) :=
  (List.finRange _).find? fun b => b ≠ f.reserved ∧ (f.page b o).Erased

def relocate (f : Flash g) (old : Fin g.blocksPerDevice) (o : Fin g.pagesPerBlock) (pg : Page) :
    Flash g :=
  { ((f.remap old f.reserved).erase f.reserved).program f.reserved o pg with reserved := old }

def write (f : Flash g) (l : Fin g.datablksPerDevice) (o : Fin g.pagesPerBlock) (d : Sector) :
    Flash g :=
  let pg := createPage d ⟨sectorOf l o⟩
  match f.map l with
  | some p => if (f.page p o).Erased then f.program p o pg else f.relocate p o pg
  | none =>
    match f.freeBlock o with
    | some q => (f.assign l q).program q o pg
    | none => f

/-- The write lands on a programmed page of a mapped block. -/
def Overwrites (f : Flash g) (l : Fin g.datablksPerDevice) (o : Fin g.pagesPerBlock) : Prop :=
  ∃ p, f.map l = some p ∧ ¬ (f.page p o).Erased

@[simp] theorem program_map (f : Flash g) (b o pg) : (f.program b o pg).map = f.map := rfl
@[simp] theorem program_reserved (f : Flash g) (b o pg) :
    (f.program b o pg).reserved = f.reserved := rfl
@[simp] theorem erase_map (f : Flash g) (b) : (f.erase b).map = f.map := rfl
@[simp] theorem erase_reserved (f : Flash g) (b) : (f.erase b).reserved = f.reserved := rfl
@[simp] theorem assign_page (f : Flash g) (l b) : (f.assign l b).page = f.page := rfl
@[simp] theorem assign_reserved (f : Flash g) (l b) : (f.assign l b).reserved = f.reserved := rfl

theorem program_page (f : Flash g) (b o pg b' o') :
    (f.program b o pg).page b' o' = if b' = b ∧ o' = o then pg else f.page b' o' := rfl

theorem erase_page (f : Flash g) (b b' o') :
    (f.erase b).page b' o' = if b' = b then Page.blank else f.page b' o' := rfl

theorem assign_map (f : Flash g) (l b l') :
    (f.assign l b).map l' = if l' = l then some b else f.map l' := by
  simp [assign, Function.update_apply]

@[simp] theorem remap_page (f : Flash g) (old new) : (f.remap old new).page = f.page := by
  unfold remap; split <;> rfl

@[simp] theorem remap_reserved (f : Flash g) (old new) :
    (f.remap old new).reserved = f.reserved := by
  unfold remap; split <;> rfl

theorem firstMapped_least {f : Flash g} {b l} (h : f.firstMapped b = some l) {l'}
    (hl : f.map l' = some b) : l ≤ l' :=
  find_finRange_least h (by simpa using hl)

theorem firstMapped_some {f : Flash g} {b l} (h : f.firstMapped b = some l) : f.map l = some b := by
  simpa using List.find?_some h

theorem exists_firstMapped {f : Flash g} {b l} (h : f.map l = some b) :
    ∃ l', f.firstMapped b = some l' := by
  cases hf : f.firstMapped b with
  | some l' => exact ⟨l', rfl⟩
  | none =>
    have := List.find?_eq_none.mp hf l (List.mem_finRange l)
    simp [h] at this

/-- An entry after the table update: the first match moved, everything else as before. -/
theorem remap_map {f : Flash g} {old new l'} (h : f.firstMapped old = some l') (l) :
    (f.remap old new).map l = if l = l' then some new else f.map l := by
  simp [remap, h, assign_map]

theorem firstMapped_congr {f f' : Flash g} (h : f.map = f'.map) (b) :
    f.firstMapped b = f'.firstMapped b := by
  simp [firstMapped, h]

theorem program_erase (f : Flash g) (b o pg) : (f.program b o pg).erase b = f.erase b := by
  simp only [erase, program, Flash.mk.injEq, and_true]
  funext b' o'
  by_cases h : b' = b <;> simp [h]

theorem remap_erase (f : Flash g) (old new b) :
    (f.remap old new).erase b = (f.erase b).remap old new := by
  unfold remap
  rw [firstMapped_congr (erase_map f b)]
  split <;> rfl

theorem freeBlock_some {f : Flash g} {o q} (h : f.freeBlock o = some q) :
    q ≠ f.reserved ∧ (f.page q o).Erased := by
  simpa using List.find?_some h

theorem freeBlock_least {f : Flash g} {o q} (h : f.freeBlock o = some q) {b}
    (hb : b ≠ f.reserved) (he : (f.page b o).Erased) : q ≤ b :=
  find_finRange_least h (by simpa using ⟨hb, he⟩)

theorem write_overwrite {f : Flash g} {l o p} (d : Sector) (hm : f.map l = some p)
    (he : ¬ (f.page p o).Erased) : f.write l o d = f.relocate p o (createPage d ⟨sectorOf l o⟩) := by
  simp [write, hm, he]

theorem write_inplace {f : Flash g} {l o p} (d : Sector) (hm : f.map l = some p)
    (he : (f.page p o).Erased) : f.write l o d = f.program p o (createPage d ⟨sectorOf l o⟩) := by
  simp [write, hm, he]

theorem write_alloc {f : Flash g} {l o q} (d : Sector) (hm : f.map l = none)
    (hq : f.freeBlock o = some q) :
    f.write l o d = (f.assign l q).program q o (createPage d ⟨sectorOf l o⟩) := by
  simp [write, hm, hq]

end Flash

end Ftl
end SsuComputer
