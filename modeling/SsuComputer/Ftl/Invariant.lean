import SsuComputer.Ftl.Flash
import Mathlib.Data.Finset.Card
import Mathlib.Data.Fintype.Card

/-!
# SsuComputer.Ftl.Invariant

What one `Flash.write` preserves.

* `Covered` — a block outside the reserve that holds a programmed page is the image of a logical
  block. It is kept by every write and, by counting, gives a free block to every unmapped logical
  block (`exists_freeBlock`): no write is ever refused.
* `Exclusive` — the mapping is injective and avoids the reserved block. One write keeps it exactly
  when it does not allocate a block that is already mapped (`exclusive_write_iff`).
* `Occupied` — every mapped block holds a programmed page; with it, an erased reserve stays erased
  exactly when the write overwrites nothing (`reserve_write_iff`).
* `Stores f h` — every sector `h` knows is programmed where the table points. A write keeps it when
  a relocation takes away no other live page (`stores_write`).
-/

namespace SsuComputer
namespace Ftl
namespace Flash

variable {g : Geometry} {f : Flash g} {l : Fin g.datablksPerDevice} {o : Fin g.pagesPerBlock}

def Covered (f : Flash g) : Prop :=
  ∀ b o, b ≠ f.reserved → ¬ (f.page b o).Erased → ∃ l, f.map l = some b

theorem covered_fresh {f : Flash g} (h : ∀ b o, (f.page b o).Erased) : Covered f :=
  fun b o _ he => absurd (h b o) he

theorem relocate_map {p : Fin g.blocksPerDevice} {pg : Page} {l' : Fin g.datablksPerDevice}
    (h : f.firstMapped p = some l') (k : Fin g.datablksPerDevice) :
    (f.relocate p o pg).map k = if k = l' then some f.reserved else f.map k :=
  remap_map h k

theorem relocate_page (p : Fin g.blocksPerDevice) (pg : Page) (b : Fin g.blocksPerDevice)
    (o' : Fin g.pagesPerBlock) :
    (f.relocate p o pg).page b o' =
      if b = f.reserved then (if o' = o then pg else Page.blank) else f.page b o' := by
  simp only [relocate, program_page, erase_page, remap_page]
  by_cases hb : b = f.reserved <;> simp [hb]

@[simp] theorem relocate_reserved (p : Fin g.blocksPerDevice) (pg : Page) :
    (f.relocate p o pg).reserved = p := rfl

theorem covered_write (h : Covered f) (l : Fin g.datablksPerDevice) (o : Fin g.pagesPerBlock)
    (d : Sector) : Covered (f.write l o d) := by
  intro b o' hb he
  cases hm : f.map l with
  | some p =>
    by_cases hp : (f.page p o).Erased
    · rw [write_inplace d hm hp] at hb he ⊢
      by_cases hbp : b = p
      · subst hbp; exact ⟨l, hm⟩
      · simp only [program_page, hbp, false_and, if_false] at he
        exact h b o' hb he
    · rw [write_overwrite d hm hp] at hb he ⊢
      obtain ⟨l', hl'⟩ := exists_firstMapped hm
      by_cases hbr : b = f.reserved
      · subst hbr; exact ⟨l', by simp [relocate_map hl']⟩
      · rw [relocate_page, if_neg hbr] at he
        obtain ⟨k, hk⟩ := h b o' hbr he
        have hkl : k ≠ l' := by
          rintro rfl
          rw [firstMapped_some hl'] at hk
          exact hb (Option.some.inj hk).symm
        exact ⟨k, by simp [relocate_map hl', hkl, hk]⟩
  | none =>
    cases hq : f.freeBlock o with
    | none => simp only [write, hm, hq] at hb he ⊢; exact h b o' hb he
    | some q =>
      rw [write_alloc d hm hq] at hb he ⊢
      by_cases hbq : b = q
      · subst hbq; exact ⟨l, by simp [assign_map]⟩
      · simp only [program_page, hbq, false_and, if_false] at he
        obtain ⟨k, hk⟩ := h b o' hb he
        have hkl : k ≠ l := by rintro rfl; rw [hm] at hk; cases hk
        exact ⟨k, by simp [assign_map, hkl, hk]⟩

/-- The counting argument: the blocks outside the reserve are as many as the logical blocks, so
they cannot all be images when one logical block is unmapped. -/
theorem exists_freeBlock (h : Covered f) (hm : f.map l = none) (o : Fin g.pagesPerBlock) :
    ∃ q, f.freeBlock o = some q := by
  cases hq : f.freeBlock o with
  | some q => exact ⟨q, rfl⟩
  | none =>
    have hfull : ∀ b, b ≠ f.reserved → ∃ k, f.map k = some b := by
      intro b hb
      refine h b o hb fun he => ?_
      have := List.find?_eq_none.mp hq b (List.mem_finRange b)
      simp [hb, he] at this
    have : Nonempty (Fin g.datablksPerDevice) := ⟨l⟩
    choose! owner howner using hfull
    have hcard : (Finset.univ.erase l).card < (Finset.univ.erase f.reserved).card := by
      have := g.two_le_blocks
      have hD : g.datablksPerDevice = g.blocksPerDevice - 1 := rfl
      simp only [Finset.card_erase_of_mem (Finset.mem_univ _), Finset.card_univ, Fintype.card_fin]
      omega
    have hmaps : ∀ b ∈ Finset.univ.erase f.reserved, owner b ∈ Finset.univ.erase l := by
      intro b hb
      have hb' := howner b (Finset.ne_of_mem_erase hb)
      refine Finset.mem_erase.mpr ⟨fun he => ?_, Finset.mem_univ _⟩
      rw [he, hm] at hb'; cases hb'
    obtain ⟨x, hx, y, hy, hne, hxy⟩ := Finset.exists_ne_map_eq_of_card_lt_of_maps_to hcard hmaps
    have hx' := howner x (Finset.ne_of_mem_erase hx)
    rw [hxy, howner y (Finset.ne_of_mem_erase hy)] at hx'
    exact absurd (Option.some.inj hx').symm hne

/-! ## The mapping -/

structure Exclusive (f : Flash g) : Prop where
  inj : ∀ l l' p, f.map l = some p → f.map l' = some p → l = l'
  not_reserved : ∀ l, f.map l ≠ some f.reserved

/-- An unmapped logical block does not get a block that is mapped: a mapped block whose page at
the offset is erased never comes first in the search. -/
def AllocatesFresh (f : Flash g) (l : Fin g.datablksPerDevice) (o : Fin g.pagesPerBlock) : Prop :=
  f.map l = none → ∀ l' p, f.map l' = some p → (f.page p o).Erased →
    ∃ b, b < p ∧ b ≠ f.reserved ∧ (f.page b o).Erased

theorem exclusive_alloc_iff (hx : Exclusive f) {q : Fin g.blocksPerDevice} (hm : f.map l = none)
    (hq : f.freeBlock o = some q) (pg : Page) :
    Exclusive ((f.assign l q).program q o pg) ↔ ∀ l', f.map l' ≠ some q := by
  have hmap : ∀ k, ((f.assign l q).program q o pg).map k = if k = l then some q else f.map k :=
    fun k => assign_map f l q k
  constructor
  · intro h l' hl'
    have hne : l' ≠ l := by rintro rfl; rw [hm] at hl'; cases hl'
    exact hne (h.inj l' l q (by simp [hmap, hne, hl']) (by simp [hmap]))
  · intro hfresh
    refine ⟨fun k k' p hk hk' => ?_, fun k hk => ?_⟩
    · rw [hmap] at hk hk'
      split at hk <;> split at hk'
      · simp_all
      · cases hk; exact absurd hk' (hfresh k')
      · cases hk'; exact absurd hk (hfresh k)
      · exact hx.inj k k' p hk hk'
    · rw [hmap] at hk
      split at hk
      · exact (freeBlock_some hq).1 (Option.some.inj hk)
      · exact hx.not_reserved k hk

theorem exclusive_relocate (hx : Exclusive f) {p : Fin g.blocksPerDevice} (hm : f.map l = some p)
    (pg : Page) : Exclusive (f.relocate p o pg) := by
  obtain ⟨l', hl'⟩ := exists_firstMapped hm
  obtain rfl : l' = l := hx.inj l' l p (firstMapped_some hl') hm
  refine ⟨fun k k' q hk hk' => ?_, fun k hk => ?_⟩
  · rw [relocate_map hl'] at hk hk'
    split at hk <;> split at hk'
    · simp_all
    · cases hk; exact absurd hk' (hx.not_reserved k')
    · cases hk'; exact absurd hk (hx.not_reserved k)
    · exact hx.inj k k' q hk hk'
  · rw [relocate_map hl', relocate_reserved] at hk
    split at hk
    · cases hk; exact hx.not_reserved l' hm
    · rename_i hne; exact hne (hx.inj k l' p hk hm)

theorem exclusive_write_iff (hx : Exclusive f) (hc : Covered f) (l : Fin g.datablksPerDevice)
    (o : Fin g.pagesPerBlock) (d : Sector) :
    Exclusive (f.write l o d) ↔ AllocatesFresh f l o := by
  cases hm : f.map l with
  | some p =>
    refine iff_of_true ?_ (fun h => by rw [hm] at h; cases h)
    by_cases hp : (f.page p o).Erased
    · rw [write_inplace d hm hp]; exact ⟨hx.inj, hx.not_reserved⟩
    · rw [write_overwrite d hm hp]; exact exclusive_relocate hx hm _
  | none =>
    obtain ⟨q, hq⟩ := exists_freeBlock hc hm o
    rw [write_alloc d hm hq, exclusive_alloc_iff hx hm hq]
    constructor
    · intro hfresh _ l' p hl' he
      have hpr : p ≠ f.reserved := by rintro rfl; exact hx.not_reserved l' hl'
      have hle := freeBlock_least hq hpr he
      have hne : q ≠ p := by rintro rfl; exact hfresh l' hl'
      exact ⟨q, by omega, freeBlock_some hq⟩
    · intro hall l' hl'
      obtain ⟨b, hlt, hb⟩ := hall hm l' q hl' (freeBlock_some hq).2
      exact absurd (freeBlock_least hq hb.1 hb.2) (by omega)

/-- The logical blocks a write leaves mapped: those mapped before, and its own. -/
theorem write_map_ne_none (hc : Covered f) (l : Fin g.datablksPerDevice) (o : Fin g.pagesPerBlock)
    (d : Sector) (k : Fin g.datablksPerDevice) :
    (f.write l o d).map k ≠ none ↔ k = l ∨ f.map k ≠ none := by
  cases hm : f.map l with
  | some p =>
    have hl : k = l ∨ f.map k ≠ none ↔ f.map k ≠ none := by
      constructor
      · rintro (rfl | h)
        · simp [hm]
        · exact h
      · exact .inr
    rw [hl]
    by_cases hp : (f.page p o).Erased
    · rw [write_inplace d hm hp]; rfl
    · obtain ⟨l', hl'⟩ := exists_firstMapped hm
      rw [write_overwrite d hm hp, relocate_map hl']
      split
      · rename_i h; subst h; simp [firstMapped_some hl']
      · rfl
  | none =>
    obtain ⟨q, hq⟩ := exists_freeBlock hc hm o
    rw [write_alloc d hm hq, program_map, assign_map]
    by_cases hk : k = l <;> simp [hk]

/-! ## The data -/

/-- Every sector in `h` is programmed, tag and data, where the table points. -/
def Stores (f : Flash g)
    (h : Fin g.datablksPerDevice → Fin g.pagesPerBlock → Option Sector) : Prop :=
  ∀ l o d, h l o = some d → ∃ p, f.map l = some p ∧ f.page p o = createPage d ⟨sectorOf l o⟩

/-- A relocation takes away nothing live: the logical block has no other tagged page in its block,
it is the first entry mapped there, and no other logical block lives in the reserved block. -/
def KeepsData (f : Flash g) (l : Fin g.datablksPerDevice) (o : Fin g.pagesPerBlock) : Prop :=
  ∀ p, f.map l = some p → ¬ (f.page p o).Erased →
    (∀ o', o' ≠ o → (f.page p o').spare.lsn ≠ sectorOf l o') ∧
    (∀ l', l' < l → f.map l' ≠ some p) ∧
    ∀ l', l' ≠ l → f.map l' ≠ some f.reserved

theorem createPage_not_erased (d : Sector) (l : Fin g.datablksPerDevice)
    (o : Fin g.pagesPerBlock) : ¬ (createPage d ⟨sectorOf l o⟩).Erased := by
  have := sectorOf_nonneg l o
  simp only [Page.Erased, createPage]
  omega

/-! ## The reserved block -/

/-- Every mapped block holds a programmed page. -/
def Occupied (f : Flash g) : Prop := ∀ l p, f.map l = some p → ∃ o, ¬ (f.page p o).Erased

theorem occupied_program (hoc : Occupied f) {p : Fin g.blocksPerDevice} {pg : Page}
    (hpg : ¬ pg.Erased) {f' : Flash g} (hpage : f'.page = (f.program p o pg).page)
    (hmap : ∀ k b, f'.map k = some b → b = p ∨ f.map k = some b) : Occupied f' := by
  intro k b hb
  by_cases hbp : b = p
  · exact ⟨o, by simpa [hpage, program_page, hbp] using hpg⟩
  · obtain ⟨o', ho'⟩ := hoc k b ((hmap k b hb).resolve_left hbp)
    exact ⟨o', by simpa [hpage, program_page, hbp] using ho'⟩

theorem occupied_relocate (hoc : Occupied f) {p : Fin g.blocksPerDevice} (hm : f.map l = some p)
    {pg : Page} (hpg : ¬ pg.Erased) : Occupied (f.relocate p o pg) := by
  obtain ⟨l', hl'⟩ := exists_firstMapped hm
  intro k b hb
  by_cases hbr : b = f.reserved
  · exact ⟨o, by simpa [relocate_page, hbr] using hpg⟩
  · have hkb : f.map k = some b := by
      rw [relocate_map hl'] at hb
      split at hb
      · exact absurd (Option.some.inj hb).symm hbr
      · exact hb
    obtain ⟨o', ho'⟩ := hoc k b hkb
    exact ⟨o', by simpa [relocate_page, hbr] using ho'⟩

theorem occupied_write (hoc : Occupied f) (hc : Covered f) (l : Fin g.datablksPerDevice)
    (o : Fin g.pagesPerBlock) (d : Sector) : Occupied (f.write l o d) := by
  have hpg := createPage_not_erased d l o
  cases hm : f.map l with
  | some p =>
    by_cases he : (f.page p o).Erased
    · rw [write_inplace d hm he]
      exact occupied_program hoc hpg rfl fun _ _ hb => .inr hb
    · rw [write_overwrite d hm he]
      exact occupied_relocate hoc hm hpg
  | none =>
    obtain ⟨q, hq⟩ := exists_freeBlock hc hm o
    rw [write_alloc d hm hq]
    refine occupied_program hoc hpg rfl fun k b hb => ?_
    rw [program_map, assign_map] at hb
    split at hb
    · exact .inl (Option.some.inj hb).symm
    · exact .inr hb

/-- After a write the reserved block is erased, when it was before, unless the write overwrote:
then the reserve is the block just left, which still holds the page overwritten. -/
theorem reserve_write_iff (hoc : Occupied f) (hc : Covered f)
    (hres : ∀ o', (f.page f.reserved o').Erased) (l : Fin g.datablksPerDevice)
    (o : Fin g.pagesPerBlock) (d : Sector) :
    (∀ o', ((f.write l o d).page (f.write l o d).reserved o').Erased) ↔ ¬ f.Overwrites l o := by
  cases hm : f.map l with
  | some p =>
    by_cases he : (f.page p o).Erased
    · refine iff_of_true (fun o' => ?_) (by rintro ⟨p', hp', hpe⟩; simp_all)
      have hpr : f.reserved ≠ p := by
        rintro rfl
        obtain ⟨o', ho'⟩ := hoc l _ hm
        exact ho' (hres o')
      rw [write_inplace d hm he, program_reserved, program_page]
      simpa [hpr] using hres o'
    · refine iff_of_false (fun h => ?_) (fun h => h ⟨p, hm, he⟩)
      have := h o
      rw [write_overwrite d hm he, relocate_reserved, relocate_page, if_pos rfl] at this
      split at this
      · exact createPage_not_erased d l o this
      · exact he this
  | none =>
    obtain ⟨q, hq⟩ := exists_freeBlock hc hm o
    refine iff_of_true (fun o' => ?_) (by rintro ⟨p', hp', -⟩; rw [hm] at hp'; cases hp')
    have hqr : f.reserved ≠ q := fun h => (freeBlock_some hq).1 h.symm
    rw [write_alloc d hm hq, program_reserved, assign_reserved, program_page]
    simpa [hqr] using hres o'

variable {h : Fin g.datablksPerDevice → Fin g.pagesPerBlock → Option Sector}

/-- Programming an erased page disturbs no stored sector. -/
theorem stores_program (hs : Stores f h) {p : Fin g.blocksPerDevice} (he : (f.page p o).Erased)
    (d : Sector) {f' : Flash g} (hpage : f'.page = (f.program p o (createPage d ⟨sectorOf l o⟩)).page)
    (hl : f'.map l = some p) (hmap : ∀ k b, f.map k = some b → f'.map k = some b) :
    Stores f' (Function.update h l (Function.update (h l) o (some d))) := by
  intro l' o' d' hd'
  by_cases heq : l' = l ∧ o' = o
  · obtain ⟨rfl, rfl⟩ := heq
    simp only [Function.update_self, Option.some.injEq] at hd'
    subst hd'
    exact ⟨p, hl, by simp [hpage, program_page]⟩
  · have hold : h l' o' = some d' := by
      by_cases hll : l' = l
      · subst hll
        have hoo : o' ≠ o := fun e => heq ⟨rfl, e⟩
        simpa [hoo] using hd'
      · simpa [hll] using hd'
    obtain ⟨p', hp', hpg⟩ := hs l' o' d' hold
    have hne : ¬ (p' = p ∧ o' = o) := by
      rintro ⟨rfl, rfl⟩
      rw [hpg] at he
      exact createPage_not_erased d' l' o' he
    exact ⟨p', hmap l' p' hp', by rw [hpage, program_page, if_neg hne, hpg]⟩

theorem stores_relocate (hs : Stores f h) {p : Fin g.blocksPerDevice} (hm : f.map l = some p)
    (he : ¬ (f.page p o).Erased) (hk : KeepsData f l o) (d : Sector) :
    Stores (f.relocate p o (createPage d ⟨sectorOf l o⟩))
      (Function.update h l (Function.update (h l) o (some d))) := by
  obtain ⟨htag, hfirst, hres⟩ := hk p hm he
  obtain ⟨l₁, hl₁⟩ := exists_firstMapped hm
  obtain rfl : l₁ = l := by
    have hle := firstMapped_least hl₁ hm
    by_contra hne
    exact hfirst l₁ (by omega) (firstMapped_some hl₁)
  intro l' o' d' hd'
  by_cases hll : l' = l₁
  · subst hll
    by_cases hoo : o' = o
    · subst hoo
      simp only [Function.update_self, Option.some.injEq] at hd'
      subst hd'
      exact ⟨f.reserved, by simp [relocate_map hl₁], by simp [relocate_page]⟩
    · -- another sector of the same logical block would carry its tag in `p`
      have hold : h l' o' = some d' := by simpa [hoo] using hd'
      obtain ⟨p', hp', hpg⟩ := hs l' o' d' hold
      obtain rfl : p' = p := by rw [hm] at hp'; exact (Option.some.inj hp').symm
      exact absurd (by rw [hpg]; rfl) (htag o' hoo)
  · have hold : h l' o' = some d' := by simpa [hll] using hd'
    obtain ⟨p', hp', hpg⟩ := hs l' o' d' hold
    have hpr : p' ≠ f.reserved := by rintro rfl; exact hres l' hll hp'
    exact ⟨p', by simp [relocate_map hl₁, hll, hp'], by rw [relocate_page, if_neg hpr, hpg]⟩

theorem stores_write (hs : Stores f h) (hc : Covered f) (hk : KeepsData f l o) (d : Sector) :
    Stores (f.write l o d) (Function.update h l (Function.update (h l) o (some d))) := by
  cases hm : f.map l with
  | some p =>
    by_cases he : (f.page p o).Erased
    · rw [write_inplace d hm he]
      exact stores_program hs he d rfl hm (fun _ _ hb => hb)
    · rw [write_overwrite d hm he]
      exact stores_relocate hs hm he hk d
  | none =>
    obtain ⟨q, hq⟩ := exists_freeBlock hc hm o
    rw [write_alloc d hm hq]
    refine stores_program hs (freeBlock_some hq).2 d rfl (by simp [assign_map]) fun k b hb => ?_
    have hkl : k ≠ l := by rintro rfl; rw [hm] at hb; cases hb
    simp [assign_map, hkl, hb]

end Flash
end Ftl
end SsuComputer
