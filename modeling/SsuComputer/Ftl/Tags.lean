import SsuComputer.Ftl.Correct

/-!
# SsuComputer.Ftl.Tags

The tags in the spare areas against the mapping table.

* `Flash.TagsAgree` — a page of a mapped block is erased, or tagged with the sector that the table
  puts there.
* `tagsAgree_write_iff` — a write keeps it, next to an exclusive mapping, exactly when the mapping
  stays exclusive: a shared block has a tag of one of its logical blocks only.
* `tagsAgree_iff` — over runs: exactly as long as no first allocation shares a block.
-/

namespace SsuComputer
namespace Ftl

variable {g : Geometry}

namespace Flash

variable {f : Flash g} {l : Fin g.datablksPerDevice} {o : Fin g.pagesPerBlock}

def Agrees (f : Flash g) (l : Fin g.datablksPerDevice) (p : Fin g.blocksPerDevice) : Prop :=
  ∀ o, (f.page p o).Erased ∨ (f.page p o).spare.lsn = sectorOf l o

def TagsAgree (f : Flash g) : Prop := ∀ l p, f.map l = some p → f.Agrees l p

theorem agrees_program {p : Fin g.blocksPerDevice} (h : f.Agrees l p) (d : Sector) {f' : Flash g}
    (hpage : f'.page = (f.program p o (createPage d ⟨sectorOf l o⟩)).page) : f'.Agrees l p := by
  intro o'
  rw [hpage, program_page]
  by_cases ho : o' = o
  · subst ho
    simp [createPage]
  · simpa [ho] using h o'

theorem agrees_congr {f' : Flash g} {p : Fin g.blocksPerDevice} (h : f.Agrees l p)
    (hpage : ∀ o, f'.page p o = f.page p o) : f'.Agrees l p := by
  intro o
  rw [hpage]
  exact h o

/-- Two logical blocks in one block disagree about the page just written. -/
theorem not_tagsAgree_shared {p : Fin g.blocksPerDevice} {l' : Fin g.datablksPerDevice} (hne : l' ≠ l)
    (hmap : f.map l' = some p) {d : Sector} (hpage : f.page p o = createPage d ⟨sectorOf l o⟩) :
    ¬ TagsAgree f := by
  intro h
  rcases h l' p hmap o with he | htag
  · rw [hpage] at he
    exact createPage_not_erased d l o he
  · rw [hpage] at htag
    exact hne (sectorOf_inj.mp htag).1.symm

theorem tagsAgree_inplace {p : Fin g.blocksPerDevice} (hx : Exclusive f) (ht : TagsAgree f)
    (hm : f.map l = some p) (he : (f.page p o).Erased) (d : Sector) : TagsAgree (f.write l o d) := by
  rw [write_inplace d hm he]
  intro k q hq
  by_cases hk : k = l
  · subst hk
    obtain rfl : p = q := Option.some.inj (hm.symm.trans hq)
    exact agrees_program (ht k p hm) d rfl
  · have hne : q ≠ p := by
      rintro rfl
      exact hk (hx.inj k l q hq hm)
    refine agrees_congr (ht k q hq) ?_
    intro o'
    simp [program_page, hne]

theorem tagsAgree_overwrite {p : Fin g.blocksPerDevice} (hx : Exclusive f) (ht : TagsAgree f)
    (hm : f.map l = some p) (he : ¬ (f.page p o).Erased) (d : Sector) :
    TagsAgree (f.write l o d) := by
  rw [write_overwrite d hm he]
  obtain ⟨l', hl'⟩ := exists_firstMapped hm
  obtain rfl : l' = l := hx.inj l' l p (firstMapped_some hl') hm
  intro k q hq
  rw [relocate_map hl'] at hq
  by_cases hk : k = l'
  · subst hk
    rw [if_pos rfl] at hq
    obtain rfl := Option.some.inj hq
    intro o'
    rw [relocate_page, if_pos rfl]
    by_cases ho : o' = o
    · subst ho
      simp [createPage]
    · simp [ho, Page.blank_erased]
  · rw [if_neg hk] at hq
    have hqr : q ≠ f.reserved := by
      rintro rfl
      exact hx.not_reserved k hq
    refine agrees_congr (ht k q hq) ?_
    intro o'
    rw [relocate_page, if_neg hqr]

/-- A block taken anew must not be in use already. -/
theorem tagsAgree_alloc_iff (hx : Exclusive f) (ht : TagsAgree f) (hc : Covered f)
    (hm : f.map l = none) (o : Fin g.pagesPerBlock) (d : Sector) :
    TagsAgree (f.write l o d) ↔ Exclusive (f.write l o d) := by
  obtain ⟨q, hq⟩ := exists_freeBlock hc hm o
  rw [write_alloc d hm hq, exclusive_alloc_iff hx hm hq]
  constructor
  · intro h l' hl'
    have hne : l' ≠ l := by
      rintro rfl
      rw [hm] at hl'
      cases hl'
    refine not_tagsAgree_shared (p := q) (o := o) (d := d) hne ?_ ?_ h
    · rw [program_map, assign_map, if_neg hne, hl']
    · rw [program_page, if_pos ⟨rfl, rfl⟩]
  · intro hfresh k p hp
    rw [program_map, assign_map] at hp
    by_cases hk : k = l
    · subst hk
      rw [if_pos rfl] at hp
      obtain rfl := Option.some.inj hp
      refine agrees_program ?_ d rfl
      -- an unmapped block outside the reserve is erased
      intro o'
      refine .inl ?_
      by_contra he
      obtain ⟨k', hk'⟩ := hc q o' (freeBlock_some hq).1 he
      exact hfresh k' hk'
    · rw [if_neg hk] at hp
      have hpq : p ≠ q := by
        rintro rfl
        exact hfresh k hp
      refine agrees_congr (ht k p hp) ?_
      intro o'
      simp [program_page, hpq]

theorem tagsAgree_write_iff (hx : Exclusive f) (ht : TagsAgree f) (hc : Covered f)
    (l : Fin g.datablksPerDevice) (o : Fin g.pagesPerBlock) (d : Sector) :
    TagsAgree (f.write l o d) ↔ Exclusive (f.write l o d) := by
  cases hm : f.map l with
  | some p =>
    by_cases he : (f.page p o).Erased
    · refine iff_of_true (tagsAgree_inplace hx ht hm he d) ?_
      rw [write_inplace d hm he]
      exact ⟨hx.inj, hx.not_reserved⟩
    · refine iff_of_true (tagsAgree_overwrite hx ht hm he d) ?_
      rw [write_overwrite d hm he]
      exact exclusive_relocate hx hm _
  | none => exact tagsAgree_alloc_iff hx ht hc hm o d

end Flash

/-! ## Runs -/

/-- Page `s` of the block of `lbn` is erased or carries `lbn * SECTORS_PER_BLOCK + s`. -/
def TagsAgree (g : Geometry) (s : State) : Prop :=
  ∀ l < g.datablksPerDevice, s.pbn l ≠ -1 → ∀ o < g.pagesPerBlock,
    (pageAt g s (s.pbn l) o).Erased ∨
      (pageAt g s (s.pbn l) o).spare.lsn = l * g.sectorsPerBlock + o

theorem entryOf_inj {m m' : Option (Fin g.blocksPerDevice)} (h : entryOf m = entryOf m') : m = m' := by
  cases m with
  | none => exact (entryOf_eq_neg_one.mp h.symm).symm
  | some b => exact (entryOf_eq_natCast.mp h.symm).symm

namespace Represents

variable {s : State} {f : Flash g}

theorem unique {f' : Flash g} (h : Represents s f) (h' : Represents s f') : f = f' := by
  have hpage : f.page = f'.page := by
    funext b o
    rw [← h.page, ← h'.page]
  have hmap : f.map = f'.map := by
    funext l
    exact entryOf_inj ((h.pbn l).symm.trans (h'.pbn l))
  have hres : f.reserved = f'.reserved := by
    have := h.reserved.symm.trans h'.reserved
    exact Fin.ext (by omega)
  cases f
  cases f'
  simp only at hpage hmap hres
  rw [hpage, hmap, hres]

theorem tagsAgree (hr : Represents s f) : TagsAgree g s ↔ f.TagsAgree := by
  constructor
  · intro h l p hp o
    have hpbn := hr.pbn_eq_natCast.mpr hp
    have := h l l.isLt (by rw [hpbn]; omega) o o.isLt
    rw [hpbn, hr.pageAt, Geometry.sectorsPerBlock_eq] at this
    exact this
  · intro h k hk hmap o ho
    cases hm : f.map ⟨k, hk⟩ with
    | none => exact absurd ((hr.pbn_eq_neg_one ⟨k, hk⟩).mpr hm) hmap
    | some p =>
      have hp : s.pbn (k : Int) = p := hr.pbn_eq_natCast.mpr hm
      have hpage : Ftl.pageAt g s p o = f.page p ⟨o, ho⟩ := hr.pageAt p ⟨o, ho⟩
      rw [hp, hpage, Geometry.sectorsPerBlock_eq]
      exact h ⟨k, hk⟩ p hm ⟨o, ho⟩

end Represents

/-- **Tags and table.** They agree after every prefix of a run exactly when no call of the run
allocates a block that is already mapped. -/
theorem tagsAgree_iff (g : Geometry) (calls : List Call) (hin : ∀ c ∈ calls, InRange g c.lsn) :
    (∀ pre, pre <+: calls → TagsAgree g (run g pre)) ↔
      Run.Guarded (stepCall g) (AllocatesFresh g) (boot g) calls := by
  have hboot := boot_represents g
  refine Run.always_iff_guarded_of (I := fun _ s => ∃ f : Flash g, Represents s f ∧ f.Covered)
    (Q := fun _ s => ∃ f : Flash g, Represents s f ∧ f.Exclusive) (P := fun _ s => TagsAgree g s)
    ⟨_, hboot, fresh_covered g⟩ ⟨_, hboot, ?_⟩ ?_ ?_ ?_ ?_ calls hin
  · exact ⟨fun _ _ _ h => (by cases h), fun _ h => (by cases h)⟩
  · rw [hboot.tagsAgree]
    intro l p h
    cases h
  · rintro _ s c ⟨f, hr, hc⟩ hadm
    obtain ⟨l, o, ha⟩ := exists_address hadm
    exact ⟨_, stepCall_refines hr hc ha⟩
  · rintro _ s c ⟨f, hr, hc⟩ ⟨f', hr', hx⟩ _ hadm hfresh
    obtain rfl := hr.unique hr'
    obtain ⟨l, o, ha⟩ := exists_address hadm
    rw [hr.allocatesFresh ha] at hfresh
    exact ⟨_, (stepCall_refines hr hc ha).1, (Flash.exclusive_write_iff hx hc l o _).mpr hfresh⟩
  · rintro _ s c ⟨f, hr, hc⟩ ⟨f', hr', hx⟩ htags hadm
    obtain rfl := hr.unique hr'
    obtain ⟨l, o, ha⟩ := exists_address hadm
    rw [(stepCall_refines hr hc ha).1.tagsAgree, hr.allocatesFresh ha,
      ← Flash.exclusive_write_iff hx hc l o c.sectorbuf]
    exact Flash.tagsAgree_write_iff hx (hr.tagsAgree.mp htags) hc l o c.sectorbuf

/-- Sector 3 follows sector 1 into physical block 0, which both logical blocks are then mapped to:
page 1 carries the tag 3 and, by logical block 0, should carry 1. -/
theorem tags_disagree :
    ¬ ∀ (g : Geometry) (calls : List Call), (∀ c ∈ calls, InRange g c.lsn) →
      TagsAgree g (run g calls) := by
  intro h
  have hok := h threeBlocks [writeOf 0 7, writeOf 3 8] (by decide)
  exact absurd (hok 0 (by decide) (by decide) 1 (by decide)) (by decide)

theorem tagsAgree_two_blocks :
    TagsAgree threeBlocks (run threeBlocks [writeOf 0 7, writeOf 2 8, writeOf 3 9]) :=
  (tagsAgree_iff threeBlocks [writeOf 0 7, writeOf 2 8, writeOf 3 9] (by decide)).mpr (by decide) _
    (List.prefix_refl _)

end Ftl
end SsuComputer
