import SsuComputer.Ftl.Flash
import Mathlib.Tactic.Linarith

/-!
# SsuComputer.Ftl.Refine

The program refines the flash model: from a state that represents `f`, an in-range `ftlWrite` ends
in a state that represents `f.write` (`ftlWrite_refines`), as long as an unmapped logical block
finds a free physical block.

* `Sees s s'` — `s'` differs from `s` at most in the file position and in accesses that program
  nothing; every reading function of the source is of this kind.
* `programs` — the pages programmed so far, each with what was found there.
-/

namespace SsuComputer
namespace Ftl

variable {g : Geometry}

def Event.programs : Event → List (Int × Page)
  | .program ppn found => [(ppn, found)]
  | _ => []

def State.programs (s : State) : List (Int × Page) := s.trace.flatMap Event.programs

@[simp] theorem State.programs_setPbn (s : State) (i v : Int) :
    (s.setPbn i v).programs = s.programs := by
  simp [State.programs, State.setPbn, State.log, Event.programs]

structure Sees (s s' : State) : Prop where
  page : s'.dev.page = s.dev.page
  npages : s'.dev.npages = s.dev.npages
  pbn : s'.pbn = s.pbn
  reserved : s'.reservedEmptyBlk = s.reservedEmptyBlk
  programs : s'.programs = s.programs

namespace Sees

theorem refl (s : State) : Sees s s := ⟨rfl, rfl, rfl, rfl, rfl⟩

theorem trans {s s' s'' : State} (h : Sees s s') (h' : Sees s' s'') : Sees s s'' :=
  ⟨h'.page.trans h.page, h'.npages.trans h.npages, h'.pbn.trans h.pbn,
    h'.reserved.trans h.reserved, h'.programs.trans h.programs⟩

theorem log (s : State) {e : Event} (he : e.programs = []) : Sees s (s.log e) :=
  ⟨rfl, rfl, rfl, rfl, by simp [State.programs, State.log, he]⟩

theorem getPage (ppn : Int) (buf : Page) (s : State) : Sees s (getPage ppn buf s).2.2 :=
  ⟨Device.ddRead_page .., Device.ddRead_npages .., rfl, rfl,
    by simp [Ftl.getPage, State.ddRead, State.programs, State.log, Event.programs]⟩

theorem isUsed (junk : Page) (ppn : Int) (s : State) : Sees s (isUsed junk ppn s).2 := by
  have h := getPage ppn junk s
  unfold Ftl.isUsed
  split <;> rename_i hg <;> rw [hg] at h
  · exact h
  · split
    · exact h
    · split <;> exact h

theorem printAddrmaptblInfo (junk : Page) (lsn : Int) (s : State) :
    Sees s (printAddrmaptblInfo g junk lsn s) :=
  (log s rfl).trans (getPage _ _ _)

theorem writePrologue (junk : Page) (lsn : Int) (s : State) :
    Sees s (writePrologue g junk lsn s) :=
  (printAddrmaptblInfo junk lsn s).trans (log _ rfl)

theorem saveStep (pbn : Int) (t : Nat) (x : Saved × State) :
    Sees x.2 (saveStep g pbn t x).2 := by
  have h := getPage (calPpn g pbn t) x.1.pagebuf x.2
  simp only [Ftl.saveStep]
  split
  · exact h.trans (log _ rfl)
  · exact h

theorem savePages (pbn : Int) (skip : Nat → Bool) (ts : List Nat) :
    ∀ x : Saved × State, Sees x.2 (savePages g pbn skip ts x).2 := by
  induction ts with
  | nil => intro x; exact refl _
  | cons t ts ih =>
    intro x
    simp only [Ftl.savePages, List.foldl_cons]
    split
    · exact ih x
    · exact (saveStep pbn t x).trans (ih _)

end Sees

/-! ## States that represent a flash -/

def entryOf (m : Option (Fin g.blocksPerDevice)) : Int := m.elim (-1) (fun b => b)

@[simp] theorem entryOf_none : entryOf (none : Option (Fin g.blocksPerDevice)) = -1 := rfl
@[simp] theorem entryOf_some (b : Fin g.blocksPerDevice) : entryOf (some b) = b := rfl

theorem entryOf_eq_natCast {m : Option (Fin g.blocksPerDevice)} {b : Fin g.blocksPerDevice} :
    entryOf m = b ↔ m = some b := by
  cases m with
  | none => simp [show (-1 : Int) ≠ ((b : Nat) : Int) by omega]
  | some p => simp [Fin.ext_iff]

theorem entryOf_eq_neg_one {m : Option (Fin g.blocksPerDevice)} : entryOf m = -1 ↔ m = none := by
  cases m with
  | none => simp
  | some p => simp

/-- The page number of offset `o` of block `b`. -/
def ppnOf (b : Fin g.blocksPerDevice) (o : Fin g.pagesPerBlock) : Nat := b * g.pagesPerBlock + o

structure Represents (s : State) (f : Flash g) : Prop where
  npages : s.dev.npages = g.blocksPerDevice * g.pagesPerBlock
  page : ∀ b o, s.dev.page (ppnOf b o) = f.page b o
  pbn : ∀ l : Fin g.datablksPerDevice, s.pbn l = entryOf (f.map l)
  reserved : s.reservedEmptyBlk = f.reserved

theorem ppnOf_lt (b : Fin g.blocksPerDevice) (o : Fin g.pagesPerBlock) :
    ppnOf b o < g.blocksPerDevice * g.pagesPerBlock := by
  have hb : (b : Nat) + 1 ≤ g.blocksPerDevice := b.isLt
  calc ppnOf b o < b * g.pagesPerBlock + g.pagesPerBlock := by unfold ppnOf; omega
    _ = (b + 1) * g.pagesPerBlock := by ring
    _ ≤ g.blocksPerDevice * g.pagesPerBlock := Nat.mul_le_mul_right _ hb

theorem ppnOf_div (b : Fin g.blocksPerDevice) (o : Fin g.pagesPerBlock) :
    ppnOf b o / g.pagesPerBlock = b := by
  rw [ppnOf, Nat.mul_comm, Nat.mul_add_div g.pages_pos, Nat.div_eq_of_lt o.isLt, Nat.add_zero]

theorem ppnOf_mod (b : Fin g.blocksPerDevice) (o : Fin g.pagesPerBlock) :
    ppnOf b o % g.pagesPerBlock = o := by
  rw [ppnOf, Nat.mul_comm, Nat.mul_add_mod, Nat.mod_eq_of_lt o.isLt]

theorem ppnOf_inj {b b' : Fin g.blocksPerDevice} {o o' : Fin g.pagesPerBlock} :
    ppnOf b o = ppnOf b' o' ↔ b = b' ∧ o = o' := by
  constructor
  · intro h
    have hdiv := congrArg (· / g.pagesPerBlock) h
    have hmod := congrArg (· % g.pagesPerBlock) h
    simp only [ppnOf_div, ppnOf_mod] at hdiv hmod
    exact ⟨Fin.ext hdiv, Fin.ext hmod⟩
  · rintro ⟨rfl, rfl⟩; rfl

/-- The pages of block `b` are the page numbers from `b * pagesPerBlock` on. -/
theorem ppnOf_mem_block {b b' : Fin g.blocksPerDevice} {o' : Fin g.pagesPerBlock} :
    (b * g.pagesPerBlock ≤ ppnOf b' o' ∧ ppnOf b' o' < (b + 1) * g.pagesPerBlock) ↔ b' = b := by
  rw [Fin.ext_iff, ← ppnOf_div b' o', Nat.div_eq_iff g.pages_pos, Nat.add_mul, Nat.one_mul]
  have := g.pages_pos
  omega

theorem calPpn_eq (b : Fin g.blocksPerDevice) (o : Fin g.pagesPerBlock) :
    calPpn g b o = (ppnOf b o : Nat) := by
  simp [calPpn, ppnOf]

namespace Represents

variable {s s' : State} {f : Flash g}

theorem of_sees (hr : Represents s f) (h : Sees s s') : Represents s' f :=
  ⟨h.npages.trans hr.npages, fun b o => by rw [h.page]; exact hr.page b o,
    fun l => by rw [h.pbn]; exact hr.pbn l, h.reserved.trans hr.reserved⟩

theorem getPage (hr : Represents s f) (b : Fin g.blocksPerDevice) (o : Fin g.pagesPerBlock)
    (buf : Page) :
    (getPage (calPpn g b o) buf s).1 = true ∧
      (Ftl.getPage (calPpn g b o) buf s).2.1 = f.page b o := by
  have hlt : ppnOf b o < s.dev.npages := by rw [hr.npages]; exact ppnOf_lt b o
  simp [Ftl.getPage, State.ddRead, calPpn_eq, Device.ddRead_ok _ hlt, hr.page]

/-- `is_used` answers 0 exactly on an erased page. -/
theorem isUsed (hr : Represents s f) (b : Fin g.blocksPerDevice) (o : Fin g.pagesPerBlock)
    (junk : Page) : (isUsed junk (calPpn g b o) s).1 = 0 ↔ (f.page b o).Erased := by
  have hg := hr.getPage b o junk
  unfold Ftl.isUsed
  split <;> rename_i he <;> rw [he] at hg
  · simp at hg
  · obtain ⟨-, rfl⟩ := hg
    simp only [Page.Erased]
    split
    · rename_i h; simp; omega
    · split <;> rename_i h <;> simp [h]

theorem ddWrite (hr : Represents s f) (b : Fin g.blocksPerDevice) (o : Fin g.pagesPerBlock)
    (pg : Page) : Represents (s.ddWrite (calPpn g b o) pg) (f.program b o pg) := by
  have hlt : ppnOf b o < s.dev.npages := by rw [hr.npages]; exact ppnOf_lt b o
  refine ⟨?_, ?_, hr.pbn, hr.reserved⟩
  · simp [State.ddWrite, calPpn_eq, Device.ddWrite_ok _ hlt, hr.npages]
  · intro b' o'
    simp [State.ddWrite, calPpn_eq, Device.ddWrite_ok _ hlt, Function.update_apply, ppnOf_inj,
      Flash.program_page, hr.page]

theorem programs_ddWrite (hr : Represents s f) (b : Fin g.blocksPerDevice)
    (o : Fin g.pagesPerBlock) (pg : Page) :
    (s.ddWrite (calPpn g b o) pg).programs = s.programs ++ [(calPpn g b o, f.page b o)] := by
  simp [State.ddWrite, State.programs, State.log, Event.programs, calPpn_eq, hr.page]

theorem setPbn (hr : Represents s f) (l : Fin g.datablksPerDevice) (b : Fin g.blocksPerDevice) :
    Represents (s.setPbn l b) (f.assign l b) := by
  refine ⟨hr.npages, hr.page, ?_, hr.reserved⟩
  intro l'
  by_cases h : l' = l
  · subst h; simp [State.setPbn, Flash.assign_map]
  · have hne : ((l' : Nat) : Int) ≠ ((l : Nat) : Int) := by
      intro he; exact h (Fin.ext (by omega))
    simp [State.setPbn, Flash.assign_map, h, hne, hr.pbn]

theorem ddErase (hr : Represents s f) (b : Fin g.blocksPerDevice) :
    Represents (s.ddErase g b) (f.erase b) := by
  have hb : (b + 1) * g.pagesPerBlock ≤ s.dev.npages := by
    rw [hr.npages]; exact Nat.mul_le_mul_right _ b.isLt
  refine ⟨?_, ?_, hr.pbn, hr.reserved⟩
  · simp [State.ddErase, Device.ddErase_ok _ _ hb, hr.npages]
  · intro b' o'
    simp [State.ddErase, Device.ddErase_ok _ _ hb, ppnOf_mem_block, Flash.erase_page, hr.page]

/-- The copy-back loop changes no block but the one it writes to. -/
theorem restorePages (b : Fin g.blocksPerDevice) (sv : Saved) :
    ∀ (ts : List Nat) {s : State} {f : Flash g}, (∀ t ∈ ts, t < g.pagesPerBlock) →
      Represents s f →
      ∃ f', Represents (restorePages g b sv ts s) f' ∧ f'.erase b = f.erase b := by
  intro ts
  induction ts with
  | nil => intro s f _ hr; exact ⟨f, hr, rfl⟩
  | cons t ts ih =>
    intro s f hts hr
    have hts' : ∀ t' ∈ ts, t' < g.pagesPerBlock := fun t' ht' => hts t' (by simp [ht'])
    let o : Fin g.pagesPerBlock := ⟨t, hts t (by simp)⟩
    simp only [Ftl.restorePages, List.foldl_cons]
    split
    · have hw := (hr.of_sees (Sees.log s (e := .savedPage t) rfl)).ddWrite b o (sv.savedPage t)
      obtain ⟨f', hr', he⟩ := ih hts' hw
      exact ⟨f', hr', he.trans (Flash.program_erase ..)⟩
    · exact ih hts' hr

theorem remapFirst (old new : Fin g.blocksPerDevice) :
    ∀ (ls : List (Fin g.datablksPerDevice)) {s : State} {f : Flash g}, Represents s f →
      Represents (remapFirst old new (ls.map (·.val)) s)
        (match ls.find? (fun l => f.map l = some old) with
          | some l => f.assign l new
          | none => f) := by
  intro ls
  induction ls with
  | nil => intro s f hr; exact hr
  | cons l ls ih =>
    intro s f hr
    have hl : Represents (s.log (.table l)) f := hr.of_sees (Sees.log s rfl)
    have hpbn : s.pbn l = old ↔ f.map l = some old := by rw [hr.pbn, entryOf_eq_natCast]
    simp only [List.map_cons, Ftl.remapFirst, hpbn, List.find?_cons]
    by_cases h : f.map l = some old
    · simpa [h] using hl.setPbn l new
    · simpa [h] using ih hl

theorem remap (hr : Represents s f) (old new : Fin g.blocksPerDevice) :
    Represents (Ftl.remapFirst old new (List.range g.datablksPerDevice) s) (f.remap old new) := by
  rw [← List.map_coe_finRange_eq_range]
  exact hr.remapFirst old new (List.finRange _)

/-- `move_block` onto the reserved block: the table entry moves, the reserved block is blank.
What the copying loops wrote there does not survive the erase. -/
theorem moveBlock (hr : Represents s f) (junk : Page) (old : Fin g.blocksPerDevice) (e : Int) :
    Represents (moveBlock g junk s.reservedEmptyBlk old e s)
      ((f.remap old f.reserved).erase f.reserved) := by
  have hsv := hr.of_sees (Sees.savePages (g := g) old (fun t => decide (e = t))
    (List.range g.sectorsPerBlock) (⟨junk, fun _ => junk, 0⟩, s))
  have hlt : ∀ t ∈ List.range g.sectorsPerBlock, t < g.pagesPerBlock := by simp
  obtain ⟨f', hr', he⟩ := restorePages f.reserved _ _ hlt hsv
  have hres : f'.reserved = f.reserved := by simpa using congrArg Flash.reserved he
  have hend := hr'.remap old f.reserved
  have := hend.ddErase f.reserved
  rw [Flash.remap_erase, he, ← Flash.remap_erase] at this
  unfold Ftl.moveBlock
  simp only [hr.reserved]
  convert this using 2
  rw [hend.reserved, Flash.remap_reserved, hres]

/-- The search loop finds the first block that is not reserved and erased at the offset. -/
theorem searchEmpty (junk : Page) (o : Fin g.pagesPerBlock) :
    ∀ (bs : List (Fin g.blocksPerDevice)) (unused : Int) {s : State} {f : Flash g},
      Represents s f →
      (searchEmpty g junk o (bs.map (·.val)) unused s).1 =
          (bs.find? fun b => b ≠ f.reserved ∧ (f.page b o).Erased).map (·.val) ∧
        Sees s (Ftl.searchEmpty g junk o (bs.map (·.val)) unused s).2.2 := by
  intro bs
  induction bs with
  | nil => intro unused s f _; exact ⟨rfl, Sees.refl s⟩
  | cons b bs ih =>
    intro unused s f hr
    have hres : ((b : Nat) : Int) = s.reservedEmptyBlk ↔ b = f.reserved := by
      rw [hr.reserved, Fin.ext_iff]; omega
    have hsee := Sees.isUsed junk (calPpn g b o) s
    simp only [List.map_cons, Ftl.searchEmpty, hres, List.find?_cons, hr.isUsed b o junk]
    by_cases hb : b = f.reserved
    · simpa [hb] using ih unused hr
    · by_cases he : (f.page b o).Erased
      · simpa [hb, he] using hsee
      · simp only [hb, he, if_false]
        obtain ⟨h1, h2⟩ := ih (if (Ftl.isUsed junk (calPpn g b o) s).1 < -1 then (b : Nat) else unused)
          (hr.of_sees hsee)
        exact ⟨by simpa [hb, he] using h1, hsee.trans h2⟩

end Represents

/-! ## One in-range write -/

theorem calLbn_sectorOf (l : Fin g.datablksPerDevice) (o : Fin g.pagesPerBlock) :
    calLbn g (sectorOf l o) = l := by
  have ho := o.isLt
  rw [calLbn, Int.tdiv_eq_ediv_of_nonneg (sectorOf_nonneg l o), Geometry.sectorsPerBlock_eq, sectorOf,
    Int.add_comm, Int.add_mul_ediv_right _ _ (by omega), Int.ediv_eq_zero_of_lt (by omega) (by omega),
    Int.zero_add]

theorem calSectorOffset_sectorOf (l : Fin g.datablksPerDevice) (o : Fin g.pagesPerBlock) :
    calSectorOffset g (sectorOf l o) = o := by
  have ho := o.isLt
  rw [calSectorOffset, Int.tmod_eq_emod_of_nonneg (sectorOf_nonneg l o), Geometry.sectorsPerBlock_eq,
    sectorOf, Int.add_comm, Int.add_mul_emod_self_right, Int.emod_eq_of_lt (by omega) (by omega)]

theorem sectorOf_lt (l : Fin g.datablksPerDevice) (o : Fin g.pagesPerBlock) :
    sectorOf l o < g.datablksPerDevice * g.sectorsPerBlock := by
  have hl : (l : Nat) + 1 ≤ g.datablksPerDevice := l.isLt
  have ho := o.isLt
  have := Nat.mul_le_mul_right g.pagesPerBlock hl
  rw [Geometry.sectorsPerBlock_eq, sectorOf]
  linarith

/-- A sector number is in range exactly when it is a logical block and an offset. -/
theorem exists_sectorOf {lsn : Int} (h0 : 0 ≤ lsn)
    (h : lsn < g.datablksPerDevice * g.sectorsPerBlock) :
    ∃ (l : Fin g.datablksPerDevice) (o : Fin g.pagesPerBlock), lsn = sectorOf l o := by
  obtain ⟨k, rfl⟩ := Int.eq_ofNat_of_zero_le h0
  rw [Geometry.sectorsPerBlock_eq] at h
  have hk : k < g.datablksPerDevice * g.pagesPerBlock := by exact_mod_cast h
  refine ⟨⟨k / g.pagesPerBlock, Nat.div_lt_of_lt_mul (by rwa [Nat.mul_comm])⟩,
    ⟨k % g.pagesPerBlock, Nat.mod_lt _ g.pages_pos⟩, ?_⟩
  have := Nat.div_add_mod' k g.pagesPerBlock
  simp only [sectorOf]
  exact_mod_cast this.symm

section Write

variable {s : State} {f : Flash g}

theorem writeMapped_inplace (hr : Represents s f) (junk : Page) {l : Fin g.datablksPerDevice}
    {o : Fin g.pagesPerBlock} (d : Sector) {p : Fin g.blocksPerDevice} (hm : f.map l = some p)
    (he : (f.page p o).Erased) :
    Represents (writeMapped g junk (sectorOf l o) d s) (f.write l o d) ∧
      (writeMapped g junk (sectorOf l o) d s).programs =
        s.programs ++ [(calPpn g p o, f.page p o)] := by
  have hpbn : s.pbn l = p := by rw [hr.pbn, hm]; rfl
  have hsee := Sees.isUsed junk (calPpn g p o) s
  have hr' := hr.of_sees hsee
  have hpbn' : (isUsed junk (calPpn g p o) s).2.pbn l = p := by rw [hsee.pbn, hpbn]
  simp only [writeMapped, calLbn_sectorOf, calSectorOffset_sectorOf, hpbn,
    (hr.isUsed p o junk).mpr he, if_true, hpbn', Flash.write_inplace d hm he]
  exact ⟨hr'.ddWrite p o _, by rw [hr'.programs_ddWrite, hsee.programs]⟩

theorem writeMapped_overwrite (hr : Represents s f) (junk : Page) {l : Fin g.datablksPerDevice}
    {o : Fin g.pagesPerBlock} (d : Sector) {p : Fin g.blocksPerDevice} (hm : f.map l = some p)
    (he : ¬ (f.page p o).Erased) :
    Represents (writeMapped g junk (sectorOf l o) d s) (f.write l o d) := by
  have hpbn : s.pbn l = p := by rw [hr.pbn, hm]; rfl
  have hr' := hr.of_sees (Sees.isUsed junk (calPpn g p o) s)
  have hpbn' : (isUsed junk (calPpn g p o) s).2.pbn l = p := by rw [hr'.pbn, hm]; rfl
  have hmv := hr'.moveBlock junk p o
  have hres : (moveBlock g junk (isUsed junk (calPpn g p o) s).2.reservedEmptyBlk p o
      (isUsed junk (calPpn g p o) s).2).reservedEmptyBlk = f.reserved := by
    rw [hmv.reserved]; simp
  simp only [writeMapped, calLbn_sectorOf, calSectorOffset_sectorOf, hpbn,
    (hr.isUsed p o junk).not.mpr he, if_false, hpbn', hres, Flash.write_overwrite d hm he]
  have hw := hmv.ddWrite f.reserved o (createPage d ⟨sectorOf l o⟩)
  exact ⟨hw.npages, hw.page, hw.pbn, rfl⟩

theorem findPbn_eq (hr : Represents s f) (junk : Page) (l : Fin g.datablksPerDevice)
    (o : Fin g.pagesPerBlock) :
    (findPbn g junk (sectorOf l o) s).1 = (f.freeBlock o).map (·.val) ∧
      Sees s (findPbn g junk (sectorOf l o) s).2.2 := by
  rw [findPbn, calSectorOffset_sectorOf, ← List.map_coe_finRange_eq_range]
  exact hr.searchEmpty junk o (List.finRange _) (-1)

theorem writeUnmapped_alloc (hr : Represents s f) (junk : Page) {l : Fin g.datablksPerDevice}
    {o : Fin g.pagesPerBlock} (d : Sector) {q : Fin g.blocksPerDevice} (hm : f.map l = none)
    (hq : f.freeBlock o = some q) :
    Represents (writeUnmapped g junk (sectorOf l o) d s) (f.write l o d) ∧
      (writeUnmapped g junk (sectorOf l o) d s).programs =
        s.programs ++ [(calPpn g q o, f.page q o)] := by
  obtain ⟨hfind, hsee⟩ := findPbn_eq hr junk l o
  rw [hq] at hfind
  rcases hfd : findPbn g junk (sectorOf l o) s with ⟨fst, unused, s1⟩
  rw [hfd] at hfind hsee
  obtain rfl : fst = some q.val := hfind
  have hset := (hr.of_sees hsee).setPbn l q
  simp only [writeUnmapped, hfd, calLbn_sectorOf, calSectorOffset_sectorOf,
    Flash.write_alloc d hm hq]
  refine ⟨hset.ddWrite q o _, ?_⟩
  have hprog : s1.programs = s.programs := hsee.programs
  rw [hset.programs_ddWrite, State.programs_setPbn, hprog]
  rfl

/-- **Refinement.** One in-range `ftl_write` does to the flash what `Flash.write` says. -/
theorem ftlWrite_refines (hr : Represents s f) (junk : Page) (l : Fin g.datablksPerDevice)
    (o : Fin g.pagesPerBlock) (d : Sector)
    (hfree : f.map l = none → ∃ q, f.freeBlock o = some q) :
    Represents (ftlWrite g junk (sectorOf l o) d s) (f.write l o d) := by
  have hp := hr.of_sees (Sees.writePrologue (g := g) junk (sectorOf l o) s)
  have hlt := sectorOf_lt l o
  rw [ftlWrite, if_neg (by omega)]
  simp only [calLbn_sectorOf, hp.pbn]
  cases hm : f.map l with
  | some p =>
    rw [if_pos (by simp)]
    by_cases he : (f.page p o).Erased
    · exact (writeMapped_inplace hp junk d hm he).1
    · exact writeMapped_overwrite hp junk d hm he
  | none =>
    obtain ⟨q, hq⟩ := hfree hm
    rw [if_neg (by simp)]
    exact (writeUnmapped_alloc hp junk d hm hq).1

/-- A write that overwrites nothing programs one page, and that page was erased. -/
theorem ftlWrite_programs (hr : Represents s f) (junk : Page) {l : Fin g.datablksPerDevice}
    {o : Fin g.pagesPerBlock} (d : Sector) (hno : ¬ f.Overwrites l o)
    (hfree : f.map l = none → ∃ q, f.freeBlock o = some q) :
    ∃ ppn pg, pg.Erased ∧
      (ftlWrite g junk (sectorOf l o) d s).programs = s.programs ++ [(ppn, pg)] := by
  have hsee := Sees.writePrologue (g := g) junk (sectorOf l o) s
  have hp := hr.of_sees hsee
  have hlt := sectorOf_lt l o
  rw [ftlWrite, if_neg (by omega)]
  simp only [calLbn_sectorOf, hp.pbn]
  cases hm : f.map l with
  | some p =>
    rw [if_pos (by simp)]
    have he : (f.page p o).Erased := by
      by_contra he; exact hno ⟨p, hm, he⟩
    exact ⟨_, _, he, by rw [(writeMapped_inplace hp junk d hm he).2, hsee.programs]⟩
  | none =>
    obtain ⟨q, hq⟩ := hfree hm
    rw [if_neg (by simp)]
    exact ⟨_, _, (Flash.freeBlock_some hq).2,
      by rw [(writeUnmapped_alloc hp junk d hm hq).2, hsee.programs]⟩

end Write

/-! ## The state after `ftl_open` -/

def Flash.fresh (g : Geometry) : Flash g where
  page := fun _ _ => Page.blank
  map := fun _ => none
  reserved := ⟨g.datablksPerDevice, by
    have := g.two_le_blocks; unfold Geometry.datablksPerDevice; omega⟩

theorem ftlOpen_loop (s : State) :
    ∀ k, (((List.range k).foldl (fun s (i : Nat) => s.setPbn i (-1)) s).dev = s.dev ∧
      ((List.range k).foldl (fun s (i : Nat) => s.setPbn i (-1)) s).reservedEmptyBlk =
        s.reservedEmptyBlk ∧
      ((List.range k).foldl (fun s (i : Nat) => s.setPbn i (-1)) s).programs = s.programs) ∧
      ∀ i : Nat, i < k →
        ((List.range k).foldl (fun s (i : Nat) => s.setPbn i (-1)) s).pbn i = -1 := by
  intro k
  induction k with
  | zero => exact ⟨⟨rfl, rfl, rfl⟩, fun i hi => absurd hi (by omega)⟩
  | succ k ih =>
    obtain ⟨⟨hd, hrs, hp⟩, hpbn⟩ := ih
    rw [List.range_succ, List.foldl_append]
    refine ⟨⟨hd, hrs, ?_⟩, ?_⟩
    · rw [← hp]; exact State.programs_setPbn _ _ _
    · intro i hi
      by_cases hik : i = k
      · subst hik; simp [State.setPbn]
      · have := hpbn i (by omega)
        simpa [State.setPbn, Function.update_apply, hik] using this

theorem boot_represents (g : Geometry) : Represents (boot g) (Flash.fresh g) := by
  obtain ⟨⟨hd, hrs, -⟩, hpbn⟩ := ftlOpen_loop
    { dev := blankDevice g, pbn := fun _ => 0, reservedEmptyBlk := g.datablksPerDevice
      trace := [] } g.datablksPerDevice
  refine ⟨?_, ?_, ?_, ?_⟩
  · rw [boot, ftlOpen, hd]; rfl
  · intro b o; rw [boot, ftlOpen, hd]; rfl
  · intro l; exact hpbn l l.isLt
  · rw [boot, ftlOpen, hrs]; rfl

theorem boot_programs (g : Geometry) : (boot g).programs = [] :=
  (ftlOpen_loop _ g.datablksPerDevice).1.2.2

end Ftl
end SsuComputer
