import SsuComputer.Ftl.Refine
import SsuComputer.Ftl.Invariant
import SsuComputer.Lib.Run

/-!
# SsuComputer.Ftl.Correct

What holds over whole runs of `ftl_write` from the state after `ftl_open`.

* `ftlWrite_never_refused` — an unmapped logical block always finds a place.
* `mappingOk_iff` — the mapping stays exclusive exactly as long as no first allocation shares a
  block: the search looks at one page of a block only.
* `disciplined_iff` — writes go to erased pages and the reserved block stays erased exactly as long
  as nothing is overwritten: `move_block` erases the block it has just written, not the old one.
* `ftlRead_run` — reading back the last write, for runs whose relocations take nothing away.
-/

namespace SsuComputer
namespace Ftl

variable {g : Geometry}

def InRange (g : Geometry) (lsn : Int) : Prop :=
  0 ≤ lsn ∧ lsn < g.datablksPerDevice * g.sectorsPerBlock

instance (lsn : Int) : Decidable (InRange g lsn) := inferInstanceAs (Decidable (_ ∧ _))

def pageAt (g : Geometry) (s : State) (pbn sectorOffset : Int) : Page :=
  s.dev.page (calPpn g pbn sectorOffset).toNat

/-- The call finds its logical block mapped and the page at its offset programmed. -/
def Overwrites (g : Geometry) (s : State) (c : Call) : Prop :=
  s.pbn (calLbn g c.lsn) ≠ -1 ∧
    ¬ (pageAt g s (s.pbn (calLbn g c.lsn)) (calSectorOffset g c.lsn)).Erased

instance (s : State) (c : Call) : Decidable (Overwrites g s c) :=
  inferInstanceAs (Decidable (_ ∧ _))

/-- The state after the calls, from a fresh device. -/
def run (g : Geometry) (calls : List Call) : State := Run.exec (stepCall g) (boot g) calls

namespace Represents

variable {s : State} {f : Flash g}

theorem pageAt (hr : Represents s f) (b : Fin g.blocksPerDevice) (o : Fin g.pagesPerBlock) :
    pageAt g s b o = f.page b o := by
  rw [Ftl.pageAt, calPpn_eq, Int.toNat_natCast, hr.page]

theorem pbn_eq_neg_one (hr : Represents s f) (l : Fin g.datablksPerDevice) :
    s.pbn l = -1 ↔ f.map l = none := by
  rw [hr.pbn, entryOf_eq_neg_one]

theorem pbn_eq_natCast (hr : Represents s f) {l : Fin g.datablksPerDevice}
    {b : Fin g.blocksPerDevice} : s.pbn l = b ↔ f.map l = some b := by
  rw [hr.pbn, entryOf_eq_natCast]

theorem overwrites (hr : Represents s f) {c : Call} {l : Fin g.datablksPerDevice}
    {o : Fin g.pagesPerBlock} (hc : c.lsn = sectorOf l o) :
    Overwrites g s c ↔ f.Overwrites l o := by
  simp only [Overwrites, hc, calLbn_sectorOf, calSectorOffset_sectorOf, Flash.Overwrites]
  cases hm : f.map l with
  | none => simp [(hr.pbn_eq_neg_one l).mpr hm]
  | some p => simp [hr.pbn_eq_natCast.mpr hm, hr.pageAt]

theorem ftlRead (hr : Represents s f) {l : Fin g.datablksPerDevice} {o : Fin g.pagesPerBlock}
    {p : Fin g.blocksPerDevice} (hm : f.map l = some p) (junk : Page) (buf : Sector) :
    (ftlRead g junk (sectorOf l o) buf s).1 = (f.page p o).data := by
  have hsee := Sees.printAddrmaptblInfo (g := g) junk (sectorOf l o) s
  have hr' := hr.of_sees (hsee.trans (Sees.log _ (e := .table l) rfl))
  have hlt := sectorOf_lt l o
  have hpbn := hr'.pbn_eq_natCast.mpr hm
  rw [Ftl.ftlRead, if_neg (by omega)]
  simp only [calLbn_sectorOf, calSectorOffset_sectorOf, hpbn, (hr'.getPage p o junk).2]

end Represents

theorem exists_address {c : Call} (hc : InRange g c.lsn) :
    ∃ (l : Fin g.datablksPerDevice) (o : Fin g.pagesPerBlock), c.lsn = sectorOf l o :=
  exists_sectorOf hc.1 hc.2

/-- One call, seen on the flash: the step every run invariant below is derived from. -/
theorem stepCall_refines {s : State} {f : Flash g} (hr : Represents s f) (hc : f.Covered) {c : Call}
    {l : Fin g.datablksPerDevice} {o : Fin g.pagesPerBlock} (ha : c.lsn = sectorOf l o) :
    Represents (stepCall g s c) (f.write l o c.sectorbuf) ∧ (f.write l o c.sectorbuf).Covered := by
  rw [stepCall, ha]
  exact ⟨ftlWrite_refines hr c.junk l o c.sectorbuf fun hm => Flash.exists_freeBlock hc hm o,
    Flash.covered_write hc l o c.sectorbuf⟩

theorem fresh_covered (g : Geometry) : (Flash.fresh g).Covered :=
  Flash.covered_fresh fun _ _ => Page.blank_erased

theorem run_represents (calls : List Call) (hin : ∀ c ∈ calls, InRange g c.lsn) :
    ∃ f : Flash g, Represents (run g calls) f ∧ f.Covered := by
  refine Run.exec_invariant (I := fun _ s => ∃ f : Flash g, Represents s f ∧ f.Covered)
    ⟨_, boot_represents g, fresh_covered g⟩ ?_ calls hin
  rintro _ s c ⟨f, hr, hc⟩ hadm
  obtain ⟨l, o, ha⟩ := exists_address hadm
  exact ⟨_, stepCall_refines hr hc ha⟩

/-- **No write is ever refused.** The search of a write to an unmapped logical block ends at a
block of the device, not the reserved one, whose page at the offset is erased. -/
theorem ftlWrite_never_refused (g : Geometry) (calls : List Call)
    (hin : ∀ c ∈ calls, InRange g c.lsn) (lsn : Int) (hlsn : InRange g lsn) (junk : Page)
    (hun : (run g calls).pbn (calLbn g lsn) = -1) :
    ∃ q : Nat, q < g.blocksPerDevice ∧ (q : Int) ≠ (run g calls).reservedEmptyBlk ∧
      (pageAt g (run g calls) q (calSectorOffset g lsn)).Erased ∧
      (findPbn g junk lsn (writePrologue g junk lsn (run g calls))).1 = some q := by
  obtain ⟨f, hr, hc⟩ := run_represents calls hin
  obtain ⟨l, o, rfl⟩ := exists_sectorOf hlsn.1 hlsn.2
  rw [calLbn_sectorOf, hr.pbn_eq_neg_one] at hun
  obtain ⟨q, hq⟩ := Flash.exists_freeBlock hc hun o
  obtain ⟨hne, he⟩ := Flash.freeBlock_some hq
  have hp := hr.of_sees (Sees.writePrologue (g := g) junk (sectorOf l o) (run g calls))
  refine ⟨q, q.isLt, ?_, ?_, ?_⟩
  · rw [hr.reserved]; intro h; exact hne (Fin.ext (by omega))
  · rw [calSectorOffset_sectorOf, hr.pageAt]; exact he
  · rw [(findPbn_eq hp junk l o).1, hq]; rfl

/-! ## Concrete runs

Two small devices, sectors filled with one byte, and calls that write them. -/

def twoBlocks : Geometry := ⟨2, 2, by decide, by decide, by decide⟩

def threeBlocks : Geometry := ⟨3, 2, by decide, by decide, by decide⟩

def filled (b : UInt8) : Sector := fun _ => b

def writeOf (lsn : Int) (b : UInt8) : Call := ⟨lsn, filled b, Page.zero⟩

/-- After sector 1 of logical block 0, sector 3 of logical block 1 is still unmapped. -/
theorem ftlWrite_never_refused_second_block :
    ∃ q : Nat, q < 3 ∧ (q : Int) ≠ (run threeBlocks [writeOf 1 7]).reservedEmptyBlk ∧
      (pageAt threeBlocks (run threeBlocks [writeOf 1 7]) q 1).Erased ∧
      (findPbn threeBlocks Page.zero 3
        (writePrologue threeBlocks Page.zero 3 (run threeBlocks [writeOf 1 7]))).1 = some q :=
  ftlWrite_never_refused threeBlocks [writeOf 1 7] (by decide) 3 (by decide) Page.zero (by decide)

/-! ## The mapping -/

structure MappingOk (g : Geometry) (calls : List Call) (s : State) : Prop where
  distinct : ∀ l < g.datablksPerDevice, ∀ l' < g.datablksPerDevice,
    s.pbn l ≠ -1 → s.pbn l = s.pbn l' → l = l'
  not_reserved : ∀ l < g.datablksPerDevice, s.pbn l ≠ s.reservedEmptyBlk
  in_device : ∀ l < g.datablksPerDevice,
    s.pbn l ≠ -1 → 0 ≤ s.pbn l ∧ s.pbn l < g.blocksPerDevice
  reserved_in_device : 0 ≤ s.reservedEmptyBlk ∧ s.reservedEmptyBlk < g.blocksPerDevice
  written : ∀ l < g.datablksPerDevice, s.pbn l ≠ -1 ↔ ∃ c ∈ calls, calLbn g c.lsn = l

/-- If the logical block is unmapped, every mapped block whose page at the offset is erased has a
lower-numbered block before it that is not reserved and is erased there too. -/
def AllocatesFresh (g : Geometry) (s : State) (c : Call) : Prop :=
  s.pbn (calLbn g c.lsn) = -1 → ∀ l < g.datablksPerDevice, s.pbn l ≠ -1 →
    (pageAt g s (s.pbn l) (calSectorOffset g c.lsn)).Erased →
      ∃ b < g.blocksPerDevice, (b : Int) < s.pbn l ∧ (b : Int) ≠ s.reservedEmptyBlk ∧
        (pageAt g s b (calSectorOffset g c.lsn)).Erased

instance (s : State) (c : Call) : Decidable (AllocatesFresh g s c) :=
  inferInstanceAs (Decidable (_ → _))

namespace Represents

variable {s : State} {f : Flash g}

theorem allocatesFresh (hr : Represents s f) {c : Call} {l : Fin g.datablksPerDevice}
    {o : Fin g.pagesPerBlock} (ha : c.lsn = sectorOf l o) :
    AllocatesFresh g s c ↔ f.AllocatesFresh l o := by
  simp only [AllocatesFresh, Flash.AllocatesFresh, ha, calLbn_sectorOf, calSectorOffset_sectorOf,
    hr.pbn_eq_neg_one l]
  refine imp_congr_right fun _ => ?_
  constructor
  · intro h l' p hl' he
    have hp := hr.pbn_eq_natCast.mpr hl'
    obtain ⟨b, hb, hlt, hne, hbe⟩ := h l' l'.isLt (by rw [hp]; omega) (by rwa [hp, hr.pageAt])
    refine ⟨⟨b, hb⟩, ?_, ?_, ?_⟩
    · rw [hp] at hlt; exact_mod_cast hlt
    · rintro heq; rw [hr.reserved, ← heq] at hne; exact hne rfl
    · rwa [← hr.pageAt]
  · intro h k hk hmap he
    cases hm : f.map ⟨k, hk⟩ with
    | none => exact absurd ((hr.pbn_eq_neg_one ⟨k, hk⟩).mpr hm) hmap
    | some p =>
      have hp : s.pbn (k : Int) = p := hr.pbn_eq_natCast.mpr hm
      rw [hp, hr.pageAt] at he
      obtain ⟨b, hlt, hne, hbe⟩ := h ⟨k, hk⟩ p hm he
      refine ⟨b, b.isLt, by rw [hp]; omega, ?_, by rwa [hr.pageAt]⟩
      rw [hr.reserved]; intro heq; exact hne (Fin.ext (by omega))

/-- `MappingOk` adds to exclusiveness what holds of every represented state. -/
theorem mappingOk (hr : Represents s f) {calls : List Call}
    (hw : ∀ k : Fin g.datablksPerDevice, f.map k ≠ none ↔ ∃ c ∈ calls, calLbn g c.lsn = k) :
    MappingOk g calls s ↔ f.Exclusive := by
  constructor
  · intro h
    refine ⟨fun l l' p hl hl' => ?_, fun l hl => ?_⟩
    · have h1 := hr.pbn_eq_natCast.mpr hl
      have h2 := hr.pbn_eq_natCast.mpr hl'
      exact Fin.ext (h.distinct l l.isLt l' l'.isLt (by rw [h1]; omega) (h1.trans h2.symm))
    · exact h.not_reserved l l.isLt (by rw [hr.pbn_eq_natCast.mpr hl, hr.reserved])
  · intro h
    refine ⟨fun k hk k' hk' hmap heq => ?_, fun k hk heq => ?_, fun k hk hmap => ?_, ?_, ?_⟩
    · cases hm : f.map ⟨k, hk⟩ with
      | none => exact absurd ((hr.pbn_eq_neg_one ⟨k, hk⟩).mpr hm) hmap
      | some p =>
        have hp : s.pbn (k : Int) = p := hr.pbn_eq_natCast.mpr hm
        have hp' : f.map ⟨k', hk'⟩ = some p := hr.pbn_eq_natCast.mp (heq ▸ hp)
        exact Fin.mk.inj_iff.mp (h.inj _ _ p hm hp')
    · exact h.not_reserved ⟨k, hk⟩ (hr.pbn_eq_natCast.mp (heq.trans hr.reserved))
    · cases hm : f.map ⟨k, hk⟩ with
      | none => exact absurd ((hr.pbn_eq_neg_one ⟨k, hk⟩).mpr hm) hmap
      | some p =>
        have hp : s.pbn (k : Int) = p := hr.pbn_eq_natCast.mpr hm
        rw [hp]; omega
    · rw [hr.reserved]; omega
    · intro k hk
      exact (hr.pbn_eq_neg_one ⟨k, hk⟩).not.trans (hw ⟨k, hk⟩)

end Represents

/-- The run invariant for the mapping: the mapped blocks are those written to so far. -/
def MapInv (g : Geometry) (calls : List Call) (s : State) : Prop :=
  ∃ f : Flash g, Represents s f ∧ f.Covered ∧
    ∀ k : Fin g.datablksPerDevice, f.map k ≠ none ↔ ∃ c ∈ calls, calLbn g c.lsn = k

theorem mapInv_boot (g : Geometry) : MapInv g [] (boot g) :=
  ⟨_, boot_represents g, fresh_covered g, by simp [Flash.fresh]⟩

theorem mapped_write {calls : List Call} {f : Flash g} (hc : f.Covered)
    (hw : ∀ k : Fin g.datablksPerDevice, f.map k ≠ none ↔ ∃ c ∈ calls, calLbn g c.lsn = k)
    {c : Call} {l : Fin g.datablksPerDevice} {o : Fin g.pagesPerBlock} (ha : c.lsn = sectorOf l o)
    (k : Fin g.datablksPerDevice) :
    (f.write l o c.sectorbuf).map k ≠ none ↔ ∃ c' ∈ calls ++ [c], calLbn g c'.lsn = k := by
  have hk : calLbn g c.lsn = k ↔ k = l := by
    rw [ha, calLbn_sectorOf, Fin.ext_iff]; omega
  rw [Flash.write_map_ne_none hc, hw]
  simp only [List.mem_append, List.mem_singleton, or_and_right, exists_or, exists_eq_left, hk]
  exact or_comm

theorem mapInv_step {calls : List Call} {s : State} {c : Call} (h : MapInv g calls s)
    (hin : InRange g c.lsn) : MapInv g (calls ++ [c]) (stepCall g s c) := by
  obtain ⟨f, hr, hc, hw⟩ := h
  obtain ⟨l, o, ha⟩ := exists_address hin
  obtain ⟨hr', hc'⟩ := stepCall_refines hr hc ha
  exact ⟨_, hr', hc', mapped_write hc hw ha⟩

/-- **The mapping invariant.** It holds after every prefix of a run exactly when every first
allocation of the run takes a fresh block. -/
theorem mappingOk_iff (g : Geometry) (calls : List Call) (hin : ∀ c ∈ calls, InRange g c.lsn) :
    (∀ pre, pre <+: calls → MappingOk g pre (run g pre)) ↔
      Run.Guarded (stepCall g) (AllocatesFresh g) (boot g) calls := by
  refine Run.always_iff_guarded (I := MapInv g) (mapInv_boot g) ?_
    (fun h s c hi ha => mapInv_step hi ha) ?_ calls hin
  · obtain ⟨f, hr, -, hw⟩ := mapInv_boot g
    rw [(boot_represents g).mappingOk (by simp [Flash.fresh])]
    exact ⟨fun _ _ _ h => (by cases h), fun _ h => (by cases h)⟩
  · rintro h s c ⟨f, hr, hc, hw⟩ hok hadm
    obtain ⟨l, o, ha⟩ := exists_address hadm
    have hx : f.Exclusive := (hr.mappingOk hw).mp hok
    rw [(stepCall_refines hr hc ha).1.mappingOk (mapped_write hc hw ha), hr.allocatesFresh ha]
    exact Flash.exclusive_write_iff hx hc l o c.sectorbuf

/-- Sector 3 follows sector 1 into physical block 0: logical blocks 0 and 1 share it. -/
theorem mapping_shared :
    ¬ ∀ (g : Geometry) (calls : List Call), (∀ c ∈ calls, InRange g c.lsn) →
      MappingOk g calls (run g calls) := by
  intro h
  have hok := h threeBlocks [writeOf 0 7, writeOf 3 8] (by decide)
  exact absurd (hok.distinct 0 (by decide) 1 (by decide) (by decide) (by decide)) (by decide)

/-- Writes of sectors 0 and 2 share an offset, so the second logical block gets its own block. -/
theorem mappingOk_two_blocks :
    MappingOk threeBlocks [writeOf 0 7, writeOf 2 8, writeOf 3 9]
      (run threeBlocks [writeOf 0 7, writeOf 2 8, writeOf 3 9]) :=
  (mappingOk_iff threeBlocks [writeOf 0 7, writeOf 2 8, writeOf 3 9] (by decide)).mpr (by decide) _
    (List.prefix_refl _)

/-! ## Write discipline -/

/-- Every page programmed so far was erased at that moment, and the reserved block is erased. -/
structure Disciplined (g : Geometry) (s : State) : Prop where
  programs : ∀ e ∈ s.programs, e.2.Erased
  reserve : ∀ o < g.pagesPerBlock, (pageAt g s s.reservedEmptyBlk o).Erased

theorem Represents.reserve {s : State} {f : Flash g} (hr : Represents s f) :
    (∀ o < g.pagesPerBlock, (Ftl.pageAt g s s.reservedEmptyBlk o).Erased) ↔
      ∀ o, (f.page f.reserved o).Erased := by
  rw [hr.reserved]
  constructor
  · intro h o; rw [← hr.pageAt]; exact h o o.isLt
  · intro h o ho
    have := hr.pageAt f.reserved ⟨o, ho⟩
    rw [this]; exact h ⟨o, ho⟩

def DisciplineInv (g : Geometry) (s : State) : Prop :=
  ∃ f : Flash g, Represents s f ∧ f.Covered ∧ f.Occupied

theorem disciplineInv_step {s : State} {c : Call} (h : DisciplineInv g s)
    (hin : InRange g c.lsn) : DisciplineInv g (stepCall g s c) := by
  obtain ⟨f, hr, hc, hoc⟩ := h
  obtain ⟨l, o, ha⟩ := exists_address hin
  obtain ⟨hr', hc'⟩ := stepCall_refines hr hc ha
  exact ⟨_, hr', hc', Flash.occupied_write hoc hc l o c.sectorbuf⟩

theorem disciplined_step_iff {s : State} {c : Call} (h : DisciplineInv g s)
    (hd : Disciplined g s) (hin : InRange g c.lsn) :
    Disciplined g (stepCall g s c) ↔ ¬ Overwrites g s c := by
  obtain ⟨f, hr, hc, hoc⟩ := h
  obtain ⟨l, o, ha⟩ := exists_address hin
  have hr' := (stepCall_refines hr hc ha).1
  have hres := Flash.reserve_write_iff hoc hc (hr.reserve.mp hd.reserve) l o c.sectorbuf
  rw [hr.overwrites ha]
  constructor
  · intro h; exact hres.mp (hr'.reserve.mp h.reserve)
  · intro hno
    refine ⟨?_, hr'.reserve.mpr (hres.mpr hno)⟩
    obtain ⟨ppn, pg, he, hprog⟩ := ftlWrite_programs hr c.junk c.sectorbuf hno
      fun hm => Flash.exists_freeBlock hc hm o
    rw [stepCall, ha, hprog]
    intro e hmem
    rcases List.mem_append.mp hmem with hmem | hmem
    · exact hd.programs e hmem
    · rw [List.mem_singleton.mp hmem]; exact he

/-- **Write discipline.** It holds after every prefix of a run exactly when no call of the run
overwrites a programmed page. -/
theorem disciplined_iff (g : Geometry) (calls : List Call) (hin : ∀ c ∈ calls, InRange g c.lsn) :
    (∀ pre, pre <+: calls → Disciplined g (run g pre)) ↔
      Run.Guarded (stepCall g) (fun s c => ¬ Overwrites g s c) (boot g) calls := by
  have hboot : DisciplineInv g (boot g) :=
    ⟨_, boot_represents g, fresh_covered g, fun _ _ h => (by cases h)⟩
  have hfresh : Disciplined g (boot g) :=
    ⟨by simp [boot_programs], (boot_represents g).reserve.mpr fun _ => Page.blank_erased⟩
  have hinv : ∀ (_ : List Call) s (c : Call), DisciplineInv g s → InRange g c.lsn →
      DisciplineInv g (stepCall g s c) := fun _ s c hi ha => disciplineInv_step hi ha
  exact Run.always_iff_guarded (I := fun _ => DisciplineInv g) (P := fun _ => Disciplined g)
    hboot hfresh hinv (fun _ s c hi hd ha => disciplined_step_iff hi hd ha) calls hin

/-- After one overwrite the reserved block is the block left behind, its old page still there. -/
theorem reserve_stale :
    ¬ ∀ (g : Geometry) (calls : List Call), (∀ c ∈ calls, InRange g c.lsn) →
      Disciplined g (run g calls) := by
  intro h
  have hok := h twoBlocks [writeOf 0 7, writeOf 0 8] (by decide)
  exact absurd (hok.reserve 0 (by decide)) (by decide)

theorem disciplined_two_sectors : Disciplined twoBlocks (run twoBlocks [writeOf 0 7, writeOf 1 8]) :=
  (disciplined_iff twoBlocks [writeOf 0 7, writeOf 1 8] (by decide)).mpr (by decide) _
    (List.prefix_refl _)

/-! ## Reading back -/

/-- The data of the last call that wrote `lsn`. -/
def lastWrite (calls : List Call) (lsn : Int) : Option Sector :=
  calls.foldl (fun r c => if c.lsn = lsn then some c.sectorbuf else r) none

def ReadsBack (g : Geometry) (calls : List Call) (s : State) : Prop :=
  ∀ lsn d, lastWrite calls lsn = some d →
    ∀ (junk : Page) (buf : Sector), (ftlRead g junk lsn buf s).1 = d

/-- An overwrite takes nothing live away: no other page of the block carries the tag of its logical
block, no lower-numbered logical block is mapped to the block, and no other logical block is mapped
to the reserved block. -/
def KeepsData (g : Geometry) (s : State) (c : Call) : Prop :=
  Overwrites g s c →
    (∀ o < g.pagesPerBlock, (o : Int) ≠ calSectorOffset g c.lsn →
      (pageAt g s (s.pbn (calLbn g c.lsn)) o).spare.lsn ≠
        calLbn g c.lsn * g.sectorsPerBlock + o) ∧
    (∀ l < g.datablksPerDevice, (l : Int) < calLbn g c.lsn →
      s.pbn l ≠ s.pbn (calLbn g c.lsn)) ∧
    ∀ l < g.datablksPerDevice, (l : Int) ≠ calLbn g c.lsn → s.pbn l ≠ s.reservedEmptyBlk

instance (s : State) (c : Call) : Decidable (KeepsData g s c) :=
  inferInstanceAs (Decidable (_ → _))

theorem Represents.keepsData {s : State} {f : Flash g} (hr : Represents s f) {c : Call}
    {l : Fin g.datablksPerDevice} {o : Fin g.pagesPerBlock} (ha : c.lsn = sectorOf l o)
    (hk : KeepsData g s c) : f.KeepsData l o := by
  intro p hm he
  have hp := hr.pbn_eq_natCast.mpr hm
  obtain ⟨htag, hfirst, hres⟩ := hk ((hr.overwrites ha).mpr ⟨p, hm, he⟩)
  simp only [ha, calLbn_sectorOf, calSectorOffset_sectorOf, hp] at htag hfirst hres
  refine ⟨fun o' ho' => ?_, fun l' hl' hmap => ?_, fun l' hl' hmap => ?_⟩
  · have := htag o' o'.isLt (fun h => ho' (Fin.ext (by omega)))
    rw [hr.pageAt] at this
    simpa [sectorOf] using this
  · exact hfirst l' l'.isLt (by exact_mod_cast hl') (hr.pbn_eq_natCast.mpr hmap)
  · refine hres l' l'.isLt (fun h => hl' (Fin.ext (by omega))) ?_
    rw [hr.pbn_eq_natCast.mpr hmap, hr.reserved]

/-- The run invariant for reading back: every sector last written is stored, tag and data. -/
def StoreInv (g : Geometry) (calls : List Call) (s : State) : Prop :=
  ∃ f : Flash g, Represents s f ∧ f.Covered ∧ f.Stores fun l o => lastWrite calls (sectorOf l o)

theorem sectorOf_inj {l l' : Fin g.datablksPerDevice} {o o' : Fin g.pagesPerBlock} :
    sectorOf l o = sectorOf l' o' ↔ l = l' ∧ o = o' := by
  constructor
  · intro h
    have hl := congrArg (calLbn g) h
    have ho := congrArg (calSectorOffset g) h
    rw [calLbn_sectorOf, calLbn_sectorOf] at hl
    rw [calSectorOffset_sectorOf, calSectorOffset_sectorOf] at ho
    exact ⟨Fin.ext (by omega), Fin.ext (by omega)⟩
  · rintro ⟨rfl, rfl⟩; rfl

theorem lastWrite_concat (calls : List Call) (c : Call) {l : Fin g.datablksPerDevice}
    {o : Fin g.pagesPerBlock} (ha : c.lsn = sectorOf l o) :
    (fun l' o' => lastWrite (calls ++ [c]) (sectorOf (g := g) l' o')) =
      Function.update (fun l' o' => lastWrite calls (sectorOf l' o')) l
        (Function.update (fun o' => lastWrite calls (sectorOf l o')) o (some c.sectorbuf)) := by
  funext l' o'
  simp only [lastWrite, List.foldl_append, List.foldl_cons, List.foldl_nil, ha, sectorOf_inj]
  by_cases hl : l' = l
  · subst hl
    by_cases ho : o' = o
    · subst ho; simp
    · simp [ho, Ne.symm ho]
  · simp [hl, Ne.symm hl]

theorem storeInv_step {calls : List Call} {s : State} {c : Call} (h : StoreInv g calls s)
    (hin : InRange g c.lsn) (hk : KeepsData g s c) :
    StoreInv g (calls ++ [c]) (stepCall g s c) := by
  obtain ⟨f, hr, hc, hs⟩ := h
  obtain ⟨l, o, ha⟩ := exists_address hin
  obtain ⟨hr', hc'⟩ := stepCall_refines hr hc ha
  refine ⟨_, hr', hc', ?_⟩
  rw [lastWrite_concat calls c ha]
  exact Flash.stores_write hs hc (hr.keepsData ha hk) c.sectorbuf

theorem lastWrite_inRange {calls : List Call} (hin : ∀ c ∈ calls, InRange g c.lsn) {lsn : Int}
    {d : Sector} (h : lastWrite calls lsn = some d) : InRange g lsn := by
  induction calls using List.reverseRecOn with
  | nil => cases h
  | append_singleton calls c ih =>
    simp only [lastWrite, List.foldl_append, List.foldl_cons, List.foldl_nil] at h
    split at h
    · rename_i heq; rw [← heq]; exact hin c (by simp)
    · exact ih (fun c' hc' => hin c' (by simp [hc'])) h

theorem storeInv_readsBack {calls : List Call} {s : State} (hin : ∀ c ∈ calls, InRange g c.lsn)
    (h : StoreInv g calls s) : ReadsBack g calls s := by
  obtain ⟨f, hr, -, hs⟩ := h
  intro lsn d hd junk buf
  obtain ⟨h0, hlt⟩ := lastWrite_inRange hin hd
  obtain ⟨l, o, rfl⟩ := exists_sectorOf h0 hlt
  obtain ⟨p, hm, hpg⟩ := hs l o d hd
  rw [hr.ftlRead hm, hpg]; rfl

/-- **Read after write.** In a run whose overwrites take nothing live away, after every prefix each
sector written reads as its last write. -/
theorem ftlRead_run (g : Geometry) (calls : List Call) (hin : ∀ c ∈ calls, InRange g c.lsn)
    (hok : Run.Guarded (stepCall g) (KeepsData g) (boot g) calls) :
    ∀ pre, pre <+: calls → ReadsBack g pre (run g pre) := by
  rintro pre ⟨post, rfl⟩
  have hin' : ∀ c ∈ pre, InRange g c.lsn := fun c hc => hin c (by simp [hc])
  have hfresh : StoreInv g [] (boot g) :=
    ⟨_, boot_represents g, fresh_covered g, fun _ _ _ h => (by cases h)⟩
  have hinv := Run.exec_induction (I := StoreInv g) hfresh
    (fun h s c hi ha hk => storeInv_step hi ha hk) pre hin'
    (Run.guarded_prefix hok)
  exact storeInv_readsBack hin' hinv

/-- Sector 0 is lost when its neighbour, sector 1, is overwritten. -/
theorem neighbour_lost :
    ¬ ∀ (g : Geometry) (calls : List Call), (∀ c ∈ calls, InRange g c.lsn) →
      ReadsBack g calls (run g calls) := by
  intro h
  have hread := h twoBlocks [writeOf 0 7, writeOf 1 8, writeOf 1 9] (by decide) 0 (filled 7) rfl
    Page.zero (filled 0)
  exact absurd (congrFun hread ⟨0, by decide⟩) (by decide)

/-- A lone sector survives being overwritten twice. -/
theorem ftlRead_run_overwritten :
    ReadsBack twoBlocks [writeOf 1 7, writeOf 1 8, writeOf 1 9]
      (run twoBlocks [writeOf 1 7, writeOf 1 8, writeOf 1 9]) :=
  ftlRead_run twoBlocks [writeOf 1 7, writeOf 1 8, writeOf 1 9] (by decide) (by decide) _
    (List.prefix_refl _)

end Ftl
end SsuComputer
