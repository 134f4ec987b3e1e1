import SsuComputer.Ftl.Correct

/-!
# SsuComputer.Ftl.ReadErased

What `ftl_read` gives for a sector nobody has written, in a run of reads and writes.

* `Flash.Clean` — an erased page is blank, data and spare.
* `ftlRead_unmapped` — a sector of an unmapped logical block has a negative page number: the seek
  fails twice, and the page behind the file position is read.
* `readsErased_iff` — the buffer fills with `0xFF` exactly when the page that is read is erased, or
  holds such a sector of another logical block.
-/

namespace SsuComputer
namespace Ftl

variable {g : Geometry}

inductive Op
  | write (c : Call)
  | read (lsn : Int) (junk : Page) (sectorbuf : Sector)

def Op.lsn : Op → Int
  | .write c => c.lsn
  | .read lsn _ _ => lsn

def stepOp (g : Geometry) (s : State) : Op → State
  | .write c => stepCall g s c
  | .read lsn junk sectorbuf => (ftlRead g junk lsn sectorbuf s).2

def runOps (g : Geometry) (ops : List Op) : State := Run.exec (stepOp g) (boot g) ops

def Written (ops : List Op) (lsn : Int) : Prop := ∃ c, .write c ∈ ops ∧ c.lsn = lsn

/-- Whatever the buffer and the stack hold, the sector reads as `0xFF` bytes. -/
def ReadsErased (g : Geometry) (s : State) (lsn : Int) : Prop :=
  ∀ junk sectorbuf, (ftlRead g junk lsn sectorbuf s).1 = fun _ => 0xFF

def Page.ReadsBlank (pg : Page) : Prop := pg.Erased ∨ pg.data = fun _ => 0xFF

/-- A mapped logical block has such a page at the offset; for an unmapped one the page behind the
file position is such a page of the device. -/
def FindsErased (g : Geometry) (s : State) (lsn : Int) : Prop :=
  (s.pbn (calLbn g lsn) ≠ -1 →
    (pageAt g s (s.pbn (calLbn g lsn)) (calSectorOffset g lsn)).ReadsBlank) ∧
  (s.pbn (calLbn g lsn) = -1 → s.dev.pos + 1 < s.dev.npages ∧ (s.dev.page (s.dev.pos + 1)).ReadsBlank)

/-! ## Erased pages -/

namespace Flash

variable {f : Flash g}

def Clean (f : Flash g) : Prop := ∀ b o, (f.page b o).Erased → f.page b o = Page.blank

theorem clean_program (h : Clean f) (p : Fin g.blocksPerDevice) (o : Fin g.pagesPerBlock) {pg : Page}
    (hpg : ¬ pg.Erased) {f' : Flash g} (hpage : f'.page = (f.program p o pg).page) : Clean f' := by
  intro b o' he
  rw [hpage, program_page] at he ⊢
  by_cases hb : b = p ∧ o' = o
  · rw [if_pos hb] at he
    exact absurd he hpg
  · rw [if_neg hb] at he ⊢
    exact h b o' he

theorem clean_write (h : Clean f) (l : Fin g.datablksPerDevice) (o : Fin g.pagesPerBlock)
    (d : Sector) : Clean (f.write l o d) := by
  have hpg := createPage_not_erased d l o
  cases hm : f.map l with
  | some p =>
    by_cases he : (f.page p o).Erased
    · rw [write_inplace d hm he]
      exact clean_program h p o hpg rfl
    · rw [write_overwrite d hm he]
      intro b o' he'
      rw [relocate_page] at he' ⊢
      by_cases hb : b = f.reserved
      · rw [if_pos hb] at he' ⊢
        by_cases ho : o' = o
        · rw [if_pos ho] at he'
          exact absurd he' hpg
        · rw [if_neg ho]
      · rw [if_neg hb] at he' ⊢
        exact h b o' he'
  | none =>
    cases hq : f.freeBlock o with
    | none =>
      simp only [write, hm, hq]
      exact h
    | some q =>
      rw [write_alloc d hm hq]
      exact clean_program h q o hpg rfl

end Flash

theorem Sees.ftlRead (junk : Page) (lsn : Int) (sectorbuf : Sector) (s : State) :
    Sees s (ftlRead g junk lsn sectorbuf s).2 := by
  have hprint := Sees.printAddrmaptblInfo (g := g) junk lsn s
  unfold Ftl.ftlRead
  simp only
  split
  · exact hprint
  · exact (hprint.trans (Sees.log _ rfl)).trans (Sees.getPage _ _ _)

theorem runOps_represents (g : Geometry) (ops : List Op) (hin : ∀ a ∈ ops, InRange g a.lsn) :
    ∃ f : Flash g, Represents (runOps g ops) f ∧ f.Covered ∧ f.Clean := by
  refine Run.exec_invariant
    (I := fun _ s => ∃ f : Flash g, Represents s f ∧ f.Covered ∧ f.Clean)
    ⟨_, boot_represents g, fresh_covered g, fun _ _ _ => rfl⟩ ?_ ops hin
  rintro _ s a ⟨f, hr, hc, hclean⟩ hadm
  cases a with
  | write c =>
    obtain ⟨l, o, ha⟩ := exists_address hadm
    obtain ⟨hr', hc'⟩ := stepCall_refines hr hc ha
    exact ⟨_, hr', hc', Flash.clean_write hclean l o c.sectorbuf⟩
  | read lsn junk sectorbuf => exact ⟨f, hr.of_sees (Sees.ftlRead junk lsn sectorbuf s), hc, hclean⟩

/-! ## What is read -/

section Read

variable {s : State} {f : Flash g}

theorem readsBlank_iff (hr : Represents s f) (hclean : f.Clean) {k : Nat} (hk : k < s.dev.npages) :
    (s.dev.page k).ReadsBlank ↔ (s.dev.page k).data = fun _ => 0xFF := by
  constructor
  · rintro (he | hdata)
    · rw [hr.npages] at hk
      have hb : k / g.pagesPerBlock < g.blocksPerDevice :=
        Nat.div_lt_of_lt_mul (by rwa [Nat.mul_comm])
      have ho : k % g.pagesPerBlock < g.pagesPerBlock := Nat.mod_lt _ g.pages_pos
      have hpage := hr.page ⟨_, hb⟩ ⟨_, ho⟩
      have hppn : ppnOf (g := g) ⟨k / g.pagesPerBlock, hb⟩ ⟨k % g.pagesPerBlock, ho⟩ = k :=
        Nat.div_add_mod' k g.pagesPerBlock
      rw [hppn] at hpage
      rw [hpage] at he ⊢
      rw [hclean _ _ he]
      rfl
    · exact hdata
  · exact .inr

/-- The transfer after a failed seek. -/
theorem ddRead_negative (d : Device) {ppn : Int} (h : ppn < 0) (pagebuf : Page) :
    d.ddRead ppn pagebuf =
      if d.pos < d.npages then (true, d.page d.pos, { d with pos := d.pos + 1 })
      else (false, pagebuf, d) := by
  unfold Device.ddRead Device.fseek Device.fread
  rw [if_pos h]
  split <;> rename_i heq <;> split at heq <;> cases heq
  · rw [if_pos (by assumption)]
  · rw [if_neg (by assumption)]

theorem ftlRead_unmapped (hr : Represents s f) {l : Fin g.datablksPerDevice}
    {o : Fin g.pagesPerBlock} (hm : f.map l = none) (junk : Page) (sectorbuf : Sector) :
    (ftlRead g junk (sectorOf l o) sectorbuf s).1 =
      if s.dev.pos + 1 < s.dev.npages then (s.dev.page (s.dev.pos + 1)).data else junk.data := by
  have hlt := sectorOf_lt l o
  have hneg : calPpn g (-1) o < 0 := by
    have := o.isLt
    unfold calPpn
    omega
  have hpbn : s.pbn l = -1 := (hr.pbn_eq_neg_one l).mpr hm
  unfold ftlRead
  simp only
  rw [if_neg (by omega)]
  by_cases hpos : s.dev.pos + 1 < s.dev.npages
  · rw [if_pos hpos]
    have hlast : s.dev.pos < s.dev.npages := by omega
    simp only [printAddrmaptblInfo, getPage, State.ddRead, State.log, calLbn_sectorOf,
      calSectorOffset_sectorOf, hpbn, ddRead_negative _ hneg, if_pos hlast, if_pos hpos]
  · rw [if_neg hpos]
    by_cases hlast : s.dev.pos < s.dev.npages
    · simp only [printAddrmaptblInfo, getPage, State.ddRead, State.log, calLbn_sectorOf,
        calSectorOffset_sectorOf, hpbn, ddRead_negative _ hneg, if_pos hlast, if_neg hpos]
    · simp only [printAddrmaptblInfo, getPage, State.ddRead, State.log, calLbn_sectorOf,
        calSectorOffset_sectorOf, hpbn, ddRead_negative _ hneg, if_neg hlast]

end Read

/-- **Unwritten sectors.** In every state that reads and writes in range lead to, a sector reads as
erased exactly when the page read for it does, whether the sector was written or not. -/
theorem readsErased_iff (g : Geometry) (ops : List Op) (hin : ∀ a ∈ ops, InRange g a.lsn) (lsn : Int)
    (hlsn : InRange g lsn) :
    ReadsErased g (runOps g ops) lsn ↔ FindsErased g (runOps g ops) lsn := by
  obtain ⟨f, hr, hc, hclean⟩ := runOps_represents g ops hin
  obtain ⟨l, o, rfl⟩ := exists_sectorOf hlsn.1 hlsn.2
  generalize runOps g ops = s at hr
  unfold FindsErased
  rw [calLbn_sectorOf, calSectorOffset_sectorOf]
  cases hm : f.map l with
  | some p =>
    have hpbn : s.pbn l = p := hr.pbn_eq_natCast.mpr hm
    have hlt : ppnOf p o < s.dev.npages := by
      rw [hr.npages]
      exact ppnOf_lt p o
    have hblank := readsBlank_iff hr hclean hlt
    rw [hr.page] at hblank
    rw [hpbn, hr.pageAt, hblank]
    constructor
    · intro h
      refine ⟨fun _ => ?_, fun hneg => absurd hneg (by omega)⟩
      rw [← hr.ftlRead hm Page.zero (fun _ => 0)]
      exact h _ _
    · rintro ⟨h, _⟩ junk sectorbuf
      rw [hr.ftlRead hm]
      exact h (by omega)
  | none =>
    have hpbn : s.pbn l = -1 := (hr.pbn_eq_neg_one l).mpr hm
    rw [hpbn]
    constructor
    · intro h
      refine ⟨fun hne => absurd rfl hne, fun _ => ?_⟩
      have hzero := h Page.zero (fun _ => 0)
      rw [ftlRead_unmapped hr hm] at hzero
      by_cases hpos : s.dev.pos + 1 < s.dev.npages
      · rw [if_pos hpos] at hzero
        exact ⟨hpos, (readsBlank_iff hr hclean hpos).mpr hzero⟩
      · rw [if_neg hpos] at hzero
        exact absurd (congrFun hzero ⟨0, by decide⟩) (by decide)
    · rintro ⟨_, h⟩ junk sectorbuf
      obtain ⟨hpos, hblank⟩ := h rfl
      rw [ftlRead_unmapped hr hm, if_pos hpos]
      exact (readsBlank_iff hr hclean hpos).mp hblank

/-- Sector 1 was never written, and logical block 0 is mapped to an erased page for it. -/
theorem readsErased_neighbour :
    ReadsErased twoBlocks (runOps twoBlocks [.write (writeOf 0 7), .read 0 Page.zero (filled 0)]) 1 :=
  (readsErased_iff twoBlocks [.write (writeOf 0 7), .read 0 Page.zero (filled 0)]
    (by simp [Op.lsn, writeOf, InRange, twoBlocks, Geometry.datablksPerDevice]) 1 (by decide)).mpr
    ⟨fun _ => .inl rfl, fun h => absurd h (by decide)⟩

/-- Logical block 1 is unmapped and the file stands behind page 0: the print moves it to page 2, and
sector 3 reads as what was written to sector 2. -/
theorem unmapped_reads_neighbour :
    ¬ ∀ (g : Geometry) (ops : List Op), (∀ a ∈ ops, InRange g a.lsn) → ∀ lsn, InRange g lsn →
      ¬ Written ops lsn → ReadsErased g (runOps g ops) lsn := by
  intro h
  have hread := h ⟨3, 3, by decide, by decide, by decide⟩ [.write (writeOf 2 7), .write (writeOf 0 8)]
    (by simp [Op.lsn, writeOf, InRange, Geometry.datablksPerDevice]) 3 (by decide)
    (by simp [Written, writeOf]) Page.zero (filled 0)
  exact absurd (congrFun hread ⟨0, by decide⟩) (by decide)

end Ftl
end SsuComputer
