import SsuComputer.Ftl.Correct

/-!
# SsuComputer.Ftl.Bounds

What the calls index: the mapping table, the pages of the device, the scratch array.

* `Adds Q s s'` — from `s` to `s'` only accesses with the property `Q` are recorded.
* `not_rejects` — a sector number out of range is never turned away without effect: the debugging
  print uses it before it is tested, and negative numbers are not tested at all.
* `ftlWrite_saved` — a write that relocates a block uses the scratch array at the offsets of the
  other pages it copies.
* `savedInBounds_iff` — over runs: the array of one page is long enough exactly as long as no page
  behind the first is copied.
-/

namespace SsuComputer
namespace Ftl

variable {g : Geometry}

/-! ## What is recorded on the way -/

def Adds (Q : Event → Prop) (s s' : State) : Prop :=
  ∃ events, s'.trace = s.trace ++ events ∧ ∀ e ∈ events, Q e

namespace Adds

variable {Q : Event → Prop} {s s' s'' : State}

theorem refl (s : State) : Adds Q s s := ⟨[], by simp, by simp⟩

theorem trans (h : Adds Q s s') (h' : Adds Q s' s'') : Adds Q s s'' := by
  obtain ⟨events, htrace, hq⟩ := h
  obtain ⟨events', htrace', hq'⟩ := h'
  refine ⟨events ++ events', by rw [htrace', htrace, List.append_assoc], ?_⟩
  intro e he
  rcases List.mem_append.mp he with he | he
  · exact hq e he
  · exact hq' e he

theorem of_trace {e : Event} (he : Q e) (h : s'.trace = s.trace ++ [e]) : Adds Q s s' :=
  ⟨[e], h, by simpa using he⟩

theorem log (s : State) {e : Event} (he : Q e) : Adds Q s (s.log e) := of_trace he rfl

theorem ddErase (pbn : Int) (s : State) (he : Q (.erase pbn)) : Adds Q s (s.ddErase g pbn) :=
  of_trace he rfl

theorem setPbn (i v : Int) (s : State) (he : Q (.table i)) : Adds Q s (s.setPbn i v) :=
  of_trace he rfl

theorem ddWrite (ppn : Int) (pg : Page) (s : State) (he : ∀ found, Q (.program ppn found)) :
    Adds Q s (s.ddWrite ppn pg) :=
  of_trace (he _) rfl

theorem getPage (ppn : Int) (buf : Page) (s : State) (he : Q (.read ppn)) :
    Adds Q s (getPage ppn buf s).2.2 :=
  of_trace he rfl

theorem isUsed (junk : Page) (ppn : Int) (s : State) (he : Q (.read ppn)) :
    Adds Q s (isUsed junk ppn s).2 := by
  have h := getPage ppn junk s he
  unfold Ftl.isUsed
  split <;> rename_i hg <;> rw [hg] at h
  · exact h
  · split
    · exact h
    · split <;> exact h

section Functions

variable (hread : ∀ ppn, Q (.read ppn)) (htable : ∀ i, Q (.table i))
include hread

theorem searchEmpty (junk : Page) (sectorOffset : Int) (pbns : List Nat) (unused : Int) (s : State) :
    Adds Q s (searchEmpty g junk sectorOffset pbns unused s).2.2 := by
  induction pbns generalizing unused s with
  | nil => exact refl s
  | cons pbn rest ih =>
    have hused := isUsed junk (calPpn g pbn sectorOffset) s (hread _)
    rw [Ftl.searchEmpty]
    split
    · exact ih _ _
    · simp only
      split
      · exact hused
      · exact hused.trans (ih _ _)

include htable

theorem printAddrmaptblInfo (junk : Page) (lsn : Int) (s : State) :
    Adds Q s (printAddrmaptblInfo g junk lsn s) :=
  (log s (htable _)).trans (getPage _ _ _ (hread _))

theorem writePrologue (junk : Page) (lsn : Int) (s : State) :
    Adds Q s (writePrologue g junk lsn s) :=
  (printAddrmaptblInfo hread htable junk lsn s).trans (log _ (htable _))

end Functions

theorem remapFirst (old new : Int) (htable : ∀ i, Q (.table i)) (ls : List Nat) (s : State) :
    Adds Q s (remapFirst old new ls s) := by
  induction ls generalizing s with
  | nil => exact refl s
  | cons l ls ih =>
    have hlog := log s (htable l)
    rw [Ftl.remapFirst]
    split
    · exact hlog.trans (setPbn _ _ _ (htable _))
    · exact hlog.trans (ih _)

/-! The copying loops, when any access will do. -/

theorem savePages (pbn : Int) (skip : Nat → Bool) (ts : List Nat) (x : Saved × State) :
    Adds (fun _ => True) x.2 (savePages g pbn skip ts x).2 := by
  induction ts generalizing x with
  | nil => exact refl _
  | cons t ts ih =>
    simp only [Ftl.savePages, List.foldl_cons]
    split
    · exact ih x
    · refine trans ?_ (ih _)
      have hget := getPage (Q := fun _ => True) (calPpn g pbn t) x.1.pagebuf x.2 trivial
      simp only [saveStep]
      split
      · exact hget.trans (log _ trivial)
      · exact hget

theorem restorePages (pbn : Int) (sv : Saved) (ts : List Nat) (s : State) :
    Adds (fun _ => True) s (restorePages g pbn sv ts s) := by
  induction ts generalizing s with
  | nil => exact refl s
  | cons t ts ih =>
    simp only [Ftl.restorePages, List.foldl_cons]
    split
    · exact ((log s trivial).trans (ddWrite _ _ _ fun _ => trivial)).trans (ih _)
    · exact ih s

theorem moveBlock (junk : Page) (new old e : Int) (s : State) :
    Adds (fun _ => True) s (moveBlock g junk new old e s) :=
  (((savePages _ _ _ _).trans (restorePages _ _ _ _)).trans
    (remapFirst _ _ (fun _ => trivial) _ _)).trans (ddErase _ _ trivial)

theorem reserve (pbn : Int) (s : State) :
    Adds (fun _ => True) s (State.ddErase g { s with reservedEmptyBlk := pbn } pbn) :=
  of_trace trivial rfl

theorem recoverUnused (junk : Page) (unusedPbn : Int) (s : State) :
    Adds (fun _ => True) s (recoverUnused g junk unusedPbn s) := by
  unfold Ftl.recoverUnused
  exact (((savePages _ _ _ _).trans (restorePages _ _ _ _)).trans
    (remapFirst _ _ (fun _ => trivial) _ _)).trans (reserve _ _)

end Adds

/-! ## Sector numbers out of range -/

def Event.InBounds (g : Geometry) : Event → Prop
  | .read ppn => 0 ≤ ppn ∧ ppn < g.blocksPerDevice * g.pagesPerBlock
  | .program ppn _ => 0 ≤ ppn ∧ ppn < g.blocksPerDevice * g.pagesPerBlock
  | .erase pbn => 0 ≤ pbn ∧ pbn < g.blocksPerDevice
  | .table i => 0 ≤ i ∧ i < g.datablksPerDevice
  | .savedPage _ => True

/-- The accesses made on the way from `s` to `s'`. -/
def accesses (s s' : State) : List Event := s'.trace.drop s.trace.length

/-- `ftl_write` leaves everything as it is, within the table and the device, whatever it is given. -/
structure WriteRejects (g : Geometry) (s : State) (lsn : Int) : Prop where
  page : ∀ junk sectorbuf, (ftlWrite g junk lsn sectorbuf s).dev.page = s.dev.page
  npages : ∀ junk sectorbuf, (ftlWrite g junk lsn sectorbuf s).dev.npages = s.dev.npages
  table : ∀ junk sectorbuf, ∀ l < g.datablksPerDevice,
    (ftlWrite g junk lsn sectorbuf s).pbn l = s.pbn l
  reserved : ∀ junk sectorbuf,
    (ftlWrite g junk lsn sectorbuf s).reservedEmptyBlk = s.reservedEmptyBlk
  bounds : ∀ junk sectorbuf, ∀ e ∈ accesses s (ftlWrite g junk lsn sectorbuf s), e.InBounds g

/-- `ftl_read` leaves the buffer as it is, within the table and the device. -/
structure ReadRejects (g : Geometry) (s : State) (lsn : Int) : Prop where
  sectorbuf : ∀ junk sectorbuf, (ftlRead g junk lsn sectorbuf s).1 = sectorbuf
  bounds : ∀ junk sectorbuf, ∀ e ∈ accesses s (ftlRead g junk lsn sectorbuf s).2, e.InBounds g

section OutOfRange

variable {s s' : State} {lsn : Int}

/-- What the debugging print looks at before anything is tested. -/
def printed (g : Geometry) (s : State) (lsn : Int) : List Event :=
  [.table (calLbn g lsn), .read (calPpn g (s.pbn (calLbn g lsn)) (calSectorOffset g lsn))]

theorem print_trace (junk : Page) (lsn : Int) (s : State) :
    (printAddrmaptblInfo g junk lsn s).trace = s.trace ++ printed g s lsn := by
  simp [printAddrmaptblInfo, getPage, State.ddRead, State.log, printed]

theorem mem_accesses {junk : Page} {e : Event} (he : e ∈ printed g s lsn)
    (h : Adds (fun _ => True) (printAddrmaptblInfo g junk lsn s) s') : e ∈ accesses s s' := by
  obtain ⟨events, htrace, -⟩ := h
  rw [accesses, htrace, print_trace, List.append_assoc, List.drop_left]
  exact List.mem_append_left _ he

theorem ftlRead_adds (junk : Page) (lsn : Int) (sectorbuf : Sector) (s : State) :
    Adds (fun _ => True) (printAddrmaptblInfo g junk lsn s) (ftlRead g junk lsn sectorbuf s).2 := by
  unfold ftlRead
  simp only
  split
  · exact Adds.refl _
  · exact (Adds.log _ trivial).trans (Adds.getPage _ _ _ trivial)

/-- Below the end of the range the buffer is filled from what was read, whatever it held. -/
theorem ftlRead_overwrites (h : lsn < g.datablksPerDevice * g.sectorsPerBlock) (junk : Page)
    (s : State) (buf buf' : Sector) :
    (ftlRead g junk lsn buf s).1 = (ftlRead g junk lsn buf' s).1 := by
  unfold ftlRead
  simp only
  rw [if_neg (by omega), if_neg (by omega)]

theorem writeMapped_adds (junk : Page) (lsn : Int) (sectorbuf : Sector) (s : State) :
    Adds (fun _ => True) s (writeMapped g junk lsn sectorbuf s) := by
  have hused := Adds.isUsed (Q := fun _ => True) junk
    (calPpn g (s.pbn (calLbn g lsn)) (calSectorOffset g lsn)) s trivial
  unfold writeMapped
  simp only
  split
  · exact hused.trans (Adds.ddWrite _ _ _ fun _ => trivial)
  · exact (hused.trans (Adds.moveBlock _ _ _ _ _)).trans
      (Adds.ddWrite _ (createPage sectorbuf ⟨lsn⟩) _ fun _ => trivial)

theorem writeUnmapped_adds (junk : Page) (lsn : Int) (sectorbuf : Sector) (s : State) :
    Adds (fun _ => True) s (writeUnmapped g junk lsn sectorbuf s) := by
  have hfind : Adds (fun _ => True) s (findPbn g junk lsn s).2.2 :=
    Adds.searchEmpty (fun _ => trivial) junk _ _ _ s
  unfold writeUnmapped
  split
  · rename_i heq
    rw [heq] at hfind
    exact (hfind.trans (Adds.setPbn _ _ _ trivial)).trans (Adds.ddWrite _ _ _ fun _ => trivial)
  · rename_i heq
    rw [heq] at hfind
    split
    · exact hfind.trans (Adds.recoverUnused _ _ _)
    · exact hfind

theorem ftlWrite_adds (junk : Page) (lsn : Int) (sectorbuf : Sector) (s : State) :
    Adds (fun _ => True) (printAddrmaptblInfo g junk lsn s) (ftlWrite g junk lsn sectorbuf s) := by
  have hlog : Adds (fun _ => True) (printAddrmaptblInfo g junk lsn s) (writePrologue g junk lsn s) :=
    Adds.log _ trivial
  unfold ftlWrite
  split
  · exact Adds.refl _
  · simp only
    split
    · exact hlog.trans (writeMapped_adds _ _ _ _)
    · exact hlog.trans (writeUnmapped_adds _ _ _ _)

theorem ddWrite_pos (ppn : Int) (pg : Page) (s : State) :
    (s.ddWrite ppn pg).dev.page (s.dev.fseek ppn).pos = pg :=
  if_pos rfl

/-- The page that a write to a mapped logical block ends with does not depend on the data. -/
theorem writeMapped_programs (junk : Page) (lsn : Int) (s : State) :
    ∃ k, ∀ sectorbuf, (writeMapped g junk lsn sectorbuf s).dev.page k = createPage sectorbuf ⟨lsn⟩ := by
  unfold writeMapped
  simp only
  split
  · exact ⟨_, fun _ => ddWrite_pos _ _ _⟩
  · exact ⟨_, fun _ => ddWrite_pos _ _ _⟩

theorem sectors_differ : (fun _ => 0 : Sector) ≠ fun _ => 1 := by
  intro h
  exact absurd (congrFun h ⟨0, by decide⟩) (by decide)

theorem calLbn_out (g : Geometry) (h : g.datablksPerDevice * g.sectorsPerBlock ≤ lsn) :
    (g.datablksPerDevice : Int) ≤ calLbn g lsn := by
  have hpos : (0 : Int) < g.sectorsPerBlock := by
    rw [Geometry.sectorsPerBlock_eq]
    have := g.pages_pos
    omega
  have h0 : 0 ≤ lsn := by
    refine Int.le_trans ?_ h
    positivity
  rw [calLbn, Int.tdiv_eq_ediv_of_nonneg h0]
  exact Int.le_ediv_of_mul_le hpos h

/-- An unmapped entry gives a negative page number for a negative sector number. -/
theorem calPpn_unmapped (g : Geometry) (h : lsn < 0) :
    calPpn g (-1) (calSectorOffset g lsn) < 0 := by
  have hpages := g.pages_pos
  have hoff : calSectorOffset g lsn ≤ 0 := by
    have hpos := Int.tmod_nonneg (g.sectorsPerBlock : Int) (show 0 ≤ -lsn by omega)
    rw [Int.neg_tmod] at hpos
    rw [calSectorOffset]
    omega
  unfold calPpn
  omega

theorem not_writeRejects (hout : ¬ InRange g lsn) : ¬ WriteRejects g s lsn := by
  intro h
  have hprinted : ∀ e ∈ printed g s lsn, e.InBounds g := fun e he =>
    h.bounds Page.zero (fun _ => 0) e (mem_accesses he (ftlWrite_adds _ _ _ _))
  by_cases hge : g.datablksPerDevice * g.sectorsPerBlock ≤ lsn
  · obtain ⟨_, hlt⟩ : 0 ≤ calLbn g lsn ∧ calLbn g lsn < g.datablksPerDevice :=
      hprinted _ List.mem_cons_self
    have := calLbn_out g hge
    omega
  · have hneg : lsn < 0 := by
      by_contra h0
      exact hout ⟨by omega, by omega⟩
    by_cases hmap : s.pbn (calLbn g lsn) = -1
    · obtain ⟨h0, _⟩ : 0 ≤ calPpn g (s.pbn (calLbn g lsn)) (calSectorOffset g lsn) ∧ _ :=
        hprinted (.read _) (List.mem_cons_of_mem _ List.mem_cons_self)
      rw [hmap] at h0
      have := calPpn_unmapped g hneg
      omega
    · have hsee := Sees.writePrologue (g := g) Page.zero lsn s
      obtain ⟨k, hk⟩ := writeMapped_programs (g := g) Page.zero lsn (writePrologue g Page.zero lsn s)
      have hdata : ∀ sectorbuf, s.dev.page k = createPage sectorbuf ⟨lsn⟩ := by
        intro sectorbuf
        rw [← h.page Page.zero sectorbuf, ← hk, ftlWrite, if_neg hge]
        simp only
        rw [if_pos (by rwa [hsee.pbn])]
      exact sectors_differ (congrArg Page.data ((hdata fun _ => 0).symm.trans (hdata fun _ => 1)))

/-- **Sectors out of range.** In no state is a sector number out of range turned away without
effect, by neither call. -/
theorem not_rejects (g : Geometry) (s : State) (lsn : Int) (hout : ¬ InRange g lsn) :
    ¬ WriteRejects g s lsn ∧ ¬ ReadRejects g s lsn := by
  refine ⟨not_writeRejects hout, ?_⟩
  intro h
  by_cases hge : g.datablksPerDevice * g.sectorsPerBlock ≤ lsn
  · obtain ⟨_, hlt⟩ : 0 ≤ calLbn g lsn ∧ calLbn g lsn < g.datablksPerDevice :=
      h.bounds Page.zero (fun _ => 0) _ (mem_accesses List.mem_cons_self (ftlRead_adds _ _ _ _))
    have := calLbn_out g hge
    omega
  · have hsame := ftlRead_overwrites (Int.lt_of_not_ge hge) Page.zero s (fun _ => 0) (fun _ => 1)
    rw [h.sectorbuf, h.sectorbuf] at hsame
    exact sectors_differ hsame

theorem not_rejects_behind_last :
    ¬ WriteRejects twoBlocks (boot twoBlocks) 2 ∧ ¬ ReadRejects twoBlocks (boot twoBlocks) 2 :=
  not_rejects twoBlocks (boot twoBlocks) 2 (by decide)

/-- With logical block 0 in physical block 1, sector -1 is page 1, which belongs to sector 3. -/
theorem negative_sector_written :
    ¬ ∀ (g : Geometry) (calls : List Call), (∀ c ∈ calls, InRange g c.lsn) → ∀ lsn, ¬ InRange g lsn →
      WriteRejects g (run g calls) lsn ∧ ReadRejects g (run g calls) lsn := by
  intro h
  obtain ⟨hw, _⟩ := h threeBlocks [writeOf 2 7, writeOf 0 8] (by decide) (-1) (by decide)
  have hpage := congrFun (hw.page Page.zero (filled 9)) 1
  exact absurd (congrFun (congrArg Page.data hpage) ⟨0, by decide⟩) (by decide)

end OutOfRange

/-! ## The scratch array -/

def Event.saved : Event → List Nat
  | .savedPage i => [i]
  | _ => []

/-- The indexes used so far on the array `saved_page`. -/
def State.saved (s : State) : List Nat := s.trace.flatMap Event.saved

def SavedInBounds (s : State) : Prop := ∀ i ∈ s.saved, i < sectorsPerPage

theorem saved_of_adds {s s' : State} (h : Adds (fun e => e.saved = []) s s') : s'.saved = s.saved := by
  obtain ⟨events, htrace, hq⟩ := h
  rw [State.saved, htrace, List.flatMap_append, List.flatMap_eq_nil_iff.mpr hq, List.append_nil]
  rfl

/-- The offsets of block `b` that the copy-out loop finds in use. -/
def inUse (g : Geometry) (s : State) (b : Int) (skip : Nat → Bool) (ts : List Nat) : List Nat :=
  ts.filter fun t => !skip t && decide (0 < (pageAt g s b t).spare.lsn)

theorem saveStep_saved {s : State} {f : Flash g} (hr : Represents s f) (b : Fin g.blocksPerDevice)
    (o : Fin g.pagesPerBlock) (sv : Saved) :
    (saveStep g b o (sv, s)).2.saved =
        s.saved ++ (if 0 < (pageAt g s b o).spare.lsn then [(o : Nat)] else []) ∧
      (saveStep g b o (sv, s)).1.savedElement =
        if 0 < (pageAt g s b o).spare.lsn then sv.savedElement ||| (1#32 <<< (o : Nat))
        else sv.savedElement := by
  have hget := (hr.getPage b o sv.pagebuf).2
  have hsaved := saved_of_adds (Adds.getPage (calPpn g b o) sv.pagebuf s rfl)
  rw [hr.pageAt, ← hget]
  unfold saveStep
  simp only
  by_cases h : 0 < (getPage (calPpn g b o) sv.pagebuf s).2.1.spare.lsn
  · rw [if_pos h, if_pos h, if_pos h, ← hsaved]
    refine ⟨?_, rfl⟩
    simp [State.saved, State.log, Event.saved]
  · rw [if_neg h, if_neg h, if_neg h, List.append_nil]
    exact ⟨hsaved, rfl⟩

theorem inUse_congr {s s' : State} (h : Sees s s') (b : Int) (skip : Nat → Bool) (ts : List Nat) :
    inUse g s' b skip ts = inUse g s b skip ts := by
  unfold inUse pageAt
  rw [h.page]

theorem getLsbD_or_bit {x : BitVec 32} {t k : Nat} (h : (x ||| 1#32 <<< t).getLsbD k = true) :
    x.getLsbD k = true ∨ k = t := by
  rw [BitVec.getLsbD_or, Bool.or_eq_true] at h
  refine h.imp_right ?_
  intro hbit
  simp only [BitVec.getLsbD_shiftLeft, BitVec.getLsbD_one, Bool.and_eq_true, Bool.not_eq_true',
    decide_eq_true_eq, decide_eq_false_iff_not] at hbit
  omega

theorem getLsbD_of_test {x : BitVec 32} {k : Nat} (h : x &&& 1#32 <<< k ≠ 0) : x.getLsbD k = true := by
  by_contra hbit
  refine h (BitVec.eq_of_getLsbD_eq ?_)
  intro j _
  show (x &&& 1#32 <<< k).getLsbD j = (0#32).getLsbD j
  rw [BitVec.getLsbD_and, BitVec.getLsbD_zero, Bool.and_eq_false_iff]
  by_cases hj : j = k
  · exact .inl (by simpa [hj] using hbit)
  · refine .inr ?_
    simp only [BitVec.getLsbD_shiftLeft, BitVec.getLsbD_one]
    by_cases hlt : j < k
    · simp [hlt]
    · simp [show j - k ≠ 0 by omega]

/-- The copy-out loop: every page in use is saved, and no bit is set for another. -/
theorem savePages_saved {f : Flash g} (b : Fin g.blocksPerDevice) (skip : Nat → Bool) :
    ∀ (ts : List Nat) (x : Saved × State), (∀ t ∈ ts, t < g.pagesPerBlock) → Represents x.2 f →
      (savePages g b skip ts x).2.saved = x.2.saved ++ inUse g x.2 b skip ts ∧
        ∀ k, (savePages g b skip ts x).1.savedElement.getLsbD k = true →
          x.1.savedElement.getLsbD k = true ∨ k ∈ inUse g x.2 b skip ts := by
  intro ts
  induction ts with
  | nil =>
    intro x _ _
    exact ⟨(List.append_nil _).symm, fun k hk => .inl hk⟩
  | cons t ts ih =>
    intro x hts hr
    have hts' : ∀ t' ∈ ts, t' < g.pagesPerBlock := fun t' ht' => hts t' (by simp [ht'])
    have hcons : savePages g b skip (t :: ts) x =
        savePages g b skip ts (if skip t then x else saveStep g b t x) := rfl
    rw [hcons]
    by_cases hskip : skip t
    · have hsame : inUse g x.2 b skip (t :: ts) = inUse g x.2 b skip ts := by
        simp [inUse, hskip]
      rw [if_pos hskip, hsame]
      exact ih x hts' hr
    · have hsee := Sees.saveStep (g := g) b t x
      obtain ⟨hsaved, hbit⟩ := saveStep_saved hr b ⟨t, hts t (by simp)⟩ x.1
      obtain ⟨hsaved', hbits⟩ := ih _ hts' (hr.of_sees hsee)
      have hsame : inUse g x.2 b skip (t :: ts) =
          (if 0 < (pageAt g x.2 b t).spare.lsn then [t] else []) ++ inUse g x.2 b skip ts := by
        unfold inUse
        by_cases h : 0 < (pageAt g x.2 b t).spare.lsn
        · simp [hskip, h]
        · simp [h]
      rw [if_neg hskip, hsaved', inUse_congr hsee, hsame, ← List.append_assoc]
      refine ⟨congrArg (· ++ _) hsaved, ?_⟩
      intro k hk
      rcases hbits k hk with hk | hk
      · have hstep : (saveStep g b t x).1.savedElement = _ := hbit
        rw [hstep] at hk
        split at hk
        · rename_i hlive
          rcases getLsbD_or_bit hk with hk | rfl
          · exact .inl hk
          · exact .inr (List.mem_append_left _ (by rw [if_pos hlive]; exact List.mem_cons_self))
        · exact .inl hk
      · rw [inUse_congr hsee] at hk
        exact .inr (List.mem_append_right _ hk)

theorem restorePages_saved (pbn : Int) (sv : Saved) :
    ∀ (ts : List Nat) (s : State), ∃ more, (restorePages g pbn sv ts s).saved = s.saved ++ more ∧
      ∀ i ∈ more, sv.savedElement.getLsbD i = true := by
  intro ts
  induction ts with
  | nil =>
    intro s
    exact ⟨[], (List.append_nil _).symm, by simp⟩
  | cons t ts ih =>
    intro s
    simp only [restorePages, List.foldl_cons]
    split
    · rename_i hbit
      have hadd : ((s.log (.savedPage t)).ddWrite (calPpn g pbn t) (sv.savedPage t)).saved =
          s.saved ++ [t] := by
        simp [State.saved, State.ddWrite, State.log, Event.saved]
      obtain ⟨more, hsaved, hmore⟩ := ih _
      refine ⟨t :: more, ?_, ?_⟩
      · refine hsaved.trans ?_
        rw [hadd, List.append_assoc]
        rfl
      · intro i hi
        rcases List.mem_cons.mp hi with rfl | hi
        · exact getLsbD_of_test hbit
        · exact hmore i hi
    · exact ih s

theorem remapErase_saved (old new : Int) (ls : List Nat) (s : State) :
    (State.ddErase g (remapFirst old new ls s) (remapFirst old new ls s).reservedEmptyBlk).saved =
      s.saved :=
  saved_of_adds ((Adds.remapFirst old new (fun _ => rfl) ls s).trans (Adds.ddErase _ _ rfl))

/-- The offsets at which `move_block` uses the array: those of the pages in use, when they are saved
and when they are written back. -/
theorem moveBlock_saved {s : State} {f : Flash g} (hr : Represents s f) (junk : Page) (new e : Int)
    (b : Fin g.blocksPerDevice) :
    ∃ more, (moveBlock g junk new b e s).saved = s.saved ++
        (inUse g s b (fun t => decide (e = t)) (List.range g.sectorsPerBlock) ++ more) ∧
      ∀ i ∈ more, i ∈ inUse g s b (fun t => decide (e = t)) (List.range g.sectorsPerBlock) := by
  obtain ⟨hsaved, hbits⟩ := savePages_saved b (fun t => decide (e = t)) (List.range g.sectorsPerBlock)
    (⟨junk, fun _ => junk, 0⟩, s) (by simp) hr
  unfold moveBlock
  simp only
  generalize savePages g b (fun t => decide (e = t)) (List.range g.sectorsPerBlock)
    (⟨junk, fun _ => junk, 0⟩, s) = r at hsaved hbits ⊢
  obtain ⟨more, hmore, hin⟩ := restorePages_saved (g := g) new r.1 (List.range g.sectorsPerBlock) r.2
  refine ⟨more, ?_, ?_⟩
  · rw [remapErase_saved, hmore, hsaved, List.append_assoc]
  · intro i hi
    refine (hbits i (hin i hi)).resolve_left ?_
    simp

/-- The other pages of the block that the call relocates are all at offset 0 or not in use. -/
def CopiesFirst (g : Geometry) (s : State) (c : Call) : Prop :=
  Overwrites g s c → ∀ t < g.pagesPerBlock, 1 ≤ t → (t : Int) ≠ calSectorOffset g c.lsn →
    (pageAt g s (s.pbn (calLbn g c.lsn)) t).spare.lsn ≤ 0

instance (s : State) (c : Call) : Decidable (CopiesFirst g s c) := inferInstanceAs (Decidable (_ → _))

section Write

variable {s : State} {f : Flash g} {l : Fin g.datablksPerDevice} {o : Fin g.pagesPerBlock}

theorem writePrologue_saved (junk : Page) (lsn : Int) (s : State) :
    (writePrologue g junk lsn s).saved = s.saved :=
  saved_of_adds (Adds.writePrologue (fun _ => rfl) (fun _ => rfl) junk lsn s)

theorem writeMapped_saved (hr : Represents s f) (junk : Page) (d : Sector)
    {p : Fin g.blocksPerDevice} (hm : f.map l = some p) :
    ∃ copied, (writeMapped g junk (sectorOf l o) d s).saved = s.saved ++ copied ∧
      ∀ i, i ∈ copied ↔ ¬ (f.page p o).Erased ∧ i < g.pagesPerBlock ∧ i ≠ o ∧
        0 < (pageAt g s p i).spare.lsn := by
  have hsee := Sees.isUsed junk (calPpn g p o) s
  have hused := saved_of_adds (Adds.isUsed junk (calPpn g p o) s rfl)
  have hpbn : s.pbn l = p := hr.pbn_eq_natCast.mpr hm
  have hr' := hr.of_sees hsee
  unfold writeMapped
  simp only [calLbn_sectorOf, calSectorOffset_sectorOf, hpbn, hsee.pbn]
  by_cases he : (f.page p o).Erased
  · rw [if_pos ((hr.isUsed p o junk).mpr he)]
    refine ⟨[], ?_, by simp [he]⟩
    rw [List.append_nil, ← hused]
    exact saved_of_adds (Adds.ddWrite _ _ _ fun _ => rfl)
  · rw [if_neg fun h => he ((hr.isUsed p o junk).mp h)]
    obtain ⟨more, hsaved, hmore⟩ := moveBlock_saved hr' junk
      (isUsed junk (calPpn g p o) s).2.reservedEmptyBlk o p
    rw [inUse_congr hsee] at hsaved hmore
    have hlive : ∀ i, i ∈ inUse g s p (fun t => decide (((o : Nat) : Int) = t))
        (List.range g.sectorsPerBlock) ↔ i < g.pagesPerBlock ∧ i ≠ o ∧
          0 < (pageAt g s p i).spare.lsn := by
      intro i
      rw [inUse, List.mem_filter, List.mem_range, Geometry.sectorsPerBlock_eq, Bool.and_eq_true,
        Bool.not_eq_true', decide_eq_false_iff_not, decide_eq_true_eq, Nat.cast_inj, ne_eq,
        eq_comm (a := (o : Nat))]
    rw [hused] at hsaved
    refine ⟨_, (saved_of_adds (Adds.ddWrite _ (createPage d ⟨sectorOf l o⟩) _ fun _ => rfl)).trans
      hsaved, ?_⟩
    · intro i
      rw [List.mem_append, hlive]
      constructor
      · rintro (h | h)
        · exact ⟨he, h⟩
        · exact ⟨he, (hlive i).mp (hmore i h)⟩
      · rintro ⟨-, h⟩
        exact .inl h

theorem writeUnmapped_saved (hr : Represents s f) (junk : Page) (d : Sector)
    {q : Fin g.blocksPerDevice} (hq : f.freeBlock o = some q) :
    (writeUnmapped g junk (sectorOf l o) d s).saved = s.saved := by
  have hfind := (findPbn_eq hr junk l o).1
  have hsaved := saved_of_adds (Adds.searchEmpty (g := g) (fun _ => rfl) junk
    (calSectorOffset g (sectorOf l o)) (List.range g.blocksPerDevice) (-1) s)
  rw [hq] at hfind
  unfold writeUnmapped
  split
  · rename_i heq
    rw [findPbn] at heq
    rw [heq] at hsaved
    refine (saved_of_adds ((Adds.setPbn _ _ _ ?_).trans (Adds.ddWrite _ _ _ ?_))).trans hsaved
    · rfl
    · intro _
      rfl
  · rename_i heq
    rw [heq] at hfind
    cases hfind

/-- What one in-range write adds: the offsets of the other pages it copies. -/
theorem ftlWrite_saved (hr : Represents s f) (hc : f.Covered) {c : Call} (ha : c.lsn = sectorOf l o) :
    ∃ copied, (stepCall g s c).saved = s.saved ++ copied ∧
      ∀ i, i ∈ copied ↔ Overwrites g s c ∧ i < g.pagesPerBlock ∧ (i : Int) ≠ calSectorOffset g c.lsn ∧
        0 < (pageAt g s (s.pbn (calLbn g c.lsn)) i).spare.lsn := by
  have hsee := Sees.writePrologue (g := g) c.junk (sectorOf l o) s
  have hp := hr.of_sees hsee
  have hlt := sectorOf_lt l o
  have hpage : pageAt g (writePrologue g c.junk (sectorOf l o) s) = pageAt g s := by
    unfold pageAt
    rw [hsee.page]
  simp only [stepCall, hr.overwrites ha, ha, calLbn_sectorOf, calSectorOffset_sectorOf, ne_eq,
    Nat.cast_inj]
  rw [ftlWrite, if_neg (by omega)]
  simp only [calLbn_sectorOf, hp.pbn]
  cases hm : f.map l with
  | some p =>
    obtain ⟨copied, hsaved, hcopied⟩ := writeMapped_saved (o := o) hp c.junk c.sectorbuf hm
    rw [if_pos (by simp)]
    refine ⟨copied, by rw [hsaved, writePrologue_saved], ?_⟩
    intro i
    rw [hcopied, hpage, hr.pbn_eq_natCast.mpr hm, Flash.Overwrites]
    simp [hm]
  | none =>
    obtain ⟨q, hq⟩ := Flash.exists_freeBlock hc hm o
    rw [if_neg (by simp)]
    refine ⟨[], ?_, ?_⟩
    · rw [writeUnmapped_saved hp c.junk c.sectorbuf hq, writePrologue_saved, List.append_nil]
    · simp [Flash.Overwrites, hm]

end Write

theorem boot_saved (g : Geometry) : (boot g).saved = [] := by
  have hopen : ∀ (ls : List Nat) (s : State),
      (ls.foldl (fun s (i : Nat) => s.setPbn i (-1)) s).saved = s.saved := by
    intro ls
    induction ls with
    | nil =>
      intro s
      rfl
    | cons l ls ih =>
      intro s
      exact (ih _).trans (saved_of_adds (Adds.setPbn _ _ _ rfl))
  exact hopen _ _

/-- **Scratch array.** Its indexes stay below its length after every prefix of a run exactly when no
call of the run copies a page behind the first. -/
theorem savedInBounds_iff (g : Geometry) (calls : List Call) (hin : ∀ c ∈ calls, InRange g c.lsn) :
    (∀ pre, pre <+: calls → SavedInBounds (run g pre)) ↔
      Run.Guarded (stepCall g) (CopiesFirst g) (boot g) calls := by
  refine Run.always_iff_guarded (I := fun _ s => ∃ f : Flash g, Represents s f ∧ f.Covered)
    (P := fun _ s => SavedInBounds s) ⟨_, boot_represents g, fresh_covered g⟩ ?_ ?_ ?_ calls hin
  · intro i hi
    rw [boot_saved] at hi
    cases hi
  · rintro _ s c ⟨f, hr, hc⟩ hadm
    obtain ⟨l, o, ha⟩ := exists_address hadm
    exact ⟨_, stepCall_refines hr hc ha⟩
  · rintro _ s c ⟨f, hr, hc⟩ hok hadm
    obtain ⟨l, o, ha⟩ := exists_address hadm
    obtain ⟨copied, hsaved, hcopied⟩ := ftlWrite_saved hr hc ha
    unfold SavedInBounds sectorsPerPage at *
    rw [hsaved]
    constructor
    · intro h hover t ht h1 hne
      by_contra hlive
      have := h t (List.mem_append_right _ ((hcopied t).mpr ⟨hover, ht, hne, by omega⟩))
      omega
    · intro h i hi
      rcases List.mem_append.mp hi with hi | hi
      · exact hok i hi
      · obtain ⟨hover, ht, hne, hlive⟩ := (hcopied i).mp hi
        by_contra h1
        have := h hover i ht (by omega) hne
        omega

/-- Overwriting sector 0 copies its neighbour, which goes to index 1 of an array of length 1. -/
theorem saved_out_of_bounds :
    ¬ ∀ (g : Geometry) (calls : List Call), (∀ c ∈ calls, InRange g c.lsn) →
      SavedInBounds (run g calls) := by
  intro h
  have hok := h twoBlocks [writeOf 0 7, writeOf 1 8, writeOf 0 9] (by decide)
  exact absurd (hok 1 (by decide)) (by decide)

theorem savedInBounds_overwritten :
    SavedInBounds (run twoBlocks [writeOf 0 7, writeOf 1 8, writeOf 1 9]) :=
  (savedInBounds_iff twoBlocks [writeOf 0 7, writeOf 1 8, writeOf 1 9] (by decide)).mpr (by decide) _
    (List.prefix_refl _)

end Ftl
end SsuComputer
