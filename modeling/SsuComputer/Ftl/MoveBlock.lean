import SsuComputer.Ftl.Correct

/-!
# SsuComputer.Ftl.MoveBlock

`move_block` on its own, from any contents of the device and any table.

* `moveBlock_page`, `moveBlock_pbn` — what it does: the block copied to ends blank, the block
  copied from is left as it was, and the first table entry changes.
* `moveBlock_movesLive_iff` — it moves the live pages of a block exactly when there is nothing to
  move: the block is erased already, with at most one logical block mapped to it.
-/

namespace SsuComputer
namespace Ftl

variable {g : Geometry}

/-- The pages of `old` in use, the one at the offset `e` left out, are on `new`; the rest of `new` and
all of `old` are erased, and the table points to `new` where it pointed to `old`. -/
structure MovesLive (g : Geometry) (new old : Fin g.blocksPerDevice) (e : Int) (s s' : State) :
    Prop where
  live : ∀ o : Fin g.pagesPerBlock, (o : Int) ≠ e → 0 ≤ (pageAt g s old o).spare.lsn →
    pageAt g s' new o = pageAt g s old o
  rest : ∀ o : Fin g.pagesPerBlock, (o : Int) = e ∨ (pageAt g s old o).spare.lsn < 0 →
    (pageAt g s' new o).Erased
  old_erased : ∀ o : Fin g.pagesPerBlock, (pageAt g s' old o).Erased
  table : ∀ l < g.datablksPerDevice, s'.pbn l = if s.pbn l = old then (new : Int) else s.pbn l
  others : ∀ b : Fin g.blocksPerDevice, b ≠ old → b ≠ new →
    ∀ o : Fin g.pagesPerBlock, pageAt g s' b o = pageAt g s b o

/-! ## The loops -/

/-- Nothing changes but the pages of block `b`, the file position and the record of accesses. -/
structure Frame (b : Fin g.blocksPerDevice) (s s' : State) : Prop where
  npages : s'.dev.npages = s.dev.npages
  pbn : s'.pbn = s.pbn
  reserved : s'.reservedEmptyBlk = s.reservedEmptyBlk
  page : ∀ (b' : Fin g.blocksPerDevice) (o : Fin g.pagesPerBlock), b' ≠ b →
    s'.dev.page (ppnOf b' o) = s.dev.page (ppnOf b' o)

namespace Frame

variable {b : Fin g.blocksPerDevice} {s s' s'' : State}

theorem of_sees (h : Sees s s') : Frame b s s' :=
  ⟨h.npages, h.pbn, h.reserved, fun _ _ _ => by rw [h.page]⟩

theorem trans (h : Frame b s s') (h' : Frame b s' s'') : Frame b s s'' :=
  ⟨h'.npages.trans h.npages, h'.pbn.trans h.pbn, h'.reserved.trans h.reserved,
    fun b' o hb => (h'.page b' o hb).trans (h.page b' o hb)⟩

theorem ddWrite (hdev : s.dev.npages = g.blocksPerDevice * g.pagesPerBlock)
    (o : Fin g.pagesPerBlock) (pg : Page) : Frame b s (s.ddWrite (calPpn g b o) pg) := by
  have hlt : ppnOf b o < s.dev.npages := by rw [hdev]; exact ppnOf_lt b o
  refine ⟨?_, rfl, rfl, ?_⟩
  · simp [State.ddWrite, calPpn_eq, Device.ddWrite_ok _ hlt]
  · intro b' o' hb
    simp [State.ddWrite, calPpn_eq, Device.ddWrite_ok _ hlt, ppnOf_inj, hb]

theorem restorePages (sv : Saved) :
    ∀ (ts : List Nat) {s : State}, (∀ t ∈ ts, t < g.pagesPerBlock) →
      s.dev.npages = g.blocksPerDevice * g.pagesPerBlock →
      Frame b s (restorePages g b sv ts s) := by
  intro ts
  induction ts with
  | nil =>
    intro s _ _
    exact of_sees (Sees.refl s)
  | cons t ts ih =>
    intro s hts hdev
    have hts' : ∀ t' ∈ ts, t' < g.pagesPerBlock := fun t' ht' => hts t' (by simp [ht'])
    simp only [Ftl.restorePages, List.foldl_cons]
    split
    · have hlog : Frame b s (s.log (.savedPage t)) := of_sees (Sees.log s rfl)
      have hw := hlog.trans (ddWrite (hlog.npages.trans hdev) ⟨t, hts t (by simp)⟩ (sv.savedPage t))
      exact hw.trans (ih hts' (hw.npages.trans hdev))
    · exact ih hts' hdev

end Frame

theorem remapFirst_dev (old new : Int) :
    ∀ (ls : List Nat) (s : State), (remapFirst old new ls s).dev = s.dev ∧
      (remapFirst old new ls s).reservedEmptyBlk = s.reservedEmptyBlk := by
  intro ls
  induction ls with
  | nil =>
    intro s
    exact ⟨rfl, rfl⟩
  | cons l ls ih =>
    intro s
    rw [remapFirst]
    split
    · exact ⟨rfl, rfl⟩
    · exact ih _

theorem remapFirst_pbn (old new : Int) :
    ∀ (ls : List Nat) (s : State), (remapFirst old new ls s).pbn =
      match ls.find? fun l : Nat => s.pbn l = old with
      | some l => Function.update s.pbn l new
      | none => s.pbn := by
  intro ls
  induction ls with
  | nil =>
    intro s
    rfl
  | cons l ls ih =>
    intro s
    rw [remapFirst, List.find?_cons]
    by_cases h : s.pbn l = old
    · simp only [h, if_true, decide_true]
      rfl
    · simp only [h, if_false, decide_false]
      exact ih _

/-! ## The whole -/

section Move

variable {s : State} {new : Fin g.blocksPerDevice}

theorem pageAt_eq (s : State) (b : Fin g.blocksPerDevice) (o : Fin g.pagesPerBlock) :
    pageAt g s b o = s.dev.page (ppnOf b o) := by
  rw [pageAt, calPpn_eq, Int.toNat_natCast]

/-- Up to the erase at the end only the block copied to changes. -/
theorem moveBlock_eq (hdev : s.dev.npages = g.blocksPerDevice * g.pagesPerBlock) (junk : Page)
    (new old : Fin g.blocksPerDevice) (e : Int) :
    ∃ s', Frame new s s' ∧ moveBlock g junk new old e s =
      let s := remapFirst old new (List.range g.datablksPerDevice) s'
      s.ddErase g s.reservedEmptyBlk := by
  have hsave : Frame new s _ := .of_sees (Sees.savePages (g := g) old (fun t => decide (e = t))
    (List.range g.sectorsPerBlock) (⟨junk, fun _ => junk, 0⟩, s))
  refine ⟨_, hsave.trans (Frame.restorePages _ _ ?_ (hsave.npages.trans hdev)), rfl⟩
  simp

theorem moveBlock_page (hdev : s.dev.npages = g.blocksPerDevice * g.pagesPerBlock)
    (hres : s.reservedEmptyBlk = new) (junk : Page) (old : Fin g.blocksPerDevice) (e : Int)
    (b : Fin g.blocksPerDevice) (o : Fin g.pagesPerBlock) :
    pageAt g (moveBlock g junk new old e s) b o =
      if b = new then Page.blank else pageAt g s b o := by
  obtain ⟨s', hframe, hmove⟩ := moveBlock_eq hdev junk new old e
  obtain ⟨hdev', hres'⟩ := remapFirst_dev old new (List.range g.datablksPerDevice) s'
  have hb : (new + 1) * g.pagesPerBlock ≤ s'.dev.npages := by
    rw [hframe.npages, hdev]
    exact Nat.mul_le_mul_right _ new.isLt
  rw [hmove, pageAt_eq, pageAt_eq]
  simp only [State.ddErase, hdev', hres', hframe.reserved, hres, Device.ddErase_ok _ _ hb,
    ppnOf_mem_block]
  by_cases hbn : b = new
  · rw [if_pos hbn, if_pos hbn]
  · rw [if_neg hbn, if_neg hbn, hframe.page b o hbn]

theorem moveBlock_pbn (hdev : s.dev.npages = g.blocksPerDevice * g.pagesPerBlock) (junk : Page)
    (old : Fin g.blocksPerDevice) (e : Int) :
    (moveBlock g junk new old e s).pbn =
      match (List.range g.datablksPerDevice).find? fun l : Nat => s.pbn l = (old : Int) with
      | some l => Function.update s.pbn l (new : Int)
      | none => s.pbn := by
  obtain ⟨s', hframe, hmove⟩ := moveBlock_eq hdev junk new old e
  rw [hmove, ← hframe.pbn]
  exact remapFirst_pbn old new _ s'

/-- Moving the first entry moves them all exactly when there is at most one. -/
theorem moveBlock_table_iff {old : Fin g.blocksPerDevice} (hne : new ≠ old)
    (hdev : s.dev.npages = g.blocksPerDevice * g.pagesPerBlock) (junk : Page) (e : Int) :
    (∀ l < g.datablksPerDevice, (moveBlock g junk new old e s).pbn l =
        if s.pbn l = old then (new : Int) else s.pbn l) ↔
      ∀ l < g.datablksPerDevice, ∀ l' < g.datablksPerDevice,
        s.pbn l = old → s.pbn l' = old → l = l' := by
  have hne' : ((new : Nat) : Int) ≠ (old : Nat) := fun h => hne (Fin.ext (by omega))
  rw [moveBlock_pbn hdev]
  cases hfind : (List.range g.datablksPerDevice).find? fun l : Nat => s.pbn l = (old : Int) with
  | none =>
    have hno : ∀ l < g.datablksPerDevice, s.pbn l ≠ (old : Int) := by
      intro l hl
      simpa using List.find?_eq_none.mp hfind l (List.mem_range.mpr hl)
    constructor
    · intro _ l hl _ _ heq
      exact absurd heq (hno l hl)
    · intro _ l hl
      rw [if_neg (hno l hl)]
  | some k =>
    have hk : s.pbn k = (old : Int) := by simpa using List.find?_some hfind
    have hkD : k < g.datablksPerDevice := List.mem_range.mp (List.mem_of_find?_eq_some hfind)
    have hone : (∀ l < g.datablksPerDevice, Function.update s.pbn (k : Int) (new : Int) l =
          if s.pbn l = old then (new : Int) else s.pbn l) ↔
        ∀ l < g.datablksPerDevice, s.pbn l = old → l = k := by
      constructor
      · intro h l hl heq
        by_contra hlk
        have := h l hl
        rw [Function.update_of_ne (by omega), if_pos heq, heq] at this
        exact hne' this.symm
      · intro h l hl
        by_cases heq : s.pbn l = old
        · rw [h l hl heq, Function.update_self, if_pos hk]
        · have hlk : l ≠ k := by rintro rfl; exact heq hk
          rw [Function.update_of_ne (by omega), if_neg heq]
    refine hone.trans ⟨?_, ?_⟩
    · intro h l hl l' hl' heq heq'
      rw [h l hl heq, h l' hl' heq']
    · intro h l hl heq
      exact h l hl k hkD heq hk

end Move

/-- **Relocation.** Whatever the device and the table hold, the live pages of a block arrive
exactly when the block is erased and no two logical blocks are mapped to it. -/
theorem moveBlock_movesLive_iff (g : Geometry) (s : State) (new old : Fin g.blocksPerDevice)
    (e : Int) (junk : Page) (hdev : s.dev.npages = g.blocksPerDevice * g.pagesPerBlock)
    (hne : new ≠ old) (hres : s.reservedEmptyBlk = new) :
    MovesLive g new old e s (moveBlock g junk new old e s) ↔
      (∀ o : Fin g.pagesPerBlock, (pageAt g s old o).Erased) ∧
        ∀ l < g.datablksPerDevice, ∀ l' < g.datablksPerDevice,
          s.pbn l = old → s.pbn l' = old → l = l' := by
  have hpage := moveBlock_page hdev hres junk old e
  rw [← moveBlock_table_iff hne hdev junk e]
  constructor
  · intro h
    refine ⟨?_, h.table⟩
    intro o
    have := h.old_erased o
    rwa [hpage, if_neg hne.symm] at this
  · rintro ⟨herased, htable⟩
    refine ⟨?_, ?_, ?_, htable, ?_⟩
    · intro o _ hlive
      have : (pageAt g s old o).spare.lsn = -1 := herased o
      omega
    · intro o _
      rw [hpage, if_pos rfl]
      exact Page.blank_erased
    · intro o
      rw [hpage, if_neg hne.symm]
      exact herased o
    · intro b _ hb o
      rw [hpage, if_neg hb]

/-- Logical block 1 has sector 2 on block 0; logical block 0 is mapped to block 1, which is erased. -/
def mappedErased : State := (run threeBlocks [writeOf 2 7]).setPbn 0 1

/-- The erased block 1 is given up for the reserved one, and the data of block 0 stay. -/
theorem moveBlock_movesLive_erased :
    MovesLive threeBlocks (2 : Fin 3) (1 : Fin 3) 0 mappedErased
        (moveBlock threeBlocks Page.zero ((2 : Fin 3) : Nat) ((1 : Fin 3) : Nat) 0 mappedErased) ∧
      (moveBlock threeBlocks Page.zero ((2 : Fin 3) : Nat) ((1 : Fin 3) : Nat) 0 mappedErased).pbn 0 = 2 ∧
      (pageAt threeBlocks mappedErased 0 0).spare.lsn = 2 := by
  refine ⟨(moveBlock_movesLive_iff threeBlocks mappedErased (2 : Fin 3) (1 : Fin 3) 0 Page.zero rfl
    (Fin.ne_of_val_ne (by decide)) rfl).mpr ⟨by decide, by decide⟩, by decide, by decide⟩

/-- Sector 1 is in use and not the one left out, and does not arrive. -/
theorem moveBlock_loses_live :
    ¬ ∀ (g : Geometry) (s : State) (new old : Fin g.blocksPerDevice) (e : Int) (junk : Page),
      s.dev.npages = g.blocksPerDevice * g.pagesPerBlock → new ≠ old → s.reservedEmptyBlk = new →
        MovesLive g new old e s (moveBlock g junk new old e s) := by
  intro h
  have hmoves := h twoBlocks (run twoBlocks [writeOf 0 7, writeOf 1 8]) (1 : Fin 2) (0 : Fin 2) 0
    Page.zero rfl (Fin.ne_of_val_ne Nat.one_ne_zero) rfl
  have hlive := hmoves.live (1 : Fin 2) (by decide) (by decide)
  exact absurd (congrArg (fun pg : Page => pg.spare.lsn) hlive) (by decide)

end Ftl
end SsuComputer
