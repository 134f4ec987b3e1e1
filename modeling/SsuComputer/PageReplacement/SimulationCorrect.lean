import SsuComputer.Lib.Paging
import SsuComputer.PageReplacement.Simulation

/-!
# SsuComputer.PageReplacement.SimulationCorrect

The frames against the abstract queue and stack of `Lib.Paging`.

* `Loaded` — the loaded frames stand in front in the order of their load times, empty frames
  after them.
* `findReplaceIndex_free`, `findReplaceIndex_full` — the first empty frame is found; with none left
  the search starts from `-1`, which is returned unless a frame after the first one wins.
* `simulation_agrees` — when the two simulations do what their policies do.
-/

namespace SsuComputer
namespace PageReplacement

open Paging

def InFrames (frameNum : Nat) (indexes : List Int) : Prop :=
  ∀ index ∈ indexes, 0 ≤ index ∧ index < frameNum

instance (frameNum : Nat) (indexes : List Int) : Decidable (InFrames frameNum indexes) :=
  inferInstanceAs (Decidable (∀ index ∈ indexes, 0 ≤ index ∧ index < frameNum))

/-- The run ends, with that number of faults, and returned indexes of frames only. -/
def Agrees (frameNum : Nat) (r : Result State) (faults : Nat) : Prop :=
  ∃ s, r = .ok s ∧ s.pagefault = faults ∧ InFrames frameNum s.indexes

structure Loaded (frameNum i : Nat) (old : Frame) (s : State) : Prop where
  frame : s.frame = old ++ List.replicate (frameNum - old.length) ⟨0, 0⟩
  fits : old.length ≤ frameNum
  ordered : old.Pairwise fun a b => a.history < b.history
  earlier : ∀ cur ∈ old, cur.history < i
  pages : ∀ cur ∈ old, cur.number ≠ 0
  indexes : InFrames frameNum s.indexes

def numbers (ps : List PageStream) : List UInt8 := ps.map (·.number)

@[simp] theorem numbers_nil : numbers [] = [] := rfl

@[simp] theorem numbers_cons (cur : PageStream) (ps : List PageStream) :
    numbers (cur :: ps) = cur.number :: numbers ps := rfl

@[simp] theorem numbers_append (ps qs : List PageStream) :
    numbers (ps ++ qs) = numbers ps ++ numbers qs := by
  simp [numbers]

@[simp] theorem numbers_length (ps : List PageStream) : (numbers ps).length = ps.length := by
  simp [numbers]

/-! ## The two searches -/

theorem findPageNumber_neg {page : UInt8} {frame : Frame} :
    findPageNumber page frame < 0 ↔ page ∉ numbers frame := by
  unfold findPageNumber
  cases h : frame.findIdx? fun cur => cur.number == page with
  | none =>
    rw [List.findIdx?_eq_none_iff] at h
    simp only [numbers, List.mem_map, not_exists, not_and]
    constructor
    · intro _ cur hcur heq
      have := h cur hcur
      rw [heq] at this
      simp at this
    · intro _
      decide
  | some i =>
    rw [List.findIdx?_eq_some_iff_getElem] at h
    obtain ⟨hi, hcur, _⟩ := h
    constructor
    · intro hneg
      have : ((i : Nat) : Int) < 0 := hneg
      omega
    · intro hnot
      exact absurd (List.mem_map.mpr ⟨frame[i], List.getElem_mem hi, by simpa using hcur⟩) hnot

theorem findPageNumber_append {page : UInt8} {old : Frame} {cur : PageStream} {rest : Frame}
    (hold : ∀ f ∈ old, f.number ≠ page) (hcur : cur.number = page) :
    findPageNumber page (old ++ cur :: rest) = old.length := by
  unfold findPageNumber
  have hnone : old.findIdx? (fun f => f.number == page) = none := by
    rw [List.findIdx?_eq_none_iff]
    intro f hf
    simpa using hold f hf
  rw [List.findIdx?_append, hnone, List.findIdx?_cons]
  simp [hcur]

theorem searchFrom_stay {p : PageStream → PageStream → Bool} {rest : Frame} {i : Nat} {res : Int}
    {resFrame : PageStream} (h : ∀ cur ∈ rest, p cur resFrame = false) :
    searchFrom p rest i res resFrame = res := by
  induction rest generalizing i with
  | nil => rfl
  | cons cur rest ih =>
    unfold searchFrom
    rw [h cur (by simp)]
    exact ih fun f hf => h f (by simp [hf])

/-- With load times growing along the frames, the LIFO search ends at the last frame. -/
theorem searchFrom_last {rest : Frame} {i : Nat} {res : Int} {resFrame : PageStream}
    (hord : (resFrame :: rest).Pairwise fun a b => a.history < b.history) (hne : rest ≠ []) :
    searchFrom (better .LIFO) rest i res resFrame = (i + rest.length : Nat) - 1 := by
  induction rest generalizing i res resFrame with
  | nil => exact absurd rfl hne
  | cons cur rest ih =>
    obtain ⟨hfirst, hrest⟩ := List.pairwise_cons.mp hord
    unfold searchFrom
    have hlater : better .LIFO cur resFrame = true := by
      simpa [better] using hfirst cur (by simp)
    rw [hlater, if_pos rfl]
    cases rest with
    | nil =>
      unfold searchFrom
      simp
    | cons next rest =>
      rw [ih hrest (by simp)]
      simp only [List.length_cons]
      omega

/-! ## One reference -/

section Step

variable {frameNum i : Nat} {old : Frame} {s : State} {mode : Mode} {psCur : PageStream}

theorem Loaded.mem_frame (hs : Loaded frameNum i old s) {page : UInt8} (hpage : page ≠ 0) :
    page ∈ numbers s.frame ↔ page ∈ numbers old := by
  rw [hs.frame, numbers_append, List.mem_append]
  constructor
  · rintro (h | h)
    · exact h
    · simp only [numbers, List.map_replicate, List.mem_replicate] at h
      exact absurd h.2 hpage
  · intro h
    exact .inl h

theorem Loaded.length_frame (hs : Loaded frameNum i old s) : s.frame.length = frameNum := by
  have := hs.fits
  rw [hs.frame, List.length_append, List.length_replicate]
  omega

theorem Loaded.frame_free (hs : Loaded frameNum i old s) (hfree : old.length < frameNum) :
    s.frame = old ++ ⟨0, 0⟩ :: List.replicate (frameNum - (old.length + 1)) ⟨0, 0⟩ := by
  rw [hs.frame, show frameNum - old.length = frameNum - (old.length + 1) + 1 by omega,
    List.replicate_succ]

theorem Loaded.frame_full (hs : Loaded frameNum i old s) (hfull : old.length = frameNum) :
    s.frame = old := by
  rw [hs.frame, hfull, Nat.sub_self, List.replicate_zero, List.append_nil]

theorem findReplaceIndex_free (hs : Loaded frameNum i old s) (hfree : old.length < frameNum) :
    findReplaceIndex mode s.frame = old.length := by
  have hzero : findPageNumber 0 s.frame = old.length := by
    rw [hs.frame_free hfree]
    exact findPageNumber_append hs.pages rfl
  unfold findReplaceIndex
  rw [hzero]
  cases old with
  | cons cur old => simp
  | nil =>
    -- no frame is loaded: index 0 is not above 0, but all load times are equal
    rw [hs.frame_free hfree]
    simp only [List.length_nil, List.nil_append]
    refine searchFrom_stay ?_
    intro cur hcur
    rw [(List.mem_replicate.mp hcur).2]
    cases mode <;> rfl

theorem Loaded.no_empty (hs : Loaded frameNum i old s) (hfull : old.length = frameNum) :
    findPageNumber 0 s.frame = -1 := by
  have hneg : findPageNumber 0 s.frame < 0 := by
    rw [findPageNumber_neg, hs.frame_full hfull]
    rintro hmem
    obtain ⟨cur, hcur, hzero⟩ := List.mem_map.mp hmem
    exact hs.pages cur hcur hzero
  unfold findPageNumber at hneg ⊢
  split at hneg
  · omega
  · rfl

/-- All frames are loaded and no later frame is better than the first: `-1` comes back. -/
theorem findReplaceIndex_full (hs : Loaded frameNum i old s) (hfull : old.length = frameNum)
    (hfirst : ∀ resFrame rest, old = resFrame :: rest →
      ∀ cur ∈ rest, better mode cur resFrame = false) :
    findReplaceIndex mode s.frame = -1 := by
  unfold findReplaceIndex
  rw [hs.no_empty hfull, hs.frame_full hfull]
  cases old with
  | nil => rfl
  | cons resFrame rest => exact searchFrom_stay (hfirst resFrame rest rfl)

theorem findReplaceIndex_full_lifo (hs : Loaded frameNum i old s) (hfull : old.length = frameNum)
    (htwo : 2 ≤ frameNum) : findReplaceIndex .LIFO s.frame = (frameNum : Int) - 1 := by
  unfold findReplaceIndex
  rw [hs.no_empty hfull, hs.frame_full hfull]
  have hord := hs.ordered
  cases old with
  | nil =>
    simp only [List.length_nil] at hfull
    omega
  | cons resFrame rest =>
    simp only [List.length_cons] at hfull
    have hne : rest ≠ [] := by
      intro h
      rw [h, List.length_nil] at hfull
      omega
    simp only [Int.reduceNeg, gt_iff_lt, Int.reduceLT, if_false]
    rw [searchFrom_last hord hne]
    omega

theorem reference_hit (hs : Loaded frameNum i old s) (hpage : psCur.number ≠ 0)
    (hhit : psCur.number ∈ numbers old) : reference mode s i psCur = .ok s := by
  have hpos : ¬ findPageNumber psCur.number s.frame < 0 := by
    rw [findPageNumber_neg, hs.mem_frame hpage]
    exact not_not.mpr hhit
  unfold reference
  rw [if_neg hpos]

theorem reference_fault (hs : Loaded frameNum i old s) (hpage : psCur.number ≠ 0)
    (hfault : psCur.number ∉ numbers old) :
    reference mode s i psCur =
      match write s.frame (findReplaceIndex mode s.frame) ⟨psCur.number, i⟩ with
      | some frame => .ok ⟨frame, s.pagefault + 1, s.indexes ++ [findReplaceIndex mode s.frame]⟩
      | none => .error (s.indexes ++ [findReplaceIndex mode s.frame]) := by
  have hneg : findPageNumber psCur.number s.frame < 0 := by
    rw [findPageNumber_neg, hs.mem_frame hpage]
    exact hfault
  unfold reference
  exact if_pos hneg

theorem InFrames.concat {indexes : List Int} {k : Nat} (h : InFrames frameNum indexes)
    (hk : k < frameNum) : InFrames frameNum (indexes ++ [(k : Int)]) := by
  intro index hindex
  rcases List.mem_append.mp hindex with h' | h'
  · exact h index h'
  · rw [List.mem_singleton.mp h']
    omega

theorem Loaded.mono (hs : Loaded frameNum i old s) {j : Nat} (hij : i ≤ j) :
    Loaded frameNum j old s :=
  { hs with earlier := fun cur hcur => Nat.lt_of_lt_of_le (hs.earlier cur hcur) hij }

/-- Loading into frame `kept.length` behind frames that stay. -/
theorem Loaded.load {kept : Frame} {count : Nat} {rest : Frame} {indexes : List Int}
    (hs : Loaded frameNum i old s) (hkept : kept <+: old) (hlt : kept.length < frameNum)
    (hframe : rest = kept ++ ⟨psCur.number, i⟩ ::
      List.replicate (frameNum - (kept.length + 1)) ⟨0, 0⟩)
    (hpage : psCur.number ≠ 0) (hidx : InFrames frameNum indexes) :
    Loaded frameNum (i + 1) (kept ++ [⟨psCur.number, i⟩]) ⟨rest, count, indexes⟩ := by
  have hsub : ∀ cur ∈ kept, cur ∈ old := fun cur hcur => hkept.subset hcur
  constructor
  · simp [hframe]
  · rw [List.length_append, List.length_singleton]
    exact hlt
  · rw [List.pairwise_append]
    refine ⟨hs.ordered.sublist hkept.sublist, List.pairwise_singleton _ _, ?_⟩
    intro cur hcur last hlast
    rw [List.mem_singleton.mp hlast]
    exact hs.earlier cur (hsub cur hcur)
  · intro cur hcur
    rcases List.mem_append.mp hcur with h | h
    · exact Nat.lt_trans (hs.earlier cur (hsub cur h)) (Nat.lt_succ_self i)
    · rw [List.mem_singleton.mp h]
      exact Nat.lt_succ_self i
  · intro cur hcur
    rcases List.mem_append.mp hcur with h | h
    · exact hs.pages cur (hsub cur h)
    · rw [List.mem_singleton.mp h]
      exact hpage
  · exact hidx

theorem reference_free (mode : Mode) (hs : Loaded frameNum i old s) (hpage : psCur.number ≠ 0)
    (hfault : psCur.number ∉ numbers old) (hfree : old.length < frameNum) :
    ∃ s', reference mode s i psCur = .ok s' ∧ s'.pagefault = s.pagefault + 1 ∧
      Loaded frameNum (i + 1) (old ++ [⟨psCur.number, i⟩]) s' := by
  rw [reference_fault hs hpage hfault, findReplaceIndex_free hs hfree]
  have hwrite : write s.frame old.length ⟨psCur.number, i⟩ =
      some (s.frame.set old.length ⟨psCur.number, i⟩) := by
    unfold write
    rw [hs.length_frame, if_pos (by omega), Int.toNat_natCast]
  rw [hwrite]
  refine ⟨_, rfl, rfl, hs.load (List.prefix_refl old) hfree ?_ hpage
    (hs.indexes.concat hfree)⟩
  rw [hs.frame_free hfree, List.set_append_right _ _ (Nat.le_refl _), Nat.sub_self,
    List.set_cons_zero]

theorem reference_full_stops (hs : Loaded frameNum i old s) (hpage : psCur.number ≠ 0)
    (hfault : psCur.number ∉ numbers old)
    (hidx : findReplaceIndex mode s.frame = -1) :
    reference mode s i psCur = .error (s.indexes ++ [-1]) := by
  rw [reference_fault hs hpage hfault, hidx]
  have hwrite : write s.frame (-1) ⟨psCur.number, i⟩ = none := by
    unfold write
    rw [if_neg (by omega)]
  rw [hwrite]

theorem reference_full_lifo (hs : Loaded frameNum i old s) (hpage : psCur.number ≠ 0)
    (hfault : psCur.number ∉ numbers old) (hfull : old.length = frameNum) (htwo : 2 ≤ frameNum) :
    ∃ s', reference .LIFO s i psCur = .ok s' ∧ s'.pagefault = s.pagefault + 1 ∧
      Loaded frameNum (i + 1) (old.dropLast ++ [⟨psCur.number, i⟩]) s' := by
  have hlast : ((frameNum : Int) - 1) = ((frameNum - 1 : Nat) : Int) := by omega
  have hkept : old.dropLast.length = frameNum - 1 := by
    rw [List.length_dropLast, hfull]
  rw [reference_fault hs hpage hfault, findReplaceIndex_full_lifo hs hfull htwo, hlast]
  have hwrite : write s.frame (frameNum - 1 : Nat) ⟨psCur.number, i⟩ =
      some (s.frame.set (frameNum - 1) ⟨psCur.number, i⟩) := by
    unfold write
    rw [hs.length_frame, if_pos (by omega), Int.toNat_natCast]
  rw [hwrite]
  refine ⟨_, rfl, rfl, hs.load (List.dropLast_prefix old) (by omega) ?_ hpage
    (hs.indexes.concat (by omega))⟩
  have hne : old ≠ [] := by
    intro h
    rw [h, List.length_nil] at hfull
    omega
  have hsplit : s.frame = old.dropLast ++ [old.getLast hne] := by
    rw [hs.frame_full hfull, List.dropLast_append_getLast hne]
  rw [hsplit, ← hkept, List.set_append_right _ _ (Nat.le_refl _), Nat.sub_self,
    List.set_cons_zero, hkept, show frameNum - (frameNum - 1 + 1) = 0 by omega, List.replicate_zero]

end Step

/-! ## Whole runs -/

theorem loaded_init (frameNum : Nat) :
    Loaded frameNum 0 [] ⟨List.replicate frameNum ⟨0, 0⟩, 0, []⟩ := by
  constructor <;> simp [InFrames]

theorem references_ok {mode : Mode} {s s' : State} {i : Nat} {psCur : PageStream}
    {ps : List PageStream} (h : reference mode s i psCur = .ok s') :
    references mode (psCur :: ps) i s = references mode ps (i + 1) s' := by
  simp only [references, h]

theorem not_agrees_error {frameNum faults : Nat} {indexes : List Int} :
    ¬ Agrees frameNum (.error indexes) faults := by
  rintro ⟨s, h, _⟩
  cases h

/-- Runs in which the first replacement goes wrong. `view` reads the policy's list off the pages
in load order; the run agrees with the policy exactly when no page has to be replaced. -/
theorem references_until_full {frameNum : Nat} (mode : Mode)
    (policy : List UInt8 → UInt8 → List UInt8) (view : List UInt8 → List UInt8)
    (hview : ∀ q p, p ∈ view q ↔ p ∈ q)
    (hpolicy : ∀ q p, q.length < frameNum → policy (view q) p = view (q ++ [p]))
    (hstop : ∀ i old s, Loaded frameNum i old s → old.length = frameNum →
      findReplaceIndex mode s.frame = -1)
    (ps : List PageStream) (hps : ∀ psCur ∈ ps, psCur.number ≠ 0) :
    ∀ i old s, Loaded frameNum i old s →
      (Agrees frameNum (references mode ps i s)
          (s.pagefault + faults policy (view (numbers old)) (numbers ps)) ↔
        (loaded (numbers old) (numbers ps)).length ≤ frameNum) := by
  induction ps with
  | nil =>
    intro i old s hs
    have hlen : (loaded (numbers old) (numbers [])).length ≤ frameNum := by
      simpa [loaded] using hs.fits
    exact iff_of_true ⟨s, rfl, by simp [faults], hs.indexes⟩ hlen
  | cons psCur ps ih =>
    intro i old s hs
    have hpage : psCur.number ≠ 0 := hps psCur (by simp)
    have ih := ih fun cur hcur => hps cur (by simp [hcur])
    rw [numbers_cons]
    by_cases hmem : psCur.number ∈ numbers old
    · rw [faults_hit ((hview _ _).mpr hmem), loaded_hit hmem,
        references_ok (reference_hit hs hpage hmem)]
      exact ih (i + 1) old s (hs.mono (Nat.le_succ i))
    · rw [faults_fault (mt (hview _ _).mp hmem), loaded_fault hmem]
      rcases Nat.lt_or_ge old.length frameNum with hfree | hge
      · obtain ⟨s', hstep, hfault, hs'⟩ :=
          reference_free mode hs hpage hmem hfree
        rw [references_ok hstep, hpolicy _ _ (by simpa using hfree)]
        have := ih (i + 1) _ s' hs'
        rw [numbers_append, numbers_cons, numbers_nil, hfault] at this
        rw [← this, Nat.add_right_comm, Nat.add_assoc]
      · have hfull : old.length = frameNum := Nat.le_antisymm hs.fits hge
        have herror : references mode (psCur :: ps) i s = .error (s.indexes ++ [-1]) := by
          simp only [references, reference_full_stops hs hpage hmem (hstop i old s hs hfull)]
        have hlong := length_le_loaded (numbers old ++ [psCur.number]) (numbers ps)
        rw [List.length_append, numbers_length, List.length_singleton] at hlong
        rw [herror]
        exact iff_of_false not_agrees_error (by omega)

theorem references_lifo {frameNum : Nat} (htwo : 2 ≤ frameNum) (ps : List PageStream)
    (hps : ∀ psCur ∈ ps, psCur.number ≠ 0) :
    ∀ i old s, Loaded frameNum i old s →
      Agrees frameNum (references .LIFO ps i s)
        (s.pagefault + faults (stack frameNum) (numbers old).reverse (numbers ps)) := by
  induction ps with
  | nil =>
    intro i old s hs
    exact ⟨s, rfl, by simp [faults], hs.indexes⟩
  | cons psCur ps ih =>
    intro i old s hs
    have hpage : psCur.number ≠ 0 := hps psCur (by simp)
    have ih := ih fun cur hcur => hps cur (by simp [hcur])
    rw [numbers_cons]
    by_cases hmem : psCur.number ∈ numbers old
    · rw [faults_hit (List.mem_reverse.mpr hmem), references_ok (reference_hit hs hpage hmem)]
      exact ih (i + 1) old s (hs.mono (Nat.le_succ i))
    · rw [faults_fault (mt List.mem_reverse.mp hmem)]
      have hlen : (numbers old).reverse.length = old.length := by
        rw [List.length_reverse, numbers_length]
      rcases Nat.lt_or_ge old.length frameNum with hfree | hge
      · obtain ⟨s', hstep, hfault, hs'⟩ := reference_free .LIFO hs hpage hmem hfree
        have := ih (i + 1) _ s' hs'
        rw [hfault, Nat.add_right_comm] at this
        rw [stack_free (by omega), references_ok hstep]
        simpa [Nat.add_assoc] using this
      · have hfull : old.length = frameNum := Nat.le_antisymm hs.fits hge
        obtain ⟨s', hstep, hfault, hs'⟩ := reference_full_lifo hs hpage hmem hfull htwo
        have := ih (i + 1) _ s' hs'
        rw [hfault, Nat.add_right_comm] at this
        rw [stack_full (by omega), references_ok hstep]
        have hdrop : (numbers old).reverse.tail = (numbers old.dropLast).reverse := by
          rw [List.tail_reverse, numbers, numbers, List.map_dropLast]
        rw [hdrop]
        simpa [Nat.add_assoc] using this

theorem fifoSimulation_agrees (ps : List PageStream) (hps : ∀ psCur ∈ ps, psCur.number ≠ 0)
    (frameNum : Nat) :
    Agrees frameNum (fifoSimulation ps frameNum) (faults (queue frameNum) [] (numbers ps)) ↔
      (numbers ps).dedup.length ≤ frameNum := by
  have h := references_until_full .FIFO (queue frameNum) id
    (fun _ _ => Iff.rfl) ?_ ?_ ps hps 0 [] _ (loaded_init frameNum)
  · rw [Nat.zero_add, numbers_nil, loaded_length] at h
    exact h
  · intro q p hq
    exact queue_free hq
  · intro i old s hs hfull
    refine findReplaceIndex_full hs hfull ?_
    rintro resFrame rest rfl cur hcur
    have := (List.pairwise_cons.mp hs.ordered).1 cur hcur
    simpa [better] using Nat.le_of_lt this

theorem lifoSimulation_agrees (ps : List PageStream) (hps : ∀ psCur ∈ ps, psCur.number ≠ 0)
    (frameNum : Nat) (hframes : 1 ≤ frameNum) :
    Agrees frameNum (lifoSimulation ps frameNum) (faults (stack frameNum) [] (numbers ps)) ↔
      2 ≤ frameNum ∨ (numbers ps).dedup.length ≤ 1 := by
  rcases Nat.lt_or_ge frameNum 2 with hone | htwo
  · obtain rfl : frameNum = 1 := by omega
    have h := references_until_full .LIFO (stack 1) List.reverse
      (fun _ _ => List.mem_reverse) ?_ ?_ ps hps 0 [] _ (loaded_init 1)
    · rw [Nat.zero_add, numbers_nil, loaded_length] at h
      exact h.trans (by simp)
    · intro q p hq
      rw [stack_free (by simpa using hq), List.reverse_append]
      rfl
    · intro i old s hs hfull
      refine findReplaceIndex_full hs hfull ?_
      rintro resFrame rest rfl cur hcur
      rw [List.length_cons, Nat.add_eq_right, List.length_eq_zero_iff] at hfull
      rw [hfull] at hcur
      cases hcur
  · have h := references_lifo htwo ps hps 0 [] _ (loaded_init frameNum)
    rw [Nat.zero_add] at h
    exact iff_of_true h (.inl htwo)

/-- FIFO runs are right as long as nothing is replaced; LIFO runs are right with two frames. -/
theorem simulation_agrees (ps : List PageStream) (hps : ∀ psCur ∈ ps, 1 ≤ psCur.number)
    (frameNum : Nat) (hframes : 1 ≤ frameNum) :
    (Agrees frameNum (fifoSimulation ps frameNum) (faults (queue frameNum) [] (numbers ps)) ↔
      (numbers ps).dedup.length ≤ frameNum) ∧
    (Agrees frameNum (lifoSimulation ps frameNum) (faults (stack frameNum) [] (numbers ps)) ↔
      2 ≤ frameNum ∨ (numbers ps).dedup.length ≤ 1) := by
  have hnz : ∀ psCur ∈ ps, psCur.number ≠ 0 := by
    intro psCur hcur hzero
    have := hps psCur hcur
    rw [hzero] at this
    exact absurd this (by decide)
  exact ⟨fifoSimulation_agrees ps hnz frameNum, lifoSimulation_agrees ps hnz frameNum hframes⟩

theorem simulation_agrees_three_pages :
    Agrees 3 (fifoSimulation [⟨7, 0⟩, ⟨8, 0⟩, ⟨7, 0⟩, ⟨9, 0⟩] 3) 3 ∧
      Agrees 2 (lifoSimulation [⟨7, 0⟩, ⟨8, 0⟩, ⟨9, 0⟩, ⟨8, 0⟩] 2) 4 :=
  ⟨(simulation_agrees [⟨7, 0⟩, ⟨8, 0⟩, ⟨7, 0⟩, ⟨9, 0⟩] (by decide) 3 (by decide)).1.mpr (by decide),
    (simulation_agrees [⟨7, 0⟩, ⟨8, 0⟩, ⟨9, 0⟩, ⟨8, 0⟩] (by decide) 2 (by decide)).2.mpr (by decide)⟩

/-- The fourth page finds three loaded frames; the oldest one is frame 0 and `-1` comes back. -/
theorem fifoSimulation_replaces_outside :
    fifoSimulation [⟨1, 0⟩, ⟨2, 0⟩, ⟨3, 0⟩, ⟨4, 0⟩] 3 = .error [0, 1, 2, -1] ∧
      ¬ Agrees 3 (fifoSimulation [⟨1, 0⟩, ⟨2, 0⟩, ⟨3, 0⟩, ⟨4, 0⟩] 3)
        (faults (queue 3) [] [1, 2, 3, 4]) := by
  have h : fifoSimulation [⟨1, 0⟩, ⟨2, 0⟩, ⟨3, 0⟩, ⟨4, 0⟩] 3 = .error [0, 1, 2, -1] := rfl
  refine ⟨h, ?_⟩
  rw [h]
  exact not_agrees_error

end PageReplacement
end SsuComputer
