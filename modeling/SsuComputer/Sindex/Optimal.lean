import SsuComputer.Sindex.DiffCorrect

/-!
# SsuComputer.Sindex.Optimal

The lines that `find_diff` marks as common are a longest common subsequence.

* `traceBody_optInv` — the marks set so far and the cell at hand add up to the corner of the table.
* `findDiffBlock_ends` — the scan for blocks ends, under either comparison.
* `findDiff_optimal` — the whole, with the cells that the traceback reads and the value returned.
-/

namespace SsuComputer
namespace Sindex

variable {g : Globals} {o n : List CString}

theorem Stored.fillTable_eq_lcs (hg : Stored g o n) {i j : Nat} (hi : i ≤ o.length)
    (hj : j ≤ n.length) : fillTable g.cell g.oLine g.nLine i j = lcs g.same i j := by
  rw [fillTable_eq (hg.oLine ▸ hi) (hg.nLine ▸ hj), g.cell_eq, lcs]

/-! ## The traceback -/

def traceCond (arr : Nat → Nat → Nat) (s : Trace) : Bool := arr s.i s.j ≠ 0

/-- The cells of `arr` read by the condition of the loop and by the pass after it. -/
def Trace.cells (g : Globals) (arr : Nat → Nat → Nat) (s : Trace) : List (Int × Int) :=
  ((s.i : Int), (s.j : Int)) ::
    if traceCond arr s && !g.same s.i s.j then [((s.i : Int) - 1, (s.j : Int)), (s.i, s.j - 1)]
    else []

/-- The lines marked so far and the lines still to be marked. -/
structure OptInv (g : Globals) (o n : List CString) (s : Trace) : Prop where
  trace : TraceInv g o n (s.i + s.j) s
  count : (selected s.oCommon s.i (o.drop s.i)).length + lcs g.same s.i s.j =
    lcs g.same o.length n.length

theorem optInv_start (hg : Stored g o n) :
    OptInv g o n ⟨g.oLine, g.nLine, fun _ => false, fun _ => false⟩ := by
  rw [hg.oLine, hg.nLine]
  refine ⟨⟨rfl, .done, fun _ _ => rfl, fun _ _ => rfl, fun _ _ => rfl, fun _ _ => rfl⟩, ?_⟩
  simp [selected]

variable {arr : Nat → Nat → Nat}

/-- By the three moves: a pair takes the diagonal, the others the larger neighbour. -/
theorem count_step (harr : ∀ i ≤ o.length, ∀ j ≤ n.length, arr i j = lcs g.same i j) {s s' : Trace}
    (hm : Marked (SameLine g.iOption) o n s.oCommon s.nCommon s.i s.j)
    (hob : ∀ k ≤ s.i, s.oCommon k = false) (hmore : traceCond arr s = true)
    (hbody : traceBody g arr s = some s') :
    (selected s'.oCommon s'.i (o.drop s'.i)).length + lcs g.same s'.i s'.j =
      (selected s.oCommon s.i (o.drop s.i)).length + lcs g.same s.i s.j := by
  obtain ⟨si, sj, oC, nC⟩ := s
  obtain ⟨hi, hj⟩ := hm.le
  simp only [traceCond, decide_eq_true_eq] at hmore hi hj hob
  rw [harr si hi sj hj] at hmore
  cases si with
  | zero => simp at hmore
  | succ i =>
    cases sj with
    | zero => simp at hmore
    | succ j =>
      simp only [traceBody, Nat.add_sub_cancel] at hbody
      split at hbody
      · rename_i hsame
        cases hbody
        dsimp only
        have hafter : selected (Function.update oC (i + 1) true) (i + 1) (o.drop (i + 1)) =
            selected oC (i + 1) (o.drop (i + 1)) :=
          selected_congr (fun k hk => Function.update_of_ne (Nat.ne_of_gt hk) _ _) _
        rw [selected_drop _ hi, Function.update_self, if_pos rfl, hafter, lcs_succ_of_same hsame,
          List.length_cons]
        omega
      · rename_i hdiffer
        have hmax : lcs g.same (i + 1) (j + 1) = max (lcs g.same i (j + 1)) (lcs g.same (i + 1) j) := by
          rw [lcs_succ, if_neg hdiffer]
        split at hbody
        · rename_i hup
          cases hbody
          dsimp only
          rw [harr i (by omega) (j + 1) hj, harr (i + 1) hi j (by omega)] at hup
          rw [selected_drop _ hi, hob _ (Nat.le_refl _), if_neg (by simp)]
          omega
        · rename_i hup
          cases hbody
          dsimp only
          rw [harr i (by omega) (j + 1) hj, harr (i + 1) hi j (by omega)] at hup
          omega

theorem traceBody_optInv (hg : Stored g o n)
    (harr : ∀ i ≤ o.length, ∀ j ≤ n.length, arr i j = lcs g.same i j) {s : Trace}
    (h : OptInv g o n s) (hmore : traceCond arr s = true) :
    ∃ s', traceBody g arr s = some s' ∧ s'.i + s'.j < s.i + s.j ∧ OptInv g o n s' := by
  have hrow : ∀ j ≤ n.length, arr 0 j = 0 := fun j hj => by
    rw [harr 0 (Nat.zero_le _) j hj, lcs_zero_left]
  have hcol : ∀ i ≤ o.length, arr i 0 = 0 := fun i hi => by
    rw [harr i hi 0 (Nat.zero_le _), lcs_zero_right]
  obtain ⟨s', k, hbody, hlt, htrace⟩ := traceInv_step hg hrow hcol h.trace hmore
  rw [htrace.steps] at hlt
  refine ⟨s', hbody, hlt, htrace.steps ▸ htrace, ?_⟩
  rw [count_step harr h.trace.marked h.trace.oBelow hmore hbody, h.count]

theorem OptInv.cells_le (harr : ∀ i ≤ o.length, ∀ j ≤ n.length, arr i j = lcs g.same i j) {s : Trace}
    (h : OptInv g o n s) : ∀ c ∈ s.cells g arr,
      (0 ≤ c.1 ∧ c.1 ≤ o.length) ∧ 0 ≤ c.2 ∧ c.2 ≤ n.length := by
  obtain ⟨hi, hj⟩ := h.trace.marked.le
  intro c hc
  rw [Trace.cells, List.mem_cons] at hc
  rcases hc with rfl | hc
  · simp only
    omega
  · split at hc
    · rename_i hmore
      simp only [traceCond, Bool.and_eq_true, decide_eq_true_eq, harr _ hi _ hj] at hmore
      have hle := @lcs_le g.same s.i s.j
      simp only [List.mem_cons, List.not_mem_nil, or_false] at hc
      rcases hc with rfl | rfl
      · simp only
        omega
      · simp only
        omega
    · cases hc

/-! ## The blocks -/

theorem scanBody_advances (g : Globals) (s : Scan) :
    ∃ s', scanBody g s = some s' ∧ s.i ≤ s'.i ∧ s.j ≤ s'.j ∧ s.i + s.j < s'.i + s'.j := by
  cases ho : g.oCommon s.i <;> cases hn : g.nCommon s.j
  · exact ⟨{ s.stop with i := s.i + 1, j := s.j + 1 }, by simp [scanBody, ho, hn], by simp; omega⟩
  · exact ⟨{ s.stop with i := s.i + 1, j := s.j }, by simp [scanBody, ho, hn], by simp⟩
  · exact ⟨{ s.stop with i := s.i, j := s.j + 1 }, by simp [scanBody, ho, hn], by simp⟩
  · exact ⟨{ s.start with i := s.i + 1, j := s.j + 1 }, by simp [scanBody, ho, hn], by simp; omega⟩

theorem findDiffBlock_ends (g : Globals) {fuel : Nat} (hfuel : g.oLine + g.nLine + 2 ≤ fuel) :
    ∃ g', findDiffBlock fuel g = some g' ∧ g'.oCommon = g.oCommon ∧ g'.nCommon = g.nCommon := by
  let rest (s : Scan) := (g.oLine + 2 - s.i) + (g.nLine + 2 - s.j)
  have hstep : ∀ m (s : Scan), m = rest s → (s.i ≤ g.oLine + 1 && s.j ≤ g.nLine + 1 : Bool) = true →
      ∃ s' m', scanBody g s = some s' ∧ m' < m ∧ m' = rest s' := by
    intro m s hm hmore
    obtain ⟨s', hbody, hi, hj, hlt⟩ := scanBody_advances g s
    simp only [Bool.and_eq_true, decide_eq_true_eq] at hmore
    simp only [rest] at hm ⊢
    exact ⟨s', _, hbody, by omega, rfl⟩
  have hfuel' : g.oLine + 2 - 1 + (g.nLine + 2 - 1) ≤ fuel := by omega
  obtain ⟨s, m, hrun, -⟩ := whileLoop_of_measure hstep _
    ⟨1, 1, false, 0, fun _ => (0, 0), fun _ => (0, 0)⟩ rfl hfuel'
  have hblock : findDiffBlock fuel g = some _ := congrArg (Option.map _) hrun
  exact ⟨_, hblock, rfl, rfl⟩

/-! ## The whole -/

theorem forall₂_of_table (hg : Stored g o n) (hlen : o.length = n.length)
    (h : lcs g.same o.length n.length = o.length) : List.Forall₂ (SameLine g.iOption) o n := by
  rw [← hlen] at h
  refine List.forall₂_iff_get.mpr ⟨hlen, fun k hk hk' => ?_⟩
  exact (hg.same_iff hk hk').mp (same_of_diagonal h k hk)

theorem table_of_forall₂ (hg : Stored g o n) (h : List.Forall₂ (SameLine g.iOption) o n) :
    lcs g.same o.length n.length = o.length := by
  obtain ⟨hlen, hsame⟩ := List.forall₂_iff_get.mp h
  rw [← hlen]
  exact lcs_diagonal fun k hk => (hg.same_iff hk (hlen ▸ hk)).mpr (hsame k hk (hlen ▸ hk))

/-- The value returned, and the marks kept by the scan for blocks. -/
theorem findDiff_of_traceback (hg : Stored g o n) {fuel : Nat}
    (hfuel : o.length + n.length + 2 ≤ fuel) {s : Trace}
    (hrun : whileLoop (traceCond (fillTable g.cell g.oLine g.nLine))
      (traceBody g (fillTable g.cell g.oLine g.nLine)) fuel
      ⟨g.oLine, g.nLine, fun _ => false, fun _ => false⟩ = some s) :
    ∃ g' isDiff, findDiff fuel g = some (g', isDiff) ∧ g'.oCommon = s.oCommon ∧
      g'.nCommon = s.nCommon ∧ (isDiff = false ↔ List.Forall₂ (SameLine g.iOption) o n) := by
  have hfind : findDiff fuel g =
      if g.oLine = g.nLine ∧ g.oLine = fillTable g.cell g.oLine g.nLine g.oLine g.nLine then
        some ({ g with oCommon := s.oCommon, nCommon := s.nCommon }, false)
      else (findDiffBlock fuel { g with oCommon := s.oCommon, nCommon := s.nCommon }).map
        fun g => (g, true) := by
    rw [findDiff]
    exact (congrArg (Option.bind · _) hrun).trans rfl
  have hcorner := hg.fillTable_eq_lcs (Nat.le_of_eq hg.oLine) (Nat.le_of_eq hg.nLine)
  rw [hcorner] at hfind
  split at hfind
  · rename_i hsame
    rw [hg.oLine, hg.nLine] at hsame
    exact ⟨_, false, hfind, rfl, rfl, iff_of_true rfl (forall₂_of_table hg hsame.1 hsame.2.symm)⟩
  · rename_i hdiffer
    rw [hg.oLine, hg.nLine] at hdiffer
    have hfuel' : g.oLine + g.nLine + 2 ≤ fuel := by rwa [hg.oLine, hg.nLine]
    obtain ⟨g', hblock, ho, hn⟩ :=
      findDiffBlock_ends { g with oCommon := s.oCommon, nCommon := s.nCommon } hfuel'
    refine ⟨g', true, by rw [hfind, hblock, Option.map_some], ho, hn, iff_of_false (by simp) ?_⟩
    exact fun h => hdiffer ⟨h.length_eq, (table_of_forall₂ hg h).symm⟩

theorem findDiff_optimal (g : Globals) (o n : List CString) (hg : Stored g o n)
    (ho : o.length ≤ bufMax - 2) (hn : n.length ≤ bufMax - 2) (fuel : Nat)
    (hfuel : o.length + n.length + 2 ≤ fuel) :
    let arr := fillTable g.cell g.oLine g.nLine
    ∃ g' isDiff, findDiff fuel g = some (g', isDiff) ∧
      Common (SameLine g.iOption) o n (selected g'.oCommon 0 o) (selected g'.nCommon 0 n) ∧
      (∀ s t, Common (SameLine g.iOption) o n s t → s.length ≤ (selected g'.oCommon 0 o).length) ∧
      (∀ s, Visits (traceCond arr) (traceBody g arr)
          ⟨g.oLine, g.nLine, fun _ => false, fun _ => false⟩ s →
        ∀ c ∈ s.cells g arr, (0 ≤ c.1 ∧ c.1 < bufMax) ∧ 0 ≤ c.2 ∧ c.2 < bufMax) ∧
      (isDiff = false ↔ List.Forall₂ (SameLine g.iOption) o n) := by
  intro arr
  have harr : ∀ i ≤ o.length, ∀ j ≤ n.length, arr i j = lcs g.same i j :=
    fun i hi j hj => hg.fillTable_eq_lcs hi hj
  have hstep : ∀ m s, m = s.i + s.j ∧ OptInv g o n s → traceCond arr s = true →
      ∃ s' m', traceBody g arr s = some s' ∧ m' < m ∧ m' = s'.i + s'.j ∧ OptInv g o n s' := by
    rintro m s ⟨rfl, hinv⟩ hmore
    obtain ⟨s', hbody, hlt, hinv'⟩ := traceBody_optInv hg harr hinv hmore
    exact ⟨s', _, hbody, hlt, rfl, hinv'⟩
  have hfuel' : g.oLine + g.nLine ≤ fuel := by
    rw [hg.oLine, hg.nLine]
    omega
  obtain ⟨s, m, hrun, ⟨-, hinv⟩, hend⟩ :=
    whileLoop_of_measure hstep _ _ ⟨rfl, optInv_start hg⟩ hfuel'
  obtain ⟨g', isDiff, hfind, hoC, hnC, hret⟩ := findDiff_of_traceback hg hfuel hrun
  have hcorner : lcs g.same s.i s.j = 0 := by
    obtain ⟨hi, hj⟩ := hinv.trace.marked.le
    rw [traceCond, harr _ hi _ hj] at hend
    simpa using hend
  have hwhole : (selected s.oCommon 0 o).length = lcs g.same o.length n.length := by
    have hcount := hinv.count
    rwa [hcorner, Nat.add_zero,
      ← selected_of_below _ hinv.trace.marked.le.1 hinv.trace.oBelow] at hcount
  refine ⟨g', isDiff, hfind, ⟨selected_sublist _ _ _, selected_sublist _ _ _, ?_⟩, ?_, ?_, hret⟩
  · rw [hoC, hnC]
    exact (hinv.trace.marked.extend hinv.trace.oBelow hinv.trace.nBelow).selected
  · intro t u htu
    rw [hoC, hwhole]
    have hlong := lcs_longest (fun i hi j hj => hg.same_iff hi hj) o.length n.length
      (Nat.le_refl _) (Nat.le_refl _) t u
    rw [List.take_length, List.take_length] at hlong
    exact hlong htu
  · intro s hs c hc
    have hopt : OptInv g o n s := visits_invariant (optInv_start hg) (fun t t' ht hmore hbody => by
      obtain ⟨t'', hbody', -, hinv⟩ := traceBody_optInv hg harr ht hmore
      rw [hbody] at hbody'
      cases hbody'
      exact hinv) hs
    obtain ⟨⟨h0, hi⟩, h0', hj⟩ := hopt.cells_le harr c hc
    simp only [bufMax] at ho hn ⊢
    omega

/-- Neither line of `a b` and `b c` alone: `b` is common. -/
theorem findDiff_optimal_two_lines :
    let g : Globals :=
      { iOption := false, oLine := 2, nLine := 2
        oContent := fun k => if k = 1 then ['a'] else ['b']
        nContent := fun k => if k = 1 then ['b'] else ['c']
        oCommon := fun _ => false, nCommon := fun _ => false, blockNum := 0
        oBlock := fun _ => (0, 0), nBlock := fun _ => (0, 0) }
    let o : List CString := [['a'], ['b']]
    let n : List CString := [['b'], ['c']]
    let arr := fillTable g.cell g.oLine g.nLine
    Stored g o n ∧ ∃ g' isDiff, findDiff 6 g = some (g', isDiff) ∧
      Common (SameLine g.iOption) o n (selected g'.oCommon 0 o) (selected g'.nCommon 0 n) ∧
      (∀ s t, Common (SameLine g.iOption) o n s t → s.length ≤ (selected g'.oCommon 0 o).length) ∧
      (∀ s, Visits (traceCond arr) (traceBody g arr)
          ⟨g.oLine, g.nLine, fun _ => false, fun _ => false⟩ s →
        ∀ c ∈ s.cells g arr, (0 ≤ c.1 ∧ c.1 < bufMax) ∧ 0 ≤ c.2 ∧ c.2 < bufMax) ∧
      (isDiff = false ↔ List.Forall₂ (SameLine g.iOption) o n) := by
  intro g o n arr
  have hg : Stored g o n := by
    refine ⟨rfl, rfl, fun k hk => ?_, fun k hk => ?_⟩
    · match k, hk with
      | 0, _ => rfl
      | 1, _ => rfl
    · match k, hk with
      | 0, _ => rfl
      | 1, _ => rfl
  exact ⟨hg, findDiff_optimal g o n hg (by simp [o, bufMax]) (by simp [n, bufMax]) 6
    (by simp [o, n])⟩

end Sindex
end SsuComputer
