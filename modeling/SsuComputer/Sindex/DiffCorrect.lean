import SsuComputer.Lib.Lcs
import SsuComputer.Lib.Marks
import SsuComputer.Sindex.FindDiff

/-!
# SsuComputer.Sindex.DiffCorrect

The hunks that `print_diff` prints after `find_diff` are a correct edit script.

* `traceback_marked` — the lines marked as common pair up, whatever the table.
* `eq_of_table` — a table with the number of lines in its corner means equal lists.
* `scanInv_step` — the scan for common blocks, with the hunks printed for the blocks so far.
* `findDiff_printDiff_correct` — the whole.
-/

namespace SsuComputer
namespace Sindex

/-- The contents of two files, as the source keeps them. -/
structure Stored (g : Globals) (o n : List CString) : Prop where
  oLine : g.oLine = o.length
  nLine : g.nLine = n.length
  oContent : ∀ k (h : k < o.length), g.oContent (k + 1) = o[k]
  nContent : ∀ k (h : k < n.length), g.nContent (k + 1) = n[k]

def SameLine (iOption : Bool) (a b : CString) : Prop :=
  (if iOption then strcaseEq a b else decide (a = b)) = true

variable {g : Globals} {o n : List CString}

theorem Stored.same_iff (hg : Stored g o n) {i j : Nat} (hi : i < o.length) (hj : j < n.length) :
    g.same (i + 1) (j + 1) = true ↔ SameLine g.iOption o[i] n[j] := by
  rw [Globals.same, hg.oContent i hi, hg.nContent j hj, SameLine]

/-! ## The traceback -/

/-- The marks set so far pair up, from the lines `i` and `j` on. -/
structure TraceInv (g : Globals) (o n : List CString) (k : Nat) (s : Trace) : Prop where
  steps : k = s.i + s.j
  marked : Marked (SameLine g.iOption) o n s.oCommon s.nCommon s.i s.j
  oBelow : ∀ k ≤ s.i, s.oCommon k = false
  nBelow : ∀ k ≤ s.j, s.nCommon k = false
  oBeyond : ∀ k, o.length < k → s.oCommon k = false
  nBeyond : ∀ k, n.length < k → s.nCommon k = false

theorem traceInv_step (hg : Stored g o n) {arr : Nat → Nat → Nat} (hrow : ∀ j ≤ n.length, arr 0 j = 0)
    (hcol : ∀ i ≤ o.length, arr i 0 = 0) {k : Nat} {s : Trace} (h : TraceInv g o n k s)
    (hmore : decide (arr s.i s.j ≠ 0) = true) :
    ∃ s' k', traceBody g arr s = some s' ∧ k' < k ∧ TraceInv g o n k' s' := by
  obtain ⟨si, sj, oC, nC⟩ := s
  obtain ⟨hk, hm, hob, hnb, hobe, hnbe⟩ := h
  simp only [decide_eq_true_eq] at hk hmore hm hob hnb hobe hnbe ⊢
  obtain ⟨hle, hle'⟩ := hm.le
  cases si with
  | zero => exact absurd (hrow sj hle') hmore
  | succ i =>
    cases sj with
    | zero => exact absurd (hcol _ hle) hmore
    | succ j =>
      have hi : i < o.length := hle
      have hj : j < n.length := hle'
      simp only [traceBody, Nat.add_sub_cancel]
      split
      · rename_i hsame
        refine ⟨_, i + j, rfl, by omega, rfl, ?_, ?_, ?_, ?_, ?_⟩
        · refine .pair hi hj (Function.update_self _ _ _) (Function.update_self _ _ _)
            ((hg.same_iff hi hj).mp hsame) (hm.congr (fun k hk => ?_) fun k hk => ?_)
          · exact Function.update_of_ne (Nat.ne_of_gt hk) _ _
          · exact Function.update_of_ne (Nat.ne_of_gt hk) _ _
        · intro k (hk : k ≤ i)
          exact (Function.update_of_ne (by omega) _ _).trans (hob k (by omega))
        · intro k (hk : k ≤ j)
          exact (Function.update_of_ne (by omega) _ _).trans (hnb k (by omega))
        · intro k hk
          exact (Function.update_of_ne (by omega) _ _).trans (hobe k hk)
        · intro k hk
          exact (Function.update_of_ne (by omega) _ _).trans (hnbe k hk)
      · split
        · refine ⟨_, i + (j + 1), rfl, by omega, rfl, .skipLeft hi (hob _ (Nat.le_refl _)) hm, ?_, hnb,
            hobe, hnbe⟩
          exact fun k hk => hob k (Nat.le_succ_of_le hk)
        · refine ⟨_, i + 1 + j, rfl, by omega, rfl, .skipRight hj (hnb _ (Nat.le_refl _)) hm, hob, ?_,
            hobe, hnbe⟩
          exact fun k hk => hnb k (Nat.le_succ_of_le hk)

theorem traceback_marked (hg : Stored g o n) {arr : Nat → Nat → Nat} (hrow : ∀ j ≤ n.length, arr 0 j = 0)
    (hcol : ∀ i ≤ o.length, arr i 0 = 0) {fuel : Nat} (hfuel : o.length + n.length ≤ fuel) :
    ∃ s, whileLoop (fun s : Trace => arr s.i s.j ≠ 0) (traceBody g arr) fuel
        ⟨g.oLine, g.nLine, fun _ => false, fun _ => false⟩ = some s ∧
      Marked (SameLine g.iOption) o n s.oCommon s.nCommon 0 0 ∧
      (∀ k, o.length < k → s.oCommon k = false) ∧ ∀ k, n.length < k → s.nCommon k = false := by
  have hstart : TraceInv g o n (o.length + n.length)
      ⟨g.oLine, g.nLine, fun _ => false, fun _ => false⟩ := by
    rw [hg.oLine, hg.nLine]
    exact ⟨rfl, .done, fun _ _ => rfl, fun _ _ => rfl, fun _ _ => rfl, fun _ _ => rfl⟩
  obtain ⟨s, k, hrun, hinv, -⟩ := whileLoop_of_measure (I := TraceInv g o n)
    (fun _ _ => traceInv_step hg hrow hcol) _ _ hstart hfuel
  exact ⟨s, hrun, hinv.marked.extend hinv.oBelow hinv.nBelow, hinv.oBeyond, hinv.nBeyond⟩

/-! ## The corner of the table -/

theorem Globals.cell_eq (g : Globals) : g.cell = lcsCell g.same := by
  funext i j diag up left
  rw [cell, lcsCell]
  split
  · rfl
  · split <;> omega

theorem eq_of_table (hg : Stored g o n) (hi : g.iOption = false) (hlen : o.length = n.length)
    (h : table g.cell o.length n.length = o.length) : o = n := by
  rw [← hlen, g.cell_eq] at h
  refine List.ext_getElem hlen fun k hk hk' => ?_
  have hsame := (hg.same_iff hk hk').mp (same_of_diagonal h k hk)
  simpa [SameLine, hi] using hsame

/-! ## One hunk -/

theorem lines_eq_slice {content : Nat → CString} {l : List CString}
    (h : ∀ k (hk : k < l.length), content (k + 1) = l[k]) {a b : Nat} (hb : b ≤ l.length) :
    lines content a (b + 1) = slice l a b := by
  refine List.ext_getElem ?_ fun k hk hk' => ?_
  · simp only [lines, slice, List.length_map, List.length_range', List.length_drop,
      List.length_take]
    omega
  · simp only [lines, List.length_map, List.length_range'] at hk
    simp only [lines, slice, List.getElem_map, List.getElem_range', List.getElem_drop,
      List.getElem_take]
    rw [← h (a + k) (by omega)]
    congr 1
    omega

/-- The hunk between the line `a` and the line after `b`, in front of the hunks from `b` on. -/
theorem hunkBetween_scripts (hg : Stored g o n) {a b c d : Nat} (hab : a ≤ b) (hb : b ≤ o.length)
    (hcd : c ≤ d) (hd : d ≤ n.length) {hs : List (Hunk CString)} (h : Scripts o n b d hs) :
    Scripts o n a c ((hunkBetween g a (b + 1) c (d + 1)).toList ++ hs) := by
  by_cases hold : a < b
  · by_cases hnew : c < d
    · have hbetween : hunkBetween g a (b + 1) c (d + 1) =
          some ⟨.change, a + 1, b, c + 1, d, slice o a b, slice n c d⟩ := by
        simp [hunkBetween, show b + 1 - a > 1 by omega, show d + 1 - c > 1 by omega,
          lines_eq_slice hg.oContent hb, lines_eq_slice hg.nContent hd]
        omega
      rw [hbetween]
      exact .change hold hb hnew hd h
    · obtain rfl : c = d := by omega
      have hbetween : hunkBetween g a (b + 1) c (c + 1) =
          some ⟨.delete, a + 1, b, c, c, slice o a b, []⟩ := by
        simp [hunkBetween, show b + 1 - a > 1 by omega, lines_eq_slice hg.oContent hb]
        omega
      rw [hbetween]
      exact .delete hold hb hd h
  · obtain rfl : a = b := by omega
    by_cases hnew : c < d
    · have hbetween : hunkBetween g a (a + 1) c (d + 1) =
          some ⟨.append, a, a, c + 1, d, [], slice n c d⟩ := by
        simp [hunkBetween, show d + 1 - c > 1 by omega, lines_eq_slice hg.nContent hd]
        omega
      rw [hbetween]
      exact .append hb hnew hd h
    · obtain rfl : c = d := by omega
      simpa [hunkBetween] using h

/-! ## The common blocks -/

namespace Scan

/-- The hunks in front of the blocks so far. -/
def hunks (g : Globals) (s : Scan) (count : Nat) : List (Hunk CString) :=
  (List.range count).filterMap fun k =>
    hunkBetween g (s.oBlock k).2 (s.oBlock (k + 1)).1 (s.nBlock k).2 (s.nBlock (k + 1)).1

/-- The lines that the blocks so far account for. -/
def oDone (s : Scan) : Nat := if s.flag then s.i - 1 else (s.oBlock s.blockNum).2

def nDone (s : Scan) : Nat := if s.flag then s.j - 1 else (s.nBlock s.blockNum).2

@[simp] theorem start_i (s : Scan) : s.start.i = s.i := by rw [start]; split <;> rfl

@[simp] theorem start_j (s : Scan) : s.start.j = s.j := by rw [start]; split <;> rfl

@[simp] theorem stop_i (s : Scan) : s.stop.i = s.i := by rw [stop]; split <;> rfl

@[simp] theorem stop_j (s : Scan) : s.stop.j = s.j := by rw [stop]; split <;> rfl

theorem hunks_succ (g : Globals) (s : Scan) (c : Nat) : s.hunks g (c + 1) = s.hunks g c ++
    (hunkBetween g (s.oBlock c).2 (s.oBlock (c + 1)).1 (s.nBlock c).2 (s.nBlock (c + 1)).1).toList := by
  rw [hunks, List.range_succ, List.filterMap_append]
  congr 1

theorem hunks_congr {s s' : Scan} {c : Nat}
    (hend : ∀ k < c, (s'.oBlock k).2 = (s.oBlock k).2 ∧ (s'.nBlock k).2 = (s.nBlock k).2)
    (hstart : ∀ k ≤ c, (s'.oBlock k).1 = (s.oBlock k).1 ∧ (s'.nBlock k).1 = (s.nBlock k).1) :
    s'.hunks g c = s.hunks g c := by
  refine List.filterMap_congr fun k hk => ?_
  have hk : k < c := List.mem_range.mp hk
  rw [(hend k hk).1, (hend k hk).2, (hstart (k + 1) hk).1, (hstart (k + 1) hk).2]

end Scan

/-- The scan at the lines `s.i` and `s.j`, at most `k` steps from its end. -/
structure ScanInv (g : Globals) (o n : List CString) (k : Nat) (s : Scan) : Prop where
  steps : k = (o.length + 2 - s.i) + (n.length + 2 - s.j)
  one_le : 1 ≤ s.i ∧ 1 ≤ s.j
  marked : s.i ≤ o.length + 1 → s.j ≤ n.length + 1 →
    Marked (SameLine false) o n g.oCommon g.nCommon (s.i - 1) (s.j - 1)
  within : s.flag = true → s.i ≤ o.length + 1 ∧ s.j ≤ n.length + 1
  count : s.blockNum ≤ s.i - 1 ∧ s.blockNum ≤ o.length
  oDone : s.oDone ≤ s.i - 1 ∧ s.oDone ≤ o.length
  nDone : s.nDone ≤ s.j - 1 ∧ s.nDone ≤ n.length
  script : ∀ hs, Scripts o n s.oDone s.nDone hs → Scripts o n 0 0 (s.hunks g s.blockNum ++ hs)

namespace ScanInv

variable {k : Nat} {s : Scan}

theorem stop (h : ScanInv g o n k s) : ScanInv g o n k s.stop ∧ s.stop.flag = false := by
  cases hflag : s.flag with
  | false => rw [show s.stop = s by simp [Scan.stop, hflag]]; exact ⟨h, hflag⟩
  | true =>
    have ho : s.stop.oDone = s.oDone := by simp [Scan.stop, Scan.oDone, hflag]
    have hn : s.stop.nDone = s.nDone := by simp [Scan.stop, Scan.nDone, hflag]
    have hi := s.stop_i
    have hj := s.stop_j
    have hb : s.stop.blockNum = s.blockNum := by simp [Scan.stop, hflag]
    have hhunks : s.stop.hunks g s.blockNum = s.hunks g s.blockNum := by
      refine Scan.hunks_congr (fun k hk => ?_) fun k hk => ?_
      · simp [Scan.stop, hflag, Function.update_of_ne (Nat.ne_of_lt hk)]
      · by_cases hkb : k = s.blockNum
        · simp [Scan.stop, hflag, hkb]
        · simp [Scan.stop, hflag, hkb]
    refine ⟨⟨?_, ?_, ?_, ?_, ?_, ?_, ?_, ?_⟩, ?_⟩
    · rw [hi, hj]; exact h.steps
    · rw [hi, hj]; exact h.one_le
    · rw [hi, hj]; exact h.marked
    · intro _; rw [hi, hj]; exact h.within hflag
    · rw [hi, hb]; exact h.count
    · rw [ho, hi]; exact h.oDone
    · rw [hn, hj]; exact h.nDone
    · rw [ho, hn, hb, hhunks]; exact h.script
    · simp [Scan.stop, hflag]

/-- A block starts at the lines `s.i` and `s.j`. -/
theorem start_script (hg : Stored g o n) (h : ScanInv g o n k s) (hi : s.i ≤ o.length)
    (hj : s.j ≤ n.length) {hs : List (Hunk CString)} (hscripts : Scripts o n (s.i - 1) (s.j - 1) hs) :
    Scripts o n 0 0 (s.start.hunks g s.start.blockNum ++ hs) := by
  cases hflag : s.flag with
  | true =>
    have hscript := h.script hs
    simp only [Scan.oDone, Scan.nDone, hflag, if_true] at hscript
    rw [show s.start = s by simp [Scan.start, hflag]]
    exact hscript hscripts
  | false =>
    have hbefore : s.start.hunks g s.blockNum = s.hunks g s.blockNum := by
      refine Scan.hunks_congr (fun k hk => ?_) fun k hk => ?_
      · have hne : k ≠ s.blockNum + 1 := by omega
        simp [Scan.start, hflag, Function.update_of_ne hne]
      · have hne : k ≠ s.blockNum + 1 := by omega
        simp [Scan.start, hflag, Function.update_of_ne hne]
    have hhunks : s.start.hunks g s.start.blockNum =
        s.hunks g s.blockNum ++ (hunkBetween g s.oDone s.i s.nDone s.j).toList := by
      rw [show s.start.blockNum = s.blockNum + 1 by simp [Scan.start, hflag], Scan.hunks_succ,
        hbefore]
      simp [Scan.start, Scan.oDone, Scan.nDone, hflag]
    rw [hhunks, List.append_assoc]
    refine h.script _ ?_
    obtain ⟨h1i, h1j⟩ := h.one_le
    obtain ⟨i, hsi⟩ : ∃ i, s.i = i + 1 := ⟨s.i - 1, by omega⟩
    obtain ⟨j, hsj⟩ : ∃ j, s.j = j + 1 := ⟨s.j - 1, by omega⟩
    obtain ⟨hold, -⟩ := h.oDone
    obtain ⟨hnew, -⟩ := h.nDone
    rw [hsi] at hi hold hscripts ⊢
    rw [hsj] at hj hnew hscripts ⊢
    exact hunkBetween_scripts hg hold (by omega) hnew (by omega) hscripts

/-- Both lines are common. -/
theorem pair (hg : Stored g o n) (h : ScanInv g o n k s) (hi : s.i ≤ o.length) (hj : s.j ≤ n.length)
    (ho : g.oCommon s.i = true) (hn : g.nCommon s.j = true) :
    ScanInv g o n (k - 2) { s.start with i := s.i + 1, j := s.j + 1 } := by
  obtain ⟨h1i, h1j⟩ := h.one_le
  have hflag : s.start.flag = true := by
    simp only [Scan.start]
    split
    · assumption
    · rfl
  have hcount : s.start.blockNum ≤ s.i ∧ s.start.blockNum ≤ o.length := by
    have hcount := h.count
    have hle : s.start.blockNum ≤ s.blockNum + 1 := by
      rw [Scan.start]
      split
      · exact Nat.le_succ _
      · exact Nat.le_refl _
    omega
  obtain ⟨hsame, hrest⟩ := (h.marked (by omega) (by omega)).pair_of_marked
    (by omega) (by omega) (by rwa [Nat.sub_add_cancel h1i]) (by rwa [Nat.sub_add_cancel h1j])
  rw [Nat.sub_add_cancel h1i, Nat.sub_add_cancel h1j] at hrest
  refine ⟨?_, ?_, ?_, ?_, ?_, ?_, ?_, ?_⟩
  · rw [h.steps]; dsimp only; omega
  · exact ⟨Nat.succ_pos _, Nat.succ_pos _⟩
  · exact fun _ _ => hrest
  · exact fun _ => ⟨Nat.succ_le_succ hi, Nat.succ_le_succ hj⟩
  · exact hcount
  · simpa [Scan.oDone, hflag] using hi
  · simpa [Scan.nDone, hflag] using hj
  · intro hs hscripts
    simp only [Scan.oDone, Scan.nDone, hflag, if_true, Nat.add_sub_cancel] at hscripts
    refine h.start_script hg hi hj (.same (by omega) (by omega) ?_ ?_)
    · simpa [SameLine] using hsame
    · rwa [Nat.sub_add_cancel h1i, Nat.sub_add_cancel h1j]

/-- Lines outside the common blocks. -/
theorem advance (h : ScanInv g o n k s) (hflag : s.flag = false) {i j : Nat} (hi : s.i ≤ i)
    (hj : s.j ≤ j) (hmarked : i ≤ o.length + 1 → j ≤ n.length + 1 →
      Marked (SameLine false) o n g.oCommon g.nCommon (i - 1) (j - 1)) :
    ScanInv g o n ((o.length + 2 - i) + (n.length + 2 - j)) { s with i := i, j := j } := by
  obtain ⟨h1i, h1j⟩ := h.one_le
  have ho : ({ s with i := i, j := j } : Scan).oDone = s.oDone := by simp [Scan.oDone, hflag]
  have hn : ({ s with i := i, j := j } : Scan).nDone = s.nDone := by simp [Scan.nDone, hflag]
  have hcount := h.count
  have hold := h.oDone
  have hnew := h.nDone
  refine ⟨rfl, ?_, hmarked, ?_, ?_, ?_, ?_, ?_⟩
  · dsimp only; omega
  · intro hf; rw [hflag] at hf; cases hf
  · dsimp only; omega
  · rw [ho]; dsimp only; omega
  · rw [hn]; dsimp only; omega
  · rw [ho, hn]; exact h.script

end ScanInv

theorem scanInv_step (hg : Stored g o n) (hob : ∀ k, o.length < k → g.oCommon k = false)
    (hnb : ∀ k, n.length < k → g.nCommon k = false) {k : Nat} {s : Scan} (h : ScanInv g o n k s)
    (hmore : (s.i ≤ o.length + 1 && s.j ≤ n.length + 1 : Bool) = true) :
    ∃ s' k', scanBody g s = some s' ∧ k' < k ∧ ScanInv g o n k' s' := by
  simp only [Bool.and_eq_true, decide_eq_true_eq] at hmore
  obtain ⟨hi, hj⟩ := hmore
  obtain ⟨h1i, h1j⟩ := h.one_le
  have hsteps := h.steps
  have hmarked := h.marked hi hj
  have hio (hc : g.oCommon s.i = true) : s.i ≤ o.length := by
    by_contra hlt
    rw [hob s.i (by omega)] at hc
    cases hc
  have hjn (hc : g.nCommon s.j = true) : s.j ≤ n.length := by
    by_contra hlt
    rw [hnb s.j (by omega)] at hc
    cases hc
  obtain ⟨hstop, hflag⟩ := h.stop
  have hskip {i j : Nat} (hi : s.i ≤ i) (hj : s.j ≤ j) (hm : i ≤ o.length + 1 → j ≤ n.length + 1 →
      Marked (SameLine false) o n g.oCommon g.nCommon (i - 1) (j - 1)) :=
    hstop.advance hflag (s.stop_i.symm ▸ hi) (s.stop_j.symm ▸ hj) hm
  cases hoc : g.oCommon s.i with
  | true =>
    cases hnc : g.nCommon s.j with
    | true =>
      refine ⟨_, k - 2, by simp [scanBody, hoc, hnc], ?_, h.pair hg (hio hoc) (hjn hnc) hoc hnc⟩
      omega
    | false =>
      have hbody : scanBody g s = some { s.stop with i := s.i, j := s.j + 1 } := by
        simp [scanBody, hoc, hnc]
      refine ⟨_, _, hbody, ?_, hskip (Nat.le_refl _) (Nat.le_succ _) fun _ hle => ?_⟩
      · omega
      · have hm := hmarked.skip_right (by omega) (by rwa [Nat.sub_add_cancel h1j])
        rwa [Nat.sub_add_cancel h1j] at hm
  | false =>
    cases hnc : g.nCommon s.j with
    | true =>
      have hbody : scanBody g s = some { s.stop with i := s.i + 1, j := s.j } := by
        simp [scanBody, hoc, hnc]
      refine ⟨_, _, hbody, ?_, hskip (Nat.le_succ _) (Nat.le_refl _) fun hle _ => ?_⟩
      · omega
      · have hm := hmarked.skip_left (by omega) (by rwa [Nat.sub_add_cancel h1i])
        rwa [Nat.sub_add_cancel h1i] at hm
    | false =>
      have hbody : scanBody g s = some { s.stop with i := s.i + 1, j := s.j + 1 } := by
        simp [scanBody, hoc, hnc]
      refine ⟨_, _, hbody, ?_, hskip (Nat.le_succ _) (Nat.le_succ _) fun hle hle' => ?_⟩
      · omega
      · have hm := (hmarked.skip_left (by omega) (by rwa [Nat.sub_add_cancel h1i])).skip_right
          (by omega) (by rwa [Nat.sub_add_cancel h1j])
        rwa [Nat.sub_add_cancel h1i, Nat.sub_add_cancel h1j] at hm

theorem scanInv_init (hm : Marked (SameLine false) o n g.oCommon g.nCommon 0 0) :
    ScanInv g o n (o.length + 1 + (n.length + 1))
      ⟨1, 1, false, 0, fun _ => (0, 0), fun _ => (0, 0)⟩ where
  steps := by simp only; omega
  one_le := ⟨Nat.le_refl _, Nat.le_refl _⟩
  marked := fun _ _ => hm
  within := fun h => by cases h
  count := ⟨Nat.le_refl _, Nat.zero_le _⟩
  oDone := ⟨Nat.le_refl _, Nat.zero_le _⟩
  nDone := ⟨Nat.le_refl _, Nat.zero_le _⟩
  script := fun _ h => h

/-- The blocks that the scan leaves, with the sentinel behind the last. -/
theorem findDiffBlock_script (hg : Stored g o n)
    (hm : Marked (SameLine false) o n g.oCommon g.nCommon 0 0)
    (hob : ∀ k, o.length < k → g.oCommon k = false) (hnb : ∀ k, n.length < k → g.nCommon k = false)
    {fuel : Nat} (hfuel : o.length + n.length + 2 ≤ fuel) :
    ∃ g', findDiffBlock fuel g = some g' ∧ g'.blockNum ≤ o.length ∧
      Scripts o n 0 0 (printDiff g') := by
  have hfuel' : o.length + 1 + (n.length + 1) ≤ fuel := by omega
  obtain ⟨s, k, hrun, hinv, hend⟩ := whileLoop_of_measure (I := ScanInv g o n)
    (fun _ _ => scanInv_step hg hob hnb) _ _ (scanInv_init hm) hfuel'
  have hflag : s.flag = false := by
    by_contra hf
    obtain ⟨hi, hj⟩ := hinv.within (by simpa using hf)
    simp [hi, hj] at hend
  let s' : Scan := { s with
    oBlock := Function.update s.oBlock (s.blockNum + 1) (o.length + 1, o.length + 1)
    nBlock := Function.update s.nBlock (s.blockNum + 1) (n.length + 1, n.length + 1) }
  have hbefore : s'.hunks g s.blockNum = s.hunks g s.blockNum := by
    refine Scan.hunks_congr (fun k hk => ?_) fun k hk => ?_
    · have hne : k ≠ s.blockNum + 1 := by omega
      simp [s', Function.update_of_ne hne]
    · have hne : k ≠ s.blockNum + 1 := by omega
      simp [s', Function.update_of_ne hne]
  have hhunks : s'.hunks g (s.blockNum + 1) = s.hunks g s.blockNum ++
      (hunkBetween g s.oDone (o.length + 1) s.nDone (n.length + 1)).toList := by
    rw [Scan.hunks_succ, hbefore]
    simp [s', Scan.oDone, Scan.nDone, hflag]
  refine ⟨_, by rw [findDiffBlock, hg.oLine, hg.nLine, hrun, Option.map_some], hinv.count.2, ?_⟩
  have hlast := hinv.script _ (hunkBetween_scripts hg hinv.oDone.2 (Nat.le_refl _) hinv.nDone.2
    (Nat.le_refl _) .done)
  rw [List.append_nil, ← hhunks] at hlast
  exact hlast

/-- No block left by an earlier comparison, as before the first one. -/
structure Globals.NoBlocks (g : Globals) : Prop where
  blockNum : g.blockNum = 0
  oBlock : ∀ k, g.oBlock k = (0, 0)
  nBlock : ∀ k, g.nBlock k = (0, 0)

theorem Globals.NoBlocks.printDiff (h : g.NoBlocks) : printDiff g = [] := by
  simp [Sindex.printDiff, h.blockNum, h.oBlock, h.nBlock, hunkBetween]

theorem findDiff_cases (hg : Stored g o n) (hi : g.iOption = false) {fuel : Nat}
    (hfuel : o.length + n.length + 2 ≤ fuel) :
    (∃ oC nC, findDiff fuel g = some ({ g with oCommon := oC, nCommon := nC }, false) ∧ o = n) ∨
      ∃ g', findDiff fuel g = some (g', true) ∧ g'.blockNum ≤ o.length ∧
        Scripts o n 0 0 (printDiff g') := by
  have hrow : ∀ j ≤ n.length, fillTable g.cell g.oLine g.nLine 0 j = 0 := fun j hj => by
    rw [fillTable_eq (Nat.zero_le _) (hg.nLine ▸ hj), table_zero_left]
  have hcol : ∀ i ≤ o.length, fillTable g.cell g.oLine g.nLine i 0 = 0 := fun i hi => by
    rw [fillTable_eq (hg.oLine ▸ hi) (Nat.zero_le _), table_zero_right]
  have hfuel' : o.length + n.length ≤ fuel := by omega
  obtain ⟨s, hrun, hm, hob, hnb⟩ := traceback_marked hg hrow hcol hfuel'
  rw [hi] at hm
  by_cases hsame : g.oLine = g.nLine ∧ g.oLine = fillTable g.cell g.oLine g.nLine g.oLine g.nLine
  · refine .inl ⟨s.oCommon, s.nCommon, ?_, ?_⟩
    · rw [findDiff, hrun, Option.bind_some]
      exact if_pos hsame
    · rw [fillTable_eq (Nat.le_refl _) (Nat.le_refl _), hg.oLine, hg.nLine] at hsame
      exact eq_of_table hg hi hsame.1 hsame.2.symm
  · let g₁ : Globals := { g with oCommon := s.oCommon, nCommon := s.nCommon }
    have hg₁ : Stored g₁ o n := ⟨hg.oLine, hg.nLine, hg.oContent, hg.nContent⟩
    obtain ⟨g', hblock, hcount, hscript⟩ := findDiffBlock_script hg₁ hm hob hnb hfuel
    refine .inr ⟨g', ?_, hcount, hscript⟩
    rw [findDiff, hrun, Option.bind_some]
    exact (if_neg hsame).trans (by rw [hblock, Option.map_some])

/-- The script that `compare_file` prints is correct, and so is that of `print_diff` right after
`find_diff`, unless the lists are equal and blocks of an earlier comparison are still there. -/
theorem findDiff_printDiff_correct (g : Globals) (o n : List CString) (hg : Stored g o n)
    (hi : g.iOption = false) (hlen : o.length ≤ bufMax - 2) (fuel : Nat)
    (hfuel : o.length + n.length + 2 ≤ fuel) :
    ∃ g' isDiff, findDiff fuel g = some (g', isDiff) ∧
      (isDiff = true → g'.blockNum + 1 < bufMax) ∧ (isDiff = false → o = n) ∧
      (isDiff = true ∨ g.NoBlocks → Correct o n (printDiff g')) ∧
      ∃ hs, compareFile fuel g = some hs ∧ Correct o n hs := by
  rcases findDiff_cases hg hi hfuel with ⟨oC, nC, hrun, heq⟩ | ⟨g', hrun, hcount, hscript⟩
  · subst heq
    have hnone : Correct o o [] := by simp [Correct, patch]
    refine ⟨_, false, hrun, (fun h => by cases h), fun _ => rfl, fun h => ?_, [], ?_, hnone⟩
    · have hblocks := h.resolve_left (by simp)
      have hno : ({ g with oCommon := oC, nCommon := nC } : Globals).NoBlocks :=
        ⟨hblocks.blockNum, hblocks.oBlock, hblocks.nBlock⟩
      rw [hno.printDiff]
      exact hnone
    · rw [compareFile, hrun]
      rfl
  · refine ⟨g', true, hrun, fun _ => ?_, (fun h => by cases h), fun _ => hscript.correct,
      printDiff g', ?_, hscript.correct⟩
    · rw [bufMax] at hlen ⊢
      omega
    · rw [compareFile, hrun]
      rfl

/-- The first of `a b` and `b c` is taken away, and `c` is added. -/
theorem findDiff_printDiff_correct_two_lines :
    let g : Globals :=
      { iOption := false, oLine := 2, nLine := 2
        oContent := fun k => if k = 1 then ['a'] else ['b']
        nContent := fun k => if k = 1 then ['b'] else ['c']
        oCommon := fun _ => false, nCommon := fun _ => false, blockNum := 0
        oBlock := fun _ => (0, 0), nBlock := fun _ => (0, 0) }
    Stored g [['a'], ['b']] [['b'], ['c']] ∧ ∃ g' isDiff, findDiff 6 g = some (g', isDiff) ∧
      (isDiff = true → g'.blockNum + 1 < bufMax) ∧
      (isDiff = false → [['a'], ['b']] = [['b'], ['c']]) ∧
      (isDiff = true ∨ g.NoBlocks → Correct [['a'], ['b']] [['b'], ['c']] (printDiff g')) ∧
      ∃ hs, compareFile 6 g = some hs ∧ Correct [['a'], ['b']] [['b'], ['c']] hs := by
  intro g
  have hg : Stored g [['a'], ['b']] [['b'], ['c']] := by
    refine ⟨rfl, rfl, fun k hk => ?_, fun k hk => ?_⟩
    · match k, hk with
      | 0, _ => rfl
      | 1, _ => rfl
    · match k, hk with
      | 0, _ => rfl
      | 1, _ => rfl
  exact ⟨hg, findDiff_printDiff_correct g _ _ hg rfl (by decide) 6 (by decide)⟩

end Sindex
end SsuComputer
