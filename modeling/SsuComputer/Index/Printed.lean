import SsuComputer.Index.Traceback

/-!
# SsuComputer.Index.Printed

What `print_file_diff` prints, gap by gap of the alignment that the marks stand for.

* `firstHunks`, `gapHunks` — the hunks of the gap before the first pair, and of the others. A gap
  with lines of the first file only is printed one line too long, unless it is the last.
* `printFileDiff_eq` — the loop prints these, and ends.
-/

namespace SsuComputer
namespace Index

/-- The hunks of a gap behind a pair. -/
def gapHunks (f1 f2 : Side) (option : Nat) (g : Gap) : List (Hunk CString) :=
  if g.old = 0 then
    if g.new = 0 then [] else [printAppend f2 option g.o1 (g.n1 + 1) g.n2]
  else if g.new = 0 then
    [printDelete f1 option (g.o1 + 1) (if g.last then g.o2 else g.o2 + 1) g.n1]
  else printChange f1 f2 option (g.o1 + 1) g.o2 (g.n1 + 1) g.n2

/-- The hunks of the gap before the first pair: a change names line 0. -/
def firstHunks (f1 f2 : Side) (option : Nat) (g : Gap) : List (Hunk CString) :=
  if g.old = 0 then
    if g.new = 0 then [] else [printAppend f2 option 0 1 g.n2]
  else if g.new = 0 then [printDelete f1 option 1 g.o2 0]
  else printChange f1 f2 option 0 g.o2 0 g.n2

def printedGaps (f1 f2 : Side) (option : Nat) : List Gap → List (Hunk CString)
  | [] => []
  | g :: gs => firstHunks f1 f2 option g ++ gs.flatMap (gapHunks f1 f2 option)

theorem ffUntil1_eq (f : Side) {s a : Nat} (hs : s ≤ a) (ha : a ≤ f.len + 1)
    (hbefore : ∀ k, s ≤ k → k < a → f.cmp k = false) (hstop : a ≤ f.len → f.cmp a = true) :
    ffUntil1 f s = some a := by
  obtain ⟨e, n, hrun, ⟨-, hse, hea⟩, hend⟩ : ∃ e n, ffUntil1 f s = some e ∧
      (n = f.len + 1 - e ∧ s ≤ e ∧ e ≤ a) ∧ (decide (e ≤ f.len) && !f.cmp e) = false := by
    refine whileLoop_of_measure (I := fun n e => n = f.len + 1 - e ∧ s ≤ e ∧ e ≤ a)
      (fun n e ⟨hn, hse, hea⟩ hmore => ?_) (f.len + 1 - s) s ⟨rfl, Nat.le_refl s, hs⟩ (Nat.le_refl _)
    simp only [Bool.and_eq_true, decide_eq_true_eq, Bool.not_eq_true'] at hmore
    have hne : e ≠ a := by
      rintro rfl
      rw [hstop hmore.1] at hmore
      cases hmore.2
    exact ⟨e + 1, _, rfl, by omega, rfl, by omega, by omega⟩
  have hea' : e = a := by
    by_contra hne
    rw [hbefore e hse (by omega)] at hend
    simp only [Bool.not_false, Bool.and_true, decide_eq_false_iff_not] at hend
    omega
  rw [hrun, hea']

section Body

variable {f1 f2 : Side} {option : Nat}

theorem printBody_inside {s : Print} (hi : s.i ≤ f1.len) (hj : s.j ≤ f2.len) :
    printBody f1 f2 option s =
      if f1.cmp s.i && f2.cmp s.j then some { s with i := s.i + 1, j := s.j + 1 }
      else if f1.cmp s.i then (ffUntil1 f2 s.j).bind fun j =>
        some { s with j := j, out := s.out ++ [printAppend f2 option (s.i - 1) s.j (j - 1)] }
      else if f2.cmp s.j then (ffUntil1 f1 s.i).bind fun i =>
        some { s with i := i, out := s.out ++ [printDelete f1 option s.i i (s.j - 1)] }
      else printNeither f1 f2 option s := by
  rw [printBody, if_neg (by omega), if_neg (by omega), if_neg (by omega), Side.read, if_pos hi,
    Side.read, if_pos hj]
  rfl

theorem printNeither_behind {s : Print} (hi : s.i ≠ 0) :
    printNeither f1 f2 option s = (ffUntil1 f1 s.i).bind fun i => (ffUntil1 f2 s.j).bind fun j =>
      some { s with
        i := i
        j := j
        out := s.out ++ printChange f1 f2 option s.i (i - 1) s.j (j - 1) } := by
  rw [printNeither, if_neg fun h => hi h.1]
  rfl

/-- The marks behind the lines `i` and `j` are those of the pairs `ps`. -/
structure Shows (f1 f2 : Side) (i j : Nat) (ps : List (Nat × Nat)) : Prop where
  left : ∀ k, i < k → f1.cmp k = leftIn ps k
  right : ∀ k, j < k → f2.cmp k = rightIn ps k

variable {i j a b : Nat} {ps : List (Nat × Nat)} {same : Nat → Nat → Bool}

/-- Up to the next pair, and behind it. -/
theorem Shows.next (h : Shows f1 f2 i j ((a, b) :: ps))
    (ha : Aligns same f1.len f2.len i j ((a, b) :: ps)) :
    ((∀ k, i < k → k < a → f1.cmp k = false) ∧ f1.cmp a = true) ∧
      ((∀ k, j < k → k < b → f2.cmp k = false) ∧ f2.cmp b = true) ∧ Shows f1 f2 a b ps := by
  cases ha with
  | cons hi hj _ _ _ hrest =>
    refine ⟨⟨fun k hk hka => ?_, ?_⟩, ⟨fun k hk hkb => ?_, ?_⟩, ⟨fun k hk => ?_, fun k hk => ?_⟩⟩
    · rw [h.left k hk, leftIn_cons, hrest.leftIn_of_le (Nat.le_of_lt hka), Bool.or_false]
      exact decide_eq_false (Nat.ne_of_gt hka)
    · rw [h.left a hi, leftIn_cons, decide_eq_true rfl, Bool.true_or]
    · rw [h.right k hk, rightIn_cons, hrest.rightIn_of_le (Nat.le_of_lt hkb), Bool.or_false]
      exact decide_eq_false (Nat.ne_of_gt hkb)
    · rw [h.right b hj, rightIn_cons, decide_eq_true rfl, Bool.true_or]
    · rw [h.left k (Nat.lt_trans hi hk), leftIn_cons, decide_eq_false (Nat.ne_of_lt hk),
        Bool.false_or]
    · rw [h.right k (Nat.lt_trans hj hk), rightIn_cons, decide_eq_false (Nat.ne_of_lt hk),
        Bool.false_or]

variable {out : List (Hunk CString)}

theorem printBody_pair (ha : a ≤ f1.len) (hb : b ≤ f2.len) (h1 : f1.cmp a = true)
    (h2 : f2.cmp b = true) :
    printBody f1 f2 option ⟨a, b, false, out⟩ = some ⟨a + 1, b + 1, false, out⟩ := by
  rw [printBody_inside ha hb]
  simp only [h1, h2, Bool.and_true, if_true]

/-- A gap that is not empty is printed in one turn. -/
theorem printBody_gap (hi : i < a) (hj : j < b) (ha : a ≤ f1.len) (hb : b ≤ f2.len)
    (h1 : (∀ k, i < k → k < a → f1.cmp k = false) ∧ f1.cmp a = true)
    (h2 : (∀ k, j < k → k < b → f2.cmp k = false) ∧ f2.cmp b = true)
    (hgap : i + 1 < a ∨ j + 1 < b) :
    printBody f1 f2 option ⟨i + 1, j + 1, false, out⟩ =
      some ⟨a, b, false, out ++ gapHunks f1 f2 option ⟨i, a - 1, j, b - 1, false⟩⟩ := by
  have hff1 : ffUntil1 f1 (i + 1) = some a :=
    ffUntil1_eq f1 hi (Nat.le_succ_of_le ha) (fun k hk hka => h1.1 k hk hka) fun _ => h1.2
  have hff2 : ffUntil1 f2 (j + 1) = some b :=
    ffUntil1_eq f2 hj (Nat.le_succ_of_le hb) (fun k hk hkb => h2.1 k hk hkb) fun _ => h2.2
  rw [printBody_inside (Nat.le_trans hi ha) (Nat.le_trans hj hb)]
  by_cases hold : i + 1 < a
  · have hm1 := h1.1 (i + 1) (Nat.lt_succ_self i) hold
    have hne : a - 1 - i ≠ 0 := by omega
    by_cases hnew : j + 1 < b
    · have hm2 := h2.1 (j + 1) (Nat.lt_succ_self j) hnew
      have hne' : b - 1 - j ≠ 0 := by omega
      simp [hm1, hm2, printNeither_behind, hff1, hff2, gapHunks, Gap.old, Gap.new, hne, hne']
    · obtain rfl : b = j + 1 := by omega
      simp [hm1, h2.2, hff1, gapHunks, Gap.old, Gap.new, hne, Nat.sub_add_cancel (Nat.one_le_of_lt hi)]
  · obtain rfl : a = i + 1 := by omega
    have hnew : j + 1 < b := by omega
    have hm2 := h2.1 (j + 1) (Nat.lt_succ_self j) hnew
    have hne' : b - 1 - j ≠ 0 := by omega
    simp [h1.2, hm2, hff2, gapHunks, Gap.old, Gap.new, hne']

/-- The loop from `s` on gives the output `out`. -/
def Prints (f1 f2 : Side) (option fuel : Nat) (s : Print) (out : List (Hunk CString)) : Prop :=
  ∃ e, whileLoop (fun s : Print => !s.stop) (printBody f1 f2 option) fuel s = some e ∧ e.out = out

theorem prints_stop {s e : Print} (hs : s.stop = false) (hbody : printBody f1 f2 option s = some e)
    (he : e.stop = true) (fuel : Nat) : Prints f1 f2 option (fuel + 1) s e.out := by
  refine ⟨e, ?_, rfl⟩
  rw [whileLoop_step (by simp [hs]) hbody]
  exact whileLoop_of_not (by simp [he]) fuel

theorem prints_step {s s' : Print} {fuel : Nat} (hs : s.stop = false)
    (hbody : printBody f1 f2 option s = some s') (h : Prints f1 f2 option fuel s' out) :
    Prints f1 f2 option (fuel + 1) s out := by
  rw [Prints, whileLoop_step (by simp [hs]) hbody]
  exact h

/-- Behind the last pair the loop prints what is left, and stops. -/
theorem prints_last (hi : i ≤ f1.len) (hj : j ≤ f2.len) (h1 : ∀ k, i < k → f1.cmp k = false)
    (h2 : ∀ k, j < k → f2.cmp k = false) (fuel : Nat) :
    Prints f1 f2 option (fuel + 2) ⟨i + 1, j + 1, false, out⟩
      (out ++ gapHunks f1 f2 option ⟨i, f1.len, j, f2.len, true⟩) := by
  have hbeyond (out : List (Hunk CString)) : printBody f1 f2 option
      ⟨f1.len + 1, f2.len + 1, false, out⟩ = some ⟨f1.len + 1, f2.len + 1, true, out⟩ := by
    rw [printBody, if_pos ⟨Nat.lt_succ_self _, Nat.lt_succ_self _⟩]
  by_cases hold : i = f1.len
  · by_cases hnew : j = f2.len
    · have hnone : gapHunks f1 f2 option ⟨i, f1.len, j, f2.len, true⟩ = [] := by
        simp [gapHunks, Gap.old, Gap.new, hold, hnew]
      rw [hold, hnew] at hnone ⊢
      rw [hnone, List.append_nil]
      exact prints_stop rfl (hbeyond out) rfl (fuel + 1)
    · have hne : f2.len - j ≠ 0 := by omega
      have hbody : printBody f1 f2 option ⟨i + 1, j + 1, false, out⟩ =
          some ⟨i + 1, j + 1, true, out ++ [printAppend f2 option f1.len (j + 1) f2.len]⟩ := by
        rw [printBody, if_neg (by simp only; omega), if_pos (by simp only; omega)]
      have happend : gapHunks f1 f2 option ⟨i, f1.len, j, f2.len, true⟩ =
          [printAppend f2 option f1.len (j + 1) f2.len] := by
        simp [gapHunks, Gap.old, Gap.new, hold, hne]
      rw [happend]
      exact prints_stop rfl hbody rfl (fuel + 1)
  · have hne : f1.len - i ≠ 0 := by omega
    by_cases hnew : j = f2.len
    · have hbody : printBody f1 f2 option ⟨i + 1, j + 1, false, out⟩ =
          some ⟨i + 1, j + 1, true, out ++ [printDelete f1 option (i + 1) f1.len f2.len]⟩ := by
        rw [printBody, if_neg (by simp only; omega), if_neg (by simp only; omega),
          if_pos (by simp only; omega)]
      have hdelete : gapHunks f1 f2 option ⟨i, f1.len, j, f2.len, true⟩ =
          [printDelete f1 option (i + 1) f1.len f2.len] := by
        simp [gapHunks, Gap.old, Gap.new, hne, hnew]
      rw [hdelete]
      exact prints_stop rfl hbody rfl (fuel + 1)
    · have hne' : f2.len - j ≠ 0 := by omega
      have hff1 : ffUntil1 f1 (i + 1) = some (f1.len + 1) :=
        ffUntil1_eq f1 (Nat.succ_le_succ hi) (Nat.le_refl _) (fun k hk _ => h1 k hk) fun h =>
          absurd h (Nat.not_succ_le_self _)
      have hff2 : ffUntil1 f2 (j + 1) = some (f2.len + 1) :=
        ffUntil1_eq f2 (Nat.succ_le_succ hj) (Nat.le_refl _) (fun k hk _ => h2 k hk) fun h =>
          absurd h (Nat.not_succ_le_self _)
      have hbody : printBody f1 f2 option ⟨i + 1, j + 1, false, out⟩ =
          some ⟨f1.len + 1, f2.len + 1, false,
            out ++ gapHunks f1 f2 option ⟨i, f1.len, j, f2.len, true⟩⟩ := by
        rw [printBody_inside (by simp only; omega) (by simp only; omega)]
        simp [h1 (i + 1) (Nat.lt_succ_self i), h2 (j + 1) (Nat.lt_succ_self j), printNeither_behind,
          hff1, hff2, gapHunks, Gap.old, Gap.new, hne, hne']
      exact prints_step rfl hbody (prints_stop rfl (hbeyond _) rfl fuel)

theorem prints_rest (hps : Aligns same f1.len f2.len i j ps) (h : Shows f1 f2 i j ps) {fuel : Nat}
    (hfuel : 2 * ps.length + 2 ≤ fuel) :
    Prints f1 f2 option fuel ⟨i + 1, j + 1, false, out⟩
      (out ++ (gapsFrom f1.len f2.len i j ps).flatMap (gapHunks f1 f2 option)) := by
  induction ps generalizing i j out fuel with
  | nil =>
    obtain ⟨fuel, rfl⟩ : ∃ k, fuel = k + 2 := ⟨fuel - 2, by simp at hfuel; omega⟩
    rw [gapsFrom, List.flatMap_singleton]
    exact prints_last hps.le.1 hps.le.2 h.left h.right fuel
  | cons p ps ih =>
    obtain ⟨a, b⟩ := p
    obtain ⟨h1, h2, hnext⟩ := h.next hps
    cases hps with
    | cons hi hj ha hb hs hrest =>
      rw [List.length_cons] at hfuel
      obtain ⟨fuel, rfl⟩ : ∃ k, fuel = k + 2 := ⟨fuel - 2, by omega⟩
      rw [gapsFrom, List.flatMap_cons, ← List.append_assoc]
      by_cases hgap : i + 1 < a ∨ j + 1 < b
      · exact prints_step rfl (printBody_gap hi hj ha hb h1 h2 hgap)
          (prints_step rfl (printBody_pair ha hb h1.2 h2.2) (ih hrest hnext (by omega)))
      · obtain rfl : a = i + 1 := by omega
        obtain rfl : b = j + 1 := by omega
        have hnone : gapHunks f1 f2 option ⟨i, i + 1 - 1, j, j + 1 - 1, false⟩ = [] := by
          simp [gapHunks, Gap.old, Gap.new]
        rw [hnone, List.append_nil]
        exact prints_step rfl (printBody_pair ha hb h1.2 h2.2) (ih hrest hnext (by omega))

theorem printBody_start (h1 : f1.cmp 0 = false) (h2 : f2.cmp 0 = false) (hm : 1 ≤ f1.len)
    (hn : 1 ≤ f2.len) : printBody f1 f2 option ⟨0, 0, false, []⟩ =
      if f2.cmp 1 && f1.cmp 1 then some ⟨1, 1, false, []⟩
      else if f2.cmp 1 then (ffUntil1 f1 1).bind fun i =>
        some ⟨i, 1, false, [printDelete f1 option 1 (i - 1) 0]⟩
      else if f1.cmp 1 then (ffUntil1 f2 1).bind fun j =>
        some ⟨1, j, false, [printAppend f2 option 0 1 (j - 1)]⟩
      else (ffUntil1 f1 0).bind fun i => (ffUntil1 f2 0).bind fun j =>
        some ⟨i, j, false, printChange f1 f2 option 0 (i - 1) 0 (j - 1)⟩ := by
  rw [printBody_inside (Nat.zero_le _) (Nat.zero_le _)]
  simp only [h1, h2, Bool.and_false, Bool.false_eq_true, if_false]
  rw [printNeither, if_pos ⟨rfl, rfl⟩, Side.read, if_pos hm, Side.read, if_pos hn]
  rfl

/-- The gap before the first pair is printed in one turn. -/
theorem printBody_first (hm : a ≤ f1.len) (hn : b ≤ f2.len) (ha : 0 < a) (hb : 0 < b)
    (h1 : (∀ k, k < a → f1.cmp k = false) ∧ f1.cmp a = true)
    (h2 : (∀ k, k < b → f2.cmp k = false) ∧ f2.cmp b = true) :
    printBody f1 f2 option ⟨0, 0, false, []⟩ =
      some ⟨a, b, false, firstHunks f1 f2 option ⟨0, a - 1, 0, b - 1, false⟩⟩ := by
  have hff1 (s : Nat) (hs : s ≤ a) : ffUntil1 f1 s = some a :=
    ffUntil1_eq f1 hs (Nat.le_succ_of_le hm) (fun k _ hka => h1.1 k hka) fun _ => h1.2
  have hff2 (s : Nat) (hs : s ≤ b) : ffUntil1 f2 s = some b :=
    ffUntil1_eq f2 hs (Nat.le_succ_of_le hn) (fun k _ hkb => h2.1 k hkb) fun _ => h2.2
  rw [printBody_start (h1.1 0 ha) (h2.1 0 hb) (Nat.le_trans ha hm) (Nat.le_trans hb hn)]
  by_cases hold : 1 < a
  · have hm1 := h1.1 1 hold
    have hne : a - 1 ≠ 0 := by omega
    by_cases hnew : 1 < b
    · have hm2 := h2.1 1 hnew
      have hne' : b - 1 ≠ 0 := by omega
      simp [hm1, hm2, hff1 0 (Nat.zero_le _), hff2 0 (Nat.zero_le _), firstHunks, Gap.old, Gap.new,
        hne, hne']
    · obtain rfl : b = 1 := by omega
      simp [hm1, h2.2, hff1 1 ha, firstHunks, Gap.old, Gap.new, hne]
  · obtain rfl : a = 1 := by omega
    by_cases hnew : 1 < b
    · have hm2 := h2.1 1 hnew
      have hne' : b - 1 ≠ 0 := by omega
      simp [h1.2, hm2, hff2 1 hb, firstHunks, Gap.old, Gap.new, hne']
    · obtain rfl : b = 1 := by omega
      simp [h1.2, h2.2, firstHunks, Gap.old, Gap.new]

theorem prints_start (hps : Aligns same f1.len f2.len 0 0 ps) (h : Shows f1 f2 0 0 ps)
    (h1 : f1.cmp 0 = false) (h2 : f2.cmp 0 = false) (hm : 1 ≤ f1.len) (hn : 1 ≤ f2.len) {fuel : Nat}
    (hfuel : 2 * ps.length + 4 ≤ fuel) :
    Prints f1 f2 option fuel ⟨0, 0, false, []⟩
      (printedGaps f1 f2 option (gapsFrom f1.len f2.len 0 0 ps)) := by
  have hzero {f : Side} (h0 : f.cmp 0 = false) {e : Nat} (hlt : ∀ k, 0 < k → k < e → f.cmp k = false) :
      ∀ k, k < e → f.cmp k = false := fun k hk => by
    cases k with
    | zero => exact h0
    | succ k => exact hlt _ (Nat.succ_pos k) hk
  obtain ⟨fuel, rfl⟩ : ∃ k, fuel = k + 2 := ⟨fuel - 2, by omega⟩
  cases ps with
  | nil =>
    have hff1 : ffUntil1 f1 0 = some (f1.len + 1) :=
      ffUntil1_eq f1 (Nat.zero_le _) (Nat.le_refl _)
        (fun k _ => hzero h1 (fun k hk _ => h.left k hk) k) fun h => absurd h (Nat.not_succ_le_self _)
    have hff2 : ffUntil1 f2 0 = some (f2.len + 1) :=
      ffUntil1_eq f2 (Nat.zero_le _) (Nat.le_refl _)
        (fun k _ => hzero h2 (fun k hk _ => h.right k hk) k) fun h => absurd h (Nat.not_succ_le_self _)
    have hbody : printBody f1 f2 option ⟨0, 0, false, []⟩ =
        some ⟨f1.len + 1, f2.len + 1, false, printChange f1 f2 option 0 f1.len 0 f2.len⟩ := by
      rw [printBody_start h1 h2 hm hn]
      simp [h.left 1 Nat.one_pos, h.right 1 Nat.one_pos, hff1, hff2]
    have hbeyond (out : List (Hunk CString)) : printBody f1 f2 option
        ⟨f1.len + 1, f2.len + 1, false, out⟩ = some ⟨f1.len + 1, f2.len + 1, true, out⟩ := by
      rw [printBody, if_pos ⟨Nat.lt_succ_self _, Nat.lt_succ_self _⟩]
    have hgap : printedGaps f1 f2 option (gapsFrom f1.len f2.len 0 0 []) =
        printChange f1 f2 option 0 f1.len 0 f2.len := by
      have hm' : f1.len ≠ 0 := by omega
      have hn' : f2.len ≠ 0 := by omega
      simp [printedGaps, gapsFrom, firstHunks, Gap.old, Gap.new, hm', hn']
    rw [hgap]
    exact prints_step rfl hbody (prints_stop rfl (hbeyond _) rfl fuel)
  | cons p ps =>
    obtain ⟨a, b⟩ := p
    obtain ⟨hleft, hright, hnext⟩ := h.next hps
    cases hps with
    | cons hi hj ha hb hs hrest =>
      rw [List.length_cons] at hfuel
      have hbody : printBody f1 f2 option ⟨0, 0, false, []⟩ = _ := printBody_first ha hb hi hj
        ⟨hzero h1 hleft.1, hleft.2⟩ ⟨hzero h2 hright.1, hright.2⟩
      exact prints_step rfl hbody
        (prints_step rfl (printBody_pair ha hb hleft.2 hright.2) (prints_rest hrest hnext (by omega)))

end Body

theorem printFileDiff_eq {f1 f2 : Side} {option : Nat} {same : Nat → Nat → Bool}
    {ps : List (Nat × Nat)} (hps : Aligns same f1.len f2.len 0 0 ps) (hm : 1 ≤ f1.len)
    (hn : 1 ≤ f2.len) {fuel : Nat} (hfuel : 2 * f1.len + 4 ≤ fuel) :
    printFileDiff fuel (f1.left ps) (f2.right ps) option = some
      (printedGaps (f1.left ps) (f2.right ps) option (gapsFrom f1.len f2.len 0 0 ps)) := by
  have hlen := hps.length_le
  have hfuel' : 2 * ps.length + 4 ≤ fuel := by omega
  have hps' : Aligns same (f1.left ps).len (f2.right ps).len 0 0 ps := hps
  have hshows : Shows (f1.left ps) (f2.right ps) 0 0 ps := ⟨fun _ _ => rfl, fun _ _ => rfl⟩
  have hzero : (f1.left ps).cmp 0 = false := hps.leftIn_of_le (Nat.le_refl 0)
  have hzero' : (f2.right ps).cmp 0 = false := hps.rightIn_of_le (Nat.le_refl 0)
  obtain ⟨e, hrun, hout⟩ := prints_start hps' hshows hzero hzero' hm hn hfuel'
  rw [printFileDiff, hrun, Option.map_some, hout]
  rfl

end Index
end SsuComputer
