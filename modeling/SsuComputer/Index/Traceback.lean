import SsuComputer.Index.DiffFile
import SsuComputer.Lib.Alignment

/-!
# SsuComputer.Index.Traceback

The alignment of two files that the traceback of `diff_file` computes.

* `Texts.alignment` — what the marks say, by the lengths of common subsequences: a line of the first
  file is left out where that costs nothing, else one of the second, else the two lines are entered.
  A pair of blank lines is entered only next to other pairs.
* `alignment_aligns` — it pairs equal lines in order.
* `traceback_eq` — the loop computes it, whatever lies before the table.
-/

namespace SsuComputer
namespace Index

/-! ## The alignment -/

/-- Two files as the traceback sees them, lines counted from 1. -/
structure Texts where
  m : Nat
  n : Nat
  same : Nat → Nat → Bool
  blank1 : Nat → Bool
  blank2 : Nat → Bool
  blank_congr : ∀ i j, same i j = true → blank1 i = blank2 j
  blank_same : ∀ i j, blank1 i = true → blank2 j = true → same i j = true
  blank1_le : ∀ i, blank1 i = true → i ≤ m
  blank2_le : ∀ j, blank2 j = true → j ≤ n

/-- The first blank line behind line `i`, and 0 where there is none. -/
def nextBlank (blank : Nat → Bool) (len i : Nat) : Nat :=
  ((List.range' (i + 1) (len - i)).find? blank).getD 0

namespace Texts

/-- The pair of blank lines `i` and `j` stands next to pairs of `ps`: in front of them itself, or
with its next blank line in front of them, on both sides and not itself on both. -/
def keeps (t : Texts) (i j : Nat) (ps : List (Nat × Nat)) : Bool :=
  let before1 := leftIn ps (nextBlank t.blank1 t.m i + 1)
  let before2 := rightIn ps (nextBlank t.blank2 t.n j + 1)
  (before1 && before2) || (before1 && rightIn ps (j + 1)) || (leftIn ps (i + 1) && before2)

/-- The blank lines `i` and `j` are passed over: the pair behind them is entered if it is blank. -/
def passOver (t : Texts) (i j : Nat) (ps : List (Nat × Nat)) : List (Nat × Nat) :=
  if t.blank1 (i + 1) && t.blank2 (j + 1) && ps.head? ≠ some (i + 1, j + 1) then
    (i + 1, j + 1) :: ps
  else ps

/-- The equal lines `i` and `j` are reached with the pairs `ps` behind them. -/
def enter (t : Texts) (i j : Nat) (ps : List (Nat × Nat)) : List (Nat × Nat) :=
  if !t.blank1 i || t.keeps i j ps then (i, j) :: ps else t.passOver i j ps

def align (t : Texts) : Nat → Nat → List (Nat × Nat) → List (Nat × Nat)
  | 0, _, ps => ps
  | _ + 1, 0, ps => ps
  | i + 1, j + 1, ps =>
    if lcs t.same (i + 1) (j + 1) = lcs t.same i (j + 1) then align t i (j + 1) ps
    else if lcs t.same (i + 1) (j + 1) = lcs t.same (i + 1) j then align t (i + 1) j ps
    else align t i j (t.enter (i + 1) (j + 1) ps)
termination_by i j => i + j

def alignment (t : Texts) : List (Nat × Nat) := t.align t.m t.n []

end Texts

/-! ## It pairs equal lines in order -/

/-- The walk is at the lines `i` and `j`, with the pairs `ps` behind. -/
structure AlignInv (t : Texts) (i j : Nat) (ps : List (Nat × Nat)) : Prop where
  aligns : Aligns t.same t.m t.n i j ps
  /-- Equal lines right behind the walk are those it came from. -/
  corner : i < t.m → j < t.n → t.same (i + 1) (j + 1) = true →
    Aligns t.same t.m t.n (i + 1) (j + 1) ps ∨ ps.head? = some (i + 1, j + 1)
  /-- Where the walk left column `j + 1`, that column was not better. -/
  column : j = t.n ∨ ∃ k, i ≤ k ∧ lcs t.same k (j + 1) ≤ lcs t.same i j
  row : i = t.m ∨ ∃ k, j ≤ k ∧ lcs t.same (i + 1) k ≤ lcs t.same i j

namespace AlignInv

variable {t : Texts} {i j : Nat} {ps : List (Nat × Nat)}

theorem up (h : AlignInv t (i + 1) (j + 1) ps)
    (heq : lcs t.same (i + 1) (j + 1) = lcs t.same i (j + 1)) : AlignInv t i (j + 1) ps := by
  refine ⟨h.aligns.earlier (Nat.le_succ i) (Nat.le_refl _), fun hi hj hs => ?_, ?_, ?_⟩
  · -- column `j + 2` was already better at line `i + 1`
    rcases h.column with hn | ⟨k, hk, hle⟩
    · omega
    · have hbetter := lcs_succ_of_same hs
      have hmono : lcs t.same (i + 1) (j + 1 + 1) ≤ lcs t.same k (j + 1 + 1) :=
        lcs_mono_left_of_le hk _
      omega
  · refine h.column.imp_right fun ⟨k, hk, hle⟩ => ⟨k, by omega, ?_⟩
    rwa [← heq]
  · exact .inr ⟨j + 1, Nat.le_refl _, Nat.le_of_eq heq⟩

theorem left (h : AlignInv t (i + 1) (j + 1) ps)
    (heq : lcs t.same (i + 1) (j + 1) = lcs t.same (i + 1) j) : AlignInv t (i + 1) j ps := by
  refine ⟨h.aligns.earlier (Nat.le_refl _) (Nat.le_succ j), fun hi hj hs => ?_, ?_, ?_⟩
  · rcases h.row with hm | ⟨k, hk, hle⟩
    · omega
    · have hbetter := lcs_succ_of_same hs
      have hmono : lcs t.same (i + 1 + 1) (j + 1) ≤ lcs t.same (i + 1 + 1) k :=
        lcs_mono_right_of_le _ hk
      omega
  · exact .inr ⟨i + 1, Nat.le_refl _, Nat.le_of_eq heq⟩
  · refine h.row.imp_right fun ⟨k, hk, hle⟩ => ⟨k, by omega, ?_⟩
    rwa [← heq]

theorem passOver (h : AlignInv t (i + 1) (j + 1) ps) :
    Aligns t.same t.m t.n (i + 1) (j + 1) (t.passOver (i + 1) (j + 1) ps) := by
  rw [Texts.passOver]
  split
  · rename_i hblank
    simp only [Bool.and_eq_true, decide_eq_true_eq] at hblank
    obtain ⟨⟨hb1, hb2⟩, hhead⟩ := hblank
    have hm := t.blank1_le _ hb1
    have hn := t.blank2_le _ hb2
    have hsame := t.blank_same _ _ hb1 hb2
    have hrest := (h.corner hm hn hsame).resolve_right hhead
    exact .cons (Nat.lt_succ_self _) (Nat.lt_succ_self _) hm hn hsame hrest
  · exact h.aligns

theorem diagonal (h : AlignInv t (i + 1) (j + 1) ps)
    (hup : lcs t.same (i + 1) (j + 1) ≠ lcs t.same i (j + 1))
    (hleft : lcs t.same (i + 1) (j + 1) ≠ lcs t.same (i + 1) j) :
    AlignInv t i j (t.enter (i + 1) (j + 1) ps) := by
  obtain ⟨hs, hright, hdown⟩ := lcs_corner hup hleft
  obtain ⟨hm, hn⟩ := h.aligns.le
  refine ⟨?_, fun _ _ _ => ?_, .inr ⟨i, Nat.le_refl i, Nat.le_of_eq hright⟩,
    .inr ⟨j, Nat.le_refl j, Nat.le_of_eq hdown⟩⟩
  · rw [Texts.enter]
    split
    · exact .cons (Nat.lt_succ_self i) (Nat.lt_succ_self j) hm hn hs h.aligns
    · exact h.passOver.earlier (Nat.le_succ i) (Nat.le_succ j)
  · rw [Texts.enter]
    split
    · exact .inr rfl
    · exact .inl h.passOver

theorem align (h : AlignInv t i j ps) : Aligns t.same t.m t.n 0 0 (t.align i j ps) := by
  induction i, j, ps using Texts.align.induct t with
  | case1 j ps => rw [Texts.align]; exact h.aligns.earlier (Nat.zero_le _) (Nat.zero_le _)
  | case2 i ps => rw [Texts.align]; exact h.aligns.earlier (Nat.zero_le _) (Nat.zero_le _)
  | case3 i j ps heq ih => rw [Texts.align, if_pos heq]; exact ih (h.up heq)
  | case4 i j ps hup heq ih => rw [Texts.align, if_neg hup, if_pos heq]; exact ih (h.left heq)
  | case5 i j ps hup hleft ih =>
    rw [Texts.align, if_neg hup, if_neg hleft]
    exact ih (h.diagonal hup hleft)

end AlignInv

/-! ## The loop computes it -/

def Side.left (f : Side) (ps : List (Nat × Nat)) : Side := { f with cmp := leftIn ps }

def Side.right (f : Side) (ps : List (Nat × Nat)) : Side := { f with cmp := rightIn ps }

theorem Side.left_mark_false (f : Side) {ps : List (Nat × Nat)} {k : Nat}
    (h : leftIn ps k = false) : (f.left ps).mark k false = f.left ps := by
  rw [Side.left, Side.mark]
  congr 1
  exact Function.update_eq_self_iff.mpr h.symm

theorem Side.right_mark_false (f : Side) {ps : List (Nat × Nat)} {k : Nat}
    (h : rightIn ps k = false) : (f.right ps).mark k false = f.right ps := by
  rw [Side.right, Side.mark]
  congr 1
  exact Function.update_eq_self_iff.mpr h.symm

theorem Side.left_mark_true (f : Side) (ps : List (Nat × Nat)) (p : Nat × Nat) :
    (f.left ps).mark p.1 true = f.left (p :: ps) := by
  rw [Side.left, Side.mark, Side.left]
  congr 1
  funext k
  by_cases hk : k = p.1
  · simp [hk]
  · simp [Function.update_of_ne hk, Ne.symm hk]

theorem Side.right_mark_true (f : Side) (ps : List (Nat × Nat)) (p : Nat × Nat) :
    (f.right ps).mark p.2 true = f.right (p :: ps) := by
  rw [Side.right, Side.mark, Side.right]
  congr 1
  funext k
  by_cases hk : k = p.2
  · simp [hk]
  · simp [Function.update_of_ne hk, Ne.symm hk]

theorem leftIn_cons_head {ps : List (Nat × Nat)} {p : Nat × Nat} (h : ps.head? = some p) :
    leftIn (p :: ps) = leftIn ps := by
  obtain ⟨qs, rfl⟩ := List.head?_eq_some_iff.mp h
  funext k
  simp

theorem rightIn_cons_head {ps : List (Nat × Nat)} {p : Nat × Nat} (h : ps.head? = some p) :
    rightIn (p :: ps) = rightIn ps := by
  obtain ⟨qs, rfl⟩ := List.head?_eq_some_iff.mp h
  funext k
  simp

theorem nextBlank_step {blank : Nat → Bool} {len i : Nat} (h : i < len) :
    nextBlank blank len i = if blank (i + 1) then i + 1 else nextBlank blank len (i + 1) := by
  obtain ⟨d, rfl⟩ : ∃ d, len = i + 1 + d := ⟨len - (i + 1), by omega⟩
  rw [nextBlank, nextBlank, show i + 1 + d - i = d + 1 by omega, Nat.add_sub_cancel_left,
    List.range'_succ, List.find?_cons]
  cases blank (i + 1) <;> rfl

/-- The variables of the loop at the lines `i` and `j`, with the pairs `ps` entered. -/
def traceWith (f1 f2 : Side) (i j : Nat) (ps : List (Nat × Nat)) (blankFlag1 blankFlag2 : Nat) :
    Trace :=
  ⟨i, false, j, f1.left ps, f2.right ps, blankFlag1, blankFlag2⟩

def traceAt (f1 f2 : Side) (i j : Nat) (ps : List (Nat × Nat)) : Trace :=
  traceWith f1 f2 i j ps (nextBlank f1.blank f1.len i) (nextBlank f2.blank f2.len j)

theorem traceWith_both {f1 f2 : Side} {i j b1 b2 : Nat} {v : Bool} {ps qs : List (Nat × Nat)}
    (h1 : (f1.left ps).mark (i + 1) v = f1.left qs)
    (h2 : (f2.right ps).mark (j + 1) v = f2.right qs) :
    (traceWith f1 f2 (i + 1) (j + 1) ps b1 b2).both v = traceWith f1 f2 i j qs b1 b2 := by
  simp only [Trace.both, traceWith, h1, h2, Nat.add_sub_cancel]

/-- `t` is about the files `f1` and `f2`, and `table` is their table. -/
structure OnSides (t : Texts) (f1 f2 : Side) (table : Nat → Nat → Nat) : Prop where
  m : f1.len = t.m
  n : f2.len = t.n
  blank1 : f1.blank = t.blank1
  blank2 : f2.blank = t.blank2
  table_eq : ∀ i ≤ t.m, ∀ j ≤ t.n, table i j = lcs t.same i j

namespace OnSides

variable {t : Texts} {f1 f2 : Side} {table : Nat → Nat → Nat} {below : Nat → Nat} {i j : Nat}
  {ps : List (Nat × Nat)}

theorem up (ht : OnSides t f1 f2 table) (h : Aligns t.same t.m t.n (i + 1) (j + 1) ps)
    (heq : lcs t.same (i + 1) (j + 1) = lcs t.same i (j + 1)) :
    traceBody below table (traceAt f1 f2 (i + 1) (j + 1) ps) = some (traceAt f1 f2 i (j + 1) ps) := by
  obtain ⟨hm, hn⟩ := h.le
  have hup : table (i + 1) (j + 1) = table i (j + 1) := by
    rw [ht.table_eq _ hm _ hn, ht.table_eq _ (Nat.le_of_lt hm) _ hn, heq]
  have hblank : (f1.left ps).blank = f1.blank := rfl
  have hstep : nextBlank f1.blank f1.len i = _ := nextBlank_step (ht.m ▸ hm)
  simp only [traceBody, traceAt, traceWith, Nat.succ_ne_zero, if_false, Nat.add_sub_cancel, hup, if_true,
    f1.left_mark_false (h.leftIn_of_le (Nat.le_refl _)), hblank, ← hstep, decide_false]

theorem left (ht : OnSides t f1 f2 table) (h : Aligns t.same t.m t.n (i + 1) (j + 1) ps)
    (hup : lcs t.same (i + 1) (j + 1) ≠ lcs t.same i (j + 1))
    (heq : lcs t.same (i + 1) (j + 1) = lcs t.same (i + 1) j) :
    traceBody below table (traceAt f1 f2 (i + 1) (j + 1) ps) = some (traceAt f1 f2 (i + 1) j ps) := by
  obtain ⟨hm, hn⟩ := h.le
  have hup' : table (i + 1) (j + 1) ≠ table i (j + 1) := by
    rwa [ht.table_eq _ hm _ hn, ht.table_eq _ (Nat.le_of_lt hm) _ hn]
  have hleft : table (i + 1) (j + 1) = table (i + 1) j := by
    rw [ht.table_eq _ hm _ hn, ht.table_eq _ hm _ (Nat.le_of_lt hn), heq]
  have hblank : (f2.right ps).blank = f2.blank := rfl
  have hstep : nextBlank f2.blank f2.len j = _ := nextBlank_step (ht.n ▸ hn)
  simp only [traceBody, traceAt, traceWith, Nat.succ_ne_zero, if_false, Nat.add_sub_cancel, if_neg hup',
    if_pos hleft, f2.right_mark_false (h.rightIn_of_le (Nat.le_refl _)), hblank, ← hstep]

theorem keepsBlank (ht : OnSides t f1 f2 table) (h : Aligns t.same t.m t.n (i + 1) (j + 1) ps) :
    (traceAt f1 f2 (i + 1) (j + 1) ps).keepsBlank = t.keeps (i + 1) (j + 1) ps := by
  have hleft (k : Nat) : (decide (k < t.m) && leftIn ps (k + 1)) = leftIn ps (k + 1) := by
    cases hin : leftIn ps (k + 1) with
    | false => simp
    | true => simp [show k < t.m from (h.le_of_leftIn hin).2]
  have hright (k : Nat) : (decide (k < t.n) && rightIn ps (k + 1)) = rightIn ps (k + 1) := by
    cases hin : rightIn ps (k + 1) with
    | false => simp
    | true => simp [show k < t.n from (h.le_of_rightIn hin).2]
  simp only [Trace.keepsBlank, traceAt, traceWith, Side.left, Side.right, ht.m, ht.n, ht.blank1, ht.blank2,
    Bool.and_assoc, hleft, hright, Texts.keeps]

theorem diagonal (ht : OnSides t f1 f2 table) (h : AlignInv t (i + 1) (j + 1) ps)
    (hup : lcs t.same (i + 1) (j + 1) ≠ lcs t.same i (j + 1))
    (hleft : lcs t.same (i + 1) (j + 1) ≠ lcs t.same (i + 1) j) :
    traceBody below table (traceAt f1 f2 (i + 1) (j + 1) ps) =
      some (traceAt f1 f2 i j (t.enter (i + 1) (j + 1) ps)) := by
  obtain ⟨hs, hright, hdown⟩ := lcs_corner hup hleft
  obtain ⟨hm, hn⟩ := h.aligns.le
  have htable := ht.table_eq _ hm _ hn
  have htable_up := ht.table_eq _ (Nat.le_of_lt hm) _ hn
  have htable_left := ht.table_eq _ hm _ (Nat.le_of_lt hn)
  have hbody : traceBody below table (traceAt f1 f2 (i + 1) (j + 1) ps) =
      if t.blank1 (i + 1) then some (traceAt f1 f2 (i + 1) (j + 1) ps).bothBlank
      else some ((traceAt f1 f2 (i + 1) (j + 1) ps).both true) := by
    have hblank : (f1.left ps).blank (i + 1) = t.blank1 (i + 1) := congrFun ht.blank1 _
    rw [hright] at hup
    simp only [traceBody, traceAt, traceWith, Nat.succ_ne_zero, if_false, Nat.add_sub_cancel, htable, htable_up,
      htable_left, hright, hdown, if_neg hup, if_true, hblank]
  have hflag1 : nextBlank f1.blank f1.len i = _ := nextBlank_step (ht.m ▸ hm)
  have hflag2 : nextBlank f2.blank f2.len j = _ := nextBlank_step (ht.n ▸ hn)
  rw [congrFun ht.blank1 (i + 1)] at hflag1
  rw [congrFun ht.blank2 (j + 1), ← t.blank_congr _ _ hs] at hflag2
  have hentered (b1 b2 : Nat) : (traceWith f1 f2 (i + 1) (j + 1) ps b1 b2).both true =
      traceWith f1 f2 i j ((i + 1, j + 1) :: ps) b1 b2 :=
    traceWith_both (f1.left_mark_true ps (i + 1, j + 1)) (f2.right_mark_true ps (i + 1, j + 1))
  rw [hbody, Texts.enter]
  cases hb : t.blank1 (i + 1) with
  | false =>
    simp only [hb, Bool.false_eq_true, if_false] at hflag1 hflag2
    simp only [Bool.false_eq_true, if_false, Bool.not_false, Bool.true_or, if_true, traceAt, hentered,
      hflag1, hflag2]
  | true =>
    simp only [hb, if_true] at hflag1 hflag2
    have hkeeps := ht.keepsBlank h.aligns
    simp only [traceAt] at hkeeps
    simp only [if_true, Bool.not_true, Bool.false_or, Trace.bothBlank, traceAt, hkeeps]
    split
    · rw [hentered]
      simp only [traceWith, hflag1, hflag2]
    · -- the fourth rule marks a pair that is entered already, or enters it
      have hpass := h.passOver
      have hskip (b1 b2 : Nat) : (traceWith f1 f2 (i + 1) (j + 1)
          (t.passOver (i + 1) (j + 1) ps) b1 b2).both false =
            traceWith f1 f2 i j (t.passOver (i + 1) (j + 1) ps) b1 b2 :=
        traceWith_both (f1.left_mark_false (hpass.leftIn_of_le (Nat.le_refl _)))
          (f2.right_mark_false (hpass.rightIn_of_le (Nat.le_refl _)))
      have hblank1 : (f1.left ps).blank (i + 1 + 1) = t.blank1 (i + 1 + 1) := congrFun ht.blank1 _
      have hblank2 : (f2.right ps).blank (j + 1 + 1) = t.blank2 (j + 1 + 1) := congrFun ht.blank2 _
      cases hnext : t.blank1 (i + 1 + 1) && t.blank2 (j + 1 + 1) with
      | false =>
        have hpassed : t.passOver (i + 1) (j + 1) ps = ps := by simp [Texts.passOver, hnext]
        rw [hpassed] at hskip ⊢
        simp only [traceWith, hblank1, hblank2, hnext] at hskip ⊢
        simp only [Bool.false_eq_true, if_false, hskip, hflag1, hflag2]
      | true =>
        have hmarked : (f1.left ps).mark (i + 1 + 1) true = f1.left (t.passOver (i + 1) (j + 1) ps) ∧
            (f2.right ps).mark (j + 1 + 1) true = f2.right (t.passOver (i + 1) (j + 1) ps) := by
          rw [Texts.passOver, hnext, f1.left_mark_true ps (i + 1 + 1, j + 1 + 1),
            f2.right_mark_true ps (i + 1 + 1, j + 1 + 1)]
          by_cases hhead : ps.head? = some (i + 1 + 1, j + 1 + 1)
          · simp [hhead, Side.left, Side.right, leftIn_cons_head hhead, rightIn_cons_head hhead]
          · simp [hhead]
        simp only [traceWith, hblank1, hblank2, hnext] at hskip ⊢
        simp only [if_true, hmarked, hskip, hflag1, hflag2]

/-- With no line of the first file left, the loop changes no mark. -/
theorem loop_top (ht : OnSides t f1 f2 table) (h : Aligns t.same t.m t.n 0 j ps) {fuel : Nat}
    (hfuel : j + 1 ≤ fuel) (b1 b2 : Nat) : ∃ s,
      whileLoop (fun s : Trace => decide (0 < s.j) && !s.under) (traceBody below table) fuel
        (traceWith f1 f2 0 j ps b1 b2) = some s ∧ s.f1 = f1.left ps ∧ s.f2 = f2.right ps := by
  induction j generalizing fuel b2 with
  | zero => exact ⟨_, whileLoop_of_not (by simp [traceWith]) fuel, rfl, rfl⟩
  | succ j ih =>
    obtain ⟨fuel, rfl⟩ : ∃ k, fuel = k + 1 := ⟨fuel - 1, by omega⟩
    obtain ⟨hm, hn⟩ := h.le
    have hmore : (decide (0 < (traceWith f1 f2 0 (j + 1) ps b1 b2).j) &&
        !(traceWith f1 f2 0 (j + 1) ps b1 b2).under) = true := by simp [traceWith]
    have hzero := ht.table_eq 0 hm (j + 1) hn
    have hzero' := ht.table_eq 0 hm j (Nat.le_of_lt hn)
    rw [lcs_zero_left] at hzero hzero'
    by_cases hbelow : 0 = below (j + 1)
    · have hbody : traceBody below table (traceWith f1 f2 0 (j + 1) ps b1 b2) =
          some { traceWith f1 f2 0 (j + 1) ps (if (f1.left ps).blank 0 then 0 else b1) b2 with
            under := true } := by
        simp only [traceBody, traceWith, if_true, hzero, if_pos hbelow, decide_true, Nat.zero_sub,
          f1.left_mark_false (h.leftIn_of_le (Nat.le_refl _))]
        rfl
      rw [whileLoop, if_pos hmore, hbody, Option.bind_some]
      exact ⟨_, whileLoop_of_not (by simp) fuel, rfl, rfl⟩
    · have hbody : traceBody below table (traceWith f1 f2 0 (j + 1) ps b1 b2) =
          some (traceWith f1 f2 0 j ps b1 (if (f2.right ps).blank (j + 1) then j + 1 else b2)) := by
        simp only [traceBody, traceWith, if_true, hzero, if_neg hbelow, Nat.add_sub_cancel, hzero',
          f2.right_mark_false (h.rightIn_of_le (Nat.le_refl _))]
        rfl
      rw [whileLoop, if_pos hmore, hbody, Option.bind_some]
      exact ih (h.earlier (Nat.le_refl _) (Nat.le_succ j)) (by omega) _

theorem loop (ht : OnSides t f1 f2 table) (below : Nat → Nat) (h : AlignInv t i j ps) {fuel : Nat}
    (hfuel : i + j + 1 ≤ fuel) : ∃ s,
      whileLoop (fun s : Trace => decide (0 < s.j) && !s.under) (traceBody below table) fuel
        (traceAt f1 f2 i j ps) = some s ∧ s.f1 = f1.left (t.align i j ps) ∧
          s.f2 = f2.right (t.align i j ps) := by
  have hmore (i j : Nat) (ps : List (Nat × Nat)) :
      (decide (0 < (traceAt f1 f2 (i + 1) (j + 1) ps).j) &&
        !(traceAt f1 f2 (i + 1) (j + 1) ps).under) = true := by simp [traceAt, traceWith]
  induction i, j, ps using Texts.align.induct t generalizing fuel with
  | case1 j ps =>
    rw [Texts.align]
    exact ht.loop_top h.aligns (by omega) _ _
  | case2 i ps =>
    rw [Texts.align]
    exact ⟨_, whileLoop_of_not (by simp [traceAt, traceWith]) fuel, rfl, rfl⟩
  | case3 i j ps heq ih =>
    obtain ⟨fuel, rfl⟩ : ∃ k, fuel = k + 1 := ⟨fuel - 1, by omega⟩
    rw [Texts.align, if_pos heq, whileLoop, if_pos (hmore i j ps), ht.up h.aligns heq,
      Option.bind_some]
    exact ih (h.up heq) (by omega)
  | case4 i j ps hup heq ih =>
    obtain ⟨fuel, rfl⟩ : ∃ k, fuel = k + 1 := ⟨fuel - 1, by omega⟩
    rw [Texts.align, if_neg hup, if_pos heq, whileLoop, if_pos (hmore i j ps),
      ht.left h.aligns hup heq, Option.bind_some]
    exact ih (h.left heq) (by omega)
  | case5 i j ps hup hleft ih =>
    obtain ⟨fuel, rfl⟩ : ∃ k, fuel = k + 1 := ⟨fuel - 1, by omega⟩
    rw [Texts.align, if_neg hup, if_neg hleft, whileLoop, if_pos (hmore i j ps),
      ht.diagonal h hup hleft, Option.bind_some]
    exact ih (h.diagonal hup hleft) (by omega)

end OnSides

theorem alignInv_init (t : Texts) : AlignInv t t.m t.n [] :=
  ⟨.nil (Nat.le_refl _) (Nat.le_refl _), fun h => absurd h (Nat.lt_irrefl _), .inl rfl, .inl rfl⟩

theorem alignment_aligns (t : Texts) : Aligns t.same t.m t.n 0 0 t.alignment := (alignInv_init t).align

theorem traceback_eq {t : Texts} {f1 f2 : Side} {table : Nat → Nat → Nat}
    (ht : OnSides t f1 f2 table) (h1 : f1.cmp = fun _ => false) (h2 : f2.cmp = fun _ => false)
    (below : Nat → Nat) {fuel : Nat} (hfuel : t.m + t.n + 1 ≤ fuel) :
    traceback fuel below table f1 f2 = some (f1.left t.alignment, f2.right t.alignment) := by
  obtain ⟨s, hrun, hs1, hs2⟩ := ht.loop below (alignInv_init t) hfuel
  have hinit : (⟨f1.len, false, f2.len, f1, f2, 0, 0⟩ : Trace) = traceAt f1 f2 t.m t.n [] := by
    have hf1 : f1.left [] = f1 := by rw [Side.left, ← show f1.cmp = leftIn [] from h1]
    have hf2 : f2.right [] = f2 := by rw [Side.right, ← show f2.cmp = rightIn [] from h2]
    simp [traceAt, traceWith, hf1, hf2, ht.m, ht.n, nextBlank]
  rw [traceback, hinit, hrun, Option.map_some, hs1, hs2]
  rfl

/-! ## The texts of two files -/

/-- A row that starts with a newline is the newline. -/
def BlankOnly (row : CString) : Prop := row.head? = some '\n' → row = ['\n']

theorem blankOnly_of_not_mem {row : CString} (h : '\n' ∉ row) : BlankOnly row := fun hhead =>
  absurd (List.mem_of_mem_head? (Option.mem_def.mpr hhead)) h

theorem getStringsFrom_blankOnly (content : List Char) {row : CString} (hrow : '\n' ∉ row) :
    ∀ l ∈ getStringsFrom row content, BlankOnly l := by
  induction content generalizing row with
  | nil =>
    intro l hl
    rw [getStringsFrom, List.mem_singleton] at hl
    exact hl ▸ blankOnly_of_not_mem hrow
  | cons c cs ih =>
    rw [getStringsFrom]
    split
    · intro l hl
      rcases List.mem_cons.mp hl with rfl | hl
      · intro hhead
        cases row with
        | nil => simpa using hhead
        | cons x xs =>
          have hx : x = '\n' := by simpa using hhead
          exact absurd hx fun h => hrow (h ▸ List.mem_cons_self)
      · exact ih (List.not_mem_nil) l hl
    · rename_i hc
      refine ih ?_
      rw [List.mem_append, List.mem_singleton]
      exact fun h => h.elim hrow fun h => hc (.inl h.symm)

theorem getStrings_blankOnly (content : List Char) : ∀ l ∈ getStrings content, BlankOnly l :=
  getStringsFrom_blankOnly content List.not_mem_nil

theorem getStrings_ne_nil (content : List Char) : getStrings content ≠ [] := by
  have h (row : CString) : getStringsFrom row content ≠ [] := by
    induction content generalizing row with
    | nil => exact List.cons_ne_nil _ _
    | cons c cs ih =>
      rw [getStringsFrom]
      split
      · exact List.cons_ne_nil _ _
      · exact ih _
  exact h []

theorem toLower_newline {c : Char} : c.toLower = '\n' ↔ c = '\n' := by
  constructor
  · intro h
    unfold Char.toLower at h
    split at h
    · rename_i hupper
      have hval : c.val + ('a'.val - 'A'.val) = '\n'.val := congrArg Char.val h
      have hc : c.val = '\n'.val - ('a'.val - 'A'.val) := by rw [← hval, UInt32.add_sub_cancel]
      rw [hc] at hupper
      exact absurd hupper (by decide)
    · exact h
  · rintro rfl
    rfl

theorem sameString_head {option : Nat} {a b : CString} (h : sameString option a b = true) :
    (a.head? = some '\n') = (b.head? = some '\n') := by
  rw [sameString] at h
  split at h
  · rw [strcaseEq, decide_eq_true_eq] at h
    have hhead := congrArg List.head? h
    rw [List.head?_map, List.head?_map] at hhead
    cases a with
    | nil =>
      cases b with
      | nil => rfl
      | cons y ys => simp at hhead
    | cons x xs =>
      cases b with
      | nil => simp at hhead
      | cons y ys =>
        simp only [List.head?_cons, Option.map_some, Option.some.injEq] at hhead ⊢
        rw [← toLower_newline, hhead, toLower_newline]
  · rw [of_decide_eq_true h]

theorem sameString_self (option : Nat) (a : CString) : sameString option a a = true := by
  simp [sameString, strcaseEq]

theorem Side.load_str_mem {rows : List CString} {k : Nat} (h : (Side.load rows).blank k = true) :
    k ≤ rows.length ∧ (Side.load rows).str k ∈ rows := by
  rw [Side.blank, decide_eq_true_eq] at h
  cases k with
  | zero => simp [Side.load] at h
  | succ k =>
    by_cases hk : k < rows.length
    · have hstr : (Side.load rows).str (k + 1) = rows[k] := by simp [Side.load, hk]
      exact ⟨hk, hstr ▸ List.getElem_mem hk⟩
    · have hstr : (Side.load rows).str (k + 1) = [] := by
        simp [Side.load, List.getElem?_eq_none (Nat.le_of_not_lt hk)]
      rw [hstr] at h
      cases h

/-- The files `rows1` and `rows2`, as `get_strings` gives them. -/
def Texts.ofRows (option : Nat) (rows1 rows2 : List CString) (h1 : ∀ l ∈ rows1, BlankOnly l)
    (h2 : ∀ l ∈ rows2, BlankOnly l) : Texts where
  m := rows1.length
  n := rows2.length
  same := sameRow option (Side.load rows1) (Side.load rows2)
  blank1 := (Side.load rows1).blank
  blank2 := (Side.load rows2).blank
  blank_congr := fun i j h => by simp only [Side.blank, sameString_head h]
  blank_same := fun i j hi hj => by
    have hrow1 := h1 _ (Side.load_str_mem hi).2 (of_decide_eq_true hi)
    have hrow2 := h2 _ (Side.load_str_mem hj).2 (of_decide_eq_true hj)
    rw [sameRow, hrow1, hrow2, sameString_self]
  blank1_le := fun _ h => (Side.load_str_mem h).1
  blank2_le := fun _ h => (Side.load_str_mem h).1

theorem ofRows_onSides (option : Nat) (rows1 rows2 : List CString) (h1 : ∀ l ∈ rows1, BlankOnly l)
    (h2 : ∀ l ∈ rows2, BlankOnly l) :
    OnSides (Texts.ofRows option rows1 rows2 h1 h2) (Side.load rows1) (Side.load rows2)
      (fillTable (lcsCell (sameRow option (Side.load rows1) (Side.load rows2))) rows1.length
        rows2.length) :=
  ⟨rfl, rfl, rfl, rfl, fun _ hi _ hj => fillTable_eq hi hj⟩

end Index
end SsuComputer
