import Mathlib.Data.Bool.Basic
import Mathlib.Data.Nat.Find
import SsuComputer.Index.DiffExact

/-!
# SsuComputer.Index.Verdict

The marks that the traceback of `diff_file` leaves, and the options `q` and `s`, which count them.

* `traceback_pairs` — the marked lines pair up, whatever lies before the table.
* `LastBlank` — the last blank line of two equal files stays unmarked.
* `allMarked_iff` — all lines are marked when the files are equal and have no blank line.
* `reports_iff` — so `q` is wrong about equal files with a blank line, and `s`, which asks for
  unmarked lines as `q` does, is right about these alone.
-/

namespace SsuComputer
namespace Index

/-! ## The marked lines -/

theorem selected_eq_self {α : Type _} {mx : Nat → Bool} {xs : List α} {i : Nat}
    (h : ∀ k, i < k → k ≤ i + xs.length → mx k = true) : selected mx i xs = xs := by
  induction xs generalizing i with
  | nil => rfl
  | cons x xs ih =>
    rw [List.length_cons] at h
    rw [selected, if_pos (h _ (Nat.lt_succ_self i) (by omega)), ih fun k hk hle => h k (by omega) (by omega)]

theorem Side.load_str {rows : List CString} {k : Nat} (h : k < rows.length) :
    (Side.load rows).str (k + 1) = rows[k] := by simp [Side.load, h]

theorem sameRow_iff {option : Nat} {rows1 rows2 : List CString} {a b : Nat} (ha : a < rows1.length)
    (hb : b < rows2.length) :
    sameRow option (Side.load rows1) (Side.load rows2) (a + 1) (b + 1) = true ↔
      sameString option rows1[a] rows2[b] = true := by
  rw [sameRow, Side.load_str ha, Side.load_str hb]

section Rows

variable {option : Nat} {rows1 rows2 : List CString} (h1 : ∀ l ∈ rows1, BlankOnly l)
  (h2 : ∀ l ∈ rows2, BlankOnly l)

theorem alignment_marked (option : Nat) : Marked (fun a b => sameString option a b = true) rows1 rows2
    (leftIn (Texts.ofRows option rows1 rows2 h1 h2).alignment)
    (rightIn (Texts.ofRows option rows1 rows2 h1 h2).alignment) 0 0 :=
  (alignment_aligns (Texts.ofRows option rows1 rows2 h1 h2)).marked
    fun _ ha _ hb => (sameRow_iff ha hb).mp

end Rows

/-- A line that starts with its newline is that newline, as `fgets` reads lines. -/
theorem traceback_pairs (option : Nat) (rows1 rows2 : List CString) (h1 : ∀ l ∈ rows1, BlankOnly l)
    (h2 : ∀ l ∈ rows2, BlankOnly l) (below : Nat → Nat) (fuel : Nat)
    (hfuel : rows1.length + rows2.length + 1 ≤ fuel) :
    ∃ f1 f2, traceback fuel below
        (fillTable (lcsCell (sameRow option (Side.load rows1) (Side.load rows2))) rows1.length
          rows2.length) (Side.load rows1) (Side.load rows2) = some (f1, f2) ∧
      (selected f1.cmp 0 rows1).length = (selected f2.cmp 0 rows2).length ∧
      List.Forall₂ (fun a b => sameString option a b = true) (selected f1.cmp 0 rows1)
        (selected f2.cmp 0 rows2) := by
  have htrace := traceback_eq (ofRows_onSides option rows1 rows2 h1 h2) rfl rfl below hfuel
  have hpairs := (alignment_marked h1 h2 option).selected
  exact ⟨_, _, htrace, hpairs.length_eq, hpairs⟩

/-- The lines `a`, blank and blank, `a`: the blank line behind the first `a` is passed over. -/
theorem traceback_pairs_blank_line :
    ∃ f1 f2, traceback 5 (fun _ => 0)
        (fillTable (lcsCell (sameRow 0 (Side.load [['a', '\n'], ['\n']])
          (Side.load [['\n'], ['a', '\n']]))) 2 2)
        (Side.load [['a', '\n'], ['\n']]) (Side.load [['\n'], ['a', '\n']]) = some (f1, f2) ∧
      (selected f1.cmp 0 [['a', '\n'], ['\n']]).length =
        (selected f2.cmp 0 [['\n'], ['a', '\n']]).length ∧
      List.Forall₂ (fun a b => sameString 0 a b = true) (selected f1.cmp 0 [['a', '\n'], ['\n']])
        (selected f2.cmp 0 [['\n'], ['a', '\n']]) :=
  traceback_pairs 0 [['a', '\n'], ['\n']] [['\n'], ['a', '\n']] (by simp [BlankOnly])
    (by simp [BlankOnly]) (fun _ => 0) 5 (by simp)

/-! ## Equal files -/

theorem rightIn_of_diagonal {ps : List (Nat × Nat)} (h : ∀ p ∈ ps, p.1 = p.2) (k : Nat) :
    rightIn ps k = leftIn ps k := by
  rw [rightIn, leftIn, Bool.eq_iff_iff, List.any_eq_true, List.any_eq_true]
  constructor
  · rintro ⟨p, hp, hk⟩
    exact ⟨p, hp, by rwa [h p hp]⟩
  · rintro ⟨p, hp, hk⟩
    exact ⟨p, hp, by rwa [← h p hp]⟩

/-- `b` is the last blank line of two equal files, and another line follows. The walk down the
diagonal, at line `i`, has entered the line behind `b` but not `b`. -/
structure LastBlank (t : Texts) (b i : Nat) (ps : List (Nat × Nat)) : Prop where
  blank : t.blank1 b = true
  none : ∀ k, b < k → t.blank1 k = false
  lt : b < t.m
  passed : i < b → leftIn ps b = false ∧ leftIn ps (b + 1) = true

namespace LastBlank

variable {t : Texts} {b i : Nat} {ps : List (Nat × Nat)}

theorem nextBlank_self (h : LastBlank t b i ps) : nextBlank t.blank1 t.m b = 0 := by
  rw [nextBlank, List.find?_eq_none.mpr, Option.getD_none]
  intro k hk
  rw [List.mem_range'_1] at hk
  simp [h.none k (by omega)]

theorem nextBlank_before (h : LastBlank t (i + 1) i ps) : nextBlank t.blank1 t.m i = i + 1 := by
  have hlt := h.lt
  rw [nextBlank_step (by omega), h.blank, if_pos rfl]

/-- By where the line is: behind the last blank line, that line, the line before it, or further on. -/
theorem enter (hblank : t.blank1 = t.blank2) (hmn : t.m = t.n) (h : LastBlank t b (i + 1) ps)
    (hd : DiagonalInv t (i + 1) ps) (ha : Aligns t.same t.m t.n (i + 1) (i + 1) ps) :
    LastBlank t b i (t.enter (i + 1) (i + 1) ps) := by
  have hlt := h.lt
  refine ⟨h.blank, h.none, hlt, fun hi => ?_⟩
  by_cases hb : b = i + 1
  · subst hb
    have hrest : t.enter (i + 1) (i + 1) ps = ps := by
      have hnext := h.nextBlank_self
      have hnext2 : nextBlank t.blank2 t.n (i + 1) = 0 := by rw [← hblank, ← hmn, hnext]
      have hkeeps : t.keeps (i + 1) (i + 1) ps = false := by
        simp only [Texts.keeps, hnext, hnext2, Nat.zero_add, ha.leftIn_of_le (Nat.le_add_left 1 i),
          ha.rightIn_of_le (Nat.le_add_left 1 i), Bool.false_and, Bool.and_false, Bool.or_false]
      rw [Texts.enter, hkeeps, h.blank, Texts.passOver, h.none _ (Nat.lt_succ_self _)]
      simp
    rw [hrest]
    refine ⟨ha.leftIn_of_le (Nat.le_refl _), ?_⟩
    exact hd.filled _ (Nat.lt_succ_self _) hlt (h.none _ (Nat.lt_succ_self _))
  · obtain ⟨hout, hin⟩ := h.passed (by omega)
    have hentered : leftIn ((i + 1, i + 1) :: ps) b = false ∧
        leftIn ((i + 1, i + 1) :: ps) (b + 1) = true := by
      simp [hout, hin, Ne.symm hb]
    rw [Texts.enter]
    split
    · exact hentered
    · rename_i hpass
      rw [Texts.passOver]
      split
      · -- a pair behind line `i + 1` is entered, which is not `b`: next to `b` the pair is kept
        by_cases hb' : b = i + 2
        · subst hb'
          have hnext := LastBlank.nextBlank_before ⟨h.blank, h.none, hlt, h.passed⟩
          have hnext2 : nextBlank t.blank2 t.n (i + 1) = i + 2 := by rw [← hblank, ← hmn, hnext]
          have hkeeps : t.keeps (i + 1) (i + 1) ps = true := by
            simp only [Texts.keeps, hnext, hnext2, rightIn_of_diagonal hd.pairs, hin, Bool.and_self,
              Bool.true_or]
          simp [hkeeps] at hpass
        · have hne : i + 1 + 1 ≠ b := fun hb₂ => hb' hb₂.symm
          simp [hout, hin, hne]
      · exact ⟨hout, hin⟩

theorem align (hblank : t.blank1 = t.blank2) (hmn : t.m = t.n)
    (hsame : ∀ k < t.m, t.same (k + 1) (k + 1) = true) (hi : i ≤ t.m) (h : LastBlank t b i ps)
    (hd : DiagonalInv t i ps) (ha : AlignInv t i i ps) : LastBlank t b 0 (t.align i i ps) := by
  induction i generalizing ps with
  | zero => rw [Texts.align]; exact h
  | succ i ih =>
    have hcorner : lcs t.same (i + 1) (i + 1) = i + 1 := lcs_diagonal fun k hk => hsame k (by omega)
    have hup := (@lcs_le t.same i (i + 1)).1
    have hleft := (@lcs_le t.same (i + 1) i).2
    rw [Texts.align, if_neg (by omega), if_neg (by omega)]
    exact ih (by omega) (h.enter hblank hmn hd ha.aligns) (hd.enter hblank)
      (ha.diagonal (by omega) (by omega))

end LastBlank

/-! ## The sum of the marks -/

/-- What both options compare: are all lines marked? -/
structure AllMarked (m n : Nat) (ps : List (Nat × Nat)) : Prop where
  left : ∀ k, 0 < k → k ≤ m → leftIn ps k = true
  right : ∀ k, 0 < k → k ≤ n → rightIn ps k = true

theorem marks_le (f : Side) : marks f ≤ f.len := by
  have hle := List.length_filter_le f.cmp (List.range' 1 f.len)
  rwa [List.length_range'] at hle

theorem marks_eq_iff (f : Side) : marks f = f.len ↔ ∀ k, 0 < k → k ≤ f.len → f.cmp k = true := by
  have hall : marks f = f.len ↔ ∀ k ∈ List.range' 1 f.len, f.cmp k = true := by
    rw [← List.length_filter_eq_length_iff, List.length_range', marks]
  rw [hall]
  refine forall_congr' fun k => ?_
  rw [List.mem_range'_1]
  constructor
  · exact fun h h0 hk => h ⟨h0, by omega⟩
  · exact fun h hk => h hk.1 (by omega)

theorem sum_eq_iff (f1 f2 : Side) (ps : List (Nat × Nat)) :
    marks (f1.left ps) + marks (f2.right ps) = f1.len + f2.len ↔ AllMarked f1.len f2.len ps := by
  have hle1 := marks_le (f1.left ps)
  have hle2 := marks_le (f2.right ps)
  have hleft := marks_eq_iff (f1.left ps)
  have hright := marks_eq_iff (f2.right ps)
  constructor
  · intro h
    have hle1' : marks (f1.left ps) ≤ f1.len := hle1
    have hle2' : marks (f2.right ps) ≤ f2.len := hle2
    have hone : marks (f1.left ps) = f1.len := by omega
    have htwo : marks (f2.right ps) = f2.len := by omega
    exact ⟨hleft.mp hone, hright.mp htwo⟩
  · intro h
    have hone : marks (f1.left ps) = f1.len := hleft.mpr h.left
    have htwo : marks (f2.right ps) = f2.len := hright.mpr h.right
    rw [hone, htwo]

section Rows

variable {option : Nat} {rows1 rows2 : List CString} (h1 : ∀ l ∈ rows1, BlankOnly l)
  (h2 : ∀ l ∈ rows2, BlankOnly l)

def SameRows (option : Nat) (rows1 rows2 : List CString) : Prop :=
  List.Forall₂ (fun a b => sameString option a b = true) rows1 rows2

theorem SameRows.same (h : SameRows option rows1 rows2) {k : Nat} (hk : k < rows1.length) :
    (Texts.ofRows option rows1 rows2 h1 h2).same (k + 1) (k + 1) = true := by
  obtain ⟨hlen, hsame⟩ := List.forall₂_iff_get.mp h
  exact (sameRow_iff hk (hlen ▸ hk)).mpr (hsame k hk (hlen ▸ hk))

theorem SameRows.blank (h : SameRows option rows1 rows2) :
    (Texts.ofRows option rows1 rows2 h1 h2).blank1 =
      (Texts.ofRows option rows1 rows2 h1 h2).blank2 := by
  funext k
  cases k with
  | zero => rfl
  | succ k =>
    by_cases hk : k < rows1.length
    · exact (Texts.ofRows option rows1 rows2 h1 h2).blank_congr _ _ (h.same h1 h2 hk)
    · have hlen := h.length_eq
      rw [Bool.eq_iff_iff]
      refine iff_of_false (fun hb => ?_) fun hb => ?_
      · exact hk ((Texts.ofRows option rows1 rows2 h1 h2).blank1_le _ hb)
      · have hle : k + 1 ≤ rows2.length := (Texts.ofRows option rows1 rows2 h1 h2).blank2_le _ hb
        omega

theorem SameRows.diagonal (h : SameRows option rows1 rows2) :
    DiagonalInv (Texts.ofRows option rows1 rows2 h1 h2) 0
      (Texts.ofRows option rows1 rows2 h1 h2).alignment := by
  have hinit : DiagonalInv (Texts.ofRows option rows1 rows2 h1 h2) rows1.length [] :=
    ⟨fun _ h => (by cases h), fun k hk hkm => absurd hk (Nat.lt_asymm hkm),
      fun k hk hkm => absurd hkm (Nat.not_le_of_lt hk)⟩
  have hwalk := hinit.align (h.blank h1 h2) (fun k hk => h.same h1 h2 hk) (Nat.le_refl _)
  have hlen : (Texts.ofRows option rows1 rows2 h1 h2).n = rows1.length := h.length_eq.symm
  rw [Texts.alignment, hlen]
  exact hwalk

theorem exists_lastBlank (option : Nat) (hlast : ∃ l, rows1.getLast? = some l ∧ l ≠ ['\n'])
    (hmem : ['\n'] ∈ rows1) :
    ∃ b, 0 < b ∧ LastBlank (Texts.ofRows option rows1 rows2 h1 h2) b rows1.length [] := by
  let t := Texts.ofRows option rows1 rows2 h1 h2
  obtain ⟨k, hk, hrow⟩ := List.getElem_of_mem hmem
  have hkb : t.blank1 (k + 1) = true := by
    change (Side.load rows1).blank (k + 1) = true
    rw [Side.blank, Side.load_str hk, hrow]
    rfl
  let b := Nat.findGreatest (fun k => t.blank1 k = true) rows1.length
  have hb : t.blank1 b = true := 
    Nat.findGreatest_spec (P := fun k => t.blank1 k = true) hk hkb
  have hpos : 0 < b := Nat.pos_of_ne_zero fun h0 => by
    rw [h0] at hb
    cases hb
  have hle : b ≤ rows1.length := Nat.findGreatest_le _
  have hne : b ≠ rows1.length := by
    intro hlen
    obtain ⟨l, hl, hnot⟩ := hlast
    obtain ⟨c, hc⟩ : ∃ c, b = c + 1 := ⟨b - 1, by omega⟩
    have hcl : c < rows1.length := by omega
    rw [List.getLast?_eq_getElem?, ← hlen, hc, Nat.add_sub_cancel, List.getElem?_eq_getElem hcl,
      Option.some.injEq] at hl
    rw [hc] at hb
    have hblank : (Side.load rows1).blank (c + 1) = true := hb
    rw [Side.blank, Side.load_str hcl, hl, decide_eq_true_eq] at hblank
    exact hnot (h1 l (hl ▸ List.getElem_mem hcl) hblank)
  refine ⟨b, hpos, hb, fun k hk => ?_, Nat.lt_of_le_of_ne hle hne, fun h => ?_⟩
  · rw [← Bool.not_eq_true]
    exact fun hk' => Nat.findGreatest_is_greatest hk (t.blank1_le k hk') hk'
  · exact absurd h (Nat.not_lt_of_le hle)

/-- A blank line in equal files, with the last one of them. -/
theorem SameRows.not_allMarked (h : SameRows option rows1 rows2)
    (hlast : ∃ l, rows1.getLast? = some l ∧ l ≠ ['\n']) (hmem : ['\n'] ∈ rows1) :
    ¬AllMarked rows1.length rows2.length (Texts.ofRows option rows1 rows2 h1 h2).alignment := by
  intro hall
  obtain ⟨b, hpos, hb⟩ := exists_lastBlank h1 h2 option hlast hmem
  have hinit : DiagonalInv (Texts.ofRows option rows1 rows2 h1 h2) rows1.length [] :=
    ⟨fun _ h => (by cases h), fun k hk hkm => absurd hk (Nat.lt_asymm hkm),
      fun k hk hkm => absurd hkm (Nat.not_le_of_lt hk)⟩
  have hlen : rows1.length = (Texts.ofRows option rows1 rows2 h1 h2).n := h.length_eq
  have hstart := alignInv_init (Texts.ofRows option rows1 rows2 h1 h2)
  rw [← hlen] at hstart
  have hwalk := hb.align (h.blank h1 h2) hlen (fun k hk => h.same h1 h2 hk) (Nat.le_refl _) hinit hstart
  have hmarked := hall.left b hpos (Nat.le_of_lt hb.lt)
  rw [Texts.alignment, ← hlen] at hmarked
  exact Bool.false_ne_true ((hwalk.passed hpos).1.symm.trans hmarked)

theorem allMarked_iff (hlast : ∃ l, rows1.getLast? = some l ∧ l ≠ ['\n']) :
    AllMarked rows1.length rows2.length (Texts.ofRows option rows1 rows2 h1 h2).alignment ↔
      SameRows option rows1 rows2 ∧ ['\n'] ∉ rows1 := by
  constructor
  · intro h
    have hpairs := (alignment_marked h1 h2 option).selected
    rw [List.drop_zero, List.drop_zero, selected_eq_self fun k hk hle => h.left k hk (by omega),
      selected_eq_self fun k hk hle => h.right k hk (by omega)] at hpairs
    exact ⟨hpairs, fun hmem => SameRows.not_allMarked h1 h2 hpairs hlast hmem h⟩
  · rintro ⟨h, hmem⟩
    have hleft : ∀ k, 0 < k → k ≤ rows1.length →
        leftIn (Texts.ofRows option rows1 rows2 h1 h2).alignment k = true := by
      intro k hk hkm
      refine (h.diagonal h1 h2).filled k hk hkm ?_
      rw [← Bool.not_eq_true]
      intro hb
      have hrow := (Side.load_str_mem hb).2
      exact hmem (h1 _ hrow (of_decide_eq_true hb) ▸ hrow)
    refine ⟨hleft, fun k hk hkn => ?_⟩
    rw [rightIn_of_diagonal (h.diagonal h1 h2).pairs]
    exact hleft k hk (h.length_eq ▸ hkn)

end Rows

/-! ## The options -/

theorem getStringsFrom_getLast? (content : List Char) {row : CString} (hrow : '\n' ∉ row) :
    ∃ l, (getStringsFrom row content).getLast? = some l ∧ l ≠ ['\n'] := by
  induction content generalizing row with
  | nil =>
    refine ⟨row, rfl, ?_⟩
    rintro rfl
    exact hrow List.mem_cons_self
  | cons c cs ih =>
    rw [getStringsFrom]
    split
    · obtain ⟨l, hl, hne⟩ := ih List.not_mem_nil
      exact ⟨l, by rw [List.getLast?_cons, hl, Option.getD_some], hne⟩
    · rename_i hc
      refine ih ?_
      rw [List.mem_append, List.mem_singleton]
      exact fun h => h.elim hrow fun h => hc (.inl h.symm)

theorem diffFile_verdict (content1 content2 : List Char) (below : Nat → Nat) {option fuel : Nat}
    (hone : option.testBit 0 = true ∨ option.testBit 1 = true)
    (hfuel : (getStrings content1).length + (getStrings content2).length + 1 ≤ fuel) :
    ∃ differ : Bool, diffFile fuel below option content1 content2 =
        some ⟨[], option.testBit 0 && differ, option.testBit 1 && differ⟩ ∧
      (differ = false ↔ SameRows option (getStrings content1) (getStrings content2) ∧
        ['\n'] ∉ getStrings content1) := by
  have h1 := getStrings_blankOnly content1
  have h2 := getStrings_blankOnly content2
  let ps := (Texts.ofRows option (getStrings content1) (getStrings content2) h1 h2).alignment
  let f1 := (Side.load (getStrings content1)).left ps
  let f2 := (Side.load (getStrings content2)).right ps
  have htrace := traceback_eq
    (ofRows_onSides option (getStrings content1) (getStrings content2) h1 h2) rfl rfl below hfuel
  have hverdict : ¬((!option.testBit 0 && !option.testBit 1) = true) := by
    rcases hone with h | h <;> simp [h]
  refine ⟨decide (marks f1 + marks f2 ≠ f1.len + f2.len), ?_, ?_⟩
  · rw [diffFile]
    exact (congrArg (fun x => Option.bind x _) htrace).trans (if_neg hverdict)
  · rw [decide_eq_false_iff_not, not_not]
    exact (sum_eq_iff (Side.load _) (Side.load _) ps).trans
      (allMarked_iff h1 h2 (getStringsFrom_getLast? content1 List.not_mem_nil))

/-- What `q` alone and `s` alone should print. -/
def Reports (option : Nat) (rows1 rows2 : List CString) (r : Report) : Prop :=
  if option.testBit 0 then r.differ = true ↔ ¬SameRows option rows1 rows2
  else r.identical = true ↔ SameRows option rows1 rows2

theorem reports_iff (option : Nat) (content1 content2 : List Char) (below : Nat → Nat)
    (halone : option.testBit 0 ≠ option.testBit 1) (fuel : Nat)
    (hfuel : (getStrings content1).length + (getStrings content2).length + 1 ≤ fuel) :
    ∃ r, diffFile fuel below option content1 content2 = some r ∧
      (Reports option (getStrings content1) (getStrings content2) r ↔
        if option.testBit 0 then SameRows option (getStrings content1) (getStrings content2) →
          ['\n'] ∉ getStrings content1
        else SameRows option (getStrings content1) (getStrings content2) ∧
          ['\n'] ∈ getStrings content1) := by
  have hone : option.testBit 0 = true ∨ option.testBit 1 = true := by
    cases h0 : option.testBit 0 with
    | true => exact .inl rfl
    | false =>
      rw [h0] at halone
      exact .inr (Bool.eq_true_of_not_eq_false fun h => halone h.symm)
  obtain ⟨differ, hrun, hdiffer⟩ := diffFile_verdict content1 content2 below hone hfuel
  refine ⟨_, hrun, ?_⟩
  cases h0 : option.testBit 0 with
  | true =>
    simp only [Reports, h0, if_true, Bool.true_and]
    cases differ with
    | false =>
      obtain ⟨hsame, hmem⟩ := hdiffer.mp rfl
      exact iff_of_true (iff_of_false Bool.false_ne_true (not_not_intro hsame)) fun _ => hmem
    | true =>
      have hnot : ¬(SameRows option (getStrings content1) (getStrings content2) ∧
          ['\n'] ∉ getStrings content1) := fun h => by cases hdiffer.mpr h
      constructor
      · exact fun h hsame => absurd hsame (h.mp rfl)
      · exact fun h => iff_of_true rfl fun hsame => hnot ⟨hsame, h hsame⟩
  | false =>
    have h1 : option.testBit 1 = true := hone.resolve_left (by simp [h0])
    simp only [Reports, h0, h1, Bool.false_eq_true, if_false, Bool.true_and]
    cases differ with
    | false =>
      obtain ⟨hsame, hmem⟩ := hdiffer.mp rfl
      refine iff_of_false (fun h => ?_) fun h => hmem h.2
      cases h.mpr hsame
    | true =>
      have hnot : ¬(SameRows option (getStrings content1) (getStrings content2) ∧
          ['\n'] ∉ getStrings content1) := fun h => by cases hdiffer.mpr h
      constructor
      · exact fun h => ⟨h.mp rfl, by_contra fun hmem => hnot ⟨h.mp rfl, hmem⟩⟩
      · exact fun h => iff_of_true rfl h.1

theorem reports_iff_blank_line : ∃ r, diffFile 5 (fun _ => 0) 1 ['\n'] ['\n'] = some r ∧
    (Reports 1 (getStrings ['\n']) (getStrings ['\n']) r ↔
      if Nat.testBit 1 0 then SameRows 1 (getStrings ['\n']) (getStrings ['\n']) →
        ['\n'] ∉ getStrings ['\n']
      else SameRows 1 (getStrings ['\n']) (getStrings ['\n']) ∧ ['\n'] ∈ getStrings ['\n']) :=
  reports_iff 1 ['\n'] ['\n'] (fun _ => 0) (by decide) 5 (by decide)

/-- Of two equal files, `q` says that they differ when they are one blank line, and `s` does not say
that they are identical when they are one letter. -/
theorem equal_files_misreported :
    (∃ r, diffFile 5 (fun _ => 0) 1 ['\n'] ['\n'] = some r ∧ r.differ = true ∧
      ¬Reports 1 (getStrings ['\n']) (getStrings ['\n']) r) ∧
    ∃ r, diffFile 3 (fun _ => 0) 2 ['x'] ['x'] = some r ∧ r.identical = false ∧
      ¬Reports 2 (getStrings ['x']) (getStrings ['x']) r := by
  have hself (option : Nat) (rows : List CString) : SameRows option rows rows :=
    List.forall₂_same.mpr fun l _ => sameString_self option l
  constructor
  · have hrun : (diffFile 5 (fun _ => 0) 1 ['\n'] ['\n']).map Report.differ = some true := by decide
    obtain ⟨r, hr, hdiffer⟩ := Option.map_eq_some_iff.mp hrun
    exact ⟨r, hr, hdiffer, fun h => h.mp hdiffer (hself _ _)⟩
  · have hrun : (diffFile 3 (fun _ => 0) 2 ['x'] ['x']).map Report.identical = some false := by decide
    obtain ⟨r, hr, hidentical⟩ := Option.map_eq_some_iff.mp hrun
    refine ⟨r, hr, hidentical, fun h => ?_⟩
    rw [Reports, if_neg (by decide), hidentical] at h
    exact Bool.false_ne_true (h.mpr (hself _ _))

end Index
end SsuComputer
