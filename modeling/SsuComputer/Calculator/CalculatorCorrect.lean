import SsuComputer.Calculator.Accepts

/-!
# SsuComputer.Calculator.CalculatorCorrect

* `clang_accepts_iff` — for which lines the C calculator accepts exactly the EBNF.
* `calculators_evaluate` — both calculators print the value of an expression written without blanks.
* `calculators_agree_iff` — for which lines the two calculators agree.
-/

namespace SsuComputer
namespace Calculator

open Descent

/-! ## Evaluation -/

def NoBlanks (w : Text) : Prop := ∀ c ∈ w, isBlank c = false

instance (w : Text) : Decidable (NoBlanks w) :=
  decidable_of_iff (w.all fun c => !isBlank c) (by simp [NoBlanks, List.all_eq_true])

theorem NoBlanks.left {w x : Text} (h : NoBlanks (w ++ x)) : NoBlanks w :=
  fun c hc => h c (List.mem_append_left x hc)

theorem NoBlanks.right {w x : Text} (h : NoBlanks (w ++ x)) : NoBlanks x :=
  fun c hc => h c (List.mem_append_right w hc)

theorem NoBlanks.tail {c : Char} {w : Text} (h : NoBlanks (c :: w)) : NoBlanks w :=
  fun a ha => h a (List.mem_cons_of_mem c ha)

theorem blanks_eq_nil {b : Blanks} (h : NoBlanks b.val) : b.val = [] := by
  refine List.eq_nil_iff_forall_not_mem.mpr ?_
  intro c hc
  have := b.property c hc
  rw [h c hc] at this
  cases this

theorem tight_of_noBlanks {l : Level} {t : Tree l} (h : NoBlanks t.write) : t.Tight := by
  induction t with
  | number before sign ds => trivial
  | paren before e after ih => exact ih h.right.tail.left
  | factor f after ih => exact ih h.left
  | mul t f iht ihf => exact ⟨iht h.left, ihf h.right.tail⟩
  | div t f iht ihf => exact ⟨iht h.left, ihf h.right.tail⟩
  | term t after ih => exact ih h.left
  | add e t after ihe iht =>
    exact ⟨ihe h.left, iht h.right.tail.left, blanks_eq_nil h.right.tail.right⟩
  | sub e t after ihe iht =>
    exact ⟨ihe h.left, iht h.right.tail.left, blanks_eq_nil h.right.tail.right⟩

theorem readPart_write (e : Tree .expr) : readPart e.write = e.write :=
  readPart_of_all fun _ hc => ⟨(Tree.mem_write hc).2, (Tree.mem_write hc).1⟩

theorem calculators_evaluate (e : Tree .expr) (hfull : e.Full) (hblank : NoBlanks e.write)
    (hsafe : e.Safe) (stale : Text) :
    ∃ v : Long, v.toInt = e.eval ∧ Prints e.write stale v ∧ Parses e.write v := by
  obtain ⟨v, hv, hvi⟩ := Tree.value_of_safe e hsafe
  have hfits := Tree.fits_of_full e ['$'] hfull
  have hspells : Spells (readPart e.write) e := ⟨(readPart_write e).symm, hfits⟩
  exact ⟨v, hvi, (main_of_tree stale hspells).1 v hv,
    (parse_of_tree ⟨rfl, hfits⟩ (tight_of_noBlanks hblank)).1 v hv⟩

def literalTree (ds : List Digit) : Tree .factor := .number noBlanks none ds

def minusTree (ds : List Digit) : Tree .factor := .number noBlanks (some noBlanks) ds

def factorTree (f : Tree .factor) : Tree .term := .factor f noBlanks

def termTree (f : Tree .factor) : Tree .expr := .term (factorTree f) noBlanks

theorem calculators_evaluate_quotient :
    ∃ v : Long, v.toInt = 3 ∧ Prints ['2', '*', '(', '3', '-', '1', '0', ')', '/', '-', '4'] [] v ∧ Parses ['2', '*', '(', '3', '-', '1', '0', ')', '/', '-', '4'] v :=
  calculators_evaluate
    (.term (.div (.mul (factorTree (literalTree [2]))
      (.paren noBlanks (.sub (termTree (literalTree [3])) (factorTree (literalTree [1, 0])) noBlanks)
        noBlanks)) (minusTree [4])) noBlanks)
    (by simp [Tree.Full, factorTree, termTree, literalTree, minusTree])
    (by decide)
    (by decide)
    []

/-! ## Agreement -/

def alphabet : List Char :=
  ['0', '1', '2', '3', '4', '5', '6', '7', '8', '9', '+', '-', '*', '/', '(', ')', ' ', '\t']

def Agree (line stale : Text) : Prop :=
  (ReportsError line stale ↔ ThrowsParsing line) ∧ ∀ v, Prints line stale v ↔ Parses line v

theorem alphabet_ne_mark {c : Char} (h : c ∈ alphabet) : c ≠ Clang.zeroByte ∧ c ≠ '$' := by
  have hall : alphabet.all (fun c => decide (c ≠ Clang.zeroByte ∧ c ≠ '$')) = true := by decide
  exact of_decide_eq_true (List.all_eq_true.mp hall c h)

theorem reportsError_not_prints {line stale : Text} {v : Long} (h : ReportsError line stale) :
    ¬ Prints line stale v := by
  intro h'
  cases Settles.unique h h'

theorem throwsParsing_not_parses {line : Text} {v : Long} (h : ThrowsParsing line) :
    ¬ Parses line v := by
  intro h'
  cases Settles.unique h h'

theorem prints_unique {line stale : Text} {v w : Long} (h : Prints line stale v)
    (h' : Prints line stale w) : v = w := by
  cases Settles.unique h h'
  rfl

theorem parses_unique {line : Text} {v w : Long} (h : Parses line v) (h' : Parses line w) :
    v = w := by
  cases Settles.unique h h'
  rfl

/-- The calculators agree on a line that is no expression for C, or is one that has no blanks of its
own behind a later term of a sum. -/
theorem calculators_agree_iff (line stale : Text) (halphabet : ∀ c ∈ line, c ∈ alphabet)
    (hdiv : ¬ (Traps line stale ∨ ThrowsArithmetic line)) :
    Agree line stale ↔ ((∃ e, Spells line e) → ∃ e, Spells line e ∧ e.Tight) := by
  obtain ⟨htraps, harith⟩ := not_or.mp hdiv
  have hne : ∀ c ∈ line, c ≠ Clang.zeroByte ∧ c ≠ '$' := fun c hc => alphabet_ne_mark (halphabet c hc)
  have hread : readPart line = line := readPart_of_all hne
  have htake : line.takeWhile notMark = line :=
    takeWhile_of_all fun c hc => by simpa [notMark] using (hne c hc).2
  have hmain := main_cases line stale
  have hparse := parse_cases line
  rw [hread] at hmain
  rw [htake] at hparse
  have hvalue : ∀ e, Spells line e → ∃ v, e.value = .ok v ∧ Prints line stale v := by
    intro e he
    have htree := main_of_tree stale (hread.symm ▸ he)
    cases hv : e.value with
    | ok v => exact ⟨v, rfl, htree.1 v hv⟩
    | error x => exact absurd (htree.2 x hv) htraps
  constructor
  · rintro ⟨_, hprints⟩ ⟨e, he⟩
    obtain ⟨v, hv, hp⟩ := hvalue e he
    rcases hparse with ⟨_, e', _, he', _, htight⟩ | hthrows | hthrows
    · exact ⟨e', he', htight⟩
    · exact absurd ((hprints v).mp hp) (throwsParsing_not_parses hthrows)
    · exact absurd hthrows harith
  · intro hspelled
    have hboth : ∀ e, Spells line e → ∃ v, Prints line stale v ∧ Parses line v := by
      intro e he
      obtain ⟨e', he', htight⟩ := hspelled ⟨e, he⟩
      obtain ⟨v, hv, hp⟩ := hvalue e' he'
      exact ⟨v, hp, (parse_of_tree he' htight).1 v hv⟩
    rcases hmain with ⟨v, e, hp, he, hv⟩ | herror | htrap
    · obtain ⟨w, hpw, hjw⟩ := hboth e he
      refine ⟨iff_of_false (fun h => reportsError_not_prints h hp)
        (fun h => throwsParsing_not_parses h hjw), ?_⟩
      intro u
      constructor
      · intro hu
        exact prints_unique hpw hu ▸ hjw
      · intro hu
        exact parses_unique hjw hu ▸ hpw
    · have hnone : ∀ e, ¬ Spells line e := by
        intro e he
        obtain ⟨v, hp, _⟩ := hboth e he
        exact reportsError_not_prints herror hp
      rcases hparse with ⟨_, e', _, he', _⟩ | hthrows | hthrows
      · exact absurd he' (hnone e')
      · exact ⟨iff_of_true herror hthrows, fun u => iff_of_false (reportsError_not_prints herror)
          (throwsParsing_not_parses hthrows)⟩
      · exact absurd hthrows harith
    · exact absurd htrap htraps

theorem calculators_agree_product : Agree ['1', ' ', '+', ' ', '2', '*', '3', '+', '4'] [] := by
  have hprints : Prints ['1', ' ', '+', ' ', '2', '*', '3', '+', '4'] [] 11 := settles_add 20 fun _ => rfl
  have hparses : Parses ['1', ' ', '+', ' ', '2', '*', '3', '+', '4'] 11 := settles_add 20 fun _ => rfl
  have halphabet : ['1', ' ', '+', ' ', '2', '*', '3', '+', '4'].all (alphabet.contains ·) = true := by
    decide
  refine (calculators_agree_iff ['1', ' ', '+', ' ', '2', '*', '3', '+', '4'] []
    (fun c hc => List.contains_iff_mem.mp (List.all_eq_true.mp halphabet c hc)) ?_).mpr ?_
  · rintro (h | h)
    · cases Settles.unique h hprints
    · cases Settles.unique h hparses
  · intro _
    rcases parse_cases ['1', ' ', '+', ' ', '2', '*', '3', '+', '4'] with ⟨_, e, _, he, _, htight⟩ | h | h
    · exact ⟨e, he, htight⟩
    · cases Settles.unique h hparses
    · cases Settles.unique h hparses

/-- A blank behind a product that is not the first term: C goes on, Java does not. -/
theorem calculators_differ : Prints ['1', '+', '2', '*', '3', ' ', '+', '4'] [] 11 ∧ ThrowsParsing ['1', '+', '2', '*', '3', ' ', '+', '4'] ∧
    ¬ Agree ['1', '+', '2', '*', '3', ' ', '+', '4'] [] := by
  have hprints : Prints ['1', '+', '2', '*', '3', ' ', '+', '4'] [] 11 := settles_add 20 fun _ => rfl
  have hthrows : ThrowsParsing ['1', '+', '2', '*', '3', ' ', '+', '4'] := settles_add 20 fun _ => rfl
  exact ⟨hprints, hthrows, fun h => throwsParsing_not_parses hthrows ((h.2 11).mp hprints)⟩

/-! ## The documented grammar -/

def Level.symbol : Level → Symbol
  | .factor => .factor
  | .term => .term
  | .expr => .expr

/-- A full tree without blanks is a derivation. -/
theorem derives_write {l : Level} {t : Tree l} (hfull : t.Full) (h : NoBlanks t.write) :
    Derives l.symbol t.write := by
  induction t with
  | number before sign ds =>
    have hbefore := blanks_eq_nil h.left
    simp only [Tree.write, hbefore, List.nil_append] at h ⊢
    cases sign with
    | none => exact .factor (.number hfull)
    | some b =>
      have hb := blanks_eq_nil h.left.tail
      simp only [Tree.signText, hb, List.cons_append, List.nil_append]
      exact .minus (.number hfull)
  | paren before e after ih =>
    have hbefore := blanks_eq_nil h.left
    have hafter := blanks_eq_nil h.right.tail.right.left
    simp only [Tree.write, hbefore, hafter, List.nil_append]
    exact .paren (ih hfull h.right.tail.left)
  | factor f after ih =>
    have hafter := blanks_eq_nil h.right
    simp only [Tree.write, hafter, List.append_nil]
    exact .term (ih hfull h.left)
  | mul t f iht ihf => exact .mul (iht hfull.1 h.left) (ihf hfull.2 h.right.tail)
  | div t f iht ihf => exact .div (iht hfull.1 h.left) (ihf hfull.2 h.right.tail)
  | term t after ih =>
    have hafter := blanks_eq_nil h.right
    simp only [Tree.write, hafter, List.append_nil]
    exact .expr (ih hfull h.left)
  | add e t after ihe iht =>
    have hafter := blanks_eq_nil h.right.tail.right
    simp only [Tree.write, hafter, List.append_nil]
    exact .add (ihe hfull.1 h.left) (iht hfull.2 h.right.tail.left)
  | sub e t after ihe iht =>
    have hafter := blanks_eq_nil h.right.tail.right
    simp only [Tree.write, hafter, List.append_nil]
    exact .sub (ihe hfull.1 h.left) (iht hfull.2 h.right.tail.left)

theorem derives_ne_mark {x : Symbol} {w : Text} (h : Derives x w) :
    ∀ c ∈ w, c ≠ Clang.zeroByte ∧ c ≠ '$' := by
  have happend : ∀ {u v : Text} {a : Char}, (a ≠ Clang.zeroByte ∧ a ≠ '$') →
      (∀ c ∈ u, c ≠ Clang.zeroByte ∧ c ≠ '$') → (∀ c ∈ v, c ≠ Clang.zeroByte ∧ c ≠ '$') →
      ∀ c ∈ u ++ a :: v, c ≠ Clang.zeroByte ∧ c ≠ '$' := by
    intro u v a ha hu hv c hc
    rcases List.mem_append.mp hc with h | h
    · exact hu c h
    rcases List.mem_cons.mp h with rfl | h
    · exact ha
    · exact hv c h
  have hnil : ∀ c ∈ ([] : Text), c ≠ Clang.zeroByte ∧ c ≠ '$' := fun c hc => by cases hc
  induction h with
  | number _ =>
    intro c hc
    obtain ⟨d, _, rfl⟩ := List.mem_map.mp hc
    exact (digitChar_ne_mark d).symm
  | factor _ ih => exact ih
  | minus _ ih => exact happend (by decide) hnil ih
  | paren _ ih => exact happend (by decide) hnil (happend (by decide) ih hnil)
  | minusParen _ ih =>
    exact happend (by decide) hnil (happend (by decide) hnil (happend (by decide) ih hnil))
  | term _ ih => exact ih
  | mul _ _ ihw ihx => exact happend (by decide) ihw ihx
  | div _ _ ihw ihx => exact happend (by decide) ihw ihx
  | expr _ ih => exact ih
  | add _ _ ihw ihx => exact happend (by decide) ihw ihx
  | sub _ _ ihw ihx => exact happend (by decide) ihw ihx

/-! ## A minus sign in front of a parenthesis -/

/-- The parser stands in front of a parenthesis that it does not expect, or has stopped. -/
def Stuck : Result → Prop
  | .ok (_, s) => cur s = '('
  | .error _ => True

def GetsStuck (f : Nat → Result) : Prop := ∃ r, Settles f r ∧ Stuck r

/-- What becomes of a derived text: a tree, or the parser gets stuck in it. -/
def Derived : Symbol → Text → Prop
  | .number, w => ∃ ds : List Digit, ds ≠ [] ∧ w = ds.map digitChar
  | .factor, w => (∃ f : Tree .factor, f.Full ∧ f.write = w) ∨
      ∀ rest, GetsStuck fun n => Descent.factor .clang n (w ++ rest)
  | .term, w => (∃ t : Tree .term, t.Full ∧ t.write = w) ∨
      ∀ rest, cur (skip rest) ∈ factorEnds → GetsStuck fun n => Descent.term .clang n (w ++ rest)
  | .expr, w => (∃ e : Tree .expr, e.Full ∧ e.write = w) ∨
      ∀ rest, cur (skip rest) ∈ termEnds → GetsStuck fun n => Descent.expr .clang n (w ++ rest)

theorem stuck_stops {s : Text} (h : cur s = '(') (v : Long) (style : Style) :
    Settles (fun n => Descent.termLoop style n v s) (.ok (v, s)) ∧
      Settles (fun n => Descent.exprLoop style n v s) (.ok (v, s)) := by
  refine ⟨termLoop_stops ?_ ?_ v, exprLoop_stops ?_ ?_ v⟩ <;> rw [h] <;> decide

theorem skip_of_paren {s : Text} (h : cur s = '(') : skip s = s :=
  skip_of_not_blank (by rw [h]; decide)

/-- A stuck operand leaves the function stuck that reads it. -/
theorem getsStuck_bind {f : Nat → Result} {k : Nat → Long × Text → Result}
    (hf : GetsStuck f) (hk : ∀ v s, cur s = '(' → GetsStuck fun n => k n (v, s)) :
    GetsStuck fun n => f n >>= k n := by
  obtain ⟨r, hr, hstuck⟩ := hf
  cases r with
  | error e => exact ⟨.error e, hr.bind_error, trivial⟩
  | ok p =>
    obtain ⟨r', hr', hstuck'⟩ := hk p.1 p.2 hstuck
    exact ⟨r', hr.bind hr', hstuck'⟩

theorem getsStuck_succ {f : Nat → Result} (h : GetsStuck fun n => f (n + 1)) : GetsStuck f := by
  obtain ⟨r, hr, hstuck⟩ := h
  exact ⟨r, settles_succ hr, hstuck⟩

theorem getsStuck_paren {w : Text}
    (h : ∀ rest, cur (skip rest) ∈ termEnds → GetsStuck fun n => Descent.expr .clang n (w ++ rest))
    (rest : Text) : GetsStuck fun n => Descent.factor .clang n ('(' :: (w ++ [')']) ++ rest) := by
  have hskip : skip ('(' :: (w ++ [')']) ++ rest) = '(' :: (w ++ ')' :: rest) := by
    rw [List.cons_append, List.append_assoc]
    exact skip_cons_of_not_blank (by decide) _
  have hclose : cur (skip (')' :: rest)) ∈ termEnds := by
    rw [skip_cons_of_not_blank (by decide), cur_cons]
    decide
  refine getsStuck_succ ?_
  unfold Descent.factor
  simp only [hskip, cur_cons, if_true, List.tail_cons, expr_skip_front]
  refine getsStuck_bind (h (')' :: rest) hclose) ?_
  intro v s hs
  have hne : ¬ cur (skip s) = ')' := by
    rw [skip_of_paren hs, hs]
    decide
  simp only [hne, if_false]
  exact ⟨_, settles_const _, trivial⟩

theorem getsStuck_minusParen (w : Text) :
    GetsStuck fun n => Descent.factor .clang n ('-' :: '(' :: w) := by
  refine ⟨.ok (-1 * longOf [], '(' :: w), settles_succ ⟨0, fun n _ => ?_⟩, rfl⟩
  show Descent.factor .clang (n + 1) ('-' :: '(' :: w) = _
  have hskip : skip ('-' :: '(' :: w) = '-' :: '(' :: w := skip_cons_of_not_blank (by decide) _
  have hnumber : number ('(' :: w) = .ok (longOf [], '(' :: w) := by
    unfold number
    rw [skip_cons_of_not_blank (by decide)]
    rfl
  unfold Descent.factor
  rw [hskip, cur_cons, if_neg (by decide), if_pos rfl, List.tail_cons, hnumber]
  rfl

theorem getsStuck_term {w : Text} (h : ∀ rest, GetsStuck fun n => Descent.factor .clang n (w ++ rest))
    (rest : Text) : GetsStuck fun n => Descent.term .clang n (w ++ rest) := by
  refine getsStuck_succ ?_
  unfold Descent.term
  refine getsStuck_bind (h rest) ?_
  intro v s hs
  simp only [skip_of_paren hs]
  exact ⟨_, (stuck_stops hs v .clang).1, hs⟩

theorem getsStuck_expr {w : Text}
    (h : ∀ rest, cur (skip rest) ∈ factorEnds → GetsStuck fun n => Descent.term .clang n (w ++ rest))
    (rest : Text) (hrest : cur (skip rest) ∈ termEnds) :
    GetsStuck fun n => Descent.expr .clang n (w ++ rest) := by
  refine getsStuck_succ ?_
  unfold Descent.expr
  refine getsStuck_bind (h rest (factorEnds_of_termEnds hrest)) ?_
  intro v s hs
  simp only [skip_of_paren hs]
  exact ⟨_, (stuck_stops hs v .clang).2, hs⟩

/-- A tree as left operand and a stuck right operand. -/
theorem getsStuck_product {t : Tree .term} (ht : t.Full) {c : Char} (hc : isBlank c = false)
    (hend : c ∈ factorEnds) {x : Text} (op : Long → Long → Except Stop Long)
    (hloop : ∀ n v s, Descent.termLoop .clang (n + 1) v (c :: s) =
      Descent.factor .clang n (skip s) >>= fun x => op v x.1 >>= fun w =>
        Descent.termLoop .clang n w x.2)
    (hx : ∀ rest, GetsStuck fun n => Descent.factor .clang n (x ++ rest)) (rest : Text) :
    GetsStuck fun n => Descent.term .clang n ((t.write ++ c :: x) ++ rest) := by
  have hskip : skip (c :: (x ++ rest)) = c :: (x ++ rest) := skip_cons_of_not_blank hc _
  obtain ⟨s, hs, hterm⟩ := completes_clang t (c :: (x ++ rest))
    (by rw [hskip]; exact hend) (Tree.fits_of_full t _ ht)
  obtain rfl : s = c :: (x ++ rest) := by
    rcases hs with h | h
    · exact h
    · rw [h, hskip]
  rw [List.append_assoc, List.cons_append]
  cases hv : t.value with
  | error e =>
    rw [hv] at hterm
    exact ⟨.error e, hterm _ (settles_const _), trivial⟩
  | ok v =>
    rw [hv] at hterm
    have hstuck : GetsStuck fun n => Descent.termLoop .clang n v (c :: (x ++ rest)) := by
      refine getsStuck_succ ?_
      simp only [hloop, factor_skip]
      refine getsStuck_bind (hx rest) ?_
      intro w s hs
      cases op v w with
      | error e => exact ⟨.error e, settles_const _, trivial⟩
      | ok w' => exact ⟨_, (stuck_stops hs w' .clang).1, hs⟩
    obtain ⟨r, hr, hr'⟩ := hstuck
    exact ⟨r, hterm r hr, hr'⟩

theorem getsStuck_sum {e : Tree .expr} (he : e.Full) {c : Char} (hc : isBlank c = false)
    (hend : c ∈ termEnds) {x : Text} (op : Long → Long → Long)
    (hloop : ∀ n v s, Descent.exprLoop .clang (n + 1) v (c :: s) =
      Descent.term .clang n (skip s) >>= fun x =>
        Descent.exprLoop .clang n (op v x.1) (Style.clang.afterTerm x.2))
    (hx : ∀ rest, cur (skip rest) ∈ factorEnds →
      GetsStuck fun n => Descent.term .clang n (x ++ rest))
    (rest : Text) (hrest : cur (skip rest) ∈ termEnds) :
    GetsStuck fun n => Descent.expr .clang n ((e.write ++ c :: x) ++ rest) := by
  have hskip : skip (c :: (x ++ rest)) = c :: (x ++ rest) := skip_cons_of_not_blank hc _
  obtain ⟨s, hs, hexpr⟩ := completes_clang e (c :: (x ++ rest))
    (by rw [hskip]; exact hend) (Tree.fits_of_full e _ he)
  obtain rfl : s = c :: (x ++ rest) := by
    rcases hs with h | h
    · exact h
    · rw [h, hskip]
  rw [List.append_assoc, List.cons_append]
  cases hv : e.value with
  | error e' =>
    rw [hv] at hexpr
    exact ⟨.error e', hexpr _ (settles_const _), trivial⟩
  | ok v =>
    rw [hv] at hexpr
    have hstuck : GetsStuck fun n => Descent.exprLoop .clang n v (c :: (x ++ rest)) := by
      refine getsStuck_succ ?_
      simp only [hloop, term_skip]
      refine getsStuck_bind (hx rest (factorEnds_of_termEnds hrest)) ?_
      intro w s hs
      simp only [Style.afterTerm, skip_of_paren hs]
      exact ⟨_, (stuck_stops hs _ .clang).2, hs⟩
    obtain ⟨r, hr, hr'⟩ := hstuck
    exact ⟨r, hexpr r hr, hr'⟩

theorem cur_skip_cons {c : Char} (h : isBlank c = false) (s : Text) : cur (skip (c :: s)) = c := by
  rw [skip_cons_of_not_blank h, cur_cons]

theorem getsStuck_left_term {w x : Text} {c : Char} (hc : isBlank c = false) (hend : c ∈ factorEnds)
    (h : ∀ rest, cur (skip rest) ∈ factorEnds → GetsStuck fun n => Descent.term .clang n (w ++ rest))
    (rest : Text) : GetsStuck fun n => Descent.term .clang n ((w ++ c :: x) ++ rest) := by
  rw [List.append_assoc]
  refine h _ ?_
  rw [List.cons_append, cur_skip_cons hc]
  exact hend

theorem getsStuck_left_expr {w x : Text} {c : Char} (hc : isBlank c = false) (hend : c ∈ termEnds)
    (h : ∀ rest, cur (skip rest) ∈ termEnds → GetsStuck fun n => Descent.expr .clang n (w ++ rest))
    (rest : Text) : GetsStuck fun n => Descent.expr .clang n ((w ++ c :: x) ++ rest) := by
  rw [List.append_assoc]
  refine h _ ?_
  rw [List.cons_append, cur_skip_cons hc]
  exact hend

theorem derived {x : Symbol} {w : Text} (h : Derives x w) : Derived x w := by
  induction h with
  | @number ds hne => exact ⟨ds, hne, rfl⟩
  | factor _ ih =>
    obtain ⟨ds, hne, rfl⟩ := ih
    exact .inl ⟨.number noBlanks none ds, hne, rfl⟩
  | minus _ ih =>
    obtain ⟨ds, hne, rfl⟩ := ih
    exact .inl ⟨.number noBlanks (some noBlanks) ds, hne, rfl⟩
  | paren _ ih =>
    rcases ih with ⟨e, he, rfl⟩ | hstuck
    · exact .inl ⟨.paren noBlanks e noBlanks, he, rfl⟩
    · exact .inr (getsStuck_paren hstuck)
  | @minusParen w _ _ => exact .inr fun rest => getsStuck_minusParen (w ++ [')'] ++ rest)
  | term _ ih =>
    rcases ih with ⟨f, hf, rfl⟩ | hstuck
    · exact .inl ⟨.factor f noBlanks, hf, List.append_nil _⟩
    · exact .inr fun rest _ => getsStuck_term hstuck rest
  | mul _ _ ihw ihx =>
    rcases ihw with ⟨t, ht, rfl⟩ | hstuck
    · rcases ihx with ⟨f, hf, rfl⟩ | hstuck
      · exact .inl ⟨.mul t f, ⟨ht, hf⟩, rfl⟩
      · exact .inr fun rest _ => getsStuck_product ht (c := '*') (by decide) (by decide)
          (fun v w => .ok (v * w)) termLoop_star hstuck rest
    · exact .inr fun rest _ => getsStuck_left_term (by decide) (by decide) hstuck rest
  | div _ _ ihw ihx =>
    rcases ihw with ⟨t, ht, rfl⟩ | hstuck
    · rcases ihx with ⟨f, hf, rfl⟩ | hstuck
      · exact .inl ⟨.div t f, ⟨ht, hf⟩, rfl⟩
      · exact .inr fun rest _ => getsStuck_product ht (c := '/') (by decide) (by decide) quotient
          termLoop_slash hstuck rest
    · exact .inr fun rest _ => getsStuck_left_term (by decide) (by decide) hstuck rest
  | expr _ ih =>
    rcases ih with ⟨t, ht, rfl⟩ | hstuck
    · exact .inl ⟨.term t noBlanks, ht, List.append_nil _⟩
    · exact .inr (getsStuck_expr hstuck)
  | add _ _ ihw ihx =>
    rcases ihw with ⟨e, he, rfl⟩ | hstuck
    · rcases ihx with ⟨t, ht, rfl⟩ | hstuck
      · refine .inl ⟨.add e t noBlanks, ⟨he, ht⟩, ?_⟩
        simp only [Tree.write, noBlanks, List.append_nil]
      · exact .inr (getsStuck_sum he (c := '+') (by decide) (by decide) (fun v w => v + w)
          exprLoop_plus hstuck)
    · exact .inr fun rest _ => getsStuck_left_expr (by decide) (by decide) hstuck rest
  | sub _ _ ihw ihx =>
    rcases ihw with ⟨e, he, rfl⟩ | hstuck
    · rcases ihx with ⟨t, ht, rfl⟩ | hstuck
      · refine .inl ⟨.sub e t noBlanks, ⟨he, ht⟩, ?_⟩
        simp only [Tree.write, noBlanks, List.append_nil]
      · exact .inr (getsStuck_sum he (c := '-') (by decide) (by decide) (fun v w => v - w)
          exprLoop_minus hstuck)
    · exact .inr fun rest _ => getsStuck_left_expr (by decide) (by decide) hstuck rest

/-- A line in which the parser gets stuck is not accepted. -/
theorem not_prints_of_stuck {line stale : Text} (hread : readPart line = line)
    (h : ∀ rest, cur (skip rest) ∈ termEnds → GetsStuck fun n => Descent.expr .clang n (line ++ rest))
    (v : Long) : ¬ Prints line stale v := by
  intro hprints
  obtain ⟨x, hx⟩ := getInputString_split line stale
  obtain ⟨r, hr, hstuck⟩ := h ('$' :: x) (by rw [cur_skip_cons (by decide)]; decide)
  rw [hread] at hx
  rw [← hx] at hr
  obtain ⟨r', hr', hread'⟩ := expr_ends .clang (Clang.getInputString line stale).rest
  obtain rfl := Settles.unique hr hr'
  obtain ⟨c, hc, hfollows⟩ := clang_settles hr (reads_fuel hread')
  cases r with
  | ok p =>
    obtain ⟨w, s⟩ := p
    obtain rfl : c = .ok (w, ⟨s, false⟩) := hfollows
    have hne : cur s ≠ '$' := by
      have hcur : cur s = '(' := hstuck
      rw [hcur]
      decide
    exact reportsError_not_prints ((main_of_ok hc).2 hne) hprints
  | error e =>
    cases e with
    | outOfFuel => exact hread' rfl
    | syntaxError =>
      rcases main_of_failed hfollows hc with herror | htrap
      · exact reportsError_not_prints herror hprints
      · cases Settles.unique htrap hprints
    | divByZero =>
      obtain rfl : c = .error .divByZero := hfollows
      cases Settles.unique (main_settles hc) hprints

def Accepts (line stale : Text) : Prop := ∃ v, Prints line stale v

/-- The C calculator accepts exactly the EBNF on a line which, when it can be derived or read with
numbers left out up to a `$`, is also the text of a full tree. -/
theorem clang_accepts_iff (line stale : Text) (hblank : NoBlanks line) (hdiv : ¬ Traps line stale) :
    (Accepts line stale ↔ Derives .expr line) ↔
      ((Derives .expr line ∨ ∃ e, Spells (readPart line) e) →
        ∃ e : Tree .expr, e.Full ∧ e.write = line) := by
  have hspelled : (∃ e, Spells (readPart line) e) ↔ Accepts line stale := by
    constructor
    · rintro ⟨e, he⟩
      have htree := main_of_tree stale he
      cases hv : e.value with
      | ok v => exact ⟨v, htree.1 v hv⟩
      | error x => exact absurd (htree.2 x hv) hdiv
    · rintro ⟨v, hv⟩
      rcases main_cases line stale with ⟨_, e, _, he, _⟩ | herror | htrap
      · exact ⟨e, he⟩
      · exact absurd hv (reportsError_not_prints herror)
      · exact absurd htrap hdiv
  rw [hspelled]
  have hfull : ∀ e : Tree .expr, e.Full → e.write = line →
      Derives .expr line ∧ Accepts line stale := by
    rintro e he rfl
    refine ⟨derives_write he hblank, hspelled.mp ⟨e, ?_, Tree.fits_of_full e _ he⟩⟩
    exact (readPart_write e).symm
  constructor
  · intro hiff hor
    have hderives : Derives .expr line := hor.elim id hiff.mp
    obtain ⟨v, hv⟩ := hiff.mpr hderives
    rcases derived hderives with htree | hstuck
    · exact htree
    · exact absurd hv (not_prints_of_stuck (readPart_of_all (derives_ne_mark hderives)) hstuck v)
  · intro hcond
    constructor
    · intro h
      obtain ⟨e, he, hw⟩ := hcond (.inr h)
      exact (hfull e he hw).1
    · intro h
      obtain ⟨e, he, hw⟩ := hcond (.inl h)
      exact (hfull e he hw).2

theorem clang_accepts_product :
    Accepts ['2', '*', '(', '3', '+', '4', ')'] [] ↔ Derives .expr ['2', '*', '(', '3', '+', '4', ')'] := by
  have hprints : Prints ['2', '*', '(', '3', '+', '4', ')'] [] 14 := settles_add 20 fun _ => rfl
  refine (clang_accepts_iff ['2', '*', '(', '3', '+', '4', ')'] [] (by decide) ?_).mpr ?_
  · intro h
    cases Settles.unique h hprints
  · intro _
    refine ⟨.term (.mul (factorTree (literalTree [2])) (.paren noBlanks
      (.add (termTree (literalTree [3])) (factorTree (literalTree [4])) noBlanks) noBlanks)) noBlanks,
      ?_, rfl⟩
    simp [Tree.Full, factorTree, termTree, literalTree]

theorem derives_last {x : Symbol} {w : Text} (h : Derives x w) :
    ∃ u c, w = u ++ [c] ∧ (c = ')' ∨ ∃ d, c = digitChar d) := by
  have happend : ∀ {u v : Text},
      (∃ u c, v = u ++ [c] ∧ (c = ')' ∨ ∃ d, c = digitChar d)) →
      ∃ w c, u ++ v = w ++ [c] ∧ (c = ')' ∨ ∃ d, c = digitChar d) := by
    rintro u v ⟨v', c, rfl, hc⟩
    exact ⟨u ++ v', c, (List.append_assoc _ _ _).symm, hc⟩
  induction h with
  | @number ds hne =>
    obtain ⟨init, d, rfl⟩ := List.eq_nil_or_concat ds |>.resolve_left hne
    exact ⟨init.map digitChar, digitChar d, by simp, .inr ⟨d, rfl⟩⟩
  | factor _ ih => exact ih
  | minus _ ih => exact happend (u := ['-']) ih
  | @paren w _ _ => exact ⟨'(' :: w, ')', rfl, .inl rfl⟩
  | @minusParen w _ _ => exact ⟨'-' :: '(' :: w, ')', rfl, .inl rfl⟩
  | term _ ih => exact ih
  | mul _ _ _ ih => exact happend (happend (u := ['*']) ih)
  | div _ _ _ ih => exact happend (happend (u := ['/']) ih)
  | expr _ ih => exact ih
  | add _ _ _ ih => exact happend (happend (u := ['+']) ih)
  | sub _ _ _ ih => exact happend (happend (u := ['-']) ih)

/-- A missing operand is accepted, a minus sign in front of a parenthesis is not. -/
theorem clang_accepts_missing_operand :
    (Accepts ['1', '+'] [] ∧ ¬ Derives .expr ['1', '+']) ∧
      (Derives .expr ['-', '(', '1', ')'] ∧ ReportsError ['-', '(', '1', ')'] []) := by
  refine ⟨⟨⟨1, settles_add 20 fun _ => rfl⟩, ?_⟩, ?_, settles_add 20 fun _ => rfl⟩
  · intro h
    obtain ⟨u, c, heq, hc⟩ := derives_last h
    obtain rfl : '+' = c := by
      have := congrArg List.getLast? heq
      simpa using this
    rcases hc with hc | ⟨d, hc⟩
    · exact absurd hc (by decide)
    · revert d
      decide
  · have hone : Derives .number ([(1 : Digit)].map digitChar) := .number (by simp)
    exact .expr (.term (.minusParen (w := ['1']) (.expr (.term (.factor hone)))))

end Calculator
end SsuComputer
