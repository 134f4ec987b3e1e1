import Mathlib.Data.List.TakeWhile
import SsuComputer.Lib.Settles
import SsuComputer.Calculator.Grammar

/-!
# SsuComputer.Calculator.DescentCorrect

The parser of `Descent` against the trees of `Grammar`, with as much fuel as it takes.

* `Completes` — on the text of a tree the parser arrives behind the tree with its value. For terms
  and expressions this says where the loop goes on.
* `Reads`, `expr_total` — on every text the parser ends; when it does not stop with an error, it has
  read a tree.
-/

namespace SsuComputer
namespace Calculator
namespace Descent

/-! ## Texts -/

theorem skip_blanks {b : Text} (hb : ∀ c ∈ b, isBlank c = true) (s : Text) :
    skip (b ++ s) = skip s := by
  unfold skip
  rw [List.dropWhile_append_of_pos hb]

theorem skip_blank {c : Char} (h : isBlank c = true) (s : Text) : skip (c :: s) = skip s := by
  unfold skip
  rw [List.dropWhile_cons, if_pos h]

theorem skip_cons_of_not_blank {c : Char} (h : isBlank c = false) (s : Text) :
    skip (c :: s) = c :: s :=
  skip_of_not_blank h

def takeBlanks (s : Text) : Blanks := ⟨s.takeWhile isBlank, fun _ h => List.mem_takeWhile_imp h⟩

theorem takeBlanks_append_skip (s : Text) : (takeBlanks s).val ++ skip s = s :=
  List.takeWhile_append_dropWhile

theorem cur_blank_or_skip (s : Text) : isBlank (cur s) = true ∨ skip s = s := by
  cases h : isBlank (cur s) with
  | true => exact .inl rfl
  | false => exact .inr (skip_of_not_blank h)

theorem digits_append (s : Text) : (digits s).1.map digitChar ++ (digits s).2 = s := by
  induction s with
  | nil => rfl
  | cons c s ih =>
    unfold digits
    cases h : digitOf c with
    | some d =>
      simp only [List.map_cons, List.cons_append]
      rw [ih, digitOf_eq_some.mp h]
    | none => rfl

theorem digits_map (ds : List Digit) {rest : Text} (h : digitOf (cur rest) = none) :
    digits (ds.map digitChar ++ rest) = (ds, rest) := by
  induction ds with
  | nil =>
    cases rest with
    | nil => rfl
    | cons c rest =>
      rw [cur_cons] at h
      simp only [List.map_nil, List.nil_append, digits, h]
  | cons d ds ih =>
    simp only [List.map_cons, List.cons_append, digits, digitOf_digitChar, ih]

theorem isBlank_digitChar (d : Digit) : isBlank (digitChar d) = false := by
  revert d
  decide

theorem digitChar_ne (d : Digit) : digitChar d ≠ '(' ∧ digitChar d ≠ '-' := by
  revert d
  decide

/-- What may stand behind a term, and behind a factor. -/
def termEnds : List Char := ['+', '-', ')', '$']

def factorEnds : List Char := '*' :: '/' :: termEnds

theorem factorEnds_of_termEnds {c : Char} (h : c ∈ termEnds) : c ∈ factorEnds :=
  List.mem_cons_of_mem _ (List.mem_cons_of_mem _ h)

/-- A property of the first character, for texts on which `skip` ends at one of `ends`. -/
theorem cur_of_ends (P : Char → Prop) [DecidablePred P] {ends : List Char} {rest : Text}
    (h : cur (skip rest) ∈ ends) (hends : ends.all (fun c => decide (P c)) = true)
    (hblank : ∀ c, isBlank c = true → P c) : P (cur rest) := by
  rcases cur_blank_or_skip rest with hb | hs
  · exact hblank _ hb
  · rw [hs] at h
    exact of_decide_eq_true (List.all_eq_true.mp hends _ h)

theorem eq_of_isBlank {c : Char} (h : isBlank c = true) : c = ' ' ∨ c = '\t' := by
  simpa [isBlank] using h

theorem not_digit_of_ends {rest : Text} (h : cur (skip rest) ∈ factorEnds) :
    digitOf (cur rest) = none ∧ Clang.isValid (cur rest) = true ∧ cur rest ≠ '(' := by
  refine cur_of_ends (fun c => digitOf c = none ∧ Clang.isValid c = true ∧ c ≠ '(') h
    (by decide) ?_
  intro c hc
  rcases eq_of_isBlank hc with rfl | rfl <;> decide

/-! ## Skipping in front -/

section Skipping

variable {style : Style} {fuel : Nat} {s : Text}

theorem factor_skip : factor style fuel (skip s) = factor style fuel s := by
  cases fuel with
  | zero => rfl
  | succ fuel =>
    unfold factor
    rw [skip_skip, number_skip]

theorem term_skip : term style fuel (skip s) = term style fuel s := by
  cases fuel with
  | zero => rfl
  | succ fuel =>
    unfold term
    rw [factor_skip]

theorem expr_skip_front : expr style fuel (skip s) = expr style fuel s := by
  cases fuel with
  | zero => rfl
  | succ fuel =>
    unfold expr
    rw [term_skip]

end Skipping

/-! ## One pass of the loops -/

section Loops

variable {style : Style} (n : Nat) (v : Long) (s : Text)

theorem termLoop_star : termLoop style (n + 1) v ('*' :: s) =
    factor style n (skip s) >>= fun x =>
      (Except.ok (v * x.1) : Except Stop Long) >>= fun w => termLoop style n w x.2 := rfl

def quotient (v w : Long) : Except Stop Long :=
  if w = 0 then .error .divByZero else .ok (v.sdiv w)

theorem termLoop_slash : termLoop style (n + 1) v ('/' :: s) =
    factor style n (skip s) >>= fun x => quotient v x.1 >>= fun w => termLoop style n w x.2 := by
  conv_lhs => unfold termLoop
  unfold quotient
  rw [cur_cons, if_neg (by decide), if_pos rfl, List.tail_cons]
  congr 1
  funext x
  obtain ⟨w, s'⟩ := x
  dsimp only
  by_cases hw : w = 0
  · rw [if_pos hw, if_pos hw]
    rfl
  · rw [if_neg hw, if_neg hw]
    rfl

theorem exprLoop_plus : exprLoop style (n + 1) v ('+' :: s) =
    term style n (skip s) >>= fun x => exprLoop style n (v + x.1) (style.afterTerm x.2) := rfl

theorem exprLoop_minus : exprLoop style (n + 1) v ('-' :: s) =
    term style n (skip s) >>= fun x => exprLoop style n (v - x.1) (style.afterTerm x.2) := rfl

end Loops

/-! ## Trees are read -/

/-- The loop goes on with `rest` as it is or without the blanks at its front. -/
def Onward (rest : Text) (P : Text → Prop) : Prop := ∃ s, (s = rest ∨ s = skip rest) ∧ P s

def Completes (style : Style) : (l : Level) → Tree l → Prop
  | .factor, f => ∀ rest, cur (skip rest) ∈ factorEnds → f.Fits rest →
      Settles (fun n => factor style n (f.write ++ rest)) (f.value.map fun v => (v, rest))
  | .term, t => ∀ rest, cur (skip rest) ∈ factorEnds → t.Fits rest → Onward rest fun s => ∀ r,
      Settles (fun n => t.value >>= fun v => termLoop style n v s) r →
      Settles (fun n => term style n (t.write ++ rest)) r
  | .expr, e => ∀ rest, cur (skip rest) ∈ termEnds → e.Fits rest → Onward rest fun s => ∀ r,
      Settles (fun n => e.value >>= fun v => exprLoop style n v s) r →
      Settles (fun n => expr style n (e.write ++ rest)) r

section Complete

variable {style : Style}

theorem number_write (ds : List Digit) {before : Text} (hb : ∀ c ∈ before, isBlank c = true)
    {rest : Text} (hrest : cur (skip rest) ∈ factorEnds)
    (hempty : ds = [] → isBlank (cur rest) = false) :
    number (before ++ (ds.map digitChar ++ rest)) = .ok (longOf ds, rest) := by
  obtain ⟨hdigit, hvalid, _⟩ := not_digit_of_ends hrest
  have hskip : skip (before ++ (ds.map digitChar ++ rest)) = ds.map digitChar ++ rest := by
    rw [skip_blanks hb]
    cases ds with
    | nil => exact skip_of_not_blank (hempty rfl)
    | cons d ds => exact skip_cons_of_not_blank (isBlank_digitChar d) _
  unfold number
  rw [hskip, digits_map ds hdigit]
  simp only [hvalid, if_true]

theorem completes_number (before : Blanks) (sign : Option Blanks) (ds : List Digit) :
    Completes style .factor (.number before sign ds) := by
  intro rest hrest hfits
  refine settles_succ ⟨0, fun n _ => ?_⟩
  simp only [Tree.write, List.append_assoc]
  cases sign with
  | some b =>
    have hskip : skip (before.val ++ (Tree.signText (some b) ++ (ds.map digitChar ++ rest))) =
        '-' :: (b.val ++ (ds.map digitChar ++ rest)) := by
      rw [skip_blanks before.property]
      exact skip_cons_of_not_blank (by decide) _
    unfold factor
    rw [hskip, cur_cons, if_neg (by decide), if_pos rfl, List.tail_cons,
      number_write ds b.property hrest fun h => (hfits h).1]
    rfl
  | none =>
    have hcur : cur (skip (before.val ++ (ds.map digitChar ++ rest))) ≠ '(' ∧
        cur (skip (before.val ++ (ds.map digitChar ++ rest))) ≠ '-' := by
      rw [skip_blanks before.property]
      cases ds with
      | nil =>
        rw [List.map_nil, List.nil_append, skip_of_not_blank (hfits rfl).1]
        exact ⟨(not_digit_of_ends hrest).2.2, (hfits rfl).2 rfl⟩
      | cons d ds =>
        rw [List.map_cons, List.cons_append, skip_cons_of_not_blank (isBlank_digitChar d), cur_cons]
        exact digitChar_ne d
    rw [show Tree.signText none = [] from rfl, List.nil_append]
    unfold factor
    rw [if_neg hcur.1, if_neg hcur.2,
      number_write ds before.property hrest fun h => (hfits h).1]
    rfl

theorem bind_error {α β ε : Type} (e : ε) (k : α → Except ε β) :
    (Except.error e >>= k) = .error e := rfl

theorem settles_bind_value {f : Nat → Result} {x : Except Stop Long} {rest : Text}
    {k : Nat → Long × Text → Result} {r : Result}
    (hf : Settles f (x.map fun v => (v, rest)))
    (hk : Settles (fun n => x >>= fun v => k n (v, rest)) r) :
    Settles (fun n => f n >>= k n) r := by
  cases x with
  | ok v => exact Settles.bind hf hk
  | error e =>
    obtain rfl : Except.error e = r := Settles.unique (settles_const _) hk
    exact Settles.bind_error hf

theorem skip_onward {rest s : Text} (h : s = rest ∨ s = skip rest) : skip s = skip rest := by
  rcases h with rfl | rfl
  · rfl
  · exact skip_skip rest

theorem termLoop_stops {s : Text} (hmul : cur s ≠ '*') (hdiv : cur s ≠ '/') (v : Long) :
    Settles (fun n => termLoop style n v s) (.ok (v, s)) := by
  refine settles_succ ⟨0, fun n _ => ?_⟩
  show termLoop style (n + 1) v s = .ok (v, s)
  unfold termLoop
  rw [if_neg hmul, if_neg hdiv]

theorem exprLoop_stops {s : Text} (hplus : cur s ≠ '+') (hminus : cur s ≠ '-') (v : Long) :
    Settles (fun n => exprLoop style n v s) (.ok (v, s)) := by
  refine settles_succ ⟨0, fun n _ => ?_⟩
  show exprLoop style (n + 1) v s = .ok (v, s)
  unfold exprLoop
  rw [if_neg hplus, if_neg hminus]

/-- The first character of a text from which the blanks may have been skipped. -/
theorem cur_onward (P : Char → Prop) [DecidablePred P] {ends : List Char} {rest s : Text}
    (hs : s = rest ∨ s = skip rest) (h : cur (skip rest) ∈ ends)
    (hends : ends.all (fun c => decide (P c)) = true)
    (hblank : ∀ c, isBlank c = true → P c) : P (cur s) := by
  refine cur_of_ends P ?_ hends hblank
  rw [skip_onward hs]
  exact h

theorem not_operator_of_blank {c : Char} (h : isBlank c = true) :
    (c ≠ '*' ∧ c ≠ '/') ∧ (c ≠ '+' ∧ c ≠ '-') := by
  rcases eq_of_isBlank h with rfl | rfl <;> decide

theorem settles_bind_stop {f : Nat → Long → Result} {x : Except Stop Long} {s : Text}
    (h : ∀ v, Settles (fun n => f n v) (.ok (v, s))) :
    Settles (fun n => x >>= fun v => f n v) (x.map fun v => (v, s)) := by
  cases x with
  | ok v => exact h v
  | error e => exact settles_const _

theorem skip_open (before after : Blanks) (e : Tree .expr) (rest : Text) :
    skip ((Tree.paren before e after).write ++ rest) =
      '(' :: (e.write ++ (after.val ++ ')' :: rest)) := by
  simp only [Tree.write, List.append_assoc, List.cons_append, List.nil_append]
  rw [skip_blanks before.property]
  exact skip_cons_of_not_blank (by decide) _

theorem skip_close (after : Blanks) (rest : Text) :
    skip (after.val ++ ')' :: rest) = ')' :: rest := by
  rw [skip_blanks after.property]
  exact skip_cons_of_not_blank (by decide) _

theorem completes_paren {before after : Blanks} {e : Tree .expr}
    (ih : Completes style .expr e) : Completes style .factor (.paren before e after) := by
  intro rest hrest hfits
  have hskip := skip_open before after e rest
  have hclose := skip_close after rest
  obtain ⟨s, hs, hexpr⟩ := ih (after.val ++ ')' :: rest) (by rw [hclose, cur_cons]; decide) hfits
  have hstop : cur s ≠ '+' ∧ cur s ≠ '-' := by
    have hparen : cur (skip (after.val ++ ')' :: rest)) ∈ [')'] := by
      rw [hclose, cur_cons]
      decide
    exact cur_onward (fun c => c ≠ '+' ∧ c ≠ '-') hs hparen (by decide)
      fun c hc => (not_operator_of_blank hc).2
  have hread := hexpr _ (settles_bind_stop fun v => exprLoop_stops hstop.1 hstop.2 v)
  refine settles_succ ?_
  unfold factor
  simp only [hskip, cur_cons, if_true, List.tail_cons, expr_skip_front]
  refine settles_bind_value hread ?_
  simp only [skip_onward hs, hclose, cur_cons, if_true, List.tail_cons]
  exact settles_bind_stop fun v => settles_const _

theorem completes_factor {f : Tree .factor} {after : Blanks} (ih : Completes style .factor f) :
    Completes style .term (.factor f after) := by
  intro rest hrest hfits
  have hskip : skip (after.val ++ rest) = skip rest := skip_blanks after.property rest
  have hread := ih (after.val ++ rest) (by rw [hskip]; exact hrest) hfits
  refine ⟨skip rest, .inr rfl, ?_⟩
  intro r h
  refine settles_succ ?_
  unfold term
  simp only [Tree.write, List.append_assoc]
  refine settles_bind_value hread ?_
  simp only [hskip]
  exact h

/-- One pass of the loop of `term`, on an operator and the text of its right operand. -/
theorem completes_product {t : Tree .term} {f : Tree .factor} {p : Tree .term} {c : Char}
    (hc : isBlank c = false) (hend : c ∈ factorEnds) (iht : Completes style .term t)
    (ihf : Completes style .factor f) (op : Long → Long → Except Stop Long)
    (hloop : ∀ n v s, termLoop style (n + 1) v (c :: s) =
      factor style n (skip s) >>= fun x => op v x.1 >>= fun w => termLoop style n w x.2)
    (hvalue : p.value = t.value >>= fun v => f.value >>= fun w => op v w)
    (hwrite : p.write = t.write ++ c :: f.write)
    (hfit : ∀ rest, p.Fits rest → t.Fits (c :: (f.write ++ rest)) ∧ f.Fits rest) :
    Completes style .term p := by
  intro rest hrest hfits
  obtain ⟨hfitt, hfitf⟩ := hfit rest hfits
  have hskip : skip (c :: (f.write ++ rest)) = c :: (f.write ++ rest) :=
    skip_cons_of_not_blank hc _
  obtain ⟨s, hs, hterm⟩ := iht (c :: (f.write ++ rest)) (by rw [hskip]; exact hend) hfitt
  obtain rfl : s = c :: (f.write ++ rest) := by
    rcases hs with h | h
    · exact h
    · rw [h, hskip]
  have hread := ihf rest hrest hfitf
  refine ⟨rest, .inl rfl, ?_⟩
  intro r h
  rw [hwrite, List.append_assoc, List.cons_append]
  refine hterm r ?_
  rw [hvalue] at h
  cases hv : t.value with
  | error e =>
    rw [hv] at h
    exact h
  | ok v =>
    rw [hv] at h
    refine settles_succ ?_
    show Settles (fun n => termLoop style (n + 1) v (c :: (f.write ++ rest))) r
    simp only [hloop, factor_skip]
    refine settles_bind_value hread ?_
    cases hw : f.value with
    | error e =>
      rw [hw] at h
      exact h
    | ok w =>
      rw [hw] at h
      exact h

theorem completes_term {t : Tree .term} {after : Blanks} (ih : Completes style .term t) :
    Completes style .expr (.term t after) := by
  intro rest hrest hfits
  have hskip : skip (after.val ++ rest) = skip rest := skip_blanks after.property rest
  obtain ⟨s, hs, hterm⟩ := ih (after.val ++ rest)
    (by rw [hskip]; exact factorEnds_of_termEnds hrest) hfits
  have hstop : cur s ≠ '*' ∧ cur s ≠ '/' := by
    refine cur_onward (fun c => c ≠ '*' ∧ c ≠ '/') hs (by rw [hskip]; exact hrest)
      (by decide) fun c hc => (not_operator_of_blank hc).1
  have hread := hterm _ (settles_bind_stop fun v => termLoop_stops hstop.1 hstop.2 v)
  refine ⟨skip rest, .inr rfl, ?_⟩
  intro r h
  refine settles_succ ?_
  unfold expr
  simp only [Tree.write, List.append_assoc]
  refine settles_bind_value hread ?_
  simp only [skip_onward hs, hskip]
  exact h

/-- One pass of the loop of `expr`. -/
theorem completes_sum {e : Tree .expr} {t : Tree .term} {p : Tree .expr} {c : Char} (after : Blanks)
    (hc : isBlank c = false) (hend : c ∈ termEnds) (ihe : Completes style .expr e)
    (iht : Completes style .term t) (op : Long → Long → Long)
    (hloop : ∀ n v s, exprLoop style (n + 1) v (c :: s) =
      term style n (skip s) >>= fun x => exprLoop style n (op v x.1) (style.afterTerm x.2))
    (hafter : style = .javaLang → after.val = [])
    (hvalue : p.value = e.value >>= fun v => t.value >>= fun w => .ok (op v w))
    (hwrite : p.write = e.write ++ c :: (t.write ++ after.val))
    (hfit : ∀ rest, p.Fits rest →
      e.Fits (c :: (t.write ++ (after.val ++ rest))) ∧ t.Fits (after.val ++ rest)) :
    Completes style .expr p := by
  intro rest hrest hfits
  obtain ⟨hfite, hfitt⟩ := hfit rest hfits
  have hskip : skip (c :: (t.write ++ (after.val ++ rest))) =
      c :: (t.write ++ (after.val ++ rest)) := skip_cons_of_not_blank hc _
  obtain ⟨s, hs, hexpr⟩ := ihe (c :: (t.write ++ (after.val ++ rest))) (by rw [hskip]; exact hend) hfite
  obtain rfl : s = c :: (t.write ++ (after.val ++ rest)) := by
    rcases hs with h | h
    · exact h
    · rw [h, hskip]
  have hafterSkip : skip (after.val ++ rest) = skip rest := skip_blanks after.property rest
  obtain ⟨s', hs', hterm⟩ := iht (after.val ++ rest)
    (by rw [hafterSkip]; exact factorEnds_of_termEnds hrest) hfitt
  have hstop : cur s' ≠ '*' ∧ cur s' ≠ '/' := by
    refine cur_onward (fun c => c ≠ '*' ∧ c ≠ '/') hs' (by rw [hafterSkip]; exact hrest)
      (by decide) fun c hc => (not_operator_of_blank hc).1
  have hread := hterm _ (settles_bind_stop fun v => termLoop_stops hstop.1 hstop.2 v)
  have honward : style.afterTerm s' = rest ∨ style.afterTerm s' = skip rest := by
    cases style with
    | clang => exact .inr ((skip_onward hs').trans hafterSkip)
    | javaLang =>
      rw [hafter rfl, List.nil_append] at hs'
      exact hs'
  refine ⟨style.afterTerm s', honward, ?_⟩
  intro r h
  rw [hwrite]
  simp only [List.append_assoc, List.cons_append]
  refine hexpr r ?_
  rw [hvalue] at h
  cases hv : e.value with
  | error e' =>
    rw [hv] at h
    exact h
  | ok v =>
    rw [hv] at h
    refine settles_succ ?_
    show Settles (fun n => exprLoop style (n + 1) v (c :: (t.write ++ (after.val ++ rest)))) r
    simp only [hloop, term_skip]
    refine settles_bind_value hread ?_
    cases hw : t.value with
    | error e' =>
      rw [hw] at h
      exact h
    | ok w =>
      rw [hw] at h
      exact h

theorem completes {l : Level} (t : Tree l) (h : style = .javaLang → t.Tight) :
    Completes style l t := by
  induction t with
  | number before sign ds => exact completes_number before sign ds
  | paren before e after ih => exact completes_paren (ih h)
  | factor f after ih => exact completes_factor (ih h)
  | mul t f iht ihf =>
    refine completes_product (c := '*') (by decide) (by decide) (iht fun hs => (h hs).1)
      (ihf fun hs => (h hs).2) (fun v w => .ok (v * w)) ?_ rfl rfl fun rest hfits => hfits
    exact termLoop_star
  | div t f iht ihf =>
    refine completes_product (c := '/') (by decide) (by decide) (iht fun hs => (h hs).1)
      (ihf fun hs => (h hs).2) quotient ?_ rfl rfl fun rest hfits => hfits
    exact termLoop_slash
  | term t after ih => exact completes_term (ih h)
  | add e t after ihe iht =>
    refine completes_sum (c := '+') after (by decide) (by decide)
      (ihe fun hs => (h hs).1) (iht fun hs => (h hs).2.1) (fun v w => v + w) ?_
      (fun hs => (h hs).2.2) rfl rfl fun rest hfits => hfits
    exact exprLoop_plus
  | sub e t after ihe iht =>
    refine completes_sum (c := '-') after (by decide) (by decide)
      (ihe fun hs => (h hs).1) (iht fun hs => (h hs).2.1) (fun v w => v - w) ?_
      (fun hs => (h hs).2.2) rfl rfl fun rest hfits => hfits
    exact exprLoop_minus

theorem completes_clang {l : Level} (t : Tree l) : Completes .clang l t :=
  completes t fun h => by cases h

end Complete

/-! ## What is read is a tree -/

def Reads (style : Style) (l : Level) (s : Text) : Result → Prop
  | .ok (v, rest) => ∃ t : Tree l, s = t.write ++ rest ∧ t.value = .ok v ∧ t.Fits rest ∧
      (style = .javaLang → t.Tight)
  | .error e => e ≠ .outOfFuel

/-- With enough fuel the function ends, and what it reads of `s` is a tree. -/
def Ends (style : Style) (l : Level) (s : Text) (f : Nat → Result) : Prop :=
  ∃ r, Settles f r ∧ Reads style l s r

section Sound

variable {style : Style}

theorem eq_cons_of_cur {s : Text} {c : Char} (h : cur s = c) (hne : c ≠ '\x00') :
    s = c :: s.tail := by
  cases s with
  | nil => exact absurd h.symm hne
  | cons c' s =>
    rw [cur_cons] at h
    rw [h]
    rfl

theorem number_cases (s : Text) :
    (∃ ds rest, number s = .ok (longOf ds, rest) ∧ skip s = ds.map digitChar ++ rest ∧
        (ds = [] → rest = skip s)) ∨ number s = .error .syntaxError := by
  rcases number_ok_or_syntaxError s with ⟨h, _⟩ | ⟨h, _⟩
  · refine .inl ⟨_, _, h, (digits_append (skip s)).symm, ?_⟩
    intro hnil
    have := digits_append (skip s)
    rw [hnil] at this
    exact this
  · exact .inr h

theorem ok_bind_stop {α β : Type} (a : α) (k : α → Except Stop β) : (Except.ok a >>= k) = k a := rfl

theorem number_ends {s : Text} (s' : Text) (k : Long) (sign : Option Blanks) {f : Nat → Result}
    (hf : ∀ n, f (n + 1) = number s' >>= fun x => .ok (k * x.1, x.2))
    (hvalue : ∀ before ds, (Tree.number before sign ds).value = .ok (k * longOf ds))
    (htext : s = (takeBlanks s).val ++ (Tree.signText sign ++ skip s'))
    (hsign : sign = none → cur (skip s') ≠ '-') : Ends style .factor s f := by
  rcases number_cases s' with ⟨ds, rest, hnumber, hskip, hempty⟩ | hnumber
  · refine ⟨.ok (k * longOf ds, rest), settles_succ ⟨0, fun n _ => ?_⟩,
      .number (takeBlanks s) sign ds, ?_, hvalue _ _, ?_, fun _ => trivial⟩
    · show f (n + 1) = _
      rw [hf, hnumber]
      rfl
    · simp only [Tree.write, List.append_assoc]
      rw [← hskip, ← htext]
    · intro hnil
      rw [hempty hnil]
      exact ⟨cur_skip_not_blank _, hsign⟩
  · refine ⟨.error .syntaxError, settles_succ ⟨0, fun n _ => ?_⟩, ?_⟩
    · show f (n + 1) = _
      rw [hf, hnumber]
      rfl
    · intro h
      cases h

theorem paren_ends {s s' : Text} (hs : s = (takeBlanks s).val ++ '(' :: s')
    (hopen : skip s = '(' :: s') (hexpr : Ends style .expr s' fun n => expr style n s') :
    Ends style .factor s fun n => factor style n s := by
  obtain ⟨r, hr, hread⟩ := hexpr
  have hfactor : Settles (fun n => factor style n s) (r >>= fun x =>
      if cur (skip x.2) = ')' then .ok (x.1, (skip x.2).tail) else .error .syntaxError) := by
    refine settles_succ ?_
    unfold factor
    simp only [hopen, cur_cons, if_true, List.tail_cons, expr_skip_front]
    exact hr.map fun r : Result => r >>= fun x =>
      if cur (skip x.2) = ')' then .ok (x.1, (skip x.2).tail) else .error .syntaxError
  refine ⟨_, hfactor, ?_⟩
  cases r with
  | error e => exact hread
  | ok p =>
    obtain ⟨v, rest⟩ := p
    obtain ⟨e, hwrite, hvalue, hfits, htight⟩ := hread
    rw [ok_bind_stop]
    by_cases hclose : cur (skip rest) = ')'
    · have hrest := takeBlanks_append_skip rest
      rw [eq_cons_of_cur hclose (by decide)] at hrest
      rw [if_pos hclose]
      refine ⟨.paren (takeBlanks s) e (takeBlanks rest), ?_, hvalue, ?_, htight⟩
      · simp only [Tree.write, List.append_assoc, List.cons_append, List.nil_append]
        rw [hrest, ← hwrite, ← hs]
      · show e.Fits ((takeBlanks rest).val ++ ')' :: (skip rest).tail)
        rw [hrest]
        exact hfits
    · rw [if_neg hclose]
      intro h
      cases h

theorem factor_ends {s : Text}
    (hexpr : ∀ s', s'.length < s.length → Ends style .expr s' fun n => expr style n s') :
    Ends style .factor s fun n => factor style n s := by
  have hblanks := takeBlanks_append_skip s
  by_cases hopen : cur (skip s) = '('
  · have hs : skip s = '(' :: (skip s).tail := eq_cons_of_cur hopen (by decide)
    have hlen : (skip s).tail.length < s.length := by
      have h1 := congrArg List.length hs
      have h2 := congrArg List.length hblanks
      rw [List.length_cons] at h1
      rw [List.length_append] at h2
      omega
    refine paren_ends ?_ hs (hexpr _ hlen)
    rw [← hs, hblanks]
  by_cases hminus : cur (skip s) = '-'
  · have hs : skip s = '-' :: (skip s).tail := eq_cons_of_cur hminus (by decide)
    refine number_ends (skip s).tail (-1) (some (takeBlanks (skip s).tail)) ?_ (fun _ _ => rfl) ?_ fun h => by cases h
    · intro n
      unfold factor
      rw [if_neg hopen, if_pos hminus]
    · simp only [Tree.signText, List.cons_append]
      rw [takeBlanks_append_skip, ← hs, hblanks]
  · refine number_ends s 1 none ?_ (fun _ _ => rfl) ?_ fun _ => hminus
    · intro n
      unfold factor
      rw [if_neg hopen, if_neg hminus]
    · simp only [Tree.signText, List.nil_append]
      rw [hblanks]

theorem Reads.length_le {l : Level} {s rest : Text} {v : Long} (h : Reads style l s (.ok (v, rest))) :
    rest.length ≤ s.length := by
  obtain ⟨t, hwrite, _⟩ := h
  rw [hwrite, List.length_append]
  exact Nat.le_add_left _ _

/-- One pass of either loop, on an operator `c` that the trees `p` are built with. -/
theorem loop_ends (style : Style) {l m : Level} {loop : Nat → Long → Text → Result} {operand : Nat → Text → Result}
    {t : Tree l} {v : Long} {c : Char} {s : Text} (op : Long → Long → Except Stop Long)
    (p : Tree m → Blanks → Tree l) (after : Text → Text) (b : Text → Blanks)
    (hloop : ∀ n, loop (n + 1) v (c :: s) =
      operand n s >>= fun x => op v x.1 >>= fun w => loop n w (after x.2))
    (hafter : ∀ rest, (b rest).val ++ after rest = rest)
    (hoperand : Ends style m s fun n => operand n s)
    (hop : ∀ w, op v w ≠ .error .outOfFuel)
    (hvalue : ∀ f rest w, f.value = .ok w → (p f (b rest)).value = op v w)
    (hwrite : ∀ f rest, (p f (b rest)).write = t.write ++ c :: (f.write ++ (b rest).val))
    (hfits : ∀ f rest, s = f.write ++ rest → f.Fits rest → (p f (b rest)).Fits (after rest))
    (htight : ∀ f rest, (style = .javaLang → f.Tight) → style = .javaLang → (p f (b rest)).Tight)
    (ih : ∀ (t' : Tree l) v' s', s'.length ≤ s.length → t'.value = .ok v' → t'.Fits s' →
      (style = .javaLang → t'.Tight) → Ends style l (t'.write ++ s') fun n => loop n v' s') :
    Ends style l (t.write ++ c :: s) fun n => loop n v (c :: s) := by
  obtain ⟨r, hr, hread⟩ := hoperand
  cases r with
  | error e =>
    refine ⟨.error e, settles_succ ?_, hread⟩
    simp only [hloop]
    exact hr.bind_error
  | ok q =>
    obtain ⟨w, rest⟩ := q
    have hlen := Reads.length_le hread
    obtain ⟨f, hs, hf, hfit, hft⟩ := hread
    cases hw : op v w with
    | error e =>
      refine ⟨.error e, settles_succ ?_, ?_⟩
      · simp only [hloop]
        refine hr.bind ?_
        simp only [hw]
        exact settles_const _
      · rintro rfl
        exact hop w hw
    | ok w' =>
      have hrest := hafter rest
      have htext : (p f (b rest)).write ++ after rest = t.write ++ c :: s := by
        rw [hwrite, List.append_assoc, List.cons_append, List.append_assoc, hrest, ← hs]
      have hshort : (after rest).length ≤ s.length := by
        have := congrArg List.length hrest
        rw [List.length_append] at this
        omega
      obtain ⟨r', hr', hread'⟩ := ih (p f (b rest)) w' (after rest) hshort
        ((hvalue f rest w hf).trans hw) (hfits f rest hs hfit) (htight f rest hft)
      rw [htext] at hread'
      refine ⟨r', settles_succ ?_, hread'⟩
      simp only [hloop]
      refine hr.bind ?_
      simp only [hw]
      exact hr'

theorem append_noBlanks (s : Text) : noBlanks.val ++ s = s := rfl

theorem quotient_fuel (v w : Long) : quotient v w ≠ .error .outOfFuel := by
  unfold quotient
  split_ifs
  · intro h
    cases h
  · intro h
    cases h

/-- By induction on the length of the text, which each pass shortens. -/
theorem termLoop_ends {s : Text} {t : Tree .term} {v : Long}
    (hfactor : ∀ s', s'.length < s.length → Ends style .factor s' fun n => factor style n s')
    (hvalue : t.value = .ok v) (hfits : t.Fits s) (htight : style = .javaLang → t.Tight) :
    Ends style .term (t.write ++ s) fun n => termLoop style n v s := by
  induction hk : s.length using Nat.strong_induction_on generalizing s t v with
  | _ k ih =>
    subst hk
    have hshorter : ∀ s', s'.length < s.length → ∀ (t' : Tree .term) v', t'.value = .ok v' →
        t'.Fits s' → (style = .javaLang → t'.Tight) →
        Ends style .term (t'.write ++ s') fun n => termLoop style n v' s' :=
      fun s' hlen t' v' hv hf ht =>
        ih s'.length hlen (fun s'' hlen' => hfactor s'' (Nat.lt_trans hlen' hlen)) hv hf ht rfl
    by_cases hmul : cur s = '*'
    · obtain ⟨s', rfl⟩ : ∃ s', s = '*' :: s' := ⟨_, eq_cons_of_cur hmul (by decide)⟩
      refine loop_ends style (fun v w => .ok (v * w)) (fun f _ => .mul t f) id
        (fun _ => noBlanks) ?_ append_noBlanks (hfactor s' (by simp)) ?_ ?_ ?_ ?_ ?_ ?_
      · intro n
        rw [termLoop_star, factor_skip]
        rfl
      · intro w h
        cases h
      · intro f _ w hw
        simp only [Tree.value, hvalue, hw]
        rfl
      · intro f _
        simp only [Tree.write, noBlanks, List.append_nil]
      · intro f rest hs hf
        refine ⟨?_, hf⟩
        rw [id, ← hs]
        exact hfits
      · intro f _ hf hj
        exact ⟨htight hj, hf hj⟩
      · exact fun t' v' s'' hlen => hshorter s'' (Nat.lt_succ_of_le hlen) t' v'
    by_cases hdiv : cur s = '/'
    · obtain ⟨s', rfl⟩ : ∃ s', s = '/' :: s' := ⟨_, eq_cons_of_cur hdiv (by decide)⟩
      refine loop_ends style quotient (fun f _ => .div t f) id
        (fun _ => noBlanks) ?_ append_noBlanks (hfactor s' (by simp)) (quotient_fuel v) ?_ ?_ ?_ ?_ ?_
      · intro n
        rw [termLoop_slash, factor_skip]
        rfl
      · intro f _ w hw
        simp only [Tree.value, hvalue, hw]
        rfl
      · intro f _
        simp only [Tree.write, noBlanks, List.append_nil]
      · intro f rest hs hf
        refine ⟨?_, hf⟩
        rw [id, ← hs]
        exact hfits
      · intro f _ hf hj
        exact ⟨htight hj, hf hj⟩
      · exact fun t' v' s'' hlen => hshorter s'' (Nat.lt_succ_of_le hlen) t' v'
    · exact ⟨.ok (v, s), termLoop_stops hmul hdiv v, t, rfl, hvalue, hfits, htight⟩

/-- A function that reads one operand and enters its loop behind the blanks. -/
theorem enter_ends {l m : Level} {f : Nat → Result} {operand : Nat → Result} {s : Text}
    (loop : Nat → Long → Text → Result) (p : Tree m → Blanks → Tree l)
    (hf : ∀ n, f (n + 1) = operand n >>= fun x => loop n x.1 (skip x.2))
    (hoperand : Ends style m s operand)
    (hvalue : ∀ t b, (p t b).value = t.value) (hwrite : ∀ t b, (p t b).write = t.write ++ b.val)
    (hfits : ∀ t b rest, t.Fits (b.val ++ rest) → (p t b).Fits rest)
    (htight : ∀ t b, t.Tight → (p t b).Tight)
    (hloop : ∀ (t : Tree l) v s', s'.length ≤ s.length → t.value = .ok v → t.Fits s' →
      (style = .javaLang → t.Tight) → Ends style l (t.write ++ s') fun n => loop n v s') :
    Ends style l s f := by
  obtain ⟨r, hr, hread⟩ := hoperand
  cases r with
  | error e =>
    refine ⟨.error e, settles_succ ?_, hread⟩
    simp only [hf]
    exact hr.bind_error
  | ok q =>
    obtain ⟨v, rest⟩ := q
    have hlen := Reads.length_le hread
    obtain ⟨t, hs, hv, hfit, ht⟩ := hread
    have hrest := takeBlanks_append_skip rest
    have hshort : (skip rest).length ≤ s.length := by
      have := congrArg List.length hrest
      rw [List.length_append] at this
      omega
    have htext : (p t (takeBlanks rest)).write ++ skip rest = s := by
      rw [hwrite, List.append_assoc, hrest, ← hs]
    obtain ⟨r', hr', hread'⟩ := hloop (p t (takeBlanks rest)) v (skip rest) hshort
      ((hvalue _ _).trans hv) (hfits _ _ _ (by rw [hrest]; exact hfit))
      fun hj => htight _ _ (ht hj)
    rw [htext] at hread'
    refine ⟨r', settles_succ ?_, hread'⟩
    simp only [hf]
    exact hr.bind hr'

theorem term_ends {s : Text}
    (hfactor : ∀ s', s'.length ≤ s.length → Ends style .factor s' fun n => factor style n s') :
    Ends style .term s fun n => term style n s := by
  refine enter_ends (fun n v s => termLoop style n v s) .factor ?_ (hfactor s (Nat.le_refl _))
    (fun _ _ => rfl) (fun _ _ => rfl) (fun _ _ _ h => h) (fun _ _ h => h) ?_
  · intro n
    rfl
  · intro t v s' hlen hv hf ht
    refine termLoop_ends ?_ hv hf ht
    intro s'' hlen'
    exact hfactor s'' (by omega)

def Style.blanks : Style → Text → Blanks
  | .clang, s => takeBlanks s
  | .javaLang, _ => noBlanks

theorem blanks_append_afterTerm (style : Style) (rest : Text) :
    (style.blanks rest).val ++ style.afterTerm rest = rest := by
  cases style with
  | clang => exact takeBlanks_append_skip rest
  | javaLang => rfl

theorem blanks_javaLang (h : style = .javaLang) (rest : Text) : (style.blanks rest).val = [] := by
  rw [h]
  rfl

theorem exprLoop_ends {s : Text} {e : Tree .expr} {v : Long}
    (hterm : ∀ s', s'.length < s.length → Ends style .term s' fun n => term style n s')
    (hvalue : e.value = .ok v) (hfits : e.Fits s) (htight : style = .javaLang → e.Tight) :
    Ends style .expr (e.write ++ s) fun n => exprLoop style n v s := by
  induction hk : s.length using Nat.strong_induction_on generalizing s e v with
  | _ k ih =>
    subst hk
    have hshorter : ∀ s', s'.length < s.length → ∀ (e' : Tree .expr) v', e'.value = .ok v' →
        e'.Fits s' → (style = .javaLang → e'.Tight) →
        Ends style .expr (e'.write ++ s') fun n => exprLoop style n v' s' :=
      fun s' hlen e' v' hv hf ht =>
        ih s'.length hlen (fun s'' hlen' => hterm s'' (Nat.lt_trans hlen' hlen)) hv hf ht rfl
    by_cases hplus : cur s = '+'
    · obtain ⟨s', rfl⟩ : ∃ s', s = '+' :: s' := ⟨_, eq_cons_of_cur hplus (by decide)⟩
      refine loop_ends style (fun v w => .ok (v + w)) (fun t b => .add e t b)
        style.afterTerm style.blanks ?_ (blanks_append_afterTerm style) (hterm s' (by simp)) ?_ ?_ ?_
        ?_ ?_ ?_
      · intro n
        rw [exprLoop_plus, term_skip]
        rfl
      · intro w h
        cases h
      · intro t rest w hw
        simp only [Tree.value, hvalue, hw]
        rfl
      · intro t rest
        rfl
      · intro t rest hs ht
        rw [Tree.Fits, blanks_append_afterTerm, ← hs]
        exact ⟨hfits, ht⟩
      · intro t rest ht hj
        exact ⟨htight hj, ht hj, blanks_javaLang hj rest⟩
      · exact fun e' v' s'' hlen => hshorter s'' (Nat.lt_succ_of_le hlen) e' v'
    by_cases hminus : cur s = '-'
    · obtain ⟨s', rfl⟩ : ∃ s', s = '-' :: s' := ⟨_, eq_cons_of_cur hminus (by decide)⟩
      refine loop_ends style (fun v w => .ok (v - w)) (fun t b => .sub e t b)
        style.afterTerm style.blanks ?_ (blanks_append_afterTerm style) (hterm s' (by simp)) ?_ ?_ ?_
        ?_ ?_ ?_
      · intro n
        rw [exprLoop_minus, term_skip]
        rfl
      · intro w h
        cases h
      · intro t rest w hw
        simp only [Tree.value, hvalue, hw]
        rfl
      · intro t rest
        rfl
      · intro t rest hs ht
        rw [Tree.Fits, blanks_append_afterTerm, ← hs]
        exact ⟨hfits, ht⟩
      · intro t rest ht hj
        exact ⟨htight hj, ht hj, blanks_javaLang hj rest⟩
      · exact fun e' v' s'' hlen => hshorter s'' (Nat.lt_succ_of_le hlen) e' v'
    · exact ⟨.ok (v, s), exprLoop_stops hplus hminus v, e, rfl, hvalue, hfits, htight⟩

/-- The parser ends on every text, by induction on its length: parentheses hold shorter texts. -/
theorem expr_ends (style : Style) (s : Text) : Ends style .expr s fun n => expr style n s := by
  induction hk : s.length using Nat.strong_induction_on generalizing s with
  | _ k ih =>
    subst hk
    have hfactor : ∀ s', s'.length ≤ s.length → Ends style .factor s' fun n => factor style n s' := by
      intro s' hlen
      refine factor_ends ?_
      intro s'' hlen'
      exact ih s''.length (by omega) s'' rfl
    have hterm : ∀ s', s'.length ≤ s.length → Ends style .term s' fun n => term style n s' := by
      intro s' hlen
      exact term_ends fun s'' hlen' => hfactor s'' (by omega)
    refine enter_ends (fun n v s => exprLoop style n v s) .term ?_ (hterm s (Nat.le_refl _))
      (fun _ _ => rfl) (fun _ _ => rfl) (fun _ _ _ h => h) (fun _ _ h => h) ?_
    · intro n
      rfl
    · intro e v s' hlen hv hf ht
      refine exprLoop_ends ?_ hv hf ht
      intro s'' hlen'
      exact hterm s'' (by omega)

end Sound

end Descent
end Calculator
end SsuComputer
