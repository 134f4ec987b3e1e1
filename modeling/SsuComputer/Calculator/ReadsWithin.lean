import SsuComputer.Calculator.Readable

/-!
# SsuComputer.Calculator.ReadsWithin

Where the C calculator reads.

* `Meets` — one run of a function, with the text in front of the cursor before and after it.
* `sound` — what the scan says of the text in front of a function is what the function does.
* `reads_within_iff` — the parse reads nothing behind the line and its mark exactly on the lines that
  are `Readable`.
-/

namespace SsuComputer
namespace Calculator
namespace ClangReads

open Descent

/-! ## The cursor -/

/-- The cursor stands in front of `t`, which ends at index `n`; no read was behind that. -/
structure At (n : Nat) (t : Text) (s : State) : Prop where
  index : s.iterator + t.length = n
  rest : ∃ e x, s.input.rest = t ++ e :: x ∧ (e = '$' ∨ e = Clang.zeroByte)
  within : ∀ i ∈ s.reads, i ≤ n

/-- The cursor is behind index `n`, and no read was. -/
structure Behind (n : Nat) (s : State) : Prop where
  index : n < s.iterator
  within : ∀ i ∈ s.reads, i ≤ n

/-- A read was behind index `n`. -/
def Lost (n : Nat) (s : State) : Prop := ∃ i ∈ s.reads, n < i

section Cursor

variable {n : Nat} {t : Text} {c : Char} {s : State}

theorem At.iterator_le (h : At n t s) : s.iterator ≤ n := by
  have := h.index
  omega

theorem At.getCurChar (h : At n t s) : At n t (getCurChar s).2 := by
  refine ⟨h.index, h.rest, ?_⟩
  intro i hi
  rcases List.mem_cons.mp hi with rfl | hi
  · exact h.iterator_le
  · exact h.within i hi

theorem At.cur_of_ne_nil (h : At n t s) (hne : t ≠ []) : cur s.input.rest = cur t := by
  obtain ⟨e, x, hrest, _⟩ := h.rest
  rw [hrest]
  cases t with
  | nil => exact absurd rfl hne
  | cons c t => rfl

theorem At.cur_nil (h : At n [] s) : cur s.input.rest = '$' ∨ cur s.input.rest = Clang.zeroByte := by
  obtain ⟨e, x, hrest, he⟩ := h.rest
  rw [hrest]
  exact he

/-- What the parser sees at the end of the text is nothing that it moves over. -/
theorem At.cur_eq (h : At n t s) (hc : cur s.input.rest = c)
    (hmark : c ≠ '$' ∧ c ≠ Clang.zeroByte) : ∃ u, t = c :: u := by
  cases t with
  | nil =>
    rcases h.cur_nil with he | he
    · exact absurd (hc.symm.trans he) hmark.1
    · exact absurd (hc.symm.trans he) hmark.2
  | cons a u =>
    rw [h.cur_of_ne_nil (List.cons_ne_nil a u), cur_cons] at hc
    exact ⟨u, by rw [hc]⟩

theorem At.cur_ne (h : At n t s) (hc : cur s.input.rest ≠ c) (hzero : c ≠ Clang.zeroByte) :
    cur t ≠ c := by
  cases t with
  | nil => exact Ne.symm hzero
  | cons a u =>
    rw [← h.cur_of_ne_nil (List.cons_ne_nil a u)]
    exact hc

theorem At.moveNext (h : At n (c :: t) s) : At n t (moveNext s) := by
  obtain ⟨e, x, hrest, he⟩ := h.rest
  refine ⟨?_, ⟨e, x, ?_, he⟩, h.within⟩
  · have hindex := h.index
    rw [List.length_cons] at hindex
    show s.iterator + 1 + t.length = n
    omega
  · show s.input.rest.tail = t ++ e :: x
    rw [hrest]
    rfl

theorem At.reads (h : At n t s) {rs : List Nat} (hrs : ∀ i ∈ rs, i = s.iterator) :
    At n t { s with reads := rs ++ s.reads } := by
  refine ⟨h.index, h.rest, ?_⟩
  intro i hi
  rcases List.mem_append.mp hi with hi | hi
  · rw [hrs i hi]
    exact h.iterator_le
  · exact h.within i hi

theorem blank_ne_zero {e : Char} (h : e = '$' ∨ e = Clang.zeroByte) :
    isBlank e = false ∧ digitOf e = none := by
  rcases h with rfl | rfl <;> decide

theorem ffSpaceLoop_at (rest : Text) (hrest : s.input.rest = rest) (h : At n t s) :
    At n (skip t) (ffSpaceLoop rest s) := by
  induction rest generalizing s t with
  | nil =>
    obtain ⟨e, x, hx, _⟩ := h.rest
    rw [hrest] at hx
    exact absurd hx.symm (by simp)
  | cons a rest ih =>
    obtain ⟨e, x, hx, he⟩ := h.rest
    rw [hrest] at hx
    cases ha : isBlank a with
    | true =>
      cases t with
      | nil =>
        obtain ⟨rfl, _⟩ := List.cons.inj hx
        rw [(blank_ne_zero he).1] at ha
        cases ha
      | cons b t =>
        obtain ⟨rfl, _⟩ := List.cons.inj hx
        obtain ⟨rs, hrs, heq⟩ := ffSpaceLoop_blank ha rest s
        rw [heq, skip_blank ha]
        refine ih ?_ (h.reads hrs).moveNext
        show s.input.rest.tail = rest
        rw [hrest]
        rfl
    | false =>
      have hskip : skip t = t := by
        cases t with
        | nil => rfl
        | cons b t =>
          obtain ⟨rfl, _⟩ := List.cons.inj hx
          exact skip_cons_of_not_blank ha t
      rw [ffSpaceLoop_stop ha, hskip]
      exact h.getCurChar.getCurChar

theorem At.ffSpace (h : At n t s) : At n (skip t) (ffSpace s) := ffSpaceLoop_at _ rfl h

theorem At.setError (h : At n t s) : At n t (setError s) := ⟨h.index, h.rest, h.within⟩

theorem At.digit (h : At n t s) : At n t (digit s).2 := by
  unfold ClangReads.digit
  dsimp only
  split_ifs
  · exact h.getCurChar.setError
  · exact h.getCurChar
  · exact h.getCurChar

theorem Lost.getCurChar (h : Lost n s) : Lost n (getCurChar s).2 := by
  obtain ⟨i, hi, hlt⟩ := h
  exact ⟨i, List.mem_cons_of_mem _ hi, hlt⟩

theorem Behind.getCurChar (h : Behind n s) : Lost n (getCurChar s).2 :=
  ⟨s.iterator, List.mem_cons_self, h.index⟩

theorem ffSpaceLoop_lost (rest : Text) (h : Lost n s) : Lost n (ffSpaceLoop rest s) := by
  induction rest generalizing s with
  | nil => exact h.getCurChar.getCurChar
  | cons c rest ih =>
    cases hc : isBlank c with
    | true =>
      obtain ⟨rs, hrs, heq⟩ := ffSpaceLoop_blank hc rest s
      obtain ⟨i, hi, hlt⟩ := h
      rw [heq]
      exact ih ⟨i, List.mem_append_right rs hi, hlt⟩
    | false =>
      rw [ffSpaceLoop_stop hc]
      exact h.getCurChar.getCurChar

theorem ffSpaceLoop_behind (rest : Text) (h : Behind n s) : Lost n (ffSpaceLoop rest s) := by
  cases rest with
  | nil => exact h.getCurChar.getCurChar
  | cons c rest =>
    unfold ffSpaceLoop
    dsimp only
    split_ifs
    · exact ffSpaceLoop_lost rest h.getCurChar
    · exact ffSpaceLoop_lost rest h.getCurChar.getCurChar
    · exact h.getCurChar.getCurChar

end Cursor

/-! ## After an error -/

/-- After an error, when the innermost expression has the value `r`: `V` tells that the reads to come
stay in front of index `n`. -/
inductive Unwound (n : Nat) (stack : List Context) (r : Option Long) (V : Prop) (s : State) : Prop
  | inside {t : Text} (h : At n t s) (hv : V ↔ unwinds stack r (inked t) = true)
  | behind (h : Behind n s) (hv : V ↔ r = none)
  | lost (h : Lost n s) (hv : ¬V)

section Unwind

variable {n : Nat} {stack : List Context} {k : Context} {v : Long} {V : Prop} {s : State}

theorem Unwound.ffSpace (h : Unwound n stack (some v) V s) :
    Unwound n stack (some v) V (ffSpace s) := by
  cases h with
  | @inside t h hv => exact .inside h.ffSpace (by rwa [inked_skip])
  | behind h hv => exact .lost (ffSpaceLoop_behind _ h) (by simp [hv])
  | lost h hv => exact .lost (ffSpaceLoop_lost _ h) hv

theorem Unwound.setError {r : Option Long} (h : Unwound n stack r V s) :
    Unwound n stack r V (setError s) := by
  cases h with
  | inside h hv => exact .inside h.setError hv
  | behind h hv => exact .behind ⟨h.index, h.within⟩ hv
  | lost h hv => exact .lost h hv

/-- Behind the blanks, each parenthesis costs one character, or the end mark. -/
theorem Unwound.close (h : Unwound n (k :: stack) (some v) V s)
    (hskip : skip s.input.rest = s.input.rest) :
    Unwound n stack (k.value v) V (moveNext (getCurChar s).2) := by
  cases h with
  | @inside t h hv =>
    have hread := h.getCurChar
    cases t with
    | nil =>
      refine .behind ⟨?_, hread.within⟩ (hv.trans ?_)
      · have hindex := hread.index
        rw [List.length_nil] at hindex
        show n < (getCurChar s).2.iterator + 1
        omega
      · rw [inked_nil, unwinds, Option.isNone_iff_eq_none]
    | cons c t =>
      have hblank := cur_skip_not_blank s.input.rest
      rw [hskip, h.cur_of_ne_nil (List.cons_ne_nil c t), cur_cons] at hblank
      rw [inked_cons hblank, unwinds] at hv
      exact .inside hread.moveNext hv
  | behind h hv => exact .lost h.getCurChar (by simp [hv])
  | lost h hv => exact .lost h.getCurChar hv

/-- A division by zero ends the parse before the cursor is used again. -/
theorem Unwound.trap (h : Unwound n stack none V s) : V ↔ ∀ i ∈ s.reads, i ≤ n := by
  cases h with
  | inside h hv => exact iff_of_true (hv.mpr unwinds_none) h.within
  | behind h hv => exact iff_of_true (hv.mpr rfl) h.within
  | lost h hv =>
    obtain ⟨i, hi, hlt⟩ := h
    exact iff_of_false hv fun hle => absurd (hle i hi) (Nat.not_le_of_lt hlt)

end Unwind

/-! ## Each function -/

theorem digit_flag {s : State} (hflag : s.input.errorFlag = false) :
    (digit s).2.input.errorFlag = !Clang.isValid (cur s.input.rest) := by
  have h := congrArg (fun p : Int × Clang.Input => p.2.errorFlag) (digit_input s)
  obtain ⟨⟨rest, flag⟩, i, reads⟩ := s
  obtain rfl : flag = false := hflag
  refine h.trans ?_
  cases hd : digitOf (cur rest) with
  | some d =>
    rw [clang_digit_some hd, digitOf_eq_some.mp hd, isValid_digitChar]
    rfl
  | none =>
    rw [clang_digit_none hd]
    rfl

theorem digit_state_rest (s : State) : (digit s).2.input.rest = s.input.rest := by
  have h := congrArg (fun p : Int × Clang.Input => p.2.rest) (digit_input s)
  exact h.trans (digit_rest s.input)

theorem digit_some {s : State} {d : Digit} (h : digitOf (cur s.input.rest) = some d) :
    (digit s).1 = (d : Nat) := by
  have hdigit := congrArg Prod.fst (digit_input s)
  obtain ⟨⟨rest, flag⟩, i, reads⟩ := s
  exact hdigit.trans (congrArg Prod.fst (clang_digit_some h))

theorem digit_none {s : State} (h : digitOf (cur s.input.rest) = none) : (digit s).1 = -1 := by
  have hdigit := congrArg Prod.fst (digit_input s)
  obtain ⟨⟨rest, flag⟩, i, reads⟩ := s
  exact hdigit.trans (congrArg Prod.fst (clang_digit_none h))

/-- The digits are read into `v`; the flag tells that an invalid character stands behind them. -/
structure AfterNumber (n : Nat) (t : Text) (res v : Long) (s : State) : Prop where
  value : v = (digits t).1.foldl push res
  at_digits : At n (digits t).2 s
  flag : s.input.errorFlag = !Clang.isValid (cur s.input.rest)

theorem digits_of_none {t : Text} (h : digitOf (cur t) = none) : digits t = ([], t) := by
  cases t with
  | nil => rfl
  | cons c t =>
    rw [cur_cons] at h
    rw [digits, h]

theorem numberLoop_at {n : Nat} (rest : Text) (res : Long) {t : Text} {s : State}
    (hrest : s.input.rest = rest) (hflag : s.input.errorFlag = false) (h : At n t s) :
    AfterNumber n t res (numberLoop rest res s).1 (numberLoop rest res s).2 := by
  induction rest generalizing res s t with
  | nil =>
    obtain ⟨e, x, hx, _⟩ := h.rest
    rw [hrest] at hx
    exact absurd hx.symm (by simp)
  | cons c rest ih =>
    have hcur : cur s.input.rest = c := by rw [hrest, cur_cons]
    rw [numberLoop_cons]
    cases hc : digitOf c with
    | some d =>
      have hmark : c ≠ '$' ∧ c ≠ Clang.zeroByte := by
        rw [digitOf_eq_some.mp hc]
        exact digitChar_ne_mark d
      obtain ⟨u, rfl⟩ := h.cur_eq hcur hmark
      have hdigit : (digit s).1 = (d : Nat) := digit_some (by rw [hcur, hc])
      rw [if_pos (by rw [hdigit]; exact Int.natCast_nonneg _)]
      have hat : At n u (moveNext (digit s).2) := h.digit.moveNext
      have hrest' : (moveNext (digit s).2).input.rest = rest := by
        show (digit s).2.input.rest.tail = rest
        rw [digit_state_rest, hrest]
        rfl
      have hflag' : (moveNext (digit s).2).input.errorFlag = false := by
        show (digit s).2.input.errorFlag = false
        rw [digit_flag hflag, hcur, digitOf_eq_some.mp hc, isValid_digitChar]
        rfl
      have hpush : res * 10 + BitVec.ofInt 64 (digit s).1 = push res d := by
        rw [hdigit, BitVec.ofInt_natCast]
        rfl
      have hdigits : digits (c :: u) = (d :: (digits u).1, (digits u).2) := by rw [digits, hc]
      obtain ⟨hvalue, hend, hinvalid⟩ := ih (push res d) hrest' hflag' hat
      rw [hpush]
      refine ⟨?_, ?_, hinvalid⟩
      · rw [hdigits]
        exact hvalue
      · rw [hdigits]
        exact hend
    | none =>
      have hnot : digitOf (cur t) = none := by
        cases t with
        | nil => decide
        | cons a t =>
          rw [← h.cur_of_ne_nil (List.cons_ne_nil a t), hcur]
          exact hc
      have hdigit : (digit s).1 = -1 := digit_none (by rw [hcur, hc])
      rw [if_neg (by rw [hdigit]; decide)]
      refine ⟨?_, ?_, ?_⟩
      · rw [digits_of_none hnot]
        rfl
      · rw [digits_of_none hnot]
        exact h.digit
      · show (digit s).2.input.errorFlag = !Clang.isValid (cur (digit s).2.input.rest)
        rw [digit_flag hflag, digit_state_rest]

theorem ffSpace_flag (s : State) : (ffSpace s).input.errorFlag = s.input.errorFlag := by
  rw [ffSpace_input]
  rfl

theorem ffSpace_rest (s : State) : (ffSpace s).input.rest = skip s.input.rest := by
  rw [ffSpace_input]
  exact congrArg Clang.Input.rest (clang_ffSpace s.input.rest s.input.errorFlag)

theorem number_at {n : Nat} {t : Text} {s : State} (hflag : s.input.errorFlag = false)
    (h : At n t s) : AfterNumber n (skip t) 0 (number s).1 (number s).2 :=
  numberLoop_at _ 0 rfl ((ffSpace_flag s).trans hflag) h.ffSpace

/-- What a function makes of the scan `V` in front of it: `Next` goes on behind what it has read, and
`value` is what its result makes of the innermost expression. -/
def Meets (n : Nat) (stack : List Context) (value : Long → Option Long) (V : Prop)
    (Next : Long → Text → Prop) : Except Stop (Long × State) → Prop
  | .ok (v, s) =>
    if s.input.errorFlag then Unwound n stack (value v) V s else ∃ t, At n t s ∧ (Next v t ↔ V)
  | .error .outOfFuel => True
  | .error (.divByZero s) => V ↔ ∀ i ∈ s.reads, i ≤ n

section Meet

variable {n : Nat} {stack stack' : List Context} {value value' : Long → Option Long} {V : Prop}
  {Next Next' : Long → Text → Prop} {v : Long} {s : State}

theorem meets_ok {t : Text} (hflag : s.input.errorFlag = false) (h : At n t s)
    (hv : Next v t ↔ V) : Meets n stack value V Next (.ok (v, s)) := by
  rw [Meets, if_neg (by rw [hflag]; simp)]
  exact ⟨t, h, hv⟩

theorem meets_flagged (hflag : s.input.errorFlag = true) (h : Unwound n stack (value v) V s) :
    Meets n stack value V Next (.ok (v, s)) := by
  rw [Meets, if_pos hflag]
  exact h

theorem Meets.bind {r : Except Stop (Long × State)} {k : Long × State → Except Stop (Long × State)}
    (h : Meets n stack value V Next r)
    (hok : ∀ v s t, r = .ok (v, s) → s.input.errorFlag = false → At n t s → (Next v t ↔ V) →
      Meets n stack' value' V Next' (k (v, s)))
    (hfail : ∀ v s, r = .ok (v, s) → s.input.errorFlag = true → Unwound n stack (value v) V s →
      Meets n stack' value' V Next' (k (v, s))) : Meets n stack' value' V Next' (r >>= k) := by
  cases r with
  | ok p =>
    obtain ⟨v, s⟩ := p
    cases hflag : s.input.errorFlag with
    | true =>
      rw [Meets, if_pos hflag] at h
      exact hfail v s rfl hflag h
    | false =>
      rw [Meets, if_neg (by rw [hflag]; simp)] at h
      obtain ⟨t, ht, hv⟩ := h
      exact hok v s t rfl hflag ht hv
  | error e =>
    cases e with
    | outOfFuel => trivial
    | divByZero s => exact h

theorem Meets.congr {V' : Prop} {r : Except Stop (Long × State)}
    (h : Meets n stack value V Next r) (hv : V ↔ V') : Meets n stack value V' Next r := by
  rw [← propext hv]
  exact h

theorem meets_termLoop_flagged (fuel : Nat) (hflag : s.input.errorFlag = true)
    (h : Unwound n stack (value v) V s) : Meets n stack value V Next (termLoop fuel v s) := by
  cases fuel with
  | zero => trivial
  | succ fuel =>
    rw [termLoop, if_pos hflag]
    exact meets_flagged hflag h

theorem meets_exprLoop_flagged (fuel : Nat) (hflag : s.input.errorFlag = true)
    (h : Unwound n stack (value v) V s) : Meets n stack value V Next (exprLoop fuel v s) := by
  cases fuel with
  | zero => trivial
  | succ fuel =>
    rw [exprLoop, if_pos hflag]
    exact meets_flagged hflag h

/-- A number, behind which the scan goes on as behind a factor. -/
theorem meets_number {k : Context} {sign : Long} {t : Text} (h : AfterNumber n t 0 v s)
    (hv : scan stack (.behind k (sign * longOf (digits t).1)) (digits t).2 = true ↔ V) :
    Meets n stack k.value V (fun w u => scan stack (.behind k w) u = true)
      (.ok (sign * v, s)) := by
  obtain rfl : v = longOf (digits t).1 := h.value
  cases hvalid : Clang.isValid (cur s.input.rest) with
  | true =>
    have hflag : s.input.errorFlag = false := by rw [h.flag, hvalid]; rfl
    exact meets_ok hflag h.at_digits hv
  | false =>
    have hflag : s.input.errorFlag = true := by rw [h.flag, hvalid]; rfl
    have hinvalid : (digits t).2 ≠ [] → Clang.isValid (cur (digits t).2) = false := fun hne => by
      rw [← h.at_digits.cur_of_ne_nil hne]
      exact hvalid
    rw [scan_invalid hinvalid] at hv
    exact meets_flagged hflag (.inside h.at_digits hv.symm)

end Meet

/-- In front of `t`, without an error. -/
structure Ready (n : Nat) (t : Text) (s : State) : Prop where
  flag : s.input.errorFlag = false
  at_text : At n t s

structure Sound (n fuel : Nat) : Prop where
  factor : ∀ stack k t s, Ready n t s →
    Meets n stack k.value (scan stack (.operand k) t = true)
      (fun v u => scan stack (.behind k v) u = true) (factor fuel s)
  term : ∀ stack add t s, Ready n t s →
    Meets n stack (fun v => some (add v)) (scan stack (.operand (.first add)) t = true)
      (fun v u => scan stack (.sum (add v)) u = true) (term fuel s)
  termLoop : ∀ stack k x v t s, Ready n t s → k.multiply x = some v →
    (k.later = false → skip t = t) →
    Meets n stack (fun w => some (k.add w)) (scan stack (.behind k x) t = true)
      (fun w u => scan stack (.sum (k.add w)) u = true) (termLoop fuel v s)
  expr : ∀ stack t s, Ready n t s →
    Meets n stack some (scan stack (.operand (.first id)) t = true)
      (fun v u => scan stack (.sum v) u = true) (expr fuel s)
  exprLoop : ∀ stack v t s, Ready n t s →
    Meets n stack some (scan stack (.sum v) t = true)
      (fun w u => scan stack (.sum w) u = true) (exprLoop fuel v s)

section Functions

variable {n fuel : Nat} {stack : List Context} {t : Text} {s : State}

theorem Ready.ffSpace (h : Ready n t s) : Ready n (skip t) (ffSpace s) :=
  ⟨(ffSpace_flag s).trans h.flag, h.at_text.ffSpace⟩

theorem Ready.getCurChar (h : Ready n t s) : Ready n t (getCurChar s).2 :=
  ⟨h.flag, h.at_text.getCurChar⟩

theorem Ready.moveNext {c : Char} (h : Ready n (c :: t) s) : Ready n t (moveNext s) :=
  ⟨h.flag, h.at_text.moveNext⟩

theorem getCurChar_fst (s : State) : (getCurChar s).1 = cur s.input.rest :=
  clang_getCurChar s.input.rest s.input.errorFlag

theorem term_sound (ih : Sound n fuel) {add : Long → Long} (h : Ready n t s) :
    Meets n stack (fun v => some (add v)) (scan stack (.operand (.first add)) t = true)
      (fun v u => scan stack (.sum (add v)) u = true) (term (fuel + 1) s) := by
  rw [term, if_neg (by rw [h.flag]; simp)]
  refine (ih.factor stack (.first add) t s h).bind ?_ ?_
  · intro v s' u _ hflag hat hv
    refine (ih.termLoop stack (.first add) v v (skip u) _ (Ready.ffSpace ⟨hflag, hat⟩) rfl
      fun _ => skip_skip u).congr ?_
    rw [scan_skip_first rfl rfl]
    exact hv
  · intro v s' _ hflag hunwound
    exact meets_termLoop_flagged fuel ((ffSpace_flag s').trans hflag) (Unwound.ffSpace hunwound)

theorem expr_sound (ih : Sound n fuel) (h : Ready n t s) :
    Meets n stack some (scan stack (.operand (.first id)) t = true)
      (fun v u => scan stack (.sum v) u = true) (expr (fuel + 1) s) := by
  rw [expr, if_neg (by rw [h.flag]; simp)]
  refine (ih.term stack id t s h).bind ?_ ?_
  · intro v s' u _ hflag hat hv
    refine (ih.exprLoop stack v (skip u) _ (Ready.ffSpace ⟨hflag, hat⟩)).congr ?_
    rw [scan_skip_sum]
    exact hv
  · intro v s' _ hflag hunwound
    exact meets_exprLoop_flagged fuel ((ffSpace_flag s').trans hflag) hunwound.ffSpace

theorem getCurChar_eq (s : State) : getCurChar s = (cur s.input.rest, (getCurChar s).2) :=
  Prod.ext (getCurChar_fst s) rfl

/-- Moving over the operator that the cursor is at, to its operand. -/
theorem Ready.operand {c : Char} {stack' : List Context} {m : Mode} {k : Context}
    (h : Ready n t s) (hc : cur s.input.rest = c) (hmark : c ≠ '$' ∧ c ≠ Clang.zeroByte)
    (hstep : step stack m c = some (stack', .operand k)) :
    ∃ u, Ready n u (ClangReads.ffSpace (ClangReads.moveNext (ClangReads.getCurChar s).2)) ∧
      (scan stack' (.operand k) u = true ↔ scan stack m t = true) := by
  obtain ⟨u, rfl⟩ := h.at_text.cur_eq hc hmark
  refine ⟨skip u, h.getCurChar.moveNext.ffSpace, ?_⟩
  rw [scan_skip_operand, scan_step hstep]

theorem termLoop_sound (ih : Sound n fuel) {k : Context} {x v : Long} (h : Ready n t s)
    (hx : k.multiply x = some v) (hskip : k.later = false → skip t = t) :
    Meets n stack (fun w => some (k.add w)) (scan stack (.behind k x) t = true)
      (fun w u => scan stack (.sum (k.add w)) u = true) (termLoop (fuel + 1) v s) := by
  rw [termLoop, if_neg (by rw [h.flag]; simp), getCurChar_eq]
  dsimp only
  by_cases hstar : cur s.input.rest = '*'
  · rw [if_pos hstar]
    have hstep : step stack (.behind k x) '*' = some (stack, .operand (k.times v)) := by
      rw [step, behindStep, hx]
      rfl
    obtain ⟨u, hready, hscan⟩ := h.operand hstar (by decide) hstep
    refine ((ih.factor stack (k.times v) u _ hready).congr hscan).bind ?_ ?_
    · intro w s' u' _ hflag hat hv
      exact (ih.termLoop stack (k.times v) w _ u' s' ⟨hflag, hat⟩ rfl fun h => by cases h).congr hv
    · intro w s' _ hflag hunwound
      exact meets_termLoop_flagged fuel hflag hunwound
  rw [if_neg hstar]
  by_cases hslash : cur s.input.rest = '/'
  · rw [if_pos hslash]
    have hstep : step stack (.behind k x) '/' = some (stack, .operand (k.over v)) := by
      rw [step, behindStep, hx]
      rfl
    obtain ⟨u, hready, hscan⟩ := h.operand hslash (by decide) hstep
    refine ((ih.factor stack (k.over v) u _ hready).congr hscan).bind ?_ ?_
    · intro w s' u' _ hflag hat hv
      dsimp only
      by_cases hw : w = 0
      · rw [if_pos hw]
        exact iff_of_true (hv.mp (scan_behind_zero (if_pos hw))) hat.within
      · rw [if_neg hw]
        exact (ih.termLoop stack (k.over v) w _ u' s' ⟨hflag, hat⟩ (if_neg hw)
          fun h => by cases h).congr hv
    · intro w s' _ hflag hunwound
      dsimp only
      by_cases hw : w = 0
      · rw [if_pos hw]
        rw [value_of_none (if_pos hw)] at hunwound
        exact hunwound.trap
      · rw [if_neg hw]
        rw [value_of_some (if_neg hw)] at hunwound
        exact meets_termLoop_flagged fuel hflag hunwound
  · rw [if_neg hslash]
    refine meets_ok h.flag h.at_text.getCurChar ?_
    rw [scan_behind_sum hx (h.at_text.cur_ne hstar (by decide))
      (h.at_text.cur_ne hslash (by decide)) hskip]

theorem exprLoop_sound (ih : Sound n fuel) {v : Long} (h : Ready n t s) :
    Meets n stack some (scan stack (.sum v) t = true)
      (fun w u => scan stack (.sum w) u = true) (exprLoop (fuel + 1) v s) := by
  have hgo : ∀ (c : Char) (op : Long → Long), c ≠ '$' ∧ c ≠ Clang.zeroByte →
      step stack (.sum v) c = some (stack, .operand (.first op)) → cur s.input.rest = c →
      Meets n stack some (scan stack (.sum v) t = true) (fun w u => scan stack (.sum w) u = true)
        (term fuel (ffSpace (moveNext (getCurChar s).2)) >>= fun x =>
          exprLoop fuel (op x.1) (ffSpace x.2)) := by
    intro c op hmark hstep hcur
    obtain ⟨u, hready, hscan⟩ := h.operand hcur hmark hstep
    refine ((ih.term stack op u _ hready).congr hscan).bind ?_ ?_
    · intro w s' u' _ hflag hat hv
      refine (ih.exprLoop stack _ (skip u') _ (Ready.ffSpace ⟨hflag, hat⟩)).congr ?_
      rw [scan_skip_sum]
      exact hv
    · intro w s' _ hflag hunwound
      exact meets_exprLoop_flagged fuel ((ffSpace_flag s').trans hflag) hunwound.ffSpace
  rw [exprLoop, if_neg (by rw [h.flag]; simp), getCurChar_eq]
  dsimp only
  by_cases hplus : cur s.input.rest = '+'
  · rw [if_pos hplus]
    exact hgo '+' (fun w => v + w) (by decide) rfl hplus
  rw [if_neg hplus]
  by_cases hminus : cur s.input.rest = '-'
  · rw [if_pos hminus]
    exact hgo '-' (fun w => v - w) (by decide) rfl hminus
  · rw [if_neg hminus]
    exact meets_ok h.flag h.at_text.getCurChar Iff.rfl

/-- An expression ends behind its blanks, in front of no operator of a sum. -/
structure Ended (s : State) : Prop where
  skipped : skip s.input.rest = s.input.rest
  stopped : s.input.errorFlag = false → cur s.input.rest ≠ '+' ∧ cur s.input.rest ≠ '-'

theorem ffSpace_skipped (s : State) : skip (ffSpace s).input.rest = (ffSpace s).input.rest := by
  rw [ffSpace_rest, skip_skip]

theorem exprLoop_ended {v w : Long} {s' : State} (h : exprLoop fuel v s = .ok (w, s'))
    (hskip : skip s.input.rest = s.input.rest) : Ended s' := by
  have hgo : ∀ {r : Except Stop (Long × State)} {f : Long → Long} {fuel' : Nat},
      (∀ {v s}, exprLoop fuel' v s = .ok (w, s') → skip s.input.rest = s.input.rest → Ended s') →
      (r >>= fun x => exprLoop fuel' (f x.1) (ffSpace x.2)) = .ok (w, s') → Ended s' := by
    intro r f fuel' ih h
    obtain ⟨⟨v, s₁⟩, _, h⟩ := bind_eq_ok h
    exact ih h (ffSpace_skipped s₁)
  induction fuel generalizing v s with
  | zero => cases h
  | succ fuel ih =>
    rw [exprLoop, getCurChar_eq] at h
    dsimp only at h
    by_cases hflag : s.input.errorFlag = true
    · rw [if_pos hflag] at h
      cases h
      exact ⟨hskip, fun hf => by rw [hflag] at hf; cases hf⟩
    rw [if_neg hflag] at h
    by_cases hplus : cur s.input.rest = '+'
    · rw [if_pos hplus] at h
      exact hgo (f := fun x => v + x) ih h
    rw [if_neg hplus] at h
    by_cases hminus : cur s.input.rest = '-'
    · rw [if_pos hminus] at h
      exact hgo (f := fun x => v - x) ih h
    · rw [if_neg hminus] at h
      cases h
      exact ⟨hskip, fun _ => ⟨hplus, hminus⟩⟩

theorem expr_ended {v : Long} {s' : State} (h : expr fuel s = .ok (v, s'))
    (hflag : s.input.errorFlag = false) : Ended s' := by
  cases fuel with
  | zero => cases h
  | succ fuel =>
    rw [expr, if_neg (by rw [hflag]; simp)] at h
    obtain ⟨⟨w, s₁⟩, _, h⟩ := bind_eq_ok h
    exact exprLoop_ended h (ffSpace_skipped s₁)

theorem At.skip (h : At n t s) (hskip : skip s.input.rest = s.input.rest) : Descent.skip t = t := by
  cases t with
  | nil => rfl
  | cons c t =>
    have hblank := cur_skip_not_blank s.input.rest
    rw [hskip, h.cur_of_ne_nil (List.cons_ne_nil c t)] at hblank
    exact skip_cons_of_not_blank hblank t

theorem factor_sound (ih : Sound n fuel) {k : Context} (h : Ready n t s) :
    Meets n stack k.value (scan stack (.operand k) t = true)
      (fun v u => scan stack (.behind k v) u = true) (factor (fuel + 1) s) := by
  have hready := h.ffSpace
  have hskip := h.ffSpace.at_text.skip (ffSpace_skipped s)
  rw [factor, getCurChar_eq (ffSpace s), ← scan_skip_operand]
  dsimp only
  by_cases hopen : cur (ffSpace s).input.rest = '('
  · rw [if_pos hopen]
    have hstep : step stack (.operand k) '(' = some (k :: stack, .operand (.first id)) := rfl
    obtain ⟨u, hu, hscan⟩ := hready.operand hopen (by decide) hstep
    refine ((ih.expr (k :: stack) u _ hu).congr hscan).bind ?_ ?_
    · intro v s' u' hr hflag hat hv
      have hended := expr_ended hr hu.flag
      have hstop := hended.stopped hflag
      rw [getCurChar_eq s']
      dsimp only
      by_cases hclose : cur s'.input.rest = ')'
      · rw [if_neg (not_not.mpr hclose)]
        obtain ⟨u'', rfl⟩ := hat.cur_eq hclose (by decide)
        exact meets_ok hflag hat.getCurChar.moveNext hv
      · rw [if_pos hclose]
        rw [scan_sum_stop (hat.skip hended.skipped) (hat.cur_ne hstop.1 (by decide))
          (hat.cur_ne hstop.2 (by decide)) (.inr (hat.cur_ne hclose (by decide)))] at hv
        have hunwound := Unwound.inside hat hv.symm
        exact meets_flagged rfl (hunwound.close hended.skipped).setError
    · intro v s' hr hflag hunwound
      have hended := expr_ended hr hu.flag
      have hclosed := hunwound.close hended.skipped
      rw [getCurChar_eq s']
      dsimp only
      split_ifs
      · exact meets_flagged rfl hclosed.setError
      · exact meets_flagged hflag hclosed
  rw [if_neg hopen, getCurChar_eq]
  dsimp only
  have hlooked := hready.getCurChar.getCurChar
  by_cases hminus : cur (getCurChar (ffSpace s)).2.input.rest = '-'
  · rw [if_pos hminus]
    obtain ⟨u, hu⟩ := hready.at_text.cur_eq hminus (by decide)
    have hstep : step stack (.operand k) '-' = some (stack, .negative k) := rfl
    rw [hu] at hlooked ⊢
    rw [scan_step hstep, scan_negative_number]
    have hnumber := number_at hlooked.moveNext.ffSpace.flag hlooked.moveNext.ffSpace.at_text
    rw [skip_skip] at hnumber
    exact meets_number hnumber Iff.rfl
  · rw [if_neg hminus]
    rw [scan_operand_number hskip (hready.at_text.cur_ne hopen (by decide))
      (hready.at_text.cur_ne hminus (by decide))]
    have hnumber := number_at hlooked.flag hlooked.at_text
    rw [skip_skip] at hnumber
    exact meets_number hnumber Iff.rfl

theorem sound (n fuel : Nat) : Sound n fuel := by
  induction fuel with
  | zero => constructor <;> intros <;> trivial
  | succ fuel ih =>
    exact ⟨fun _ _ _ _ => factor_sound ih, fun _ _ _ _ => term_sound ih,
      fun _ _ _ _ _ _ => termLoop_sound ih, fun _ _ _ => expr_sound ih,
      fun _ _ _ _ => exprLoop_sound ih⟩

end Functions

/-! ## Lines -/

section Lines

variable {line stale : Text}

theorem getInputString_rest {a y : Text} (ha : Clang.zeroByte ∉ a)
    (h : line ++ Clang.zeroByte :: stale = a ++ Clang.zeroByte :: y) :
    (Clang.getInputString line stale).rest = a ++ '$' :: y := by
  have hall : ∀ c ∈ a, decide (c ≠ Clang.zeroByte) = true := by
    intro c hc
    simp only [ne_eq, decide_not, Bool.not_eq_true', decide_eq_false_iff_not]
    rintro rfl
    exact ha hc
  unfold Clang.getInputString
  dsimp only
  rw [h, List.takeWhile_append_of_pos hall, List.dropWhile_append_of_pos hall]
  simp

theorem marked_of_not_mem (h : Clang.zeroByte ∉ line) : marked line = line := by
  unfold marked
  rw [getInputString_rest h rfl, List.take_left]

theorem marked_of_append {a b : Text} (ha : Clang.zeroByte ∉ a) :
    marked (a ++ Clang.zeroByte :: b) = a ++ '$' :: b := by
  have hlength : (a ++ Clang.zeroByte :: b).length = (a ++ '$' :: b).length := by simp
  have hrest : (Clang.getInputString (a ++ Clang.zeroByte :: b) []).rest =
      (a ++ '$' :: b) ++ [Clang.zeroByte] := by
    rw [getInputString_rest (y := b ++ [Clang.zeroByte]) ha (by simp)]
    simp
  unfold marked
  rw [hlength, hrest, List.take_left]

/-- Behind the line the buffer holds the mark, or the zero byte that ended the input. -/
theorem ready_start (line stale : Text) :
    Ready line.length (marked line) ⟨Clang.getInputString line stale, 0, []⟩ := by
  refine ⟨rfl, ?_⟩
  by_cases hzero : Clang.zeroByte ∈ line
  · obtain ⟨a, b, rfl, ha⟩ := List.eq_append_cons_of_mem hzero
    rw [marked_of_append ha]
    refine ⟨by simp, ⟨Clang.zeroByte, stale, ?_, .inr rfl⟩, fun i hi => by cases hi⟩
    refine (getInputString_rest (y := b ++ Clang.zeroByte :: stale) ha (by simp)).trans ?_
    simp
  · rw [marked_of_not_mem hzero]
    exact ⟨by simp, ⟨'$', stale, getInputString_rest hzero rfl, .inl rfl⟩, fun i hi => by cases hi⟩

/-- The indices read in one round of `main`, up to its end or to a trap. -/
def readsOf : Except Stop (Clang.Outcome × State) → Option (List Nat)
  | .ok (_, s) => some s.reads
  | .error .outOfFuel => none
  | .error (.divByZero s) => some s.reads

/-- The parse ends and reads at no index behind the length of the line. -/
def ReadsWithin (line stale : Text) : Prop :=
  ∃ N, ∀ fuel, N ≤ fuel → ∃ reads, readsOf (main fuel line stale) = some reads ∧
    ∀ i ∈ reads, i ≤ line.length

/-- On any line the parse ends; behind it, `main` reads once more. -/
theorem main_ends (line stale : Text) : ∃ N, ∀ fuel, N ≤ fuel →
    (∃ v s, expr fuel ⟨Clang.getInputString line stale, 0, []⟩ = .ok (v, s) ∧
      readsOf (main fuel line stale) = some (getCurChar s).2.reads) ∨
    (∃ s, expr fuel ⟨Clang.getInputString line stale, 0, []⟩ = .error (.divByZero s) ∧
      readsOf (main fuel line stale) = some s.reads) := by
  have hends : ∃ r, Settles (fun n => Clang.main n line stale) r ∧ r ≠ .error .outOfFuel := by
    rcases main_cases line stale with ⟨v, _, hp, _⟩ | herror | htrap
    · exact ⟨_, hp, by intro h; cases h⟩
    · exact ⟨_, herror, by intro h; cases h⟩
    · exact ⟨_, htrap, by intro h; cases h⟩
  obtain ⟨r, ⟨N, hN⟩, hr⟩ := hends
  refine ⟨N, ?_⟩
  intro fuel hfuel
  have hmain : outcome (main fuel line stale) = r :=
    (main_input fuel line stale).trans (hN fuel hfuel)
  unfold main at hmain ⊢
  cases hexpr : expr fuel ⟨Clang.getInputString line stale, 0, []⟩ with
  | ok p =>
    obtain ⟨v, s⟩ := p
    refine .inl ⟨v, s, rfl, ?_⟩
    show readsOf (if _ then _ else _) = _
    split_ifs <;> rfl
  | error e =>
    rw [hexpr] at hmain
    cases e with
    | outOfFuel => exact absurd hmain.symm hr
    | divByZero s => exact .inr ⟨s, rfl, rfl⟩

theorem meets_line (fuel : Nat) (line stale : Text) :
    Meets line.length [] some (Readable line) (fun v u => scan [] (.sum v) u = true)
      (expr fuel ⟨Clang.getInputString line stale, 0, []⟩) :=
  (sound line.length fuel).expr [] (marked line) _ (ready_start line stale)

/-- The reads of a parse that returns, with the one that `main` makes behind it. -/
theorem readable_iff {v : Long} {s : State} {fuel : Nat}
    (h : expr fuel ⟨Clang.getInputString line stale, 0, []⟩ = .ok (v, s)) :
    Readable line ↔ ∀ i ∈ (getCurChar s).2.reads, i ≤ line.length := by
  have hmeets := meets_line fuel line stale
  have hended := expr_ended h rfl
  rw [h] at hmeets
  cases hflag : s.input.errorFlag with
  | false =>
    rw [Meets, if_neg (by rw [hflag]; simp)] at hmeets
    obtain ⟨u, hat, hscan⟩ := hmeets
    have hstop := hended.stopped hflag
    have hsum : scan [] (.sum v) u = true := by
      rw [scan_sum_stop (hat.skip hended.skipped) (hat.cur_ne hstop.1 (by decide))
        (hat.cur_ne hstop.2 (by decide)) (.inl rfl)]
      rfl
    exact iff_of_true (hscan.mp hsum) hat.getCurChar.within
  | true =>
    rw [Meets, if_pos hflag] at hmeets
    cases hmeets with
    | inside hat hv => exact iff_of_true (hv.mpr rfl) hat.getCurChar.within
    | behind hbehind hv =>
      obtain ⟨i, hi, hlt⟩ := hbehind.getCurChar
      exact iff_of_false (by simp [hv]) fun hle => absurd (hle i hi) (Nat.not_le_of_lt hlt)
    | lost hlost hv =>
      obtain ⟨i, hi, hlt⟩ := hlost.getCurChar
      exact iff_of_false hv fun hle => absurd (hle i hi) (Nat.not_le_of_lt hlt)

/-- **The parse ends and reads nothing behind the line** and its mark exactly on readable lines. -/
theorem reads_within_iff (line stale : Text) : ReadsWithin line stale ↔ Readable line := by
  obtain ⟨N, hN⟩ := main_ends line stale
  have hreads : ∀ fuel, N ≤ fuel → ∃ reads, readsOf (main fuel line stale) = some reads ∧
      (Readable line ↔ ∀ i ∈ reads, i ≤ line.length) := by
    intro fuel hfuel
    rcases hN fuel hfuel with ⟨v, s, hexpr, hmain⟩ | ⟨s, hexpr, hmain⟩
    · exact ⟨_, hmain, readable_iff hexpr⟩
    · have hmeets := meets_line fuel line stale
      rw [hexpr] at hmeets
      exact ⟨_, hmain, hmeets⟩
  constructor
  · rintro ⟨M, hM⟩
    obtain ⟨reads, hsome, hle⟩ := hM (max N M) (Nat.le_max_right N M)
    obtain ⟨reads', hsome', hiff⟩ := hreads (max N M) (Nat.le_max_left N M)
    obtain rfl := Option.some.inj (hsome.symm.trans hsome')
    exact hiff.mpr hle
  · intro hreadable
    refine ⟨N, fun fuel hfuel => ?_⟩
    obtain ⟨reads, hsome, hiff⟩ := hreads fuel hfuel
    exact ⟨reads, hsome, hiff.mp hreadable⟩

/-- The cursor passes the mark at index 1 and the loop of `ffSpace` reads behind it. -/
theorem open_paren_reads_behind : ¬ ReadsWithin ['('] [] := by
  rintro ⟨N, hN⟩
  obtain ⟨reads, hreads, hle⟩ := hN (N + 20) (Nat.le_add_right N 20)
  have hbehind : ∃ rs, readsOf (main (N + 20) ['('] []) = some (2 :: rs) := ⟨_, rfl⟩
  obtain ⟨rs, hrs⟩ := hbehind
  obtain rfl := Option.some.inj (hreads.symm.trans hrs)
  exact absurd (hle 2 List.mem_cons_self) (by decide)

end Lines

end ClangReads
end Calculator
end SsuComputer
