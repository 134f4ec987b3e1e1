import SsuComputer.Calculator.JavaLang

/-!
# SsuComputer.Calculator.Descent

The recursive descent behind both calculators: one parser on texts, which stops at the first error.
`Style` is the one point where the two sources differ, the blanks behind a later term of a sum.

* `clang_follows` — the C functions do the same as long as there is no error; after one, they
  return with the flag set or trap in a division.
* `javaLang_throws` — the Java methods do the same on every text with an end mark.
-/

namespace SsuComputer
namespace Calculator
namespace Descent

abbrev Text := List Char

inductive Style
  | clang
  | javaLang
deriving DecidableEq

inductive Stop
  | outOfFuel
  | syntaxError
  | divByZero
deriving Repr, DecidableEq

abbrev Result := Except Stop (Long × Text)

def cur (s : Text) : Char := s.headD '\x00'

def isBlank (c : Char) : Bool := c == ' ' || c == '\t'

def skip (s : Text) : Text := s.dropWhile isBlank

def Style.afterTerm : Style → Text → Text
  | .clang, s => skip s
  | .javaLang, s => s

abbrev Digit := Fin 10

def digitOf (c : Char) : Option Digit :=
  if h : 48 ≤ c.toNat ∧ c.toNat ≤ 57 then some ⟨c.toNat - 48, by omega⟩ else none

def digitChar (d : Digit) : Char := Char.ofNat (48 + d)

def digits : Text → List Digit × Text
  | [] => ([], [])
  | c :: rest =>
    match digitOf c with
    | some d => (d :: (digits rest).1, (digits rest).2)
    | none => ([], c :: rest)

def push (res : Long) (d : Digit) : Long := res * 10 + BitVec.ofNat 64 d

def longOf (ds : List Digit) : Long := ds.foldl push 0

def number (s : Text) : Result :=
  let (ds, s) := digits (skip s)
  if Clang.isValid (cur s) then .ok (longOf ds, s) else .error .syntaxError

mutual

def factor (style : Style) : Nat → Text → Result
  | 0, _ => .error .outOfFuel
  | fuel + 1, s =>
    if cur (skip s) = '(' then do
      let (v, s) ← expr style fuel (skip (skip s).tail)
      if cur (skip s) = ')' then .ok (v, (skip s).tail) else .error .syntaxError
    else if cur (skip s) = '-' then do
      let (v, s) ← number (skip s).tail
      .ok (-1 * v, s)
    else do
      let (v, s) ← number s
      .ok (1 * v, s)

def term (style : Style) : Nat → Text → Result
  | 0, _ => .error .outOfFuel
  | fuel + 1, s => do
    let (v, s) ← factor style fuel s
    termLoop style fuel v (skip s)

def termLoop (style : Style) : Nat → Long → Text → Result
  | 0, _, _ => .error .outOfFuel
  | fuel + 1, res, s =>
    if cur s = '*' then do
      let (v, s) ← factor style fuel (skip s.tail)
      termLoop style fuel (res * v) s
    else if cur s = '/' then do
      let (v, s) ← factor style fuel (skip s.tail)
      if v = 0 then .error .divByZero else termLoop style fuel (res.sdiv v) s
    else .ok (res, s)

def expr (style : Style) : Nat → Text → Result
  | 0, _ => .error .outOfFuel
  | fuel + 1, s => do
    let (v, s) ← term style fuel s
    exprLoop style fuel v (skip s)

def exprLoop (style : Style) : Nat → Long → Text → Result
  | 0, _, _ => .error .outOfFuel
  | fuel + 1, res, s =>
    if cur s = '+' then do
      let (v, s) ← term style fuel (skip s.tail)
      exprLoop style fuel (res + v) (style.afterTerm s)
    else if cur s = '-' then do
      let (v, s) ← term style fuel (skip s.tail)
      exprLoop style fuel (res - v) (style.afterTerm s)
    else .ok (res, s)

end

/-! ## Blanks and digits -/

@[simp] theorem cur_nil : cur [] = '\x00' := rfl

@[simp] theorem cur_cons (c : Char) (s : Text) : cur (c :: s) = c := rfl

theorem skip_of_not_blank {s : Text} (h : isBlank (cur s) = false) : skip s = s := by
  cases s with
  | nil => rfl
  | cons c s =>
    rw [cur_cons] at h
    unfold skip
    rw [List.dropWhile_cons, h]
    rfl

theorem cur_skip_not_blank (s : Text) : isBlank (cur (skip s)) = false := by
  induction s with
  | nil => decide
  | cons c s ih =>
    unfold skip
    rw [List.dropWhile_cons]
    split
    · exact ih
    · rename_i h
      simpa using h

@[simp] theorem skip_skip (s : Text) : skip (skip s) = skip s :=
  skip_of_not_blank (cur_skip_not_blank s)

theorem afterTerm_clang_skip (s : Text) : skip (Style.clang.afterTerm s) = Style.clang.afterTerm s :=
  skip_skip s

@[simp] theorem number_skip (s : Text) : number (skip s) = number s := by
  simp only [number, skip_skip]

theorem digitOf_digitChar (d : Digit) : digitOf (digitChar d) = some d := by
  revert d
  decide

theorem digitOf_eq_some {c : Char} {d : Digit} : digitOf c = some d ↔ c = digitChar d := by
  constructor
  · intro h
    unfold digitOf at h
    split at h
    · rename_i hc
      cases h
      apply Char.ext
      unfold digitChar
      rw [show 48 + (c.toNat - 48) = c.toNat by omega, Char.ofNat_toNat]
    · cases h
  · rintro rfl
    exact digitOf_digitChar d

theorem isValid_digitChar (d : Digit) : Clang.isValid (digitChar d) = true := by
  revert d
  decide

theorem toNat_sub_digitOf (c : Char) :
    match digitOf c with
    | some d => (c.toNat : Int) - '0'.toNat = (d : Nat)
    | none => (c.toNat : Int) - '0'.toNat < 0 ∨ (c.toNat : Int) - '0'.toNat > 9 := by
  have hzero : '0'.toNat = 48 := rfl
  unfold digitOf
  rw [hzero]
  split_ifs with h
  · show (c.toNat : Int) - (48 : Nat) = ((c.toNat - 48 : Nat) : Int)
    omega
  · show (c.toNat : Int) - (48 : Nat) < 0 ∨ (c.toNat : Int) - (48 : Nat) > 9
    omega

/-! ## The C functions -/

section C

theorem clang_ffSpace (s : Text) (f : Bool) : Clang.ffSpace ⟨s, f⟩ = ⟨skip s, f⟩ := by
  cases s <;> rfl

theorem clang_moveNext (s : Text) (f : Bool) : Clang.moveNext ⟨s, f⟩ = ⟨s.tail, f⟩ := by
  cases s <;> rfl

theorem clang_getCurChar (s : Text) (f : Bool) : Clang.getCurChar ⟨s, f⟩ = cur s := by
  cases s <;> rfl

theorem clang_digit_some {s : Text} {f : Bool} {d : Digit} (h : digitOf (cur s) = some d) :
    Clang.digit ⟨s, f⟩ = (((d : Nat) : Int), ⟨s, f⟩) := by
  have hsub := toNat_sub_digitOf (cur s)
  have hd := d.isLt
  rw [h] at hsub
  unfold Clang.digit
  rw [clang_getCurChar, digitOf_eq_some.mp h, isValid_digitChar, ← digitOf_eq_some.mp h]
  simp only [Bool.not_true, Bool.false_eq_true, if_false] at hsub ⊢
  rw [hsub, if_neg (by omega)]

theorem clang_digit_none {s : Text} {f : Bool} (h : digitOf (cur s) = none) :
    Clang.digit ⟨s, f⟩ = (-1, ⟨s, f || !Clang.isValid (cur s)⟩) := by
  have hsub := toNat_sub_digitOf (cur s)
  rw [h] at hsub
  unfold Clang.digit
  rw [clang_getCurChar]
  cases Clang.isValid (cur s) with
  | false => simp
  | true =>
    simp only [Bool.not_true, Bool.false_eq_true, if_false, Bool.or_false]
    rw [if_pos hsub]

theorem clang_numberLoop (s : Text) (res : Long) :
    Clang.numberLoop s false res =
      ((digits s).1.foldl push res,
        ⟨(digits s).2, !Clang.isValid (cur (digits s).2)⟩) := by
  induction s generalizing res with
  | nil =>
    unfold Clang.numberLoop digits
    rw [clang_digit_none (by decide)]
    rfl
  | cons c s ih =>
    unfold Clang.numberLoop digits
    cases h : digitOf c with
    | some d =>
      rw [clang_digit_some (s := c :: s) h]
      simp only [ge_iff_le]
      rw [if_pos (by omega), ih, BitVec.ofInt_natCast]
      rfl
    | none =>
      rw [clang_digit_none (s := c :: s) h]
      simp

theorem clang_number (s : Text) :
    Clang.number ⟨s, false⟩ =
      (longOf (digits (skip s)).1,
        ⟨(digits (skip s)).2, !Clang.isValid (cur (digits (skip s)).2)⟩) := by
  unfold Clang.number
  rw [clang_ffSpace]
  exact clang_numberLoop (skip s) 0

abbrev CResult := Except Clang.Stop (Long × Clang.Input)

def Failed (c : CResult) : Prop := c = .error .divByZero ∨ ∃ v s, c = .ok (v, ⟨s, true⟩)

/-- What the C functions make of a result: an error shows as the flag or as a trap. -/
def Follows : Result → CResult → Prop
  | .ok (v, s), c => c = .ok (v, ⟨s, false⟩)
  | .error .syntaxError, c => Failed c
  | .error .divByZero, c => c = .error .divByZero
  | .error .outOfFuel, c => c = .error .outOfFuel

theorem number_ok_or_syntaxError (s : Text) :
    (number s = .ok (longOf (digits (skip s)).1, (digits (skip s)).2) ∧
        Clang.isValid (cur (digits (skip s)).2) = true) ∨
      (number s = .error .syntaxError ∧ Clang.isValid (cur (digits (skip s)).2) = false) := by
  unfold number
  cases h : Clang.isValid (cur (digits (skip s)).2) with
  | true => exact .inl ⟨by simp only [h, if_true], rfl⟩
  | false => exact .inr ⟨by simp only [h, Bool.false_eq_true, if_false], rfl⟩

theorem follows_bind {g : Result} {c : CResult} {kg : Long × Text → Result}
    {kc : Long × Clang.Input → CResult} (h : Follows g c)
    (hok : ∀ v s, g = .ok (v, s) → Follows (kg (v, s)) (kc (v, ⟨s, false⟩)))
    (hfail : g = .error .syntaxError → ∀ v s, Failed (kc (v, ⟨s, true⟩))) :
    Follows (g >>= kg) (c >>= kc) := by
  cases g with
  | ok p =>
    obtain ⟨v, s⟩ := p
    obtain rfl : c = .ok (v, ⟨s, false⟩) := h
    exact hok v s rfl
  | error e =>
    cases e with
    | syntaxError =>
      rcases h with rfl | ⟨v, s, rfl⟩
      · exact .inl rfl
      · exact hfail rfl v s
    | divByZero =>
      obtain rfl : c = .error .divByZero := h
      rfl
    | outOfFuel =>
      obtain rfl : c = .error .outOfFuel := h
      rfl

theorem termLoop_flagged {fuel : Nat} (h : fuel ≠ 0) (res : Long) (s : Text) :
    Failed (Clang.termLoop fuel res ⟨s, true⟩) := by
  cases fuel with
  | zero => exact absurd rfl h
  | succ fuel => exact .inr ⟨res, s, rfl⟩

theorem exprLoop_flagged {fuel : Nat} (h : fuel ≠ 0) (res : Long) (s : Text) :
    Failed (Clang.exprLoop fuel res ⟨s, true⟩) := by
  cases fuel with
  | zero => exact absurd rfl h
  | succ fuel => exact .inr ⟨res, s, rfl⟩

theorem factor_fuel {style : Style} {fuel : Nat} {s : Text}
    (h : factor style fuel s = .error .syntaxError) : fuel ≠ 0 := by
  rintro rfl
  cases h

theorem term_fuel {style : Style} {fuel : Nat} {s : Text}
    (h : term style fuel s = .error .syntaxError) : fuel ≠ 0 := by
  rintro rfl
  cases h

/-- In C an expression ends behind its blanks. -/
theorem exprLoop_skip {fuel : Nat} {res v : Long} {s s' : Text} (hs : skip s = s)
    (h : exprLoop .clang fuel res s = .ok (v, s')) : skip s' = s' := by
  induction fuel generalizing res s with
  | zero => cases h
  | succ fuel ih =>
    unfold exprLoop at h
    split_ifs at h
    · cases hterm : term .clang fuel (skip s.tail) with
      | error e =>
        rw [hterm] at h
        cases h
      | ok p =>
        rw [hterm] at h
        exact ih (afterTerm_clang_skip p.2) h
    · cases hterm : term .clang fuel (skip s.tail) with
      | error e =>
        rw [hterm] at h
        cases h
      | ok p =>
        rw [hterm] at h
        exact ih (afterTerm_clang_skip p.2) h
    · cases h
      exact hs

theorem expr_skip {fuel : Nat} {v : Long} {s s' : Text}
    (h : expr .clang fuel s = .ok (v, s')) : skip s' = s' := by
  cases fuel with
  | zero => cases h
  | succ fuel =>
    unfold expr at h
    cases hterm : term .clang fuel s with
    | error e =>
      rw [hterm] at h
      cases h
    | ok p =>
      rw [hterm] at h
      exact exprLoop_skip (skip_skip p.2) h

/-- The five functions agree with fuel `fuel`, from a state without error. -/
structure ClangFollows (fuel : Nat) : Prop where
  factor : ∀ s, Follows (factor .clang fuel s) (Clang.factor fuel ⟨s, false⟩)
  term : ∀ s, Follows (term .clang fuel s) (Clang.term fuel ⟨s, false⟩)
  termLoop : ∀ v s, Follows (termLoop .clang fuel v s) (Clang.termLoop fuel v ⟨s, false⟩)
  expr : ∀ s, Follows (expr .clang fuel s) (Clang.expr fuel ⟨s, false⟩)
  exprLoop : ∀ v s, Follows (exprLoop .clang fuel v s) (Clang.exprLoop fuel v ⟨s, false⟩)

theorem factor_follows {fuel : Nat} (ih : ClangFollows fuel) (s : Text) :
    Follows (factor .clang (fuel + 1) s) (Clang.factor (fuel + 1) ⟨s, false⟩) := by
  unfold factor Clang.factor
  simp only [clang_ffSpace, clang_moveNext, clang_getCurChar]
  by_cases hopen : cur (skip s) = '('
  · rw [if_pos hopen, if_pos hopen]
    refine follows_bind (ih.expr _) ?_ ?_
    · intro v s' hv
      simp only [clang_moveNext, clang_getCurChar]
      rw [expr_skip hv]
      by_cases hclose : cur s' = ')'
      · rw [if_pos hclose, if_neg (not_not.mpr hclose)]
        rfl
      · rw [if_neg hclose, if_pos hclose]
        exact .inr ⟨v, s'.tail, rfl⟩
    · intro _ v s'
      simp only [clang_moveNext, clang_getCurChar, ite_self]
      exact .inr ⟨v, s'.tail, rfl⟩
  rw [if_neg hopen, if_neg hopen]
  by_cases hminus : cur (skip s) = '-'
  · rw [if_pos hminus, if_pos hminus, clang_number, skip_skip]
    rcases number_ok_or_syntaxError (skip s).tail with ⟨h, hvalid⟩ | ⟨h, hvalid⟩
    · rw [h, hvalid]
      rfl
    · rw [h, hvalid]
      exact .inr ⟨_, _, rfl⟩
  · rw [if_neg hminus, if_neg hminus, clang_number, skip_skip]
    rcases number_ok_or_syntaxError s with ⟨h, hvalid⟩ | ⟨h, hvalid⟩
    · rw [h, hvalid]
      rfl
    · rw [h, hvalid]
      exact .inr ⟨_, _, rfl⟩

theorem term_follows {fuel : Nat} (ih : ClangFollows fuel) (s : Text) :
    Follows (term .clang (fuel + 1) s) (Clang.term (fuel + 1) ⟨s, false⟩) := by
  unfold term Clang.term
  refine follows_bind (ih.factor s) ?_ ?_
  · intro v s' _
    exact ih.termLoop v (skip s')
  · intro h v s'
    exact termLoop_flagged (factor_fuel h) v (skip s')

theorem termLoop_follows {fuel : Nat} (ih : ClangFollows fuel) (res : Long) (s : Text) :
    Follows (termLoop .clang (fuel + 1) res s) (Clang.termLoop (fuel + 1) res ⟨s, false⟩) := by
  unfold termLoop Clang.termLoop
  simp only [clang_ffSpace, clang_moveNext, clang_getCurChar, Bool.false_eq_true, if_false]
  split_ifs with hmul hdiv
  · refine follows_bind (ih.factor _) ?_ ?_
    · intro v s' _
      exact ih.termLoop (res * v) s'
    · intro h v s'
      exact termLoop_flagged (factor_fuel h) (res * v) s'
  · refine follows_bind (ih.factor _) ?_ ?_
    · intro v s' _
      dsimp only
      split_ifs with hzero
      · rfl
      · exact ih.termLoop (res.sdiv v) s'
    · intro h v s'
      dsimp only
      split_ifs with hzero
      · exact .inl rfl
      · exact termLoop_flagged (factor_fuel h) (res.sdiv v) s'
  · rfl

theorem expr_follows {fuel : Nat} (ih : ClangFollows fuel) (s : Text) :
    Follows (expr .clang (fuel + 1) s) (Clang.expr (fuel + 1) ⟨s, false⟩) := by
  unfold expr Clang.expr
  refine follows_bind (ih.term s) ?_ ?_
  · intro v s' _
    exact ih.exprLoop v (skip s')
  · intro h v s'
    exact exprLoop_flagged (term_fuel h) v (skip s')

theorem exprLoop_follows {fuel : Nat} (ih : ClangFollows fuel) (res : Long) (s : Text) :
    Follows (exprLoop .clang (fuel + 1) res s) (Clang.exprLoop (fuel + 1) res ⟨s, false⟩) := by
  unfold exprLoop Clang.exprLoop
  simp only [clang_ffSpace, clang_moveNext, clang_getCurChar, Bool.false_eq_true, if_false]
  split_ifs with hplus hminus
  · refine follows_bind (ih.term _) ?_ ?_
    · intro v s' _
      exact ih.exprLoop (res + v) (skip s')
    · intro h v s'
      exact exprLoop_flagged (term_fuel h) (res + v) (skip s')
  · refine follows_bind (ih.term _) ?_ ?_
    · intro v s' _
      exact ih.exprLoop (res - v) (skip s')
    · intro h v s'
      exact exprLoop_flagged (term_fuel h) (res - v) (skip s')
  · rfl

theorem clang_follows (fuel : Nat) : ClangFollows fuel := by
  induction fuel with
  | zero => constructor <;> intros <;> rfl
  | succ fuel ih =>
    exact ⟨factor_follows ih, term_follows ih, termLoop_follows ih, expr_follows ih,
      exprLoop_follows ih⟩

end C

/-! ## The Java methods -/

section Java

abbrev JResult := Except JavaLang.Thrown (Long × Text)

def thrown : Stop → JavaLang.Thrown
  | .outOfFuel => .outOfFuel
  | .syntaxError => .parsingException
  | .divByZero => .arithmeticException

/-- The Java methods return the same, and never pass the end mark. -/
def Throws (g : Result) (j : JResult) : Prop :=
  j = g.mapError thrown ∧ ∀ v s, g = .ok (v, s) → '$' ∈ s

theorem throws_ok {v : Long} {s : Text} (h : '$' ∈ s) : Throws (.ok (v, s)) (.ok (v, s)) := by
  refine ⟨rfl, ?_⟩
  rintro _ _ ⟨⟩
  exact h

theorem throws_error (e : Stop) : Throws (.error e) (.error (thrown e)) := by
  refine ⟨rfl, ?_⟩
  rintro _ _ ⟨⟩

theorem throws_bind {g : Result} {j : JResult} {kg : Long × Text → Result}
    {kj : Long × Text → JResult} (h : Throws g j)
    (hok : ∀ v s, '$' ∈ s → Throws (kg (v, s)) (kj (v, s))) : Throws (g >>= kg) (j >>= kj) := by
  obtain ⟨rfl, hmem⟩ := h
  cases g with
  | ok p => exact hok p.1 p.2 (hmem p.1 p.2 rfl)
  | error e => exact throws_error e

theorem javaLang_charAt {s : Text} (h : '$' ∈ s) : JavaLang.charAt s = .ok (cur s) := by
  cases s with
  | nil => cases h
  | cons c s => rfl

theorem mem_skip {s : Text} (h : '$' ∈ s) : '$' ∈ skip s := by
  induction s with
  | nil => cases h
  | cons c s ih =>
    unfold skip
    rw [List.dropWhile_cons]
    split
    · rename_i hc
      rcases List.mem_cons.mp h with rfl | h
      · exact absurd hc (by decide)
      · exact ih h
    · exact h

theorem javaLang_ffSpace {s : Text} (h : '$' ∈ s) : JavaLang.ffSpace s = .ok (skip s) := by
  induction s with
  | nil => cases h
  | cons c s ih =>
    unfold JavaLang.ffSpace skip
    rw [List.dropWhile_cons]
    by_cases hc : c = ' ' ∨ c = '\t'
    · have hne : '$' ≠ c := by
        rintro rfl
        exact absurd hc (by decide)
      have hb : isBlank c = true := by simpa [isBlank] using hc
      rw [if_pos hc, if_pos hb]
      exact ih (List.mem_of_ne_of_mem hne h)
    · have hb : ¬ isBlank c = true := by simpa [isBlank] using hc
      rw [if_neg hc, if_neg hb]

theorem mem_tail {s : Text} (h : '$' ∈ s) (hne : cur s ≠ '$') : '$' ∈ s.tail := by
  cases s with
  | nil => cases h
  | cons c s => exact List.mem_of_ne_of_mem (Ne.symm hne) h

theorem javaLang_numberLoop {s : Text} (h : '$' ∈ s) (res : Long) :
    Throws (if Clang.isValid (cur (digits s).2) then
        .ok ((digits s).1.foldl push res, (digits s).2)
      else .error .syntaxError) (JavaLang.numberLoop s res) := by
  induction s generalizing res with
  | nil => cases h
  | cons c s ih =>
    unfold JavaLang.numberLoop JavaLang.digit digits
    have hsub := toNat_sub_digitOf c
    cases hd : digitOf c with
    | some d =>
      rw [hd] at hsub
      have hlt := d.isLt
      have hne : '$' ≠ c := by
        rintro rfl
        rw [show digitOf '$' = none from rfl] at hd
        cases hd
      have hvalid : Clang.isValid c = true := by
        rw [digitOf_eq_some.mp hd]
        exact isValid_digitChar d
      simp only [JavaLang.charAt, bind, Except.bind, hvalid, Bool.not_true, Bool.false_eq_true,
        if_false]
      have hdigit : ¬ (((d : Nat) : Int) < 0 ∨ ((d : Nat) : Int) > 9) := by omega
      rw [hsub, if_neg hdigit, BitVec.ofInt_natCast]
      exact ih (List.mem_of_ne_of_mem hne h) (push res d)
    | none =>
      rw [hd] at hsub
      cases hvalid : Clang.isValid c with
      | true =>
        have hstop : (c.toNat : Int) - '0'.toNat < 0 ∨ 9 < (c.toNat : Int) - '0'.toNat := hsub
        simp only [cur_cons, hvalid, if_true]
        simp only [JavaLang.charAt, bind, Except.bind, hvalid, Bool.not_true, Bool.false_eq_true,
          if_false, gt_iff_lt]
        rw [if_pos hstop]
        exact throws_ok h
      | false =>
        simp only [cur_cons, hvalid, Bool.false_eq_true, if_false]
        simp only [JavaLang.charAt, bind, Except.bind, hvalid, Bool.not_false, if_true]
        exact throws_error .syntaxError

theorem javaLang_number {s : Text} (h : '$' ∈ s) : Throws (number s) (JavaLang.number s) := by
  unfold number JavaLang.number
  rw [javaLang_ffSpace h]
  exact javaLang_numberLoop (mem_skip h) 0

theorem mem_close {s : Text} (h : '$' ∈ s) {c : Char} (hc : cur s = c) (hne : c ≠ '$') :
    '$' ∈ s.tail :=
  mem_tail h (hc ▸ hne)

/-- The five methods agree with fuel `fuel` on texts with an end mark. -/
structure JavaThrows (fuel : Nat) : Prop where
  factor : ∀ s, '$' ∈ s → Throws (factor .javaLang fuel s) (JavaLang.factor fuel s)
  term : ∀ s, '$' ∈ s → Throws (term .javaLang fuel s) (JavaLang.term fuel s)
  termLoop : ∀ v s, '$' ∈ s → Throws (termLoop .javaLang fuel v s) (JavaLang.termLoop fuel v s)
  expr : ∀ s, '$' ∈ s → Throws (expr .javaLang fuel s) (JavaLang.expr fuel s)
  exprLoop : ∀ v s, '$' ∈ s → Throws (exprLoop .javaLang fuel v s) (JavaLang.exprLoop fuel v s)

theorem ok_bind {α β : Type} (a : α) (k : α → Except JavaLang.Thrown β) :
    (Except.ok a >>= k) = k a := rfl

theorem factor_throws {fuel : Nat} (ih : JavaThrows fuel) {s : Text} (h : '$' ∈ s) :
    Throws (factor .javaLang (fuel + 1) s) (JavaLang.factor (fuel + 1) s) := by
  have hs := mem_skip h
  unfold factor JavaLang.factor
  rw [javaLang_ffSpace h, ok_bind, javaLang_charAt hs, ok_bind]
  by_cases hopen : cur (skip s) = '('
  · have htail := mem_close hs hopen (by decide)
    rw [if_pos hopen, if_pos hopen, javaLang_ffSpace htail, ok_bind]
    refine throws_bind (ih.expr _ (mem_skip htail)) ?_
    intro v s' hs'
    have hs'' := mem_skip hs'
    simp only [javaLang_ffSpace hs', javaLang_charAt hs'', ok_bind]
    by_cases hclose : cur (skip s') = ')'
    · rw [if_pos hclose, if_neg (not_not.mpr hclose)]
      exact throws_ok (mem_close hs'' hclose (by decide))
    · rw [if_neg hclose, if_pos hclose]
      exact throws_error .syntaxError
  rw [if_neg hopen, if_neg hopen]
  by_cases hminus : cur (skip s) = '-'
  · have htail := mem_close hs hminus (by decide)
    rw [if_pos hminus, if_pos hminus]
    exact throws_bind (javaLang_number htail) fun v s' hs' => throws_ok hs'
  · rw [if_neg hminus, if_neg hminus, ← number_skip]
    exact throws_bind (javaLang_number hs) fun v s' hs' => throws_ok hs'

theorem term_throws {fuel : Nat} (ih : JavaThrows fuel) {s : Text} (h : '$' ∈ s) :
    Throws (term .javaLang (fuel + 1) s) (JavaLang.term (fuel + 1) s) := by
  unfold term JavaLang.term
  refine throws_bind (ih.factor s h) ?_
  intro v s' hs'
  simp only [javaLang_ffSpace hs', ok_bind]
  exact ih.termLoop v (skip s') (mem_skip hs')

theorem termLoop_throws {fuel : Nat} (ih : JavaThrows fuel) (res : Long) {s : Text} (h : '$' ∈ s) :
    Throws (termLoop .javaLang (fuel + 1) res s) (JavaLang.termLoop (fuel + 1) res s) := by
  unfold termLoop JavaLang.termLoop
  rw [javaLang_charAt h, ok_bind]
  by_cases hmul : cur s = '*'
  · have htail := mem_close h hmul (by decide)
    simp only [hmul, if_true, true_or, javaLang_ffSpace htail, ok_bind]
    exact throws_bind (ih.factor _ (mem_skip htail)) fun v s' hs' => ih.termLoop (res * v) s' hs'
  by_cases hdiv : cur s = '/'
  · have htail := mem_close h hdiv (by decide)
    have hne : ¬ '/' = '*' := by decide
    simp only [hdiv, hne, if_true, if_false, or_true, javaLang_ffSpace htail, ok_bind]
    refine throws_bind (ih.factor _ (mem_skip htail)) ?_
    intro v s' hs'
    dsimp only
    by_cases hzero : v = 0
    · rw [if_pos hzero, if_pos hzero]
      exact throws_error .divByZero
    · rw [if_neg hzero, if_neg hzero]
      exact ih.termLoop (res.sdiv v) s' hs'
  · simp only [hmul, hdiv, or_self, if_false]
    exact throws_ok h

theorem expr_throws {fuel : Nat} (ih : JavaThrows fuel) {s : Text} (h : '$' ∈ s) :
    Throws (expr .javaLang (fuel + 1) s) (JavaLang.expr (fuel + 1) s) := by
  unfold expr JavaLang.expr
  refine throws_bind (ih.term s h) ?_
  intro v s' hs'
  simp only [javaLang_ffSpace hs', ok_bind]
  exact ih.exprLoop v (skip s') (mem_skip hs')

theorem exprLoop_throws {fuel : Nat} (ih : JavaThrows fuel) (res : Long) {s : Text} (h : '$' ∈ s) :
    Throws (exprLoop .javaLang (fuel + 1) res s) (JavaLang.exprLoop (fuel + 1) res s) := by
  unfold exprLoop JavaLang.exprLoop
  rw [javaLang_charAt h, ok_bind]
  by_cases hplus : cur s = '+'
  · have htail := mem_close h hplus (by decide)
    simp only [hplus, if_true, true_or, javaLang_ffSpace htail, ok_bind]
    exact throws_bind (ih.term _ (mem_skip htail)) fun v s' hs' => ih.exprLoop (res + v) s' hs'
  by_cases hminus : cur s = '-'
  · have htail := mem_close h hminus (by decide)
    have hne : ¬ '-' = '+' := by decide
    simp only [hminus, hne, if_true, if_false, or_true, javaLang_ffSpace htail, ok_bind]
    exact throws_bind (ih.term _ (mem_skip htail)) fun v s' hs' => ih.exprLoop (res - v) s' hs'
  · simp only [hplus, hminus, or_self, if_false]
    exact throws_ok h

theorem javaLang_throws (fuel : Nat) : JavaThrows fuel := by
  induction fuel with
  | zero => constructor <;> intros <;> exact throws_error .outOfFuel
  | succ fuel ih =>
    exact ⟨fun _ => factor_throws ih, fun _ => term_throws ih, fun v _ => termLoop_throws ih v,
      fun _ => expr_throws ih, fun v _ => exprLoop_throws ih v⟩

end Java

end Descent
end Calculator
end SsuComputer
