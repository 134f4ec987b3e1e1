import SsuComputer.Calculator.DescentCorrect

/-!
# SsuComputer.Calculator.ClangReads

`clang.c` once more, with the indices at which `getCurChar` reads.

* `State` — the input of `Clang`, the value of `iterator` and the indices read so far.
* A trap carries the state in which the division is made.
* `main_input` — the indices apart, this is `Clang`.
-/

namespace SsuComputer
namespace Calculator
namespace ClangReads

structure State where
  input : Clang.Input
  iterator : Nat
  reads : List Nat
deriving Repr, DecidableEq

inductive Stop
  | outOfFuel
  | divByZero (s : State)
deriving Repr, DecidableEq

def getCurChar (s : State) : Char × State :=
  (Clang.getCurChar s.input, { s with reads := s.iterator :: s.reads })

def moveNext (s : State) : State :=
  { s with input := Clang.moveNext s.input, iterator := s.iterator + 1 }

def setError (s : State) : State := { s with input := { s.input with errorFlag := true } }

/-- The loop of `ffSpace`; the first argument is what it still has in front of it. -/
def ffSpaceLoop : List Char → State → State
  | [], s => (getCurChar (getCurChar s).2).2
  | c :: rest, s =>
    let s := (getCurChar s).2
    if c = ' ' then ffSpaceLoop rest (moveNext s)
    else
      let s := (getCurChar s).2
      if c = '\t' then ffSpaceLoop rest (moveNext s) else s

def ffSpace (s : State) : State := ffSpaceLoop s.input.rest s

def digit (s : State) : Int × State :=
  let (curChar, s) := getCurChar s
  if !Clang.isValid curChar then (-1, setError s)
  else
    let digit : Int := curChar.toNat - '0'.toNat
    if digit < 0 ∨ digit > 9 then (-1, s) else (digit, s)

/-- The loop of `number`. -/
def numberLoop : List Char → Long → State → Long × State
  | [], res, s => (res, (digit s).2)
  | _ :: rest, res, s =>
    let (tempDigit, s) := digit s
    if tempDigit ≥ 0 then numberLoop rest (res * 10 + BitVec.ofInt 64 tempDigit) (moveNext s)
    else (res, s)

def number (s : State) : Long × State :=
  let s := ffSpace s
  numberLoop s.input.rest 0 s

mutual

def factor : Nat → State → Except Stop (Long × State)
  | 0, _ => .error .outOfFuel
  | fuel + 1, s =>
    let (token, s) := getCurChar (ffSpace s)
    if token = '(' then do
      let (res, s) ← expr fuel (ffSpace (moveNext s))
      let (token, s) := getCurChar s
      if token ≠ ')' then .ok (res, moveNext (setError s))
      else .ok (res, moveNext s)
    else
      let (c, s) := getCurChar s
      if c = '-' then
        let (res, s) := number (ffSpace (moveNext s))
        .ok (-1 * res, s)
      else
        let (res, s) := number s
        .ok (1 * res, s)

def term : Nat → State → Except Stop (Long × State)
  | 0, _ => .error .outOfFuel
  | fuel + 1, s =>
    if s.input.errorFlag then .ok (-1, s)
    else do
      let (res, s) ← factor fuel s
      termLoop fuel res (ffSpace s)

def termLoop : Nat → Long → State → Except Stop (Long × State)
  | 0, _, _ => .error .outOfFuel
  | fuel + 1, res, s =>
    if s.input.errorFlag then .ok (res, s)
    else
      let (c, s) := getCurChar s
      if c = '*' then do
        let (rhs, s) ← factor fuel (ffSpace (moveNext s))
        termLoop fuel (res * rhs) s
      else if c = '/' then do
        let (rhs, s) ← factor fuel (ffSpace (moveNext s))
        if rhs = 0 then .error (.divByZero s) else termLoop fuel (res.sdiv rhs) s
      else .ok (res, s)

def expr : Nat → State → Except Stop (Long × State)
  | 0, _ => .error .outOfFuel
  | fuel + 1, s =>
    if s.input.errorFlag then .ok (-1, s)
    else do
      let (res, s) ← term fuel s
      exprLoop fuel res (ffSpace s)

def exprLoop : Nat → Long → State → Except Stop (Long × State)
  | 0, _, _ => .error .outOfFuel
  | fuel + 1, res, s =>
    if s.input.errorFlag then .ok (res, s)
    else
      let (c, s) := getCurChar s
      if c = '+' then do
        let (rhs, s) ← term fuel (ffSpace (moveNext s))
        exprLoop fuel (res + rhs) (ffSpace s)
      else if c = '-' then do
        let (rhs, s) ← term fuel (ffSpace (moveNext s))
        exprLoop fuel (res - rhs) (ffSpace s)
      else .ok (res, s)

end

/-- One round of the loop of `main`. -/
def main (fuel : Nat) (line stale : List Char) : Except Stop (Clang.Outcome × State) := do
  let (res, s) ← expr fuel ⟨Clang.getInputString line stale, 0, []⟩
  let (c, s) := getCurChar s
  if c ≠ '$' ∨ s.input.errorFlag then .ok (.syntaxError, s) else .ok (.printed res, s)

open Descent

/-! ## The indices apart -/

def erase : Except Stop (Long × State) → CResult
  | .ok (res, s) => .ok (res, s.input)
  | .error .outOfFuel => .error .outOfFuel
  | .error (.divByZero _) => .error .divByZero

theorem erase_bind {r : Except Stop (Long × State)} {k : Long × State → Except Stop (Long × State)}
    {k' : Long × Clang.Input → CResult} (h : ∀ v s, erase (k (v, s)) = k' (v, s.input)) :
    erase (r >>= k) = erase r >>= k' := by
  cases r with
  | ok p => exact h p.1 p.2
  | error e => cases e <;> rfl

theorem ffSpaceLoop_blank {c : Char} (h : isBlank c = true) (rest : Text) (s : State) :
    ∃ reads, (∀ i ∈ reads, i = s.iterator) ∧ ffSpaceLoop (c :: rest) s =
      ffSpaceLoop rest (moveNext { s with reads := reads ++ s.reads }) := by
  rcases eq_of_isBlank h with rfl | rfl
  · exact ⟨[s.iterator], by simp, rfl⟩
  · exact ⟨[s.iterator, s.iterator], by simp, rfl⟩

theorem ffSpaceLoop_stop {c : Char} (h : isBlank c = false) (rest : Text) (s : State) :
    ffSpaceLoop (c :: rest) s = (getCurChar (getCurChar s).2).2 := by
  have hne : c ≠ ' ' ∧ c ≠ '\t' := by
    constructor
    · rintro rfl
      cases h
    · rintro rfl
      cases h
  unfold ffSpaceLoop
  dsimp only
  rw [if_neg hne.1, if_neg hne.2]

theorem ffSpace_input (s : State) : (ffSpace s).input = Clang.ffSpace s.input := by
  have h : ∀ (rest : Text) (s : State), s.input.rest = rest →
      (ffSpaceLoop rest s).input = ⟨skip rest, s.input.errorFlag⟩ := by
    intro rest
    induction rest with
    | nil =>
      rintro ⟨⟨_, flag⟩, i, reads⟩ rfl
      rfl
    | cons c rest ih =>
      rintro ⟨⟨_, flag⟩, i, reads⟩ rfl
      cases hc : isBlank c with
      | true =>
        obtain ⟨rs, _, h⟩ := ffSpaceLoop_blank hc rest ⟨⟨c :: rest, flag⟩, i, reads⟩
        rw [h, ih _ rfl, skip_blank hc]
        rfl
      | false =>
        rw [ffSpaceLoop_stop hc, skip_cons_of_not_blank hc]
        rfl
  exact (h s.input.rest s rfl).trans (clang_ffSpace _ _).symm

theorem digit_input (s : State) :
    ((digit s).1, (digit s).2.input) = Clang.digit s.input := by
  unfold digit Clang.digit
  dsimp only [getCurChar]
  split_ifs <;> rfl

theorem numberLoop_cons (c : Char) (rest : Text) (res : Long) (s : State) :
    numberLoop (c :: rest) res s =
      if (digit s).1 ≥ 0 then
        numberLoop rest (res * 10 + BitVec.ofInt 64 (digit s).1) (moveNext (digit s).2)
      else (res, (digit s).2) := rfl

theorem clang_numberLoop_cons (c : Char) (rest : Text) (flag : Bool) (res : Long) :
    Clang.numberLoop (c :: rest) flag res =
      if (Clang.digit ⟨c :: rest, flag⟩).1 ≥ 0 then
        Clang.numberLoop rest (Clang.digit ⟨c :: rest, flag⟩).2.errorFlag
          (res * 10 + BitVec.ofInt 64 (Clang.digit ⟨c :: rest, flag⟩).1)
      else (res, (Clang.digit ⟨c :: rest, flag⟩).2) := rfl

theorem digit_rest (s : Clang.Input) : (Clang.digit s).2.rest = s.rest := by
  unfold Clang.digit
  dsimp only
  split_ifs <;> rfl

theorem numberLoop_input (rest : Text) (res : Long) (s : State) (h : s.input.rest = rest) :
    ((numberLoop rest res s).1, (numberLoop rest res s).2.input) =
      Clang.numberLoop rest s.input.errorFlag res := by
  induction rest generalizing res s with
  | nil =>
    have hdigit := congrArg Prod.snd (digit_input s)
    obtain ⟨⟨_, flag⟩, i, reads⟩ := s
    obtain rfl := h
    exact Prod.ext rfl hdigit
  | cons c rest ih =>
    have hdigit := digit_input s
    have hrest := digit_rest s.input
    obtain ⟨⟨_, flag⟩, i, reads⟩ := s
    obtain rfl := h
    rw [numberLoop_cons, clang_numberLoop_cons]
    rw [← hdigit] at hrest ⊢
    dsimp only at hrest ⊢
    split_ifs
    · refine ih _ _ ?_
      show (digit _).2.input.rest.tail = rest
      rw [hrest]
      rfl
    · rfl

theorem number_input (s : State) :
    ((number s).1, (number s).2.input) = Clang.number s.input := by
  unfold number Clang.number
  rw [← ffSpace_input]
  exact numberLoop_input _ 0 _ rfl

/-- The five functions with fuel `fuel`. -/
structure Simulates (fuel : Nat) : Prop where
  factor : ∀ s, erase (factor fuel s) = Clang.factor fuel s.input
  term : ∀ s, erase (term fuel s) = Clang.term fuel s.input
  termLoop : ∀ v s, erase (termLoop fuel v s) = Clang.termLoop fuel v s.input
  expr : ∀ s, erase (expr fuel s) = Clang.expr fuel s.input
  exprLoop : ∀ v s, erase (exprLoop fuel v s) = Clang.exprLoop fuel v s.input

theorem factor_input {fuel : Nat} (ih : Simulates fuel) (s : State) :
    erase (factor (fuel + 1) s) = Clang.factor (fuel + 1) s.input := by
  unfold factor Clang.factor
  dsimp only [getCurChar]
  rw [← ffSpace_input]
  split_ifs with hopen hminus
  · refine (erase_bind ?_).trans (congrArg (· >>= _) ((ih.expr _).trans ?_))
    · intro v s'
      dsimp only
      split_ifs <;> rfl
    · rw [ffSpace_input]
      rfl
  · have h := number_input (ffSpace (moveNext
      { ffSpace s with reads := (ffSpace s).iterator :: (ffSpace s).iterator :: (ffSpace s).reads }))
    rw [ffSpace_input] at h
    -- stated before it meets the goal, where the unifier would unfold the products
    have hminus := congrArg (fun p : Long × Clang.Input => (Except.ok (-1 * p.1, p.2) : CResult)) h
    exact hminus
  · have h := number_input
      { ffSpace s with reads := (ffSpace s).iterator :: (ffSpace s).iterator :: (ffSpace s).reads }
    have hplain := congrArg (fun p : Long × Clang.Input => (Except.ok (1 * p.1, p.2) : CResult)) h
    exact hplain

theorem term_input {fuel : Nat} (ih : Simulates fuel) (s : State) :
    erase (term (fuel + 1) s) = Clang.term (fuel + 1) s.input := by
  unfold term Clang.term
  split_ifs
  · rfl
  · refine (erase_bind ?_).trans (congrArg (· >>= _) (ih.factor s))
    intro v s'
    dsimp only
    rw [← ffSpace_input]
    exact ih.termLoop v _

theorem termLoop_input {fuel : Nat} (ih : Simulates fuel) (v : Long) (s : State) :
    erase (termLoop (fuel + 1) v s) = Clang.termLoop (fuel + 1) v s.input := by
  unfold termLoop Clang.termLoop
  dsimp only [getCurChar]
  split_ifs
  · rfl
  · refine (erase_bind ?_).trans (congrArg (· >>= _) ((ih.factor _).trans ?_))
    · intro w s'
      exact ih.termLoop _ _
    · rw [ffSpace_input]
      rfl
  · refine (erase_bind ?_).trans (congrArg (· >>= _) ((ih.factor _).trans ?_))
    · intro w s'
      dsimp only
      split_ifs
      · rfl
      · exact ih.termLoop _ _
    · rw [ffSpace_input]
      rfl
  · rfl

theorem expr_input {fuel : Nat} (ih : Simulates fuel) (s : State) :
    erase (expr (fuel + 1) s) = Clang.expr (fuel + 1) s.input := by
  unfold expr Clang.expr
  split_ifs
  · rfl
  · refine (erase_bind ?_).trans (congrArg (· >>= _) (ih.term s))
    intro v s'
    dsimp only
    rw [← ffSpace_input]
    exact ih.exprLoop v _

theorem exprLoop_input {fuel : Nat} (ih : Simulates fuel) (v : Long) (s : State) :
    erase (exprLoop (fuel + 1) v s) = Clang.exprLoop (fuel + 1) v s.input := by
  unfold exprLoop Clang.exprLoop
  dsimp only [getCurChar]
  split_ifs
  · rfl
  · refine (erase_bind ?_).trans (congrArg (· >>= _) ((ih.term _).trans ?_))
    · intro w s'
      rw [← ffSpace_input]
      exact ih.exprLoop _ _
    · rw [ffSpace_input]
      rfl
  · refine (erase_bind ?_).trans (congrArg (· >>= _) ((ih.term _).trans ?_))
    · intro w s'
      rw [← ffSpace_input]
      exact ih.exprLoop _ _
    · rw [ffSpace_input]
      rfl
  · rfl

theorem simulates (fuel : Nat) : Simulates fuel := by
  induction fuel with
  | zero => constructor <;> intros <;> rfl
  | succ fuel ih =>
    exact ⟨factor_input ih, term_input ih, termLoop_input ih, expr_input ih, exprLoop_input ih⟩

/-- The outcome of a round; the state is dropped. -/
def outcome : Except Stop (Clang.Outcome × State) → Except Clang.Stop Clang.Outcome
  | .ok (o, _) => .ok o
  | .error .outOfFuel => .error .outOfFuel
  | .error (.divByZero _) => .error .divByZero

theorem main_input (fuel : Nat) (line stale : Text) :
    outcome (main fuel line stale) = Clang.main fuel line stale := by
  have h := (simulates fuel).expr ⟨Clang.getInputString line stale, 0, []⟩
  unfold main Clang.main
  rw [← h]
  cases expr fuel ⟨Clang.getInputString line stale, 0, []⟩ with
  | ok p =>
    show outcome (if _ then _ else _) = if _ then _ else _
    dsimp only [getCurChar]
    split_ifs <;> rfl
  | error e => cases e <;> rfl

end ClangReads
end Calculator
end SsuComputer
