import Mathlib.Data.List.Basic

/-!
# SsuComputer.Calculator.Clang

`clang.c`: the recursive-descent calculator in C.

* `Input` is `input_buffer` from `iterator` on, together with `error_flag`; behind the end of what
  the buffer holds there are zero bytes.
* `gets` leaves the line, a zero byte and whatever earlier lines left behind it (`stale`);
  `getInputString` writes its `$` over the first zero byte.
* `long` is a 64-bit word. Signed overflow wraps around.
* Each call of one of the mutually recursive functions and each pass of their loops costs one unit
  of fuel.
-/

namespace SsuComputer
namespace Calculator

abbrev Long := BitVec 64

namespace Clang

def maxBuffer : Nat := 99999

structure Input where
  rest : List Char
  errorFlag : Bool
deriving Repr, DecidableEq

inductive Stop
  | outOfFuel
  | divByZero
deriving Repr, DecidableEq

def isValid (a : Char) : Bool :=
  a ∈ ['+', '-', '*', '/', '(', ')', '0', '1', '2', '3', '4', '5', '6', '7', '8', '9', ' ', '\t',
    '$']

def getCurChar (s : Input) : Char := s.rest.headD '\x00'

def moveNext (s : Input) : Input := { s with rest := s.rest.tail }

def ffSpace (s : Input) : Input := { s with rest := s.rest.dropWhile fun c => c == ' ' || c == '\t' }

def digit (s : Input) : Int × Input :=
  if !isValid (getCurChar s) then (-1, { s with errorFlag := true })
  else
    let digit : Int := (getCurChar s).toNat - '0'.toNat
    if digit < 0 ∨ digit > 9 then (-1, s) else (digit, s)

/-- The loop of `number`, which moves on after each digit. -/
def numberLoop : List Char → Bool → Long → Long × Input
  | [], errorFlag, res => (res, (digit ⟨[], errorFlag⟩).2)
  | c :: rest, errorFlag, res =>
    let (tempDigit, s) := digit ⟨c :: rest, errorFlag⟩
    if tempDigit ≥ 0 then numberLoop rest s.errorFlag (res * 10 + BitVec.ofInt 64 tempDigit)
    else (res, s)

def number (s : Input) : Long × Input :=
  let s := ffSpace s
  numberLoop s.rest s.errorFlag 0

mutual

def factor : Nat → Input → Except Stop (Long × Input)
  | 0, _ => .error .outOfFuel
  | fuel + 1, s =>
    let s := ffSpace s
    if getCurChar s = '(' then do
      let (res, s) ← expr fuel (ffSpace (moveNext s))
      if getCurChar s ≠ ')' then .ok (res, moveNext { s with errorFlag := true })
      else .ok (res, moveNext s)
    else if getCurChar s = '-' then
      let (res, s) := number (ffSpace (moveNext s))
      .ok (-1 * res, s)
    else
      let (res, s) := number s
      .ok (1 * res, s)

def term : Nat → Input → Except Stop (Long × Input)
  | 0, _ => .error .outOfFuel
  | fuel + 1, s =>
    if s.errorFlag then .ok (-1, s)
    else do
      let (res, s) ← factor fuel s
      termLoop fuel res (ffSpace s)

def termLoop : Nat → Long → Input → Except Stop (Long × Input)
  | 0, _, _ => .error .outOfFuel
  | fuel + 1, res, s =>
    if s.errorFlag then .ok (res, s)
    else if getCurChar s = '*' then do
      let (rhs, s) ← factor fuel (ffSpace (moveNext s))
      termLoop fuel (res * rhs) s
    else if getCurChar s = '/' then do
      let (rhs, s) ← factor fuel (ffSpace (moveNext s))
      if rhs = 0 then .error .divByZero else termLoop fuel (res.sdiv rhs) s
    else .ok (res, s)

def expr : Nat → Input → Except Stop (Long × Input)
  | 0, _ => .error .outOfFuel
  | fuel + 1, s =>
    if s.errorFlag then .ok (-1, s)
    else do
      let (res, s) ← term fuel s
      exprLoop fuel res (ffSpace s)

def exprLoop : Nat → Long → Input → Except Stop (Long × Input)
  | 0, _, _ => .error .outOfFuel
  | fuel + 1, res, s =>
    if s.errorFlag then .ok (res, s)
    else if getCurChar s = '+' then do
      let (rhs, s) ← term fuel (ffSpace (moveNext s))
      exprLoop fuel (res + rhs) (ffSpace s)
    else if getCurChar s = '-' then do
      let (rhs, s) ← term fuel (ffSpace (moveNext s))
      exprLoop fuel (res - rhs) (ffSpace s)
    else .ok (res, s)

end

def zeroByte : Char := '\x00'

def getInputString (line stale : List Char) : Input :=
  let inputBuffer := line ++ zeroByte :: stale
  ⟨inputBuffer.takeWhile (· ≠ zeroByte) ++ '$' :: (inputBuffer.dropWhile (· ≠ zeroByte)).tail, false⟩

inductive Outcome
  | printed (res : Long)
  | syntaxError
deriving Repr, DecidableEq

/-- One round of the loop of `main`. -/
def main (fuel : Nat) (line stale : List Char) : Except Stop Outcome := do
  let (res, s) ← expr fuel (getInputString line stale)
  if getCurChar s ≠ '$' ∨ s.errorFlag then .ok .syntaxError else .ok (.printed res)

end Clang
end Calculator
end SsuComputer
