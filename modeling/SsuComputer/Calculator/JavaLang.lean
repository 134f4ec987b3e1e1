import SsuComputer.Calculator.Clang

/-!
# SsuComputer.Calculator.JavaLang

`javalang.java`: the class `RDParser`. The state is `input` from `idx` on; `charAt` throws behind
the end. The functions are fuelled as those of `Clang`.
-/

namespace SsuComputer
namespace Calculator
namespace JavaLang

inductive Thrown
  | outOfFuel
  | parsingException
  | arithmeticException
  | indexOutOfBounds
deriving Repr, DecidableEq

def charAt : List Char → Except Thrown Char
  | [] => .error .indexOutOfBounds
  | c :: _ => .ok c

def ffSpace : List Char → Except Thrown (List Char)
  | [] => .error .indexOutOfBounds
  | c :: rest => if c = ' ' ∨ c = '\t' then ffSpace rest else .ok (c :: rest)

def digit (s : List Char) : Except Thrown Int := do
  let c ← charAt s
  if !Clang.isValid c then .error .parsingException else .ok ((c.toNat : Int) - '0'.toNat)

/-- The loop of `number`. -/
def numberLoop : List Char → Long → Except Thrown (Long × List Char)
  | [], _ => .error .indexOutOfBounds
  | c :: rest, result => do
    let tempDigit ← digit (c :: rest)
    if tempDigit < 0 ∨ tempDigit > 9 then .ok (result, c :: rest)
    else numberLoop rest (result * 10 + BitVec.ofInt 64 tempDigit)

def number (s : List Char) : Except Thrown (Long × List Char) := do
  let s ← ffSpace s
  numberLoop s 0

mutual

def factor : Nat → List Char → Except Thrown (Long × List Char)
  | 0, _ => .error .outOfFuel
  | fuel + 1, s => do
    let s ← ffSpace s
    let c ← charAt s
    if c = '(' then
      let s ← ffSpace s.tail
      let (result, s) ← expr fuel s
      let s ← ffSpace s
      let c ← charAt s
      if c ≠ ')' then .error .parsingException else .ok (result, s.tail)
    else if c = '-' then
      let (result, s) ← number s.tail
      .ok (-1 * result, s)
    else
      let (result, s) ← number s
      .ok (1 * result, s)

def term : Nat → List Char → Except Thrown (Long × List Char)
  | 0, _ => .error .outOfFuel
  | fuel + 1, s => do
    let (result, s) ← factor fuel s
    let s ← ffSpace s
    termLoop fuel result s

def termLoop : Nat → Long → List Char → Except Thrown (Long × List Char)
  | 0, _, _ => .error .outOfFuel
  | fuel + 1, result, s => do
    let operator ← charAt s
    if operator = '*' ∨ operator = '/' then
      let s ← ffSpace s.tail
      let (rhs, s) ← factor fuel s
      if operator = '*' then termLoop fuel (result * rhs) s
      else if rhs = 0 then .error .arithmeticException
      else termLoop fuel (result.sdiv rhs) s
    else .ok (result, s)

def expr : Nat → List Char → Except Thrown (Long × List Char)
  | 0, _ => .error .outOfFuel
  | fuel + 1, s => do
    let (result, s) ← term fuel s
    let s ← ffSpace s
    exprLoop fuel result s

def exprLoop : Nat → Long → List Char → Except Thrown (Long × List Char)
  | 0, _, _ => .error .outOfFuel
  | fuel + 1, result, s => do
    let operator ← charAt s
    if operator = '+' ∨ operator = '-' then
      let s ← ffSpace s.tail
      let (rhs, s) ← term fuel s
      exprLoop fuel (if operator = '+' then result + rhs else result - rhs) s
    else .ok (result, s)

end

/-- `parse`, with the value that it prints. -/
def parse (fuel : Nat) (i : List Char) : Except Thrown Long := do
  let (res, s) ← expr fuel (i ++ ['$'])
  let c ← charAt s
  if c ≠ '$' then .error .parsingException else .ok res

end JavaLang
end Calculator
end SsuComputer
