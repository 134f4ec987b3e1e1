import SsuComputer.Calculator.DescentCorrect

/-!
# SsuComputer.Calculator.Python

`python.py`: the class `RDParser`. The state is `input` from `idx` on; reading behind the end raises
an `IndexError`. The functions are fuelled as those of `Clang`.

* `Arith` — the numbers of Python: whole numbers and floats, with the exceptions that `*`, `/`, `+`
  and `-` raise on them. `int` reads one character, decimal digits of other scripts included.
* `value` — the value of a tree in these numbers.
-/

namespace SsuComputer
namespace Calculator
namespace Python

open Descent

structure Arith (V E : Type) where
  int : Char → Option Digit
  int_ascii : ∀ c : Char, c.toNat < 128 → int c = digitOf c
  ofInt : Int → V
  mul : V → V → Except E V
  div : V → V → Except E V
  add : V → V → Except E V
  sub : V → V → Except E V

inductive Thrown (E : Type)
  | outOfFuel
  | parseException
  | indexError
  | arithmetic (e : E)

variable {V E : Type} (A : Arith V E)

def lift (x : Except E V) : Except (Thrown E) V := x.mapError .arithmetic

def current : Text → Except (Thrown E) Char
  | [] => .error .indexError
  | c :: _ => .ok c

def ffSpace : Text → Except (Thrown E) Text
  | [] => .error .indexError
  | c :: rest => if c = ' ' ∨ c = '\t' then ffSpace rest else .ok (c :: rest)

def digit (s : Text) : Except (Thrown E) Int := do
  let c ← current s
  match A.int c with
  | some d => .ok d.val
  | none => .ok (-1)

/-- The loop of `number`. -/
def numberLoop : Text → Int → Except (Thrown E) (Int × Text)
  | [], _ => .error .indexError
  | c :: rest, result => do
    let tempDigit ← digit A (c :: rest)
    if tempDigit < 0 then .ok (result, c :: rest)
    else numberLoop rest (result * 10 + tempDigit)

def number (s : Text) : Except (Thrown E) (Int × Text) := do
  let s ← ffSpace s
  numberLoop A s 0

mutual

def factor : Nat → Text → Except (Thrown E) (V × Text)
  | 0, _ => .error .outOfFuel
  | fuel + 1, s => do
    let s ← ffSpace s
    let c ← current s
    if c = '(' then
      let s ← ffSpace s.tail
      let (result, s) ← expr fuel s
      let s ← ffSpace s
      let c ← current s
      if c ≠ ')' then .error .parseException else .ok (result, s.tail)
    else if c = '-' then
      let (result, s) ← number A s.tail
      .ok (A.ofInt (-1 * result), s)
    else
      let (result, s) ← number A s
      .ok (A.ofInt (1 * result), s)

def term : Nat → Text → Except (Thrown E) (V × Text)
  | 0, _ => .error .outOfFuel
  | fuel + 1, s => do
    let (result, s) ← factor fuel s
    let s ← ffSpace s
    termLoop fuel result s

def termLoop : Nat → V → Text → Except (Thrown E) (V × Text)
  | 0, _, _ => .error .outOfFuel
  | fuel + 1, result, s => do
    let operator ← current s
    if operator = '*' ∨ operator = '/' then
      let s ← ffSpace s.tail
      let (rhs, s) ← factor fuel s
      let result ← lift (if operator = '*' then A.mul result rhs else A.div result rhs)
      termLoop fuel result s
    else .ok (result, s)

def expr : Nat → Text → Except (Thrown E) (V × Text)
  | 0, _ => .error .outOfFuel
  | fuel + 1, s => do
    let (result, s) ← term fuel s
    let s ← ffSpace s
    exprLoop fuel result s

def exprLoop : Nat → V → Text → Except (Thrown E) (V × Text)
  | 0, _, _ => .error .outOfFuel
  | fuel + 1, result, s => do
    let operator ← current s
    if operator = '+' ∨ operator = '-' then
      let s ← ffSpace s.tail
      let (rhs, s) ← term fuel s
      let result ← lift (if operator = '+' then A.add result rhs else A.sub result rhs)
      exprLoop fuel result s
    else .ok (result, s)

end

/-- `parser`, with the value that it prints. -/
def parser (fuel : Nat) (str : Text) : Except (Thrown E) V := do
  let (res, s) ← expr A fuel (str ++ ['$'])
  let c ← current s
  if c ≠ '$' then .error .parseException else .ok res

def value : {l : Level} → Tree l → Except E V
  | _, .number _ none ds => .ok (A.ofInt (1 * Tree.literal ds))
  | _, .number _ (some _) ds => .ok (A.ofInt (-1 * Tree.literal ds))
  | _, .paren _ e _ => value e
  | _, .factor f _ => value f
  | _, .mul t f => do A.mul (← value t) (← value f)
  | _, .div t f => do A.div (← value t) (← value f)
  | _, .term t _ => value t
  | _, .add e t _ => do A.add (← value e) (← value t)
  | _, .sub e t _ => do A.sub (← value e) (← value t)

end Python
end Calculator
end SsuComputer
