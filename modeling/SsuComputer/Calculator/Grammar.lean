import Mathlib.Algebra.Ring.Int.Defs
import Mathlib.Algebra.Ring.Nat
import SsuComputer.Calculator.Descent

/-!
# SsuComputer.Calculator.Grammar

The grammar of the calculators.

* `Derives` — the EBNF of the assignment, on texts without blanks.
* `Tree` — derivation trees that also carry the blanks around their tokens. A number may be empty
  and only a number carries a minus sign: these are the trees that the parsers can build.
* `Tree.write`, `Tree.value`, `Tree.eval` — the text of a tree, its value in 64-bit words (division
  by zero is an error) and its value as an integer; `Tree.value_of_safe` compares the two.
* `Tree.Fits` — reading greedily in front of `rest` keeps the empty numbers empty.
-/

namespace SsuComputer
namespace Calculator

open Descent

/-! ## The EBNF -/

inductive Symbol
  | number
  | factor
  | term
  | expr

inductive Derives : Symbol → Text → Prop
  | number {ds : List Digit} : ds ≠ [] → Derives .number (ds.map digitChar)
  | factor {w : Text} : Derives .number w → Derives .factor w
  | minus {w : Text} : Derives .number w → Derives .factor ('-' :: w)
  | paren {w : Text} : Derives .expr w → Derives .factor ('(' :: (w ++ [')']))
  | minusParen {w : Text} : Derives .expr w → Derives .factor ('-' :: '(' :: (w ++ [')']))
  | term {w : Text} : Derives .factor w → Derives .term w
  | mul {w x : Text} : Derives .term w → Derives .factor x → Derives .term (w ++ '*' :: x)
  | div {w x : Text} : Derives .term w → Derives .factor x → Derives .term (w ++ '/' :: x)
  | expr {w : Text} : Derives .term w → Derives .expr w
  | add {w x : Text} : Derives .expr w → Derives .term x → Derives .expr (w ++ '+' :: x)
  | sub {w x : Text} : Derives .expr w → Derives .term x → Derives .expr (w ++ '-' :: x)

/-! ## Trees -/

abbrev Blanks := { b : Text // ∀ c ∈ b, isBlank c = true }

def noBlanks : Blanks := ⟨[], by simp⟩

inductive Level
  | factor
  | term
  | expr

inductive Tree : Level → Type
  | number (before : Blanks) (sign : Option Blanks) (digits : List Digit) : Tree .factor
  | paren (before : Blanks) (e : Tree .expr) (after : Blanks) : Tree .factor
  | factor (f : Tree .factor) (after : Blanks) : Tree .term
  | mul (t : Tree .term) (f : Tree .factor) : Tree .term
  | div (t : Tree .term) (f : Tree .factor) : Tree .term
  | term (t : Tree .term) (after : Blanks) : Tree .expr
  | add (e : Tree .expr) (t : Tree .term) (after : Blanks) : Tree .expr
  | sub (e : Tree .expr) (t : Tree .term) (after : Blanks) : Tree .expr

namespace Tree

def signText : Option Blanks → Text
  | none => []
  | some b => '-' :: b.val

def write : {l : Level} → Tree l → Text
  | _, number before sign ds => before.val ++ (signText sign ++ ds.map digitChar)
  | _, paren before e after => before.val ++ '(' :: (write e ++ (after.val ++ [')']))
  | _, factor f after => write f ++ after.val
  | _, mul t f => write t ++ '*' :: write f
  | _, div t f => write t ++ '/' :: write f
  | _, term t after => write t ++ after.val
  | _, add e t after => write e ++ '+' :: (write t ++ after.val)
  | _, sub e t after => write e ++ '-' :: (write t ++ after.val)

def value : {l : Level} → Tree l → Except Stop Long
  | _, number _ none ds => .ok (1 * longOf ds)
  | _, number _ (some _) ds => .ok (-1 * longOf ds)
  | _, paren _ e _ => value e
  | _, factor f _ => value f
  | _, mul t f => do .ok ((← value t) * (← value f))
  | _, div t f => do
    let v ← value t
    let w ← value f
    if w = 0 then .error .divByZero else .ok (v.sdiv w)
  | _, term t _ => value t
  | _, add e t _ => do .ok ((← value e) + (← value t))
  | _, sub e t _ => do .ok ((← value e) - (← value t))

def literal (ds : List Digit) : Nat := ds.foldl (fun (n : Nat) (d : Digit) => n * 10 + d.val) 0

/-- The value over the integers; `/` truncates toward zero. -/
def eval : {l : Level} → Tree l → Int
  | _, number _ none ds => literal ds
  | _, number _ (some _) ds => -literal ds
  | _, paren _ e _ => eval e
  | _, factor f _ => eval f
  | _, mul t f => eval t * eval f
  | _, div t f => (eval t).tdiv (eval f)
  | _, term t _ => eval t
  | _, add e t _ => eval e + eval t
  | _, sub e t _ => eval e - eval t

def InRange (z : Int) : Prop := -2 ^ 63 ≤ z ∧ z < 2 ^ 63

/-- No divisor is zero and no literal or intermediate value leaves the 64-bit range. -/
def Safe : {l : Level} → Tree l → Prop
  | _, number _ _ ds => InRange (literal ds)
  | _, paren _ e _ => Safe e
  | _, factor f _ => Safe f
  | _, mul t f => Safe t ∧ Safe f ∧ InRange (eval t * eval f)
  | _, div t f => Safe t ∧ Safe f ∧ eval f ≠ 0 ∧ InRange ((eval t).tdiv (eval f))
  | _, term t _ => Safe t
  | _, add e t _ => Safe e ∧ Safe t ∧ InRange (eval e + eval t)
  | _, sub e t _ => Safe e ∧ Safe t ∧ InRange (eval e - eval t)

/-- No number is empty. -/
def Full : {l : Level} → Tree l → Prop
  | _, number _ _ ds => ds ≠ []
  | _, paren _ e _ => Full e
  | _, factor f _ => Full f
  | _, mul t f => Full t ∧ Full f
  | _, div t f => Full t ∧ Full f
  | _, term t _ => Full t
  | _, add e t _ => Full e ∧ Full t
  | _, sub e t _ => Full e ∧ Full t

instance (z : Int) : Decidable (InRange z) :=
  inferInstanceAs (Decidable (-2 ^ 63 ≤ z ∧ z < 2 ^ 63))

instance decidableSafe : {l : Level} → (t : Tree l) → Decidable t.Safe
  | _, number _ _ ds => inferInstanceAs (Decidable (InRange (literal ds)))
  | _, paren _ e _ => decidableSafe e
  | _, factor f _ => decidableSafe f
  | _, mul t f =>
    have := decidableSafe t
    have := decidableSafe f
    inferInstanceAs (Decidable (Safe t ∧ Safe f ∧ InRange (eval t * eval f)))
  | _, div t f =>
    have := decidableSafe t
    have := decidableSafe f
    inferInstanceAs
      (Decidable (Safe t ∧ Safe f ∧ eval f ≠ 0 ∧ InRange ((eval t).tdiv (eval f))))
  | _, term t _ => decidableSafe t
  | _, add e t _ =>
    have := decidableSafe e
    have := decidableSafe t
    inferInstanceAs (Decidable (Safe e ∧ Safe t ∧ InRange (eval e + eval t)))
  | _, sub e t _ =>
    have := decidableSafe e
    have := decidableSafe t
    inferInstanceAs (Decidable (Safe e ∧ Safe t ∧ InRange (eval e - eval t)))

/-- Only the first term of an expression has blanks of its own behind it. -/
def Tight : {l : Level} → Tree l → Prop
  | _, number _ _ _ => True
  | _, paren _ e _ => Tight e
  | _, factor f _ => Tight f
  | _, mul t f => Tight t ∧ Tight f
  | _, div t f => Tight t ∧ Tight f
  | _, term t _ => Tight t
  | _, add e t after => Tight e ∧ Tight t ∧ after.val = []
  | _, sub e t after => Tight e ∧ Tight t ∧ after.val = []

/-- An empty number has no blank behind it, and no minus sign that would be its own. -/
def Fits : {l : Level} → Tree l → Text → Prop
  | _, number _ sign ds, rest =>
    ds = [] → isBlank (cur rest) = false ∧ (sign = none → cur rest ≠ '-')
  | _, paren _ e after, rest => Fits e (after.val ++ ')' :: rest)
  | _, factor f after, rest => Fits f (after.val ++ rest)
  | _, mul t f, rest => Fits t ('*' :: (write f ++ rest)) ∧ Fits f rest
  | _, div t f, rest => Fits t ('/' :: (write f ++ rest)) ∧ Fits f rest
  | _, term t after, rest => Fits t (after.val ++ rest)
  | _, add e t after, rest =>
    Fits e ('+' :: (write t ++ (after.val ++ rest))) ∧ Fits t (after.val ++ rest)
  | _, sub e t after, rest =>
    Fits e ('-' :: (write t ++ (after.val ++ rest))) ∧ Fits t (after.val ++ rest)

theorem fits_of_full {l : Level} (t : Tree l) (rest : Text) (h : t.Full) : t.Fits rest := by
  induction t generalizing rest with
  | number before sign ds =>
    intro hempty
    exact absurd hempty h
  | paren before e after ih => exact ih _ h
  | factor f after ih => exact ih _ h
  | mul t f iht ihf => exact ⟨iht _ h.1, ihf _ h.2⟩
  | div t f iht ihf => exact ⟨iht _ h.1, ihf _ h.2⟩
  | term t after ih => exact ih _ h
  | add e t after ihe iht => exact ⟨ihe _ h.1, iht _ h.2⟩
  | sub e t after ihe iht => exact ⟨ihe _ h.1, iht _ h.2⟩

theorem toInt_bmod {z : Int} (h : InRange z) : z.bmod (2 ^ 64) = z := by
  obtain ⟨h1, h2⟩ := h
  exact Int.bmod_eq_of_le (by omega) (by omega)

theorem longOf_literal (ds : List Digit) : longOf ds = BitVec.ofNat 64 (literal ds) := by
  have h : ∀ (ds : List Digit) (n : Nat), ds.foldl push (BitVec.ofNat 64 n) =
      BitVec.ofNat 64 (ds.foldl (fun (n : Nat) (d : Digit) => n * 10 + d.val) n) := by
    intro ds
    induction ds with
    | nil => intro n; rfl
    | cons d ds ih =>
      intro n
      have hpush : push (BitVec.ofNat 64 n) d = BitVec.ofNat 64 (n * 10 + d) := by
        unfold push
        rw [BitVec.ofNat_add, BitVec.ofNat_mul]
        rfl
      rw [List.foldl_cons, List.foldl_cons, hpush, ih]
  exact h ds 0

theorem toInt_longOf {ds : List Digit} (h : InRange (literal ds)) :
    (longOf ds).toInt = literal ds := by
  rw [longOf_literal, BitVec.toInt_ofNat', toInt_bmod h]

theorem one_mul_long (v : Long) : 1 * v = v := BitVec.one_mul v

/-- The value of a safe tree in machine words is its value over the integers. -/
theorem value_of_safe {l : Level} (t : Tree l) (h : t.Safe) :
    ∃ v, t.value = .ok v ∧ v.toInt = t.eval := by
  induction t with
  | number before sign ds =>
    have hds := toInt_longOf h
    cases sign with
    | none => exact ⟨_, rfl, by rw [one_mul_long]; exact hds⟩
    | some b =>
      refine ⟨_, rfl, ?_⟩
      rw [BitVec.neg_mul, one_mul_long, BitVec.toInt_neg, hds]
      obtain ⟨h1, h2⟩ := h
      exact toInt_bmod ⟨by omega, by omega⟩
  | paren before e after ih => exact ih h
  | factor f after ih => exact ih h
  | mul t f iht ihf =>
    obtain ⟨v, hv, hvi⟩ := iht h.1
    obtain ⟨w, hw, hwi⟩ := ihf h.2.1
    refine ⟨v * w, ?_, ?_⟩
    · simp only [value, hv, hw]
      rfl
    · rw [BitVec.toInt_mul, hvi, hwi]
      exact toInt_bmod h.2.2
  | div t f iht ihf =>
    obtain ⟨v, hv, hvi⟩ := iht h.1
    obtain ⟨w, hw, hwi⟩ := ihf h.2.1
    have hne : w ≠ 0 := by
      rintro rfl
      exact h.2.2.1 (hwi ▸ BitVec.toInt_zero)
    refine ⟨v.sdiv w, ?_, ?_⟩
    · simp only [value, hv, hw]
      exact if_neg hne
    · rw [BitVec.toInt_sdiv, hvi, hwi]
      exact toInt_bmod h.2.2.2
  | term t after ih => exact ih h
  | add e t after ihe iht =>
    obtain ⟨v, hv, hvi⟩ := ihe h.1
    obtain ⟨w, hw, hwi⟩ := iht h.2.1
    refine ⟨v + w, ?_, ?_⟩
    · simp only [value, hv, hw]
      rfl
    · rw [BitVec.toInt_add, hvi, hwi]
      exact toInt_bmod h.2.2
  | sub e t after ihe iht =>
    obtain ⟨v, hv, hvi⟩ := ihe h.1
    obtain ⟨w, hw, hwi⟩ := iht h.2.1
    refine ⟨v - w, ?_, ?_⟩
    · simp only [value, hv, hw]
      rfl
    · rw [BitVec.toInt_sub, hvi, hwi]
      exact toInt_bmod h.2.2

end Tree
end Calculator
end SsuComputer
