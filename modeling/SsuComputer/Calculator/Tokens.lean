import SsuComputer.Calculator.CalculatorCorrect

/-!
# SsuComputer.Calculator.Tokens

Token sequences, and where blanks may stand between them.

* `TokenDerives` — the EBNF on tokens; `derives_iff_tokens` relates it to the EBNF on texts.
* `spaced` — the text of a token sequence with blanks in front of each token and at the end.
* `Position` — how far into a sum and a product one has come, inside and outside of parentheses.
* `Takes`, `BlanksFit` — the places at which each parser skips blanks. None skips them behind a
  factor that follows `*` or `/`, in front of another `*` or `/`. Behind such a factor in a term that
  follows `+` or `-`, only the C parser skips them, and any parser in front of `)`.
-/

namespace SsuComputer
namespace Calculator

open Descent

inductive Token
  | number (ds : { ds : List Digit // ds ≠ [] })
  | plus
  | minus
  | star
  | slash
  | leftParen
  | rightParen

namespace Token

def text : Token → Text
  | number ds => ds.val.map digitChar
  | plus => ['+']
  | minus => ['-']
  | star => ['*']
  | slash => ['/']
  | leftParen => ['(']
  | rightParen => [')']

end Token

inductive TokenDerives : Symbol → List Token → Prop
  | number (ds : { ds : List Digit // ds ≠ [] }) : TokenDerives .number [.number ds]
  | factor {w : List Token} : TokenDerives .number w → TokenDerives .factor w
  | minus {w : List Token} : TokenDerives .number w → TokenDerives .factor (.minus :: w)
  | paren {w : List Token} :
      TokenDerives .expr w → TokenDerives .factor (.leftParen :: (w ++ [.rightParen]))
  | minusParen {w : List Token} :
      TokenDerives .expr w → TokenDerives .factor (.minus :: .leftParen :: (w ++ [.rightParen]))
  | term {w : List Token} : TokenDerives .factor w → TokenDerives .term w
  | mul {w x : List Token} :
      TokenDerives .term w → TokenDerives .factor x → TokenDerives .term (w ++ .star :: x)
  | div {w x : List Token} :
      TokenDerives .term w → TokenDerives .factor x → TokenDerives .term (w ++ .slash :: x)
  | expr {w : List Token} : TokenDerives .term w → TokenDerives .expr w
  | add {w x : List Token} :
      TokenDerives .expr w → TokenDerives .term x → TokenDerives .expr (w ++ .plus :: x)
  | sub {w x : List Token} :
      TokenDerives .expr w → TokenDerives .term x → TokenDerives .expr (w ++ .minus :: x)

def text (ts : List Token) : Text := ts.flatMap Token.text

@[simp] theorem text_nil : text [] = [] := rfl

@[simp] theorem text_cons (t : Token) (ts : List Token) : text (t :: ts) = t.text ++ text ts := rfl

@[simp] theorem text_append (ts us : List Token) : text (ts ++ us) = text ts ++ text us :=
  List.flatMap_append

theorem derives_iff_tokens {x : Symbol} {w : Text} :
    Derives x w ↔ ∃ ts, TokenDerives x ts ∧ text ts = w := by
  constructor
  · intro h
    induction h with
    | @number ds hne => exact ⟨_, .number ⟨ds, hne⟩, List.append_nil _⟩
    | factor _ ih =>
      obtain ⟨ts, hts, rfl⟩ := ih
      exact ⟨ts, .factor hts, rfl⟩
    | minus _ ih =>
      obtain ⟨ts, hts, rfl⟩ := ih
      exact ⟨_, .minus hts, rfl⟩
    | paren _ ih =>
      obtain ⟨ts, hts, rfl⟩ := ih
      exact ⟨_, .paren hts, by simp [Token.text]⟩
    | minusParen _ ih =>
      obtain ⟨ts, hts, rfl⟩ := ih
      exact ⟨_, .minusParen hts, by simp [Token.text]⟩
    | term _ ih =>
      obtain ⟨ts, hts, rfl⟩ := ih
      exact ⟨ts, .term hts, rfl⟩
    | mul _ _ ihw ihx =>
      obtain ⟨ts, hts, rfl⟩ := ihw
      obtain ⟨us, hus, rfl⟩ := ihx
      exact ⟨_, .mul hts hus, by simp [Token.text]⟩
    | div _ _ ihw ihx =>
      obtain ⟨ts, hts, rfl⟩ := ihw
      obtain ⟨us, hus, rfl⟩ := ihx
      exact ⟨_, .div hts hus, by simp [Token.text]⟩
    | expr _ ih =>
      obtain ⟨ts, hts, rfl⟩ := ih
      exact ⟨ts, .expr hts, rfl⟩
    | add _ _ ihw ihx =>
      obtain ⟨ts, hts, rfl⟩ := ihw
      obtain ⟨us, hus, rfl⟩ := ihx
      exact ⟨_, .add hts hus, by simp [Token.text]⟩
    | sub _ _ ihw ihx =>
      obtain ⟨ts, hts, rfl⟩ := ihw
      obtain ⟨us, hus, rfl⟩ := ihx
      exact ⟨_, .sub hts hus, by simp [Token.text]⟩
  · rintro ⟨ts, hts, rfl⟩
    induction hts with
    | number ds =>
      rw [text_cons, text_nil, List.append_nil]
      exact .number ds.property
    | factor _ ih => exact .factor ih
    | minus _ ih => exact .minus ih
    | paren _ ih =>
      have h := Derives.paren ih
      simpa [Token.text] using h
    | minusParen _ ih =>
      have h := Derives.minusParen ih
      simpa [Token.text] using h
    | term _ ih => exact .term ih
    | mul _ _ ihw ihx =>
      have h := Derives.mul ihw ihx
      simpa [Token.text] using h
    | div _ _ ihw ihx =>
      have h := Derives.div ihw ihx
      simpa [Token.text] using h
    | expr _ ih => exact .expr ih
    | add _ _ ihw ihx =>
      have h := Derives.add ihw ihx
      simpa [Token.text] using h
    | sub _ _ ihw ihx =>
      have h := Derives.sub ihw ihx
      simpa [Token.text] using h

/-! ## Blanks between tokens -/

abbrev Spaced := List (Blanks × Token)

def spaced : Spaced → Blanks → Text
  | [], last => last.val
  | (b, t) :: gs, last => b.val ++ (t.text ++ spaced gs last)

def tokens (gs : Spaced) : List Token := gs.map Prod.snd

/-- What may come next: an operand, an operand whose minus sign has been read, or an operator. -/
inductive Expect
  | operand
  | signed
  | operator
deriving DecidableEq

structure Place where
  laterTerm : Bool
  laterFactor : Bool

/-- `opened` holds the places at which parentheses are open. -/
structure Position where
  expect : Expect
  place : Place
  opened : List Place

namespace Position

def start : Position := ⟨.operand, ⟨false, false⟩, []⟩

def advance (p : Position) : Token → Position
  | .number _ => ⟨.operator, p.place, p.opened⟩
  | .star | .slash => ⟨.operand, ⟨p.place.laterTerm, true⟩, p.opened⟩
  | .plus => ⟨.operand, ⟨true, false⟩, p.opened⟩
  | .minus =>
    if p.expect = .operator then ⟨.operand, ⟨true, false⟩, p.opened⟩
    else ⟨.signed, p.place, p.opened⟩
  | .leftParen => ⟨.operand, ⟨false, false⟩, p.place :: p.opened⟩
  | .rightParen => ⟨.operator, p.opened.headD p.place, p.opened.tail⟩

def after (p : Position) (gs : Spaced) : Position := (tokens gs).foldl advance p

/-- The position is behind a factor that follows `*` or `/`. -/
def InProduct (p : Position) : Prop := p.expect = .operator ∧ p.place.laterFactor = true

/-- The parser skips blanks that stand here, in front of the token or at the end. -/
def Takes (style : Style) (p : Position) : Option Token → Prop
  | some .star | some .slash => ¬ p.InProduct
  | some .rightParen => True
  | _ => p.InProduct → p.place.laterTerm = true → style = .clang

end Position

instance (p : Position) : Decidable p.InProduct :=
  inferInstanceAs (Decidable (p.expect = .operator ∧ p.place.laterFactor = true))

instance (style : Style) (p : Position) : (t : Option Token) → Decidable (p.Takes style t)
  | some .star => inferInstanceAs (Decidable (¬ p.InProduct))
  | some .slash => inferInstanceAs (Decidable (¬ p.InProduct))
  | some .rightParen => inferInstanceAs (Decidable True)
  | none => inferInstanceAs (Decidable (p.InProduct → p.place.laterTerm = true → style = .clang))
  | some (.number _) =>
    inferInstanceAs (Decidable (p.InProduct → p.place.laterTerm = true → style = .clang))
  | some .plus => inferInstanceAs (Decidable (p.InProduct → p.place.laterTerm = true → style = .clang))
  | some .minus =>
    inferInstanceAs (Decidable (p.InProduct → p.place.laterTerm = true → style = .clang))
  | some .leftParen =>
    inferInstanceAs (Decidable (p.InProduct → p.place.laterTerm = true → style = .clang))

/-- A property of every token and the blanks in front of it, at the position where it stands. -/
def Along (P : Position → Blanks → Token → Prop) : Position → Spaced → Prop
  | _, [] => True
  | p, (b, t) :: gs => P p b t ∧ Along P (p.advance t) gs

def Quiet (style : Style) : Position → Spaced → Prop :=
  Along fun p b t => b.val = [] ∨ p.Takes style (some t)

/-- All blanks stand where the parser skips them. -/
def BlanksFit (style : Style) (gs : Spaced) (last : Blanks) : Prop :=
  Quiet style .start gs ∧ (last.val = [] ∨ (Position.start.after gs).Takes style none)

instance decidableQuiet (style : Style) : (p : Position) → (gs : Spaced) → Decidable (Quiet style p gs)
  | _, [] => inferInstanceAs (Decidable True)
  | p, (b, t) :: gs =>
    have := decidableQuiet style (p.advance t) gs
    inferInstanceAs (Decidable ((b.val = [] ∨ p.Takes style (some t)) ∧ Quiet style (p.advance t) gs))

instance (style : Style) (gs : Spaced) (last : Blanks) : Decidable (BlanksFit style gs last) :=
  inferInstanceAs (Decidable (Quiet style .start gs ∧
    (last.val = [] ∨ (Position.start.after gs).Takes style none)))

theorem along_append {P : Position → Blanks → Token → Prop} {p : Position} {gs hs : Spaced} :
    Along P p (gs ++ hs) ↔ Along P p gs ∧ Along P (p.after gs) hs := by
  induction gs generalizing p with
  | nil => exact (and_iff_right trivial).symm
  | cons g gs ih =>
    rw [List.cons_append, Along, Along, ih, and_assoc]
    rfl

theorem Position.after_append (p : Position) (gs hs : Spaced) :
    p.after (gs ++ hs) = (p.after gs).after hs := by
  simp only [after, tokens, List.map_append, List.foldl_append]

theorem spaced_append (gs hs : Spaced) (b last : Blanks) (t : Token) :
    spaced (gs ++ (b, t) :: hs) last = spaced gs b ++ (t.text ++ spaced hs last) := by
  induction gs with
  | nil => rfl
  | cons g gs ih =>
    rw [List.cons_append, spaced, spaced, ih]
    simp only [List.append_assoc]

end Calculator
end SsuComputer
