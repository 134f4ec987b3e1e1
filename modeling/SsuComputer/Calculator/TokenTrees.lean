import SsuComputer.Calculator.PythonCorrect
import SsuComputer.Calculator.Tokens

/-!
# SsuComputer.Calculator.TokenTrees

Trees over token sequences.

* `Tree.erase` — a tree without its blanks has the same value.
* `advances` — a derivable sequence leads from a place for an operand to one for an operator.
* `tree_of_tokens` — a derivable sequence whose blanks stand where they are skipped is the text of a
  tree, unless a parenthesis follows a minus sign.
-/

namespace SsuComputer
namespace Calculator

open Descent

/-! ## Trees without their blanks -/

namespace Tree

def erase : {l : Level} → Tree l → Tree l
  | _, number _ sign ds => number noBlanks (sign.map fun _ => noBlanks) ds
  | _, paren _ e _ => paren noBlanks (erase e) noBlanks
  | _, factor f _ => factor (erase f) noBlanks
  | _, mul t f => mul (erase t) (erase f)
  | _, div t f => div (erase t) (erase f)
  | _, term t _ => term (erase t) noBlanks
  | _, add e t _ => add (erase e) (erase t) noBlanks
  | _, sub e t _ => sub (erase e) (erase t) noBlanks

variable {l : Level} (t : Tree l)

theorem value_erase : t.erase.value = t.value := by
  induction t with
  | number before sign ds => cases sign <;> rfl
  | paren before e after ih => exact ih
  | factor f after ih => exact ih
  | mul t f iht ihf => simp only [erase, value, iht, ihf]
  | div t f iht ihf => simp only [erase, value, iht, ihf]
  | term t after ih => exact ih
  | add e t after ihe iht => simp only [erase, value, ihe, iht]
  | sub e t after ihe iht => simp only [erase, value, ihe, iht]

theorem python_value_erase {V E : Type} (A : Python.Arith V E) :
    Python.value A t.erase = Python.value A t := by
  induction t with
  | number before sign ds => cases sign <;> rfl
  | paren before e after ih => exact ih
  | factor f after ih => exact ih
  | mul t f iht ihf => simp only [erase, Python.value, iht, ihf]
  | div t f iht ihf => simp only [erase, Python.value, iht, ihf]
  | term t after ih => exact ih
  | add e t after ihe iht => simp only [erase, Python.value, ihe, iht]
  | sub e t after ihe iht => simp only [erase, Python.value, ihe, iht]

variable {t}

theorem full_erase (h : t.Full) : t.erase.Full := by
  induction t with
  | number before sign ds => exact h
  | paren before e after ih => exact ih h
  | factor f after ih => exact ih h
  | mul t f iht ihf => exact ⟨iht h.1, ihf h.2⟩
  | div t f iht ihf => exact ⟨iht h.1, ihf h.2⟩
  | term t after ih => exact ih h
  | add e t after ihe iht => exact ⟨ihe h.1, iht h.2⟩
  | sub e t after ihe iht => exact ⟨ihe h.1, iht h.2⟩

theorem tight_erase : t.erase.Tight := by
  induction t with
  | number before sign ds => trivial
  | paren before e after ih => exact ih
  | factor f after ih => exact ih
  | mul t f iht ihf => exact ⟨iht, ihf⟩
  | div t f iht ihf => exact ⟨iht, ihf⟩
  | term t after ih => exact ih
  | add e t after ihe iht => exact ⟨ihe, iht, rfl⟩
  | sub e t after ihe iht => exact ⟨ihe, iht, rfl⟩

end Tree

def unblank (s : Text) : Text := s.filter fun c => !isBlank c

theorem unblank_append (s t : Text) : unblank (s ++ t) = unblank s ++ unblank t :=
  List.filter_append s t

theorem unblank_cons {c : Char} (h : isBlank c = false) (s : Text) :
    unblank (c :: s) = c :: unblank s := by
  simp [unblank, h]

@[simp] theorem unblank_nil : unblank [] = [] := rfl

@[simp] theorem unblank_blanks (b : Blanks) : unblank b.val = [] := by
  refine List.filter_eq_nil_iff.mpr ?_
  intro c hc
  simp [b.property c hc]

theorem unblank_digits (ds : List Digit) : unblank (ds.map digitChar) = ds.map digitChar := by
  refine List.filter_eq_self.mpr ?_
  intro c hc
  obtain ⟨d, _, rfl⟩ := List.mem_map.mp hc
  simp [isBlank_digitChar d]

@[simp] theorem unblank_plus (s : Text) : unblank ('+' :: s) = '+' :: unblank s :=
  unblank_cons (by decide) s

@[simp] theorem unblank_minus (s : Text) : unblank ('-' :: s) = '-' :: unblank s :=
  unblank_cons (by decide) s

@[simp] theorem unblank_star (s : Text) : unblank ('*' :: s) = '*' :: unblank s :=
  unblank_cons (by decide) s

@[simp] theorem unblank_slash (s : Text) : unblank ('/' :: s) = '/' :: unblank s :=
  unblank_cons (by decide) s

@[simp] theorem unblank_leftParen (s : Text) : unblank ('(' :: s) = '(' :: unblank s :=
  unblank_cons (by decide) s

@[simp] theorem unblank_rightParen (s : Text) : unblank (')' :: s) = ')' :: unblank s :=
  unblank_cons (by decide) s

theorem Tree.write_erase {l : Level} (t : Tree l) : t.erase.write = unblank t.write := by
  induction t with
  | number before sign ds =>
    cases sign <;>
      simp [erase, write, signText, noBlanks, unblank_append, unblank_digits]
  | paren before e after ih => simp [erase, write, noBlanks, unblank_append, ih]
  | factor f after ih => simp [erase, write, noBlanks, unblank_append, ih]
  | mul t f iht ihf => simp [erase, write, unblank_append, iht, ihf]
  | div t f iht ihf => simp [erase, write, unblank_append, iht, ihf]
  | term t after ih => simp [erase, write, noBlanks, unblank_append, ih]
  | add e t after ihe iht => simp [erase, write, noBlanks, unblank_append, ihe, iht]
  | sub e t after ihe iht => simp [erase, write, noBlanks, unblank_append, ihe, iht]

theorem unblank_spaced (gs : Spaced) (last : Blanks) :
    unblank (spaced gs last) = text (tokens gs) := by
  induction gs with
  | nil => exact unblank_blanks last
  | cons g gs ih =>
    obtain ⟨b, t⟩ := g
    have ht : unblank t.text = t.text := by
      cases t with
      | number ds => exact unblank_digits ds.val
      | _ => rfl
    rw [spaced, unblank_append, unblank_append, unblank_blanks, ht, ih]
    rfl

/-! ## Positions in a derivable sequence -/

/-- The grammar has a place for the token here. -/
def Position.Suits (p : Position) : Token → Prop
  | .number _ => True
  | .leftParen => p.expect ≠ .operator
  | .minus => p.expect ≠ .signed
  | _ => p.expect = .operator

def Suited : Position → Spaced → Prop := Along fun p _ t => p.Suits t

/-- No parenthesis follows a minus sign. -/
def Unsigned : Position → Spaced → Prop :=
  Along fun p _ t => p.expect = .signed → t ≠ .leftParen

/-- What a part of a derivation does to a position. -/
def Advances : Symbol → Spaced → Prop
  | .number, gs => ∀ p, p.expect ≠ .operator →
      Suited p gs ∧ p.after gs = ⟨.operator, p.place, p.opened⟩
  | .factor, gs => ∀ p, p.expect = .operand →
      Suited p gs ∧ p.after gs = ⟨.operator, p.place, p.opened⟩
  | .term, gs => ∀ p, p.expect = .operand →
      Suited p gs ∧ ∃ laterFactor, p.after gs = ⟨.operator, ⟨p.place.laterTerm, laterFactor⟩, p.opened⟩
  | .expr, gs => ∀ p, p.expect = .operand →
      Suited p gs ∧ ∃ place, p.after gs = ⟨.operator, place, p.opened⟩

theorem tokens_eq_append {gs : Spaced} {w x : List Token} {t : Token}
    (h : tokens gs = w ++ t :: x) :
    ∃ ws b xs, gs = ws ++ (b, t) :: xs ∧ tokens ws = w ∧ tokens xs = x := by
  obtain ⟨ws, ys, rfl, hw, hy⟩ := List.map_eq_append_iff.mp h
  obtain ⟨⟨b, _⟩, xs, rfl, rfl, hx⟩ := List.map_eq_cons_iff.mp hy
  exact ⟨ws, b, xs, rfl, hw, hx⟩

theorem tokens_eq_cons {gs : Spaced} {x : List Token} {t : Token} (h : tokens gs = t :: x) :
    ∃ b xs, gs = (b, t) :: xs ∧ tokens xs = x := by
  obtain ⟨⟨b, _⟩, xs, rfl, rfl, hx⟩ := List.map_eq_cons_iff.mp h
  exact ⟨b, xs, rfl, hx⟩

theorem tokens_eq_nil {gs : Spaced} (h : tokens gs = []) : gs = [] :=
  List.map_eq_nil_iff.mp h

theorem Position.after_cons (p : Position) (b : Blanks) (t : Token) (gs : Spaced) :
    p.after ((b, t) :: gs) = (p.advance t).after gs := rfl

theorem Position.after_operation (p : Position) (ws xs : Spaced) (b : Blanks) (t : Token) :
    p.after (ws ++ (b, t) :: xs) = ((p.after ws).advance t).after xs := by
  rw [after_append, after_cons]

theorem Position.advance_minus_operand {p : Position} (h : p.expect ≠ .operator) :
    p.advance .minus = ⟨.signed, p.place, p.opened⟩ := if_neg h

theorem operand_ne {p : Position} (h : p.expect = .operand) :
    p.expect ≠ .operator ∧ p.expect ≠ .signed := by
  rw [h]
  constructor <;> intro h <;> cases h

theorem advances_inside {gs : Spaced} (h : Advances .expr gs) (b : Blanks) (place : Place)
    (opened : List Place) :
    Suited ⟨.operand, ⟨false, false⟩, place :: opened⟩ (gs ++ [(b, .rightParen)]) ∧
      Position.after ⟨.operand, ⟨false, false⟩, place :: opened⟩ (gs ++ [(b, .rightParen)]) =
        ⟨.operator, place, opened⟩ := by
  obtain ⟨hsuited, place', hafter⟩ := h ⟨.operand, ⟨false, false⟩, place :: opened⟩ rfl
  refine ⟨along_append.mpr ⟨hsuited, ?_⟩, ?_⟩
  · rw [hafter]
    exact ⟨rfl, trivial⟩
  · rw [Position.after_operation, hafter]
    rfl

theorem advances_product {ws xs : Spaced} {b : Blanks} {t : Token} (ht : t = .star ∨ t = .slash)
    (hw : Advances .term ws) (hx : Advances .factor xs) : Advances .term (ws ++ (b, t) :: xs) := by
  intro p hp
  obtain ⟨hsuited, laterFactor, hafter⟩ := hw p hp
  have hadvance : (p.after ws).advance t = ⟨.operand, ⟨p.place.laterTerm, true⟩, p.opened⟩ := by
    rw [hafter]
    rcases ht with rfl | rfl <;> rfl
  have hsuits : (p.after ws).Suits t := by
    rw [hafter]
    rcases ht with rfl | rfl <;> rfl
  obtain ⟨hsuitedx, hafterx⟩ := hx ⟨.operand, ⟨p.place.laterTerm, true⟩, p.opened⟩ rfl
  refine ⟨along_append.mpr ⟨hsuited, hsuits, ?_⟩, true, ?_⟩
  · rw [hadvance]
    exact hsuitedx
  · rw [Position.after_operation, hadvance, hafterx]

theorem advances_sum {ws xs : Spaced} {b : Blanks} {t : Token} (ht : t = .plus ∨ t = .minus)
    (hw : Advances .expr ws) (hx : Advances .term xs) : Advances .expr (ws ++ (b, t) :: xs) := by
  intro p hp
  obtain ⟨hsuited, place, hafter⟩ := hw p hp
  have hadvance : (p.after ws).advance t = ⟨.operand, ⟨true, false⟩, p.opened⟩ := by
    rw [hafter]
    rcases ht with rfl | rfl <;> rfl
  have hsuits : (p.after ws).Suits t := by
    rw [hafter]
    rcases ht with rfl | rfl
    · rfl
    · intro h
      cases h
  obtain ⟨hsuitedx, laterFactor, hafterx⟩ := hx ⟨.operand, ⟨true, false⟩, p.opened⟩ rfl
  refine ⟨along_append.mpr ⟨hsuited, hsuits, ?_⟩, ⟨true, laterFactor⟩, ?_⟩
  · rw [hadvance]
    exact hsuitedx
  · rw [Position.after_operation, hadvance, hafterx]

theorem advances {x : Symbol} {ts : List Token} (h : TokenDerives x ts) {gs : Spaced}
    (hgs : tokens gs = ts) : Advances x gs := by
  induction h generalizing gs with
  | number ds =>
    obtain ⟨b, xs, rfl, hxs⟩ := tokens_eq_cons hgs
    obtain rfl := tokens_eq_nil hxs
    intro p _
    exact ⟨⟨trivial, trivial⟩, rfl⟩
  | factor _ ih =>
    intro p hp
    exact ih hgs p (operand_ne hp).1
  | minus _ ih =>
    obtain ⟨b, xs, rfl, hxs⟩ := tokens_eq_cons hgs
    intro p hp
    have hne := (operand_ne hp).1
    obtain ⟨hsuited, hafter⟩ := ih hxs ⟨.signed, p.place, p.opened⟩ (by intro h; cases h)
    rw [Position.after_cons, Position.advance_minus_operand hne]
    refine ⟨⟨(operand_ne hp).2, ?_⟩, hafter⟩
    rw [Position.advance_minus_operand hne]
    exact hsuited
  | paren _ ih =>
    obtain ⟨b, xs, rfl, hxs⟩ := tokens_eq_cons hgs
    obtain ⟨ws, b', ys, rfl, hws, hys⟩ := tokens_eq_append hxs
    obtain rfl := tokens_eq_nil hys
    intro p hp
    obtain ⟨hsuited, hafter⟩ := advances_inside (ih hws) b' p.place p.opened
    exact ⟨⟨(operand_ne hp).1, hsuited⟩, hafter⟩
  | minusParen _ ih =>
    obtain ⟨b, xs, rfl, hxs⟩ := tokens_eq_cons hgs
    obtain ⟨b₁, ys, rfl, hys⟩ := tokens_eq_cons hxs
    obtain ⟨ws, b₂, zs, rfl, hws, hzs⟩ := tokens_eq_append hys
    obtain rfl := tokens_eq_nil hzs
    intro p hp
    have hne := (operand_ne hp).1
    obtain ⟨hsuited, hafter⟩ := advances_inside (ih hws) b₂ p.place p.opened
    rw [Position.after_cons, Position.advance_minus_operand hne]
    refine ⟨⟨(operand_ne hp).2, ?_⟩, hafter⟩
    rw [Position.advance_minus_operand hne]
    refine ⟨?_, hsuited⟩
    intro h
    cases h
  | term _ ih =>
    intro p hp
    obtain ⟨hsuited, hafter⟩ := ih hgs p hp
    exact ⟨hsuited, p.place.laterFactor, hafter⟩
  | mul _ _ ihw ihx =>
    obtain ⟨ws, b, xs, rfl, hws, hxs⟩ := tokens_eq_append hgs
    exact advances_product (.inl rfl) (ihw hws) (ihx hxs)
  | div _ _ ihw ihx =>
    obtain ⟨ws, b, xs, rfl, hws, hxs⟩ := tokens_eq_append hgs
    exact advances_product (.inr rfl) (ihw hws) (ihx hxs)
  | expr _ ih =>
    intro p hp
    obtain ⟨hsuited, laterFactor, hafter⟩ := ih hgs p hp
    exact ⟨hsuited, _, hafter⟩
  | add _ _ ihw ihx =>
    obtain ⟨ws, b, xs, rfl, hws, hxs⟩ := tokens_eq_append hgs
    exact advances_sum (.inl rfl) (ihw hws) (ihx hxs)
  | sub _ _ ihw ihx =>
    obtain ⟨ws, b, xs, rfl, hws, hxs⟩ := tokens_eq_append hgs
    exact advances_sum (.inr rfl) (ihw hws) (ihx hxs)

/-! ## Trees from tokens -/

theorem spaced_last (gs : Spaced) (b : Blanks) : spaced gs noBlanks ++ b.val = spaced gs b := by
  induction gs with
  | nil => rfl
  | cons g gs ih => rw [spaced, spaced, List.append_assoc, List.append_assoc, ih]

theorem spaced_of_nil {b : Blanks} (h : b.val = []) (gs : Spaced) :
    spaced gs b = spaced gs noBlanks := by
  rw [← spaced_last, h, List.append_nil]

def IsTree (style : Style) {l : Level} (t : Tree l) (w : Text) : Prop :=
  t.write = w ∧ t.Full ∧ (style = .javaLang → t.Tight)

/-- The blanks `b` behind a part belong to its tree where the parser skips them. -/
def Builds (style : Style) : Symbol → Spaced → Prop
  | .number, gs => ∃ b ds, gs = [(b, .number ds)]
  | .factor, gs => ∀ p : Position, p.expect = .operand → Quiet style p gs → Unsigned p gs →
      ∃ f : Tree .factor, IsTree style f (spaced gs noBlanks)
  | .term, gs => ∀ p : Position, p.expect = .operand → Quiet style p gs → Unsigned p gs →
      ∀ b : Blanks, b.val = [] ∨ (p.after gs).place.laterFactor = false →
      ∃ t : Tree .term, IsTree style t (spaced gs b)
  | .expr, gs => ∀ p : Position, p.expect = .operand → Quiet style p gs → Unsigned p gs →
      ∀ b : Blanks, b.val = [] ∨ (p.after gs).Takes style none →
      ∃ e : Tree .expr, IsTree style e (spaced gs b)

section Build

variable {style : Style} {ws xs : Spaced} {b : Blanks} {t : Token}

theorem builds_product (ht : t = .star ∨ t = .slash) (haw : Advances .term ws)
    (hax : Advances .factor xs) (hw : Builds style .term ws) (hx : Builds style .factor xs)
    (node : Tree .term → Tree .factor → Tree .term)
    (hnode : ∀ t' f w x, IsTree style t' w → IsTree style f x →
      IsTree style (node t' f) (w ++ (t.text ++ x))) :
    Builds style .term (ws ++ (b, t) :: xs) := by
  intro p hp hquiet hunsigned b' hb'
  obtain ⟨_, laterFactor, hafter⟩ := haw p hp
  have hadvance : (p.after ws).advance t = ⟨.operand, ⟨p.place.laterTerm, true⟩, p.opened⟩ := by
    rw [hafter]
    rcases ht with rfl | rfl <;> rfl
  obtain ⟨hquietw, hgap, hquietx⟩ := along_append.mp hquiet
  obtain ⟨hunsignedw, _, hunsignedx⟩ := along_append.mp hunsigned
  rw [hadvance] at hquietx hunsignedx
  -- a blank in front of the operator belongs to the first factor of the term
  have hfirst : b.val = [] ∨ (p.after ws).place.laterFactor = false := by
    refine hgap.imp_right ?_
    intro htakes
    rw [hafter] at htakes ⊢
    have hnot : ¬ Position.InProduct ⟨.operator, ⟨p.place.laterTerm, laterFactor⟩, p.opened⟩ := by
      rcases ht with rfl | rfl <;> exact htakes
    cases laterFactor with
    | false => rfl
    | true => exact absurd ⟨rfl, rfl⟩ hnot
  obtain ⟨t', ht'⟩ := hw p hp hquietw hunsignedw b hfirst
  obtain ⟨f, hf⟩ := hx ⟨.operand, ⟨p.place.laterTerm, true⟩, p.opened⟩ rfl hquietx hunsignedx
  have hlast : b'.val = [] := by
    refine hb'.resolve_right ?_
    rw [Position.after_operation, hadvance, (hax _ rfl).2]
    intro h
    cases h
  refine ⟨node t' f, ?_⟩
  rw [spaced_append, spaced_of_nil hlast]
  exact hnode t' f _ _ ht' hf

theorem builds_sum (ht : t = .plus ∨ t = .minus) (haw : Advances .expr ws)
    (hax : Advances .term xs) (hw : Builds style .expr ws) (hx : Builds style .term xs)
    (node : Tree .expr → Tree .term → Blanks → Tree .expr)
    (hnode : ∀ e t' a w x, IsTree style e w → IsTree style t' x → (style = .javaLang → a.val = []) →
      IsTree style (node e t' a) (w ++ (t.text ++ (x ++ a.val)))) :
    Builds style .expr (ws ++ (b, t) :: xs) := by
  intro p hp hquiet hunsigned b' hb'
  obtain ⟨_, place, hafter⟩ := haw p hp
  have hadvance : (p.after ws).advance t = ⟨.operand, ⟨true, false⟩, p.opened⟩ := by
    rw [hafter]
    rcases ht with rfl | rfl <;> rfl
  obtain ⟨hquietw, hgap, hquietx⟩ := along_append.mp hquiet
  obtain ⟨hunsignedw, _, hunsignedx⟩ := along_append.mp hunsigned
  rw [hadvance] at hquietx hunsignedx
  have hfirst : b.val = [] ∨ (p.after ws).Takes style none := by
    refine hgap.imp_right ?_
    intro htakes
    rcases ht with rfl | rfl <;> exact htakes
  obtain ⟨e, he⟩ := hw p hp hquietw hunsignedw b hfirst
  obtain ⟨_, laterFactor, hafterx⟩ := hax ⟨.operand, ⟨true, false⟩, p.opened⟩ rfl
  have hbuild := hx ⟨.operand, ⟨true, false⟩, p.opened⟩ rfl hquietx hunsignedx
  rw [spaced_append]
  rw [Position.after_operation, hadvance, hafterx] at hb'
  rw [hafterx] at hbuild
  cases laterFactor with
  | false =>
    obtain ⟨t', ht'⟩ := hbuild b' (.inr rfl)
    refine ⟨node e t' noBlanks, ?_⟩
    have htree := hnode e t' noBlanks _ _ he ht' fun _ => rfl
    rw [show noBlanks.val = [] from rfl, List.append_nil] at htree
    exact htree
  | true =>
    obtain ⟨t', ht'⟩ := hbuild noBlanks (.inl rfl)
    refine ⟨node e t' b', ?_⟩
    rw [← spaced_last xs b']
    refine hnode e t' b' _ _ he ht' ?_
    rintro rfl
    refine hb'.resolve_right ?_
    intro htakes
    cases htakes ⟨rfl, rfl⟩ rfl

theorem builds {x : Symbol} {ts : List Token} (h : TokenDerives x ts) {gs : Spaced}
    (hgs : tokens gs = ts) : Builds style x gs := by
  induction h generalizing gs with
  | number ds =>
    obtain ⟨b, xs, rfl, hxs⟩ := tokens_eq_cons hgs
    obtain rfl := tokens_eq_nil hxs
    exact ⟨b, ds, rfl⟩
  | factor _ ih =>
    obtain ⟨b, ds, rfl⟩ := ih hgs
    intro p _ _ _
    refine ⟨.number b none ds.val, ?_, ds.property, fun _ => trivial⟩
    simp [Tree.write, Tree.signText, spaced, Token.text, noBlanks]
  | minus _ ih =>
    obtain ⟨b, xs, rfl, hxs⟩ := tokens_eq_cons hgs
    obtain ⟨b', ds, rfl⟩ := ih hxs
    intro p _ _ _
    refine ⟨.number b (some b') ds.val, ?_, ds.property, fun _ => trivial⟩
    simp [Tree.write, Tree.signText, spaced, Token.text, noBlanks]
  | paren _ ih =>
    obtain ⟨b, xs, rfl, hxs⟩ := tokens_eq_cons hgs
    obtain ⟨ws, b', ys, rfl, hws, hys⟩ := tokens_eq_append hxs
    obtain rfl := tokens_eq_nil hys
    intro p hp hquiet hunsigned
    obtain ⟨e, hwrite, hfull, htight⟩ := ih hws (p.advance .leftParen) rfl
      (along_append.mp hquiet.2).1 (along_append.mp hunsigned.2).1 noBlanks (.inl rfl)
    refine ⟨.paren b e b', ?_, hfull, htight⟩
    rw [spaced, spaced_append, ← spaced_last ws b', ← hwrite]
    simp [Tree.write, spaced, Token.text, noBlanks]
  | minusParen _ ih =>
    obtain ⟨b, xs, rfl, hxs⟩ := tokens_eq_cons hgs
    obtain ⟨b', ys, rfl, _⟩ := tokens_eq_cons hxs
    intro p hp _ hunsigned
    have hne := (operand_ne hp).1
    refine absurd rfl (hunsigned.2.1 ?_)
    rw [Position.advance_minus_operand hne]
  | term _ ih =>
    intro p hp hquiet hunsigned b _
    obtain ⟨f, hwrite, hfull, htight⟩ := ih hgs p hp hquiet hunsigned
    refine ⟨.factor f b, ?_, hfull, htight⟩
    rw [Tree.write, hwrite, spaced_last]
  | mul hw hx ihw ihx =>
    obtain ⟨ws, b, xs, rfl, hws, hxs⟩ := tokens_eq_append hgs
    refine builds_product (.inl rfl) (advances hw hws) (advances hx hxs) (ihw hws) (ihx hxs) .mul ?_
    rintro t f w x ⟨rfl, hft, htt⟩ ⟨rfl, hff, htf⟩
    exact ⟨rfl, ⟨hft, hff⟩, fun h => ⟨htt h, htf h⟩⟩
  | div hw hx ihw ihx =>
    obtain ⟨ws, b, xs, rfl, hws, hxs⟩ := tokens_eq_append hgs
    refine builds_product (.inr rfl) (advances hw hws) (advances hx hxs) (ihw hws) (ihx hxs) .div ?_
    rintro t f w x ⟨rfl, hft, htt⟩ ⟨rfl, hff, htf⟩
    exact ⟨rfl, ⟨hft, hff⟩, fun h => ⟨htt h, htf h⟩⟩
  | expr _ ih =>
    intro p hp hquiet hunsigned b _
    obtain ⟨t, hwrite, hfull, htight⟩ := ih hgs p hp hquiet hunsigned noBlanks (.inl rfl)
    refine ⟨.term t b, ?_, hfull, htight⟩
    rw [Tree.write, hwrite, spaced_last]
  | add hw hx ihw ihx =>
    obtain ⟨ws, b, xs, rfl, hws, hxs⟩ := tokens_eq_append hgs
    refine builds_sum (.inl rfl) (advances hw hws) (advances hx hxs) (ihw hws) (ihx hxs) .add ?_
    rintro e t a w x ⟨rfl, hfe, hte⟩ ⟨rfl, hft, htt⟩ ha
    exact ⟨rfl, ⟨hfe, hft⟩, fun h => ⟨hte h, htt h, ha h⟩⟩
  | sub hw hx ihw ihx =>
    obtain ⟨ws, b, xs, rfl, hws, hxs⟩ := tokens_eq_append hgs
    refine builds_sum (.inr rfl) (advances hw hws) (advances hx hxs) (ihw hws) (ihx hxs) .sub ?_
    rintro e t a w x ⟨rfl, hfe, hte⟩ ⟨rfl, hft, htt⟩ ha
    exact ⟨rfl, ⟨hfe, hft⟩, fun h => ⟨hte h, htt h, ha h⟩⟩

theorem tree_of_tokens {gs : Spaced} {last : Blanks} (h : TokenDerives .expr (tokens gs))
    (hunsigned : Unsigned .start gs) (hfit : BlanksFit style gs last) :
    ∃ e : Tree .expr, IsTree style e (spaced gs last) :=
  builds h rfl .start rfl hfit.1 hunsigned last hfit.2

end Build

end Calculator
end SsuComputer
