import SsuComputer.Calculator.TokenTrees

/-!
# SsuComputer.Calculator.BlanksIgnored

Blanks between the tokens of an accepted expression.

* `Scan` — reads the text of a token sequence and checks where its blanks stand.
* `blanksFit_of_tree` — when the text of a derivable sequence is that of a tree, its blanks stand
  where they are skipped.
* `blanks_ignored_iff` — for which blanks each parser accepts the expression with the same value.
-/

namespace SsuComputer
namespace Calculator

open Descent

/-! ## Blanks in the text of a tree -/

def tokenOf (c : Char) : Option Token :=
  match digitOf c with
  | some d => some (.number ⟨[d], List.cons_ne_nil d []⟩)
  | none =>
    if c = '+' then some .plus
    else if c = '-' then some .minus
    else if c = '*' then some .star
    else if c = '/' then some .slash
    else if c = '(' then some .leftParen
    else if c = ')' then some .rightParen
    else none

/-- The blanks of a text stand where they are skipped and no parenthesis follows a minus sign, up to
the first token for which the grammar has no place. `gap` tells that blanks precede the text. -/
def Scan (style : Style) : Position → Bool → Text → Prop
  | _, _, [] => True
  | p, gap, c :: s =>
    if isBlank c then Scan style p true s
    else
      match tokenOf c with
      | none => p.expect = .operator → gap = true → p.Takes style none
      | some t => p.Suits t → (gap = true → p.Takes style (some t)) ∧
          (p.expect = .signed → t ≠ .leftParen) ∧ Scan style (p.advance t) false s

section Scanning

variable {style : Style} {p : Position} {gap : Bool}

theorem tokenOf_digitChar (d : Digit) :
    tokenOf (digitChar d) = some (.number ⟨[d], List.cons_ne_nil d []⟩) := by
  rw [tokenOf, digitOf_digitChar]

theorem scan_blank {c : Char} (h : isBlank c = true) (s : Text) :
    Scan style p gap (c :: s) ↔ Scan style p true s := by
  rw [Scan, if_pos h]

theorem scan_blanks (b : Blanks) (s : Text) :
    Scan style p gap (b.val ++ s) ↔ Scan style p (gap || !b.val.isEmpty) s := by
  obtain ⟨b, hb⟩ := b
  induction b generalizing gap with
  | nil => simp
  | cons c b ih =>
    rw [List.cons_append, scan_blank (hb c (by simp)),
      ih fun a ha => hb a (List.mem_cons_of_mem c ha)]
    simp

theorem scan_token {c : Char} {t : Token} (hc : isBlank c = false) (ht : tokenOf c = some t)
    (s : Text) :
    Scan style p gap (c :: s) ↔ (p.Suits t → (gap = true → p.Takes style (some t)) ∧
      (p.expect = .signed → t ≠ .leftParen) ∧ Scan style (p.advance t) false s) := by
  rw [Scan, hc, ht]
  rfl

theorem scan_digits {opened : List Place} {place : Place} (ds : List Digit) (s : Text) :
    Scan style ⟨.operator, place, opened⟩ false (ds.map digitChar ++ s) ↔
      Scan style ⟨.operator, place, opened⟩ false s := by
  induction ds with
  | nil => rfl
  | cons d ds ih =>
    rw [List.map_cons, List.cons_append, scan_token (isBlank_digitChar d) (tokenOf_digitChar d)]
    constructor
    · intro h
      exact ih.mp (h trivial).2.2
    · intro h _
      refine ⟨?_, ?_, ih.mpr h⟩
      · intro h
        cases h
      · intro h
        cases h

theorem scan_number (ds : { ds : List Digit // ds ≠ [] }) (s : Text) :
    Scan style p gap (ds.val.map digitChar ++ s) ↔
      (gap = true → p.Takes style (some (.number ds))) ∧
        Scan style ⟨.operator, p.place, p.opened⟩ false s := by
  obtain ⟨ds, hne⟩ := ds
  obtain ⟨d, ds, rfl⟩ := List.exists_cons_of_ne_nil hne
  rw [List.map_cons, List.cons_append, scan_token (isBlank_digitChar d) (tokenOf_digitChar d),
    ← scan_digits ds]
  constructor
  · intro h
    obtain ⟨hgap, _, hscan⟩ := h trivial
    exact ⟨hgap, hscan⟩
  · intro h _
    refine ⟨h.1, ?_, h.2⟩
    intro _ h
    cases h

/-- A suitable token of a spaced sequence. -/
theorem scan_text (t : Token) (s : Text) (hsuits : p.Suits t) (h : Scan style p gap (t.text ++ s)) :
    (gap = true → p.Takes style (some t)) ∧ (p.expect = .signed → t ≠ .leftParen) ∧
      Scan style (p.advance t) false s := by
  cases t with
  | number ds =>
    obtain ⟨hgap, hscan⟩ := (scan_number ds s).mp h
    refine ⟨hgap, ?_, hscan⟩
    intro _ h
    cases h
  | plus => exact (scan_token (c := '+') (by decide) rfl s).mp h hsuits
  | minus => exact (scan_token (c := '-') (by decide) rfl s).mp h hsuits
  | star => exact (scan_token (c := '*') (by decide) rfl s).mp h hsuits
  | slash => exact (scan_token (c := '/') (by decide) rfl s).mp h hsuits
  | leftParen => exact (scan_token (c := '(') (by decide) rfl s).mp h hsuits
  | rightParen => exact (scan_token (c := ')') (by decide) rfl s).mp h hsuits

theorem gap_of_blanks {b : Blanks} {P : Prop} (h : (false || !b.val.isEmpty) = true → P) :
    b.val = [] ∨ P := by
  by_cases hb : b.val = []
  · exact .inl hb
  · refine .inr (h ?_)
    simpa using hb

theorem fit_of_scan {gs : Spaced} {last : Blanks} (hsuited : Suited p gs)
    (hend : (p.after gs).expect = .operator)
    (h : Scan style p false (spaced gs last ++ ['$'])) :
    Quiet style p gs ∧ (last.val = [] ∨ (p.after gs).Takes style none) ∧ Unsigned p gs := by
  induction gs generalizing p with
  | nil =>
    rw [spaced, scan_blanks] at h
    exact ⟨trivial, gap_of_blanks (h hend), trivial⟩
  | cons g gs ih =>
    obtain ⟨b, t⟩ := g
    rw [spaced, List.append_assoc, List.append_assoc, scan_blanks] at h
    obtain ⟨hgap, hparen, hscan⟩ := scan_text t _ hsuited.1 h
    obtain ⟨hquiet, hlast, hunsigned⟩ := ih hsuited.2 hend hscan
    exact ⟨⟨gap_of_blanks hgap, hquiet⟩, hlast, ⟨hparen, hunsigned⟩⟩

/-- Behind an empty number, the grammar has no place for what may follow a factor. -/
theorem scan_empty {rest : Text} (hrest : cur (skip rest) ∈ factorEnds)
    (hblank : isBlank (cur rest) = false)
    (hoperand : p.expect = .operand ∧ cur rest ≠ '-' ∨ p.expect = .signed) :
    Scan style p gap rest := by
  have hne : p.expect ≠ .operator := by
    rcases hoperand with ⟨h, _⟩ | h
    · exact (operand_ne h).1
    · rw [h]
      intro h
      cases h
  rw [skip_of_not_blank hblank] at hrest
  cases rest with
  | nil => trivial
  | cons c rest =>
    rw [cur_cons] at hrest hblank hoperand
    have hsuits : ∀ t, tokenOf c = some t → ¬ p.Suits t := by
      intro t ht
      simp only [factorEnds, termEnds, List.mem_cons, List.not_mem_nil, or_false] at hrest
      rcases hrest with rfl | rfl | rfl | rfl | rfl | rfl
      · cases ht
        exact hne
      · cases ht
        exact hne
      · cases ht
        exact hne
      · cases ht
        rcases hoperand with ⟨_, h⟩ | h
        · exact absurd rfl h
        · exact not_not.mpr h
      · cases ht
        exact hne
      · cases ht
    rw [Scan, hblank]
    cases ht : tokenOf c with
    | none =>
      intro hop
      exact absurd hop hne
    | some t =>
      intro h
      exact absurd h (hsuits t ht)

/-- A scan goes on behind a tree. Its own blanks at the end are a gap which the next token meets. -/
def Scanned (style : Style) : (l : Level) → Tree l → Prop
  | .factor, f => ∀ p gap rest, p.expect = .operand → cur (skip rest) ∈ factorEnds → f.Fits rest →
      Scan style ⟨.operator, p.place, p.opened⟩ false rest → Scan style p gap (f.write ++ rest)
  | .term, t => ∀ p gap rest, p.expect = .operand → p.place.laterFactor = false →
      cur (skip rest) ∈ factorEnds → t.Fits rest →
      (∀ laterFactor gap, (gap = true → laterFactor = false) →
        Scan style ⟨.operator, ⟨p.place.laterTerm, laterFactor⟩, p.opened⟩ gap rest) →
      Scan style p gap (t.write ++ rest)
  | .expr, e => ∀ p gap rest, p.expect = .operand → p.place = ⟨false, false⟩ →
      cur (skip rest) ∈ termEnds → e.Fits rest →
      (∀ place gap, (gap = true → Position.Takes style ⟨.operator, place, p.opened⟩ none) →
        Scan style ⟨.operator, place, p.opened⟩ gap rest) →
      Scan style p gap (e.write ++ rest)

theorem takes_operand {p : Position} (h : p.expect ≠ .operator) (t : Option Token) :
    p.Takes style t := by
  have hnot : ¬ p.InProduct := fun hp => h hp.1
  unfold Position.Takes
  split
  · exact hnot
  · exact hnot
  · trivial
  · intro hp
    exact absurd hp hnot

theorem scanned_number (before : Blanks) (sign : Option Blanks) (ds : List Digit) :
    Scanned style .factor (.number before sign ds) := by
  intro p gap rest hp hrest hfits hscan
  have hdigits : ∀ (q : Position) (gap : Bool), q.place = p.place → q.opened = p.opened →
      (q.expect = .operand ∧ sign = none ∨ q.expect = .signed) →
      Scan style q gap (ds.map digitChar ++ rest) := by
    intro q gap hplace hopened hq
    by_cases hds : ds = []
    · rw [hds]
      obtain ⟨hblank, hminus⟩ := hfits hds
      exact scan_empty hrest hblank (hq.imp_left fun h => ⟨h.1, hminus h.2⟩)
    · refine (scan_number ⟨ds, hds⟩ rest).mpr ⟨?_, ?_⟩
      · intro _
        refine takes_operand ?_ _
        rcases hq with ⟨h, _⟩ | h
        · exact (operand_ne h).1
        · rw [h]
          intro h
          cases h
      · rw [hplace, hopened]
        exact hscan
  simp only [Tree.write, List.append_assoc]
  rw [scan_blanks]
  cases sign with
  | none => exact hdigits p _ rfl rfl (.inl ⟨hp, rfl⟩)
  | some b =>
    rw [Tree.signText, List.cons_append, scan_token (t := .minus) (by decide) rfl]
    intro _
    refine ⟨fun _ => takes_operand (operand_ne hp).1 _, ?_, ?_⟩
    · intro _ h
      cases h
    · rw [Position.advance_minus_operand (operand_ne hp).1, scan_blanks]
      exact hdigits _ _ rfl rfl (.inr rfl)

theorem scanned_paren {before after : Blanks} {e : Tree .expr} (ih : Scanned style .expr e) :
    Scanned style .factor (.paren before e after) := by
  intro p gap rest hp hrest hfits hscan
  simp only [Tree.write, List.append_assoc, List.cons_append, List.nil_append]
  rw [scan_blanks, scan_token (t := .leftParen) (by decide) rfl]
  intro _
  refine ⟨fun _ => takes_operand (operand_ne hp).1 _, ?_, ?_⟩
  · intro h
    rw [hp] at h
    cases h
  · have hclose : cur (skip (after.val ++ ')' :: rest)) ∈ termEnds := by
      rw [skip_close, cur_cons]
      decide
    refine ih _ _ _ rfl rfl hclose hfits ?_
    intro place gap _
    rw [scan_blanks, scan_token (t := .rightParen) (by decide) rfl]
    intro _
    refine ⟨fun _ => trivial, ?_, hscan⟩
    intro h
    cases h

theorem scanned_product {t : Tree .term} {f : Tree .factor} {node : Tree .term} {c : Char}
    {o : Token} (hc : isBlank c = false) (hend : c ∈ factorEnds) (ht : tokenOf c = some o)
    (ho : o = .star ∨ o = .slash) (hwrite : node.write = t.write ++ c :: f.write)
    (hfit : ∀ rest, node.Fits rest → t.Fits (c :: (f.write ++ rest)) ∧ f.Fits rest)
    (iht : Scanned style .term t) (ihf : Scanned style .factor f) :
    Scanned style .term node := by
  intro p gap rest hp hplace hrest hfits hscan
  obtain ⟨hfitt, hfitf⟩ := hfit rest hfits
  rw [hwrite, List.append_assoc, List.cons_append]
  refine iht p gap _ hp hplace (by rw [skip_cons_of_not_blank hc]; exact hend) hfitt ?_
  intro laterFactor gap hgap
  rw [scan_token hc ht]
  intro _
  have hadvance : Position.advance ⟨.operator, ⟨p.place.laterTerm, laterFactor⟩, p.opened⟩ o =
      ⟨.operand, ⟨p.place.laterTerm, true⟩, p.opened⟩ := by
    rcases ho with rfl | rfl <;> rfl
  refine ⟨?_, ?_, ?_⟩
  · intro h
    have hnot : ¬ Position.InProduct ⟨.operator, ⟨p.place.laterTerm, laterFactor⟩, p.opened⟩ := by
      rintro ⟨_, hlater⟩
      rw [hgap h] at hlater
      cases hlater
    rcases ho with rfl | rfl <;> exact hnot
  · intro h
    cases h
  · rw [hadvance]
    refine ihf _ _ _ rfl hrest hfitf (hscan true false ?_)
    intro h
    cases h

theorem scanned_sum {e : Tree .expr} {t : Tree .term} {node : Tree .expr} {c : Char} {o : Token}
    (after : Blanks) (hc : isBlank c = false) (hend : c ∈ termEnds) (ht : tokenOf c = some o)
    (ho : o = .plus ∨ o = .minus) (hafter : style = .javaLang → after.val = [])
    (hwrite : node.write = e.write ++ c :: (t.write ++ after.val))
    (hfit : ∀ rest, node.Fits rest →
      e.Fits (c :: (t.write ++ (after.val ++ rest))) ∧ t.Fits (after.val ++ rest))
    (ihe : Scanned style .expr e) (iht : Scanned style .term t) : Scanned style .expr node := by
  intro p gap rest hp hplace hrest hfits hscan
  obtain ⟨hfite, hfitt⟩ := hfit rest hfits
  rw [hwrite]
  simp only [List.append_assoc, List.cons_append]
  refine ihe p gap _ hp hplace (by rw [skip_cons_of_not_blank hc]; exact hend) hfite ?_
  intro place gap hgap
  rw [scan_token hc ht]
  intro _
  have hadvance : Position.advance ⟨.operator, place, p.opened⟩ o =
      ⟨.operand, ⟨true, false⟩, p.opened⟩ := by
    rcases ho with rfl | rfl <;> rfl
  refine ⟨?_, ?_, ?_⟩
  · intro h
    rcases ho with rfl | rfl <;> exact hgap h
  · intro h
    cases h
  · rw [hadvance]
    refine iht _ _ _ rfl rfl (by rw [skip_blanks after.property]; exact factorEnds_of_termEnds hrest)
      hfitt ?_
    intro laterFactor gap hlater
    rw [scan_blanks]
    refine hscan ⟨true, laterFactor⟩ _ ?_
    -- the gap is in front of the blanks of the sum, or one of them
    rintro h ⟨_, hproduct⟩ _
    cases style with
    | clang => rfl
    | javaLang =>
      rw [hafter rfl] at h
      have hgap : gap = true := by simpa using h
      rw [hlater hgap] at hproduct
      cases hproduct

theorem scanned {l : Level} (t : Tree l) (h : style = .javaLang → t.Tight) :
    Scanned style l t := by
  induction t with
  | number before sign ds => exact scanned_number before sign ds
  | paren before e after ih => exact scanned_paren (ih h)
  | factor f after ih =>
    intro p gap rest hp hplace hrest hfits hscan
    rw [Tree.write, List.append_assoc]
    refine ih h p gap _ hp (by rw [skip_blanks after.property]; exact hrest) hfits ?_
    rw [scan_blanks, show p.place = ⟨p.place.laterTerm, p.place.laterFactor⟩ from rfl, hplace]
    exact hscan false _ fun _ => rfl
  | mul t f iht ihf =>
    exact scanned_product (c := '*') (by decide) (by decide) rfl (.inl rfl) rfl (fun _ h => h)
      (iht fun hs => (h hs).1) (ihf fun hs => (h hs).2)
  | div t f iht ihf =>
    exact scanned_product (c := '/') (by decide) (by decide) rfl (.inr rfl) rfl (fun _ h => h)
      (iht fun hs => (h hs).1) (ihf fun hs => (h hs).2)
  | term t after ih =>
    intro p gap rest hp hplace hrest hfits hscan
    rw [Tree.write, List.append_assoc]
    refine ih h p gap _ hp (by rw [hplace])
      (by rw [skip_blanks after.property]; exact factorEnds_of_termEnds hrest) hfits ?_
    intro laterFactor gap _
    rw [scan_blanks]
    refine hscan _ _ ?_
    rintro _ _ hlater
    rw [hplace] at hlater
    cases hlater
  | add e t after ihe iht =>
    exact scanned_sum (c := '+') after (by decide) (by decide) rfl (.inl rfl)
      (fun hs => (h hs).2.2) rfl (fun _ h => h) (ihe fun hs => (h hs).1) (iht fun hs => (h hs).2.1)
  | sub e t after ihe iht =>
    exact scanned_sum (c := '-') after (by decide) (by decide) rfl (.inr rfl)
      (fun hs => (h hs).2.2) rfl (fun _ h => h) (ihe fun hs => (h hs).1) (iht fun hs => (h hs).2.1)

/-- In a derivable sequence whose text is that of a tree, the blanks stand where they are skipped. -/
theorem blanksFit_of_tree {gs : Spaced} {last : Blanks} (h : TokenDerives .expr (tokens gs))
    {e : Tree .expr} (hspells : Spells (spaced gs last) e) (htight : style = .javaLang → e.Tight) :
    BlanksFit style gs last ∧ Unsigned .start gs := by
  obtain ⟨hwrite, hfits⟩ := hspells
  obtain ⟨hsuited, place, hafter⟩ := advances h rfl .start rfl
  have hscan : Scan style .start false (spaced gs last ++ ['$']) := by
    rw [← hwrite]
    refine scanned e htight .start false ['$'] rfl rfl (by decide) hfits ?_
    intro place gap htakes _ hgap
    exact htakes hgap
  obtain ⟨hquiet, hlast, hunsigned⟩ := fit_of_scan hsuited (by rw [hafter]) hscan
  exact ⟨⟨hquiet, hlast⟩, hunsigned⟩

end Scanning

/-! ## The texts of spaced sequences -/

theorem mem_spaced {gs : Spaced} {last : Blanks} {c : Char} (h : c ∈ spaced gs last) :
    c ∈ alphabet := by
  have hblank : ∀ (b : Blanks), c ∈ b.val → c ∈ alphabet := by
    intro b hc
    rcases eq_of_isBlank (b.property c hc) with rfl | rfl <;> decide
  have htoken : ∀ t : Token, c ∈ t.text → c ∈ alphabet := by
    intro t hc
    cases t with
    | number ds =>
      obtain ⟨d, _, rfl⟩ := List.mem_map.mp hc
      exact (by decide : ∀ d : Digit, digitChar d ∈ alphabet) d
    | _ =>
      obtain rfl := List.mem_singleton.mp hc
      decide
  induction gs with
  | nil => exact hblank last h
  | cons g gs ih =>
    rw [spaced, List.mem_append, List.mem_append] at h
    rcases h with h | h | h
    · exact hblank g.1 h
    · exact htoken g.2 h
    · exact ih h

def bare (gs : Spaced) : Spaced := gs.map fun g => (noBlanks, g.2)

theorem tokens_bare (gs : Spaced) : tokens (bare gs) = tokens gs := by
  simp only [tokens, bare, List.map_map]
  rfl

theorem spaced_bare (gs : Spaced) : spaced (bare gs) noBlanks = text (tokens gs) := by
  induction gs with
  | nil => rfl
  | cons g gs ih =>
    show [] ++ (g.2.text ++ spaced (bare gs) noBlanks) = g.2.text ++ text (tokens gs)
    rw [ih, List.nil_append]

theorem unsigned_bare {p : Position} {gs : Spaced} : Unsigned p (bare gs) ↔ Unsigned p gs := by
  induction gs generalizing p with
  | nil => rfl
  | cons g gs ih => exact and_congr_right fun _ => ih

/-- A parser that reads trees in one style: which blanks it ignores. `Value` is the value of a tree,
blanks apart. -/
theorem accepted_iff {V : Type} {style : Style} (Accepted : Text → V → Prop)
    (Value : Tree .expr → V → Prop)
    (hsound : ∀ gs last v, Accepted (spaced gs last) v →
      ∃ e, Spells (spaced gs last) e ∧ (style = .javaLang → e.Tight))
    (hcomplete : ∀ gs last e v, Spells (spaced gs last) e → (style = .javaLang → e.Tight) →
      (Accepted (spaced gs last) v ↔ Value e v))
    (herase : ∀ e v, Value e.erase v ↔ Value e v)
    {gs : Spaced} {last : Blanks} {v : V} (h : TokenDerives .expr (tokens gs))
    (haccepted : Accepted (text (tokens gs)) v) :
    Accepted (spaced gs last) v ↔ BlanksFit style gs last := by
  rw [← spaced_bare] at haccepted
  constructor
  · intro hx
    obtain ⟨e, hspells, htight⟩ := hsound gs last v hx
    exact (blanksFit_of_tree h hspells htight).1
  · intro hfit
    have hunsigned : Unsigned .start gs := by
      obtain ⟨e, hspells, htight⟩ := hsound (bare gs) noBlanks v haccepted
      rw [← tokens_bare] at h
      exact unsigned_bare.mp (blanksFit_of_tree h hspells htight).2
    obtain ⟨e, hwrite, hfull, htight⟩ := tree_of_tokens h hunsigned hfit
    have hspells : Spells (spaced gs last) e := ⟨hwrite, Tree.fits_of_full e _ hfull⟩
    have herased : Spells (spaced (bare gs) noBlanks) e.erase := by
      refine ⟨?_, Tree.fits_of_full _ _ (Tree.full_erase hfull)⟩
      rw [Tree.write_erase, hwrite, unblank_spaced, spaced_bare]
    refine (hcomplete gs last e v hspells htight).mpr ((herase e v).mp ?_)
    exact (hcomplete _ _ _ v herased fun _ => Tree.tight_erase).mp haccepted

/-! ## The three parsers -/

section Parsers

variable {V E : Type} {A : Python.Arith V E} {gs : Spaced} {last : Blanks}

theorem readPart_spaced : readPart (spaced gs last) = spaced gs last :=
  readPart_of_all fun _ hc => alphabet_ne_mark (mem_spaced hc)

theorem takeWhile_spaced : (spaced gs last).takeWhile notMark = spaced gs last :=
  takeWhile_of_all fun c hc => by simpa [notMark] using (alphabet_ne_mark (mem_spaced hc)).2

theorem plain_spaced (A : Python.Arith V E) : Python.Plain A (spaced gs last ++ ['$']) := by
  intro c hc
  refine A.int_ascii c ?_
  rcases List.mem_append.mp hc with hc | hc
  · have hall : alphabet.all (fun c => decide (c.toNat < 128)) = true := by decide
    exact of_decide_eq_true (List.all_eq_true.mp hall c (mem_spaced hc))
  · obtain rfl := List.mem_singleton.mp hc
    decide

/-- What earlier lines left in the buffer does not matter. -/
theorem prints_stale {line stale : Text} {v : Long} (h : Prints line stale v) (stale' : Text) :
    Prints line stale' v := by
  rcases main_cases line stale with ⟨w, e, hw, hspells, hvalue⟩ | herror | htrap
  · obtain rfl := prints_unique h hw
    exact (main_of_tree stale' hspells).1 v hvalue
  · exact absurd h (reportsError_not_prints herror)
  · cases Settles.unique htrap h

theorem prints_spaced_iff {v : Long} {stale stale' : Text} (h : TokenDerives .expr (tokens gs))
    (hprints : Prints (text (tokens gs)) stale v) :
    Prints (spaced gs last) stale' v ↔ BlanksFit .clang gs last := by
  refine accepted_iff (fun w v => Prints w stale' v) (fun e v => e.value = .ok v) ?_ ?_ ?_ h
    (prints_stale hprints stale')
  · intro gs last v hp
    rcases main_cases (spaced gs last) stale' with ⟨w, e, _, hspells, _⟩ | herror | htrap
    · rw [readPart_spaced] at hspells
      exact ⟨e, hspells, fun hs => by cases hs⟩
    · exact absurd hp (reportsError_not_prints herror)
    · cases Settles.unique htrap hp
  · intro gs last e v hspells _
    rw [← readPart_spaced] at hspells
    obtain ⟨hok, herror⟩ := main_of_tree stale' hspells
    rw [readPart_spaced] at hspells
    constructor
    · intro hp
      cases hv : e.value with
      | ok w => rw [prints_unique hp (hok w hv)]
      | error x => cases Settles.unique (herror x hv) hp
    · exact hok v
  · intro e v
    rw [Tree.value_erase]

theorem parses_spaced_iff {v : Long} (h : TokenDerives .expr (tokens gs))
    (hparses : Parses (text (tokens gs)) v) :
    Parses (spaced gs last) v ↔ BlanksFit .javaLang gs last := by
  refine accepted_iff Parses (fun e v => e.value = .ok v) ?_ ?_ ?_ h hparses
  · intro gs last v hp
    rcases parse_cases (spaced gs last) with ⟨w, e, _, hspells, _, htight⟩ | hthrows | hthrows
    · rw [takeWhile_spaced] at hspells
      exact ⟨e, hspells, fun _ => htight⟩
    · exact absurd hp (throwsParsing_not_parses hthrows)
    · cases Settles.unique hthrows hp
  · intro gs last e v hspells htight
    obtain ⟨hok, herror⟩ := parse_of_tree hspells (htight rfl)
    constructor
    · intro hp
      cases hv : e.value with
      | ok w => rw [parses_unique hp (hok w hv)]
      | error x => cases Settles.unique (herror x hv) hp
    · exact hok v
  · intro e v
    rw [Tree.value_erase]

theorem python_parses_spaced_iff {v : V} (h : TokenDerives .expr (tokens gs))
    (hparses : Python.Parses A (text (tokens gs)) v) :
    Python.Parses A (spaced gs last) v ↔ BlanksFit .javaLang gs last := by
  refine accepted_iff (Python.Parses A) (fun e v => Python.value A e = .ok v) ?_ ?_ ?_ h hparses
  · intro gs last v hp
    obtain ⟨e, hspells, _, htight⟩ := Python.spells_of_parses (plain_spaced A) hp
    rw [takeWhile_spaced] at hspells
    exact ⟨e, hspells, fun _ => htight⟩
  · intro gs last e v hspells htight
    have hread := Python.parses_of_tree (A := A) hspells (htight rfl)
    constructor
    · intro hp
      exact Python.lift_eq_ok (Settles.unique hread hp)
    · intro hv
      rw [hv] at hread
      exact hread
  · intro e v
    rw [Tree.python_value_erase]

def FitsBuffer (line : Text) : Prop := line.length < Clang.maxBuffer

/-- Blanks leave acceptance and value of a derivable token sequence unchanged exactly when they stand
where the parser skips them and, in C, the line still fits the buffer. Python skips them where Java
does. -/
theorem blanks_ignored_iff (A : Python.Arith V E) (gs : Spaced) (last : Blanks)
    (h : TokenDerives .expr (tokens gs)) :
    (∀ stale stale' v, FitsBuffer (text (tokens gs)) ∧ Prints (text (tokens gs)) stale v →
      ((FitsBuffer (spaced gs last) ∧ Prints (spaced gs last) stale' v) ↔
        FitsBuffer (spaced gs last) ∧ BlanksFit .clang gs last)) ∧
    (∀ v, Parses (text (tokens gs)) v →
      (Parses (spaced gs last) v ↔ BlanksFit .javaLang gs last)) ∧
    (∀ v, Python.Parses A (text (tokens gs)) v →
      (Python.Parses A (spaced gs last) v ↔ BlanksFit .javaLang gs last)) := by
  refine ⟨?_, fun v hv => parses_spaced_iff h hv, fun v hv => python_parses_spaced_iff h hv⟩
  intro stale stale' v hv
  exact and_congr_right fun _ => prints_spaced_iff h hv.2

end Parsers

/-! ## Examples -/

def digitToken (d : Digit) : Token := .number ⟨[d], List.cons_ne_nil d []⟩

def oneBlank : Blanks := ⟨[' '], by simp [isBlank]⟩

/-- Whole numbers, with the division that rounds down. -/
def wholeNumbers : Python.Arith Int Unit where
  int := digitOf
  int_ascii := fun _ _ => rfl
  ofInt := id
  mul := fun v w => .ok (v * w)
  div := fun v w => if w = 0 then .error () else .ok (v / w)
  add := fun v w => .ok (v + w)
  sub := fun v w => .ok (v - w)

theorem blanks_ignored_sum :
    Prints [' ', '1', ' ', '+', ' ', '2', ' '] [] 3 ∧ Parses [' ', '1', ' ', '+', ' ', '2', ' '] 3 ∧
      Python.Parses wholeNumbers [' ', '1', ' ', '+', ' ', '2', ' '] 3 := by
  have h := blanks_ignored_iff wholeNumbers
    [(oneBlank, digitToken 1), (oneBlank, .plus), (oneBlank, digitToken 2)] oneBlank
    (.add (.expr (.term (.factor (.number _)))) (.term (.factor (.number _))))
  refine ⟨((h.1 [] [] 3 ⟨?_, settles_add 20 fun _ => rfl⟩).mpr ⟨?_, ?_⟩).2,
    (h.2.1 3 (settles_add 20 fun _ => rfl)).mpr ?_, (h.2.2 3 (settles_add 20 fun _ => rfl)).mpr ?_⟩
  · unfold FitsBuffer
    decide
  · unfold FitsBuffer
    decide
  · decide
  · decide
  · decide

def blankBehindProduct : Spaced :=
  [(noBlanks, digitToken 2), (noBlanks, .star), (noBlanks, digitToken 3), (oneBlank, .star),
    (noBlanks, digitToken 4)]

/-- A blank behind the second factor of a product is a syntax error to all three parsers. -/
theorem blank_behind_product :
    TokenDerives .expr (tokens blankBehindProduct) ∧
      text (tokens blankBehindProduct) = ['2', '*', '3', '*', '4'] ∧
      spaced blankBehindProduct noBlanks = ['2', '*', '3', ' ', '*', '4'] ∧
      (Prints ['2', '*', '3', '*', '4'] [] 24 ∧ ReportsError ['2', '*', '3', ' ', '*', '4'] []) ∧
      (Parses ['2', '*', '3', '*', '4'] 24 ∧ ThrowsParsing ['2', '*', '3', ' ', '*', '4']) ∧
      Python.Parses wholeNumbers ['2', '*', '3', '*', '4'] 24 ∧
      Settles (fun n => Python.parser wholeNumbers n ['2', '*', '3', ' ', '*', '4'])
        (.error .parseException) := by
  refine ⟨?_, rfl, rfl, ⟨settles_add 20 fun _ => rfl, settles_add 20 fun _ => rfl⟩,
    ⟨settles_add 20 fun _ => rfl, settles_add 20 fun _ => rfl⟩, settles_add 20 fun _ => rfl,
    settles_add 20 fun _ => rfl⟩
  exact .expr (.mul (.mul (.term (.factor (.number _))) (.factor (.number _)))
    (.factor (.number _)))

end Calculator
end SsuComputer
