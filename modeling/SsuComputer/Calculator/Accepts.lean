import SsuComputer.Calculator.DescentCorrect

/-!
# SsuComputer.Calculator.Accepts

What the two calculators do with a line.

* `clang_settles`, `main_cases` — the C calculator ends on every line: it prints a value, reports a
  syntax error or traps in a division.
* `parse_cases` — the same for the Java calculator.
* `main_of_tree`, `parse_of_tree` — on the text of a tree they print its value.
-/

namespace SsuComputer
namespace Calculator

open Descent

/-! ## Enough fuel for the C functions -/

section ClangFuel

def ClangExtends (fuel : Nat) : Prop :=
  (∀ s, Extends .outOfFuel (Clang.factor fuel s) (Clang.factor (fuel + 1) s)) ∧
  (∀ s, Extends .outOfFuel (Clang.term fuel s) (Clang.term (fuel + 1) s)) ∧
  (∀ v s, Extends .outOfFuel (Clang.termLoop fuel v s) (Clang.termLoop (fuel + 1) v s)) ∧
  (∀ s, Extends .outOfFuel (Clang.expr fuel s) (Clang.expr (fuel + 1) s)) ∧
  (∀ v s, Extends .outOfFuel (Clang.exprLoop fuel v s) (Clang.exprLoop (fuel + 1) v s))

theorem extends_ite {α ε : Type} {stop : ε} {c : Prop} [Decidable c] {f f' g g' : Except ε α}
    (hf : Extends stop f f') (hg : Extends stop g g') :
    Extends stop (if c then f else g) (if c then f' else g') := by
  split_ifs
  · exact hf
  · exact hg

theorem clang_extends (fuel : Nat) : ClangExtends fuel := by
  induction fuel with
  | zero => refine ⟨?_, ?_, ?_, ?_, ?_⟩ <;> intros <;> exact fun h => absurd rfl h
  | succ fuel ih =>
    obtain ⟨hfactor, hterm, htermLoop, hexpr, hexprLoop⟩ := ih
    refine ⟨fun s => ?_, fun s => ?_, fun v s => ?_, fun s => ?_, fun v s => ?_⟩
    · rw [Clang.factor, Clang.factor]
      refine extends_ite ((hexpr _).bind fun x => extends_refl _ _)
        (extends_ite (extends_refl _ _) (extends_refl _ _))
    · rw [Clang.term, Clang.term]
      exact extends_ite (extends_refl _ _) ((hfactor s).bind fun x => htermLoop _ _)
    · rw [Clang.termLoop, Clang.termLoop]
      refine extends_ite (extends_refl _ _) (extends_ite ((hfactor _).bind fun x => htermLoop _ _)
        (extends_ite ((hfactor _).bind fun x => ?_) (extends_refl _ _)))
      exact extends_ite (extends_refl _ _) (htermLoop _ _)
    · rw [Clang.expr, Clang.expr]
      exact extends_ite (extends_refl _ _) ((hterm s).bind fun x => hexprLoop _ _)
    · rw [Clang.exprLoop, Clang.exprLoop]
      exact extends_ite (extends_refl _ _) (extends_ite ((hterm _).bind fun x => hexprLoop _ _)
        (extends_ite ((hterm _).bind fun x => hexprLoop _ _) (extends_refl _ _)))

end ClangFuel

theorem follows_fuel {r : Result} {c : CResult} (h : Follows r c) (hr : r ≠ .error .outOfFuel) :
    c ≠ .error .outOfFuel := by
  rintro rfl
  cases r with
  | ok p => cases h
  | error e =>
    cases e with
    | outOfFuel => exact hr rfl
    | syntaxError => rcases h with h | ⟨_, _, h⟩ <;> cases h
    | divByZero => cases h

theorem reads_fuel {style : Style} {l : Level} {s : Text} {r : Result} (h : Reads style l s r) :
    r ≠ .error .outOfFuel := by
  rintro rfl
  exact h rfl

/-- The C parser ends on every text, next to the reference parser. -/
theorem clang_settles {s : Text} {r : Result} (hr : Settles (fun n => Descent.expr .clang n s) r)
    (hfuel : r ≠ .error .outOfFuel) :
    ∃ c, Settles (fun n => Clang.expr n ⟨s, false⟩) c ∧ Follows r c := by
  obtain ⟨N, hN⟩ := hr
  have hlast : Descent.expr .clang N s = r := hN N (Nat.le_refl N)
  have hfollows := (clang_follows N).expr s
  rw [hlast] at hfollows
  exact ⟨_, settles_of_extends (fun n => (clang_extends n).2.2.2.1 ⟨s, false⟩)
    (follows_fuel hfollows hfuel), hfollows⟩

/-! ## The text in front of the end mark -/

theorem takeWhile_append_stop {p : Char → Bool} {c : Char} (hc : p c = false) (w x : Text) :
    (w ++ c :: x).takeWhile p = w.takeWhile p := by
  induction w with
  | nil =>
    rw [List.nil_append, List.takeWhile_cons, hc]
    rfl
  | cons a w ih =>
    rw [List.cons_append, List.takeWhile_cons, List.takeWhile_cons, ih]

theorem takeWhile_of_all {p : Char → Bool} {w : Text} (h : ∀ c ∈ w, p c = true) :
    w.takeWhile p = w :=
  List.takeWhile_eq_self_iff.mpr h

def notMark (c : Char) : Bool := c ≠ '$'

theorem split_at_mark {s : Text} (h : '$' ∈ s) : ∃ x, s = s.takeWhile notMark ++ '$' :: x := by
  induction s with
  | nil => cases h
  | cons c s ih =>
    by_cases hc : c = '$'
    · subst hc
      exact ⟨s, rfl⟩
    · obtain ⟨x, hx⟩ := ih (List.mem_of_ne_of_mem (Ne.symm hc) h)
      refine ⟨x, ?_⟩
      have hnot : notMark c = true := by simpa [notMark] using hc
      rw [List.takeWhile_cons, hnot]
      exact congrArg (c :: ·) hx

/-- The part of a line that the C calculator reads: up to a zero byte or a `$`. -/
def readPart (line : Text) : Text := (line.takeWhile (· ≠ Clang.zeroByte)).takeWhile notMark

theorem getInputString_split (line stale : Text) :
    ∃ x, (Clang.getInputString line stale).rest = readPart line ++ '$' :: x := by
  have hzero : (line ++ Clang.zeroByte :: stale).takeWhile (· ≠ Clang.zeroByte) =
      line.takeWhile (· ≠ Clang.zeroByte) := takeWhile_append_stop (by decide) line stale
  have hmark : '$' ∈ (Clang.getInputString line stale).rest := by simp [Clang.getInputString]
  obtain ⟨x, hx⟩ := split_at_mark hmark
  refine ⟨x, hx.trans ?_⟩
  congr 1
  show List.takeWhile notMark (_ ++ '$' :: _) = _
  rw [takeWhile_append_stop (by decide), hzero]
  rfl

theorem readPart_of_all {line : Text} (h : ∀ c ∈ line, c ≠ Clang.zeroByte ∧ c ≠ '$') :
    readPart line = line := by
  unfold readPart
  rw [takeWhile_of_all (w := line) fun c hc => by simpa using (h c hc).1]
  exact takeWhile_of_all fun c hc => by simpa [notMark] using (h c hc).2

theorem blank_ne_mark {c : Char} (h : isBlank c = true) : c ≠ '$' ∧ c ≠ Clang.zeroByte := by
  rcases eq_of_isBlank h with rfl | rfl <;> decide

theorem digitChar_ne_mark (d : Digit) : digitChar d ≠ '$' ∧ digitChar d ≠ Clang.zeroByte := by
  revert d
  decide

namespace Tree

theorem mem_signText {sign : Option Blanks} {c : Char} (h : c ∈ signText sign) :
    c ≠ '$' ∧ c ≠ Clang.zeroByte := by
  cases sign with
  | none => cases h
  | some b =>
    rcases List.mem_cons.mp h with rfl | h
    · decide
    · exact blank_ne_mark (b.property c h)

theorem mem_write {l : Level} {t : Tree l} {c : Char} (h : c ∈ t.write) :
    c ≠ '$' ∧ c ≠ Clang.zeroByte := by
  induction t with
  | number before sign ds =>
    rcases List.mem_append.mp h with h | h
    · exact blank_ne_mark (before.property c h)
    rcases List.mem_append.mp h with h | h
    · exact mem_signText h
    · obtain ⟨d, _, rfl⟩ := List.mem_map.mp h
      exact digitChar_ne_mark d
  | paren before e after ih =>
    simp only [write, List.mem_append, List.mem_cons, List.not_mem_nil, or_false] at h
    rcases h with h | rfl | h | h | rfl
    · exact blank_ne_mark (before.property c h)
    · decide
    · exact ih h
    · exact blank_ne_mark (after.property c h)
    · decide
  | factor f after ih =>
    rcases List.mem_append.mp h with h | h
    · exact ih h
    · exact blank_ne_mark (after.property c h)
  | mul t f iht ihf =>
    simp only [write, List.mem_append, List.mem_cons] at h
    rcases h with h | rfl | h
    · exact iht h
    · decide
    · exact ihf h
  | div t f iht ihf =>
    simp only [write, List.mem_append, List.mem_cons] at h
    rcases h with h | rfl | h
    · exact iht h
    · decide
    · exact ihf h
  | term t after ih =>
    rcases List.mem_append.mp h with h | h
    · exact ih h
    · exact blank_ne_mark (after.property c h)
  | add e t after ihe iht =>
    simp only [write, List.mem_append, List.mem_cons] at h
    rcases h with h | rfl | h | h
    · exact ihe h
    · decide
    · exact iht h
    · exact blank_ne_mark (after.property c h)
  | sub e t after ihe iht =>
    simp only [write, List.mem_append, List.mem_cons] at h
    rcases h with h | rfl | h | h
    · exact ihe h
    · decide
    · exact iht h
    · exact blank_ne_mark (after.property c h)

theorem takeWhile_write {l : Level} (t : Tree l) (x : Text) :
    (t.write ++ '$' :: x).takeWhile notMark = t.write := by
  rw [takeWhile_append_stop (by decide)]
  exact takeWhile_of_all fun c hc => by simpa [notMark] using (mem_write hc).1

theorem cur_append_congr {b rest rest' : Text} (h : cur rest = cur rest') :
    cur (b ++ rest) = cur (b ++ rest') := by
  cases b with
  | nil => exact h
  | cons c b => rfl

theorem cur_cons_congr (c : Char) (s s' : Text) : cur (c :: s) = cur (c :: s') := rfl

/-- Only the first character behind a tree matters. -/
theorem fits_congr {l : Level} {t : Tree l} {rest rest' : Text} (h : cur rest = cur rest')
    (hf : t.Fits rest) : t.Fits rest' := by
  induction t generalizing rest rest' with
  | number before sign ds =>
    intro hnil
    rw [← h]
    exact hf hnil
  | paren before e after ih => exact ih (cur_append_congr (cur_cons_congr ')' rest rest')) hf
  | factor f after ih => exact ih (cur_append_congr h) hf
  | mul t f iht ihf => exact ⟨iht (cur_cons_congr '*' _ _) hf.1, ihf h hf.2⟩
  | div t f iht ihf => exact ⟨iht (cur_cons_congr '/' _ _) hf.1, ihf h hf.2⟩
  | term t after ih => exact ih (cur_append_congr h) hf
  | add e t after ihe iht =>
    exact ⟨ihe (cur_cons_congr '+' _ _) hf.1, iht (cur_append_congr h) hf.2⟩
  | sub e t after ihe iht =>
    exact ⟨ihe (cur_cons_congr '-' _ _) hf.1, iht (cur_append_congr h) hf.2⟩

theorem value_error {l : Level} {t : Tree l} {e : Stop} (h : t.value = .error e) :
    e = .divByZero := by
  have hbind : ∀ (op : Long → Long → Except Stop Long) {x y : Except Stop Long},
      (∀ e, x = .error e → e = .divByZero) → (∀ e, y = .error e → e = .divByZero) →
      (∀ v w e, op v w = .error e → e = .divByZero) →
      ∀ e, (x >>= fun v => y >>= fun w => op v w) = .error e → e = .divByZero := by
    intro op x y hx hy hop e h
    cases x with
    | error e' =>
      cases h
      exact hx _ rfl
    | ok v =>
      cases y with
      | error e' =>
        cases h
        exact hy _ rfl
      | ok w => exact hop v w e h
  induction t generalizing e with
  | number before sign ds => cases sign <;> cases h
  | paren before e after ih => exact ih h
  | factor f after ih => exact ih h
  | mul t f iht ihf => exact hbind (fun v w => .ok (v * w)) (fun _ => iht) (fun _ => ihf) (fun _ _ _ h => by cases h) e h
  | div t f iht ihf =>
    refine hbind quotient (fun _ => iht) (fun _ => ihf) ?_ e h
    intro v w e h
    unfold quotient at h
    split_ifs at h
    cases h
    rfl
  | term t after ih => exact ih h
  | add e' t after ihe iht =>
    exact hbind (fun v w => .ok (v + w)) (fun _ => ihe) (fun _ => iht) (fun _ _ _ h => by cases h) e h
  | sub e' t after ihe iht =>
    exact hbind (fun v w => .ok (v - w)) (fun _ => ihe) (fun _ => iht) (fun _ _ _ h => by cases h) e h

end Tree

/-! ## Outcomes -/

section Outcomes

variable (line stale : Text)

def Prints (v : Long) : Prop := Settles (fun n => Clang.main n line stale) (.ok (.printed v))

def ReportsError : Prop := Settles (fun n => Clang.main n line stale) (.ok .syntaxError)

def Traps : Prop := Settles (fun n => Clang.main n line stale) (.error .divByZero)

def Parses (v : Long) : Prop := Settles (fun n => JavaLang.parse n line) (.ok v)

def ThrowsParsing : Prop := Settles (fun n => JavaLang.parse n line) (.error .parsingException)

def ThrowsArithmetic : Prop := Settles (fun n => JavaLang.parse n line) (.error .arithmeticException)

end Outcomes

/-- The text `w` is that of the tree, read greedily. -/
def Spells (w : Text) (e : Tree .expr) : Prop := e.write = w ∧ e.Fits ['$']

theorem expr_of_tree (style : Style) {e : Tree .expr} (hfits : e.Fits ['$'])
    (htight : style = .javaLang → e.Tight) (x : Text) :
    Settles (fun n => Descent.expr style n (e.write ++ '$' :: x))
      (e.value.map fun v => (v, '$' :: x)) := by
  have hskip : skip ('$' :: x) = '$' :: x := skip_cons_of_not_blank (by decide) x
  obtain ⟨s, hs, hexpr⟩ := completes e htight ('$' :: x) (by rw [hskip, cur_cons]; decide)
    (Tree.fits_congr (Tree.cur_cons_congr '$' [] x) hfits)
  obtain rfl : s = '$' :: x := by
    rcases hs with h | h
    · exact h
    · rw [h, hskip]
  refine hexpr _ (settles_bind_stop fun v => exprLoop_stops ?_ ?_ v)
  · rw [cur_cons]
    decide
  · rw [cur_cons]
    decide

/-- What a parser has read in front of an end mark is a tree on the text up to the first mark. -/
theorem spells_of_reads {style : Style} {s s' : Text} {v : Long}
    (h : Reads style .expr s (.ok (v, s'))) (hmark : cur s' = '$') :
    ∃ e, Spells (s.takeWhile notMark) e ∧ e.value = .ok v ∧ (style = .javaLang → e.Tight) := by
  obtain ⟨e, hs, hvalue, hfits, htight⟩ := h
  obtain ⟨x, rfl⟩ : ∃ x, s' = '$' :: x := ⟨_, eq_cons_of_cur hmark (by decide)⟩
  refine ⟨e, ⟨?_, Tree.fits_congr (Tree.cur_cons_congr '$' x []) hfits⟩, hvalue, htight⟩
  rw [hs, Tree.takeWhile_write]

/-! ## The C calculator -/

section C

variable {line stale : Text}

theorem takeWhile_getInputString :
    (Clang.getInputString line stale).rest.takeWhile notMark = readPart line := by
  obtain ⟨x, hx⟩ := getInputString_split line stale
  rw [hx, takeWhile_append_stop (by decide)]
  exact takeWhile_of_all fun c hc => List.mem_takeWhile_imp hc

theorem ok_bind_clang {α β : Type} (a : α) (k : α → Except Clang.Stop β) :
    (Except.ok a >>= k) = k a := rfl

/-- What `main` does behind `expr`. -/
def finish (x : Long × Clang.Input) : Except Clang.Stop Clang.Outcome :=
  if Clang.getCurChar x.2 ≠ '$' ∨ x.2.errorFlag then .ok .syntaxError else .ok (.printed x.1)

theorem main_settles {c : CResult}
    (h : Settles (fun n => Clang.expr n (Clang.getInputString line stale)) c) :
    Settles (fun n => Clang.main n line stale) (c >>= finish) :=
  h.map fun c : CResult => c >>= finish

theorem main_of_ok {v : Long} {s : Text}
    (h : Settles (fun n => Clang.expr n (Clang.getInputString line stale)) (.ok (v, ⟨s, false⟩))) :
    (cur s = '$' → Prints line stale v) ∧ (cur s ≠ '$' → ReportsError line stale) := by
  have hmain := main_settles h
  rw [ok_bind_clang, finish] at hmain
  simp only [clang_getCurChar, Bool.false_eq_true, or_false] at hmain
  constructor
  · intro hmark
    rw [if_neg (not_not.mpr hmark)] at hmain
    exact hmain
  · intro hmark
    rw [if_pos hmark] at hmain
    exact hmain

theorem main_of_failed {c : CResult} (hc : Failed c)
    (h : Settles (fun n => Clang.expr n (Clang.getInputString line stale)) c) :
    ReportsError line stale ∨ Traps line stale := by
  rcases hc with rfl | ⟨v, s, rfl⟩
  · exact .inr (main_settles h)
  · have hmain := main_settles h
    rw [ok_bind_clang, finish, if_pos (.inr rfl)] at hmain
    exact .inl hmain

/-- One line ends in one of three ways; a printed value is that of a tree. -/
theorem main_cases (line stale : Text) :
    (∃ v e, Prints line stale v ∧ Spells (readPart line) e ∧ e.value = .ok v) ∨
      ReportsError line stale ∨ Traps line stale := by
  obtain ⟨r, hr, hread⟩ := expr_ends .clang (Clang.getInputString line stale).rest
  obtain ⟨c, hc, hfollows⟩ := clang_settles hr (reads_fuel hread)
  cases r with
  | ok p =>
    obtain ⟨v, s⟩ := p
    obtain rfl : c = .ok (v, ⟨s, false⟩) := hfollows
    by_cases hmark : cur s = '$'
    · obtain ⟨e, hspells, hvalue, _⟩ := spells_of_reads hread hmark
      rw [takeWhile_getInputString] at hspells
      exact .inl ⟨v, e, (main_of_ok hc).1 hmark, hspells, hvalue⟩
    · exact .inr (.inl ((main_of_ok hc).2 hmark))
  | error e =>
    cases e with
    | outOfFuel => exact absurd rfl hread
    | syntaxError => exact .inr (main_of_failed hfollows hc)
    | divByZero =>
      obtain rfl : c = .error .divByZero := hfollows
      exact .inr (.inr (main_settles hc))

theorem main_of_tree (stale : Text) {e : Tree .expr} (h : Spells (readPart line) e) :
    (∀ v, e.value = .ok v → Prints line stale v) ∧
      (∀ x, e.value = .error x → Traps line stale) := by
  obtain ⟨x, hx⟩ := getInputString_split line stale
  have hr := expr_of_tree .clang h.2 (fun hs => by cases hs) x
  rw [h.1, ← hx] at hr
  constructor
  · intro v hv
    rw [hv] at hr
    obtain ⟨c, hc, hfollows⟩ := clang_settles hr (by intro h; cases h)
    obtain rfl : c = .ok (v, ⟨'$' :: x, false⟩) := hfollows
    exact (main_of_ok hc).1 rfl
  · intro e' he
    obtain rfl := Tree.value_error he
    rw [he] at hr
    obtain ⟨c, hc, hfollows⟩ := clang_settles hr (by intro h; cases h)
    obtain rfl : c = .error .divByZero := hfollows
    exact main_settles hc

end C

/-! ## The Java calculator -/

section Java

variable {line : Text}

theorem mem_mark (line : Text) : '$' ∈ line ++ ['$'] := by simp

theorem parse_settles {r : Result}
    (hr : Settles (fun n => Descent.expr .javaLang n (line ++ ['$'])) r) :
    Settles (fun n => JavaLang.parse n line)
      (r.mapError thrown >>= fun x => JavaLang.charAt x.2 >>= fun c =>
        if c ≠ '$' then .error .parsingException else .ok x.1) := by
  obtain ⟨N, hN⟩ := hr
  refine ⟨N, ?_⟩
  intro n hn
  have hlast : Descent.expr .javaLang n (line ++ ['$']) = r := hN n hn
  have hthrows := ((javaLang_throws n).expr _ (mem_mark line)).1
  rw [hlast] at hthrows
  show JavaLang.expr n (line ++ ['$']) >>= _ = _
  rw [hthrows]

theorem parse_of_ok {v : Long} {s : Text} (hmem : '$' ∈ s)
    (hr : Settles (fun n => Descent.expr .javaLang n (line ++ ['$'])) (.ok (v, s))) :
    (cur s = '$' → Parses line v) ∧ (cur s ≠ '$' → ThrowsParsing line) := by
  have hparse : Settles (fun n => JavaLang.parse n line)
      (JavaLang.charAt s >>= fun c => if c ≠ '$' then .error .parsingException else .ok v) :=
    parse_settles hr
  rw [javaLang_charAt hmem, ok_bind] at hparse
  constructor
  · intro hmark
    rw [if_neg (not_not.mpr hmark)] at hparse
    exact hparse
  · intro hmark
    rw [if_pos hmark] at hparse
    exact hparse

theorem parse_cases (line : Text) :
    (∃ v e, Parses line v ∧ Spells (line.takeWhile notMark) e ∧ e.value = .ok v ∧ e.Tight) ∨
      ThrowsParsing line ∨ ThrowsArithmetic line := by
  obtain ⟨r, hr, hread⟩ := expr_ends .javaLang (line ++ ['$'])
  cases r with
  | ok p =>
    obtain ⟨v, s⟩ := p
    have hmem : '$' ∈ s := by
      obtain ⟨N, hN⟩ := hr
      exact ((javaLang_throws N).expr _ (mem_mark line)).2 v s (hN N (Nat.le_refl N))
    by_cases hmark : cur s = '$'
    · obtain ⟨e, hspells, hvalue, htight⟩ := spells_of_reads hread hmark
      rw [takeWhile_append_stop (by decide)] at hspells
      exact .inl ⟨v, e, (parse_of_ok hmem hr).1 hmark, hspells, hvalue, htight rfl⟩
    · exact .inr (.inl ((parse_of_ok hmem hr).2 hmark))
  | error e =>
    cases e with
    | outOfFuel => exact absurd rfl hread
    | syntaxError => exact .inr (.inl (parse_settles hr))
    | divByZero => exact .inr (.inr (parse_settles hr))

theorem parse_of_tree {e : Tree .expr} (h : Spells line e) (htight : e.Tight) :
    (∀ v, e.value = .ok v → Parses line v) ∧
      (∀ x, e.value = .error x → ThrowsArithmetic line) := by
  have hr := expr_of_tree .javaLang h.2 (fun _ => htight) []
  rw [h.1] at hr
  constructor
  · intro v hv
    rw [hv] at hr
    exact (parse_of_ok (by simp) hr).1 rfl
  · intro e' he
    obtain rfl := Tree.value_error he
    rw [he] at hr
    exact parse_settles hr

end Java

end Calculator
end SsuComputer
