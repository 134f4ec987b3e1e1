import SsuComputer.Calculator.Accepts
import SsuComputer.Calculator.Python

/-!
# SsuComputer.Calculator.PythonCorrect

The Python parser against the trees of `Grammar`.

* `sound`, `spells_of_parses` — what it reads without an exception is a tree, with blanks only where
  the Java parser takes them too.
* `completes`, `parses_of_tree` — on the text of such a tree it prints the value of the tree, or
  raises the exception of its arithmetic.
-/

namespace SsuComputer
namespace Calculator
namespace Python

open Descent

variable {V E : Type} {A : Arith V E}

/-! ## Reading characters -/

theorem ok_bind {α β ε : Type} (a : α) (k : α → Except ε β) : (Except.ok a >>= k) = k a := rfl

theorem lift_eq_ok {x : Except E V} {v : V} (h : lift x = .ok v) : x = .ok v := by
  cases x with
  | error e => cases h
  | ok w =>
    cases h
    rfl

theorem current_of_ne_nil {s : Text} (h : s ≠ []) :
    (current s : Except (Thrown E) Char) = .ok (cur s) := by
  cases s with
  | nil => exact absurd rfl h
  | cons c s => rfl

theorem current_eq_ok {s : Text} {c : Char} (h : (current s : Except (Thrown E) Char) = .ok c) :
    s = c :: s.tail := by
  cases s with
  | nil => cases h
  | cons a s =>
    cases h
    rfl

theorem ffSpace_blank {c : Char} (h : isBlank c = true) (s : Text) :
    (ffSpace (c :: s) : Except (Thrown E) Text) = ffSpace s := by
  rw [ffSpace, if_pos (eq_of_isBlank h)]

theorem ffSpace_not_blank {c : Char} (h : isBlank c = false) (s : Text) :
    (ffSpace (c :: s) : Except (Thrown E) Text) = .ok (c :: s) := by
  have hne : ¬ (c = ' ' ∨ c = '\t') := by
    intro hc
    have hb : isBlank c = true := by simpa [isBlank] using hc
    rw [h] at hb
    cases hb
  rw [ffSpace, if_neg hne]

theorem ffSpace_of_skip {s : Text} (h : skip s ≠ []) :
    (ffSpace s : Except (Thrown E) Text) = .ok (skip s) := by
  induction s with
  | nil => exact absurd rfl h
  | cons c s ih =>
    cases hc : isBlank c with
    | true =>
      rw [skip_blank hc] at h ⊢
      rw [ffSpace_blank hc]
      exact ih h
    | false => rw [ffSpace_not_blank hc, skip_cons_of_not_blank hc]

theorem ffSpace_of_all_blank {s : Text} (h : skip s = []) :
    (ffSpace s : Except (Thrown E) Text) = .error .indexError := by
  induction s with
  | nil => rfl
  | cons c s ih =>
    cases hc : isBlank c with
    | true =>
      rw [skip_blank hc] at h
      rw [ffSpace_blank hc]
      exact ih h
    | false =>
      rw [skip_cons_of_not_blank hc] at h
      cases h

theorem ffSpace_eq_ok {s t : Text} (h : (ffSpace s : Except (Thrown E) Text) = .ok t) :
    t = skip s := by
  by_cases hs : skip s = []
  · rw [ffSpace_of_all_blank hs] at h
    cases h
  · rw [ffSpace_of_skip hs] at h
    cases h
    rfl

theorem ffSpace_skip (s : Text) : (ffSpace (skip s) : Except (Thrown E) Text) = ffSpace s := by
  by_cases hs : skip s = []
  · rw [ffSpace_of_all_blank hs, hs]
    rfl
  · rw [ffSpace_of_skip hs, ffSpace_of_skip (by rwa [skip_skip]), skip_skip]

theorem factor_skip (fuel : Nat) (s : Text) : factor A fuel (skip s) = factor A fuel s := by
  cases fuel with
  | zero => rfl
  | succ fuel => rw [factor, factor, ffSpace_skip]

theorem term_skip (fuel : Nat) (s : Text) : term A fuel (skip s) = term A fuel s := by
  cases fuel with
  | zero => rfl
  | succ fuel => rw [term, term, factor_skip]

theorem expr_skip (fuel : Nat) (s : Text) : expr A fuel (skip s) = expr A fuel s := by
  cases fuel with
  | zero => rfl
  | succ fuel => rw [expr, expr, term_skip]

/-! ## Numbers -/

/-- `int` takes only the decimal digits of ASCII here. -/
def Plain (A : Arith V E) (s : Text) : Prop := ∀ c ∈ s, A.int c = digitOf c

theorem Plain.right {s t : Text} (h : Plain A (s ++ t)) : Plain A t :=
  fun c hc => h c (List.mem_append_right s hc)

theorem Plain.tail {c : Char} {s : Text} (h : Plain A (c :: s)) : Plain A s :=
  fun a ha => h a (List.mem_cons_of_mem c ha)

theorem Plain.skip {s : Text} (h : Plain A s) : Plain A (skip s) := by
  rw [← takeBlanks_append_skip s] at h
  exact h.right

theorem digit_some {c : Char} {s : Text} {d : Digit} (h : A.int c = some d) :
    digit A (c :: s) = .ok ((d.val : Nat) : Int) := by
  simp only [digit, current, bind, Except.bind, h]

theorem digit_none {c : Char} {s : Text} (h : A.int c = none) : digit A (c :: s) = .ok (-1) := by
  simp only [digit, current, bind, Except.bind, h]

theorem numberLoop_some {c : Char} {s : Text} {d : Digit} (h : A.int c = some d) (z : Int) :
    numberLoop A (c :: s) z = numberLoop A s (z * 10 + (d.val : Nat)) := by
  have hdigit : ¬ ((d.val : Nat) : Int) < 0 := by omega
  simp only [numberLoop, digit_some h, bind, Except.bind, if_neg hdigit]

theorem numberLoop_none {c : Char} {s : Text} (h : A.int c = none) (z : Int) :
    numberLoop A (c :: s) z = .ok (z, c :: s) := by
  rw [numberLoop, digit_none h]
  rfl

def pushInt (z : Int) (d : Digit) : Int := z * 10 + (d.val : Nat)

theorem literal_eq (ds : List Digit) : ds.foldl pushInt 0 = (Tree.literal ds : Nat) := by
  have h : ∀ (ds : List Digit) (n : Nat), ds.foldl pushInt n =
      ((ds.foldl (fun (n : Nat) (d : Digit) => n * 10 + d.val) n : Nat) : Int) := by
    intro ds
    induction ds with
    | nil => intro n; rfl
    | cons d ds ih =>
      intro n
      have hpush : pushInt n d = ((n * 10 + d.val : Nat) : Int) := by
        unfold pushInt
        omega
      rw [List.foldl_cons, List.foldl_cons, hpush, ih]
  exact h ds 0

theorem numberLoop_eq_ok {s t : Text} {z w : Int} (hs : Plain A s)
    (h : numberLoop A s z = .ok (w, t)) :
    w = (digits s).1.foldl pushInt z ∧ t = (digits s).2 := by
  induction s generalizing z with
  | nil => cases h
  | cons c s ih =>
    have hc := hs c (by simp)
    unfold digits
    cases hd : digitOf c with
    | some d =>
      rw [numberLoop_some (hc.trans hd)] at h
      exact ih hs.tail h
    | none =>
      rw [numberLoop_none (hc.trans hd)] at h
      cases h
      exact ⟨rfl, rfl⟩

theorem number_eq_ok {s t : Text} {w : Int} (hs : Plain A s) (h : number A s = .ok (w, t)) :
    w = (Tree.literal (digits (skip s)).1 : Nat) ∧ t = (digits (skip s)).2 := by
  obtain ⟨s', hs', h⟩ := bind_eq_ok h
  obtain rfl := ffSpace_eq_ok hs'
  have hloop := numberLoop_eq_ok hs.skip h
  rw [literal_eq] at hloop
  exact hloop

theorem numberLoop_map (ds : List Digit) {rest : Text} (hrest : A.int (cur rest) = none)
    (hne : rest ≠ []) (z : Int) :
    numberLoop A (ds.map digitChar ++ rest) z = .ok (ds.foldl pushInt z, rest) := by
  induction ds generalizing z with
  | nil =>
    obtain ⟨c, rest, rfl⟩ := List.exists_cons_of_ne_nil hne
    exact numberLoop_none hrest z
  | cons d ds ih =>
    have hd : A.int (digitChar d) = some d := by
      rw [A.int_ascii _ (by revert d; decide)]
      exact digitOf_digitChar d
    rw [List.map_cons, List.cons_append, numberLoop_some hd]
    exact ih _

/-! ## What is read is a tree -/

def Reads (A : Arith V E) (l : Level) (s : Text) (v : V) (rest : Text) : Prop :=
  ∃ t : Tree l, s = t.write ++ rest ∧ value A t = .ok v ∧ t.Fits rest ∧ t.Tight

/-- The five methods with fuel `fuel`. A loop goes on behind the tree that it has read so far. -/
structure Sound (A : Arith V E) (fuel : Nat) : Prop where
  factor : ∀ {s v rest}, Plain A s → factor A fuel s = .ok (v, rest) → Reads A .factor s v rest
  term : ∀ {s v rest}, Plain A s → term A fuel s = .ok (v, rest) → Reads A .term s v rest
  termLoop : ∀ {t : Tree .term} {r s v rest}, Plain A s → termLoop A fuel r s = .ok (v, rest) →
    value A t = .ok r → t.Fits s → t.Tight → Reads A .term (t.write ++ s) v rest
  expr : ∀ {s v rest}, Plain A s → expr A fuel s = .ok (v, rest) → Reads A .expr s v rest
  exprLoop : ∀ {e : Tree .expr} {r s v rest}, Plain A s → exprLoop A fuel r s = .ok (v, rest) →
    value A e = .ok r → e.Fits s → e.Tight → Reads A .expr (e.write ++ s) v rest

variable {fuel : Nat} {s rest : Text} {v : V}

theorem number_sound (before : Blanks) (sign : Option Blanks) {z : Int} {s' : Text}
    (hs : Plain A s') (h : number A s' = .ok (z, rest)) (hsign : sign = none → cur (skip s') ≠ '-')
    (htext : s = before.val ++ (Tree.signText sign ++ skip s')) :
    ∃ ds, z = (Tree.literal ds : Nat) ∧ s = (Tree.number before sign ds).write ++ rest ∧
      (Tree.number before sign ds).Fits rest := by
  obtain ⟨rfl, rfl⟩ := number_eq_ok hs h
  refine ⟨(digits (skip s')).1, rfl, ?_, ?_⟩
  · simp only [Tree.write, List.append_assoc]
    rw [digits_append, htext]
  · intro hnil
    have hrest : (digits (skip s')).2 = skip s' := by
      have happend := digits_append (skip s')
      rw [hnil] at happend
      exact happend
    rw [hrest]
    exact ⟨cur_skip_not_blank s', hsign⟩

theorem factor_sound (ih : Sound A fuel) (hs : Plain A s)
    (h : factor A (fuel + 1) s = .ok (v, rest)) : Reads A .factor s v rest := by
  rw [factor] at h
  obtain ⟨s₁, hskip, h⟩ := bind_eq_ok h
  obtain rfl := ffSpace_eq_ok hskip
  obtain ⟨c, hcur, h⟩ := bind_eq_ok h
  have hcons := current_eq_ok hcur
  have hplain := hs.skip
  have htext := takeBlanks_append_skip s
  split_ifs at h with hopen hminus
  · obtain ⟨s₂, hskip₂, h⟩ := bind_eq_ok h
    obtain rfl := ffSpace_eq_ok hskip₂
    obtain ⟨⟨r, s₃⟩, hexpr, h⟩ := bind_eq_ok h
    obtain ⟨s₄, hskip₄, h⟩ := bind_eq_ok h
    obtain rfl := ffSpace_eq_ok hskip₄
    obtain ⟨c', hcur', h⟩ := bind_eq_ok h
    have hcons' := current_eq_ok hcur'
    split_ifs at h with hclose
    obtain rfl : c' = ')' := not_not.mp hclose
    cases h
    rw [expr_skip] at hexpr
    rw [hcons, hopen] at hplain htext
    obtain ⟨e, hwrite, hvalue, hfits, htight⟩ := ih.expr hplain.tail hexpr
    have hafter : (takeBlanks s₃).val ++ ')' :: (skip s₃).tail = s₃ := by
      rw [← hcons', takeBlanks_append_skip]
    refine ⟨.paren (takeBlanks s) e (takeBlanks s₃), ?_, hvalue, ?_, htight⟩
    · simp only [Tree.write, List.append_assoc, List.cons_append, List.nil_append]
      rw [hafter, ← hwrite, htext]
    · rw [Tree.Fits, hafter]
      exact hfits
  · obtain ⟨⟨z, s₃⟩, hnumber, h⟩ := bind_eq_ok h
    cases h
    rw [hcons, hminus] at hplain htext
    obtain ⟨ds, rfl, hwrite, hfits⟩ := number_sound (takeBlanks s)
      (some (takeBlanks (skip s).tail)) hplain.tail hnumber (fun h => by cases h) (s := s) (by
        rw [Tree.signText, List.cons_append, takeBlanks_append_skip, htext])
    exact ⟨_, hwrite, rfl, hfits, trivial⟩
  · obtain ⟨⟨z, s₃⟩, hnumber, h⟩ := bind_eq_ok h
    cases h
    obtain ⟨ds, rfl, hwrite, hfits⟩ := number_sound (takeBlanks s) none hplain hnumber
      (fun _ => by rw [skip_skip, hcons]; exact hminus) (s := s) (by
        rw [skip_skip, Tree.signText, List.nil_append, htext])
    exact ⟨_, hwrite, rfl, hfits, trivial⟩

theorem term_sound (ih : Sound A fuel) (hs : Plain A s)
    (h : term A (fuel + 1) s = .ok (v, rest)) : Reads A .term s v rest := by
  rw [term] at h
  obtain ⟨⟨r, s₁⟩, hfactor, h⟩ := bind_eq_ok h
  obtain ⟨s₂, hskip, hloop⟩ := bind_eq_ok h
  obtain rfl := ffSpace_eq_ok hskip
  obtain ⟨f, rfl, hvalue, hfits, htight⟩ := ih.factor hs hfactor
  have htext := takeBlanks_append_skip s₁
  have hread := ih.termLoop (t := .factor f (takeBlanks s₁)) hs.right.skip hloop hvalue
    (by rw [Tree.Fits, htext]; exact hfits) htight
  rw [Tree.write, List.append_assoc, htext] at hread
  exact hread

theorem expr_sound (ih : Sound A fuel) (hs : Plain A s)
    (h : expr A (fuel + 1) s = .ok (v, rest)) : Reads A .expr s v rest := by
  rw [expr] at h
  obtain ⟨⟨r, s₁⟩, hterm, h⟩ := bind_eq_ok h
  obtain ⟨s₂, hskip, hloop⟩ := bind_eq_ok h
  obtain rfl := ffSpace_eq_ok hskip
  obtain ⟨t, rfl, hvalue, hfits, htight⟩ := ih.term hs hterm
  have htext := takeBlanks_append_skip s₁
  have hread := ih.exprLoop (e := .term t (takeBlanks s₁)) hs.right.skip hloop hvalue
    (by rw [Tree.Fits, htext]; exact hfits) htight
  rw [Tree.write, List.append_assoc, htext] at hread
  exact hread

theorem termLoop_sound (ih : Sound A fuel) {t : Tree .term} {r : V} (hs : Plain A s)
    (h : termLoop A (fuel + 1) r s = .ok (v, rest)) (hvalue : value A t = .ok r) (hfits : t.Fits s)
    (htight : t.Tight) : Reads A .term (t.write ++ s) v rest := by
  rw [termLoop] at h
  obtain ⟨c, hcur, h⟩ := bind_eq_ok h
  have hcons := current_eq_ok hcur
  by_cases hop : c = '*' ∨ c = '/'
  · rw [if_pos hop] at h
    obtain ⟨s₁, hskip, h⟩ := bind_eq_ok h
    obtain rfl := ffSpace_eq_ok hskip
    obtain ⟨⟨w, s₂⟩, hfactor, h⟩ := bind_eq_ok h
    obtain ⟨r', hlift, hloop⟩ := bind_eq_ok h
    have hr' := lift_eq_ok hlift
    rw [factor_skip] at hfactor
    rw [hcons] at hs hfits ⊢
    obtain ⟨f, hwrite, hf, hfitf, htightf⟩ := ih.factor hs.tail hfactor
    rw [hwrite] at hs hfits ⊢
    have hplain := Plain.right (s := c :: f.write) hs
    rcases hop with rfl | rfl
    · rw [if_pos rfl] at hr'
      have hmul : value A (.mul t f) = .ok r' := by
        simp only [value, hvalue, hf]
        exact hr'
      have hread := ih.termLoop hplain hloop hmul ⟨hfits, hfitf⟩ ⟨htight, htightf⟩
      simpa only [Tree.write, List.append_assoc, List.cons_append] using hread
    · rw [if_neg (by decide)] at hr'
      have hdiv : value A (.div t f) = .ok r' := by
        simp only [value, hvalue, hf]
        exact hr'
      have hread := ih.termLoop hplain hloop hdiv ⟨hfits, hfitf⟩ ⟨htight, htightf⟩
      simpa only [Tree.write, List.append_assoc, List.cons_append] using hread
  · rw [if_neg hop] at h
    cases h
    exact ⟨t, rfl, hvalue, hfits, htight⟩

theorem exprLoop_sound (ih : Sound A fuel) {e : Tree .expr} {r : V} (hs : Plain A s)
    (h : exprLoop A (fuel + 1) r s = .ok (v, rest)) (hvalue : value A e = .ok r) (hfits : e.Fits s)
    (htight : e.Tight) : Reads A .expr (e.write ++ s) v rest := by
  rw [exprLoop] at h
  obtain ⟨c, hcur, h⟩ := bind_eq_ok h
  have hcons := current_eq_ok hcur
  by_cases hop : c = '+' ∨ c = '-'
  · rw [if_pos hop] at h
    obtain ⟨s₁, hskip, h⟩ := bind_eq_ok h
    obtain rfl := ffSpace_eq_ok hskip
    obtain ⟨⟨w, s₂⟩, hterm, h⟩ := bind_eq_ok h
    obtain ⟨r', hlift, hloop⟩ := bind_eq_ok h
    have hr' := lift_eq_ok hlift
    rw [term_skip] at hterm
    rw [hcons] at hs hfits ⊢
    obtain ⟨t, hwrite, ht, hfitt, htightt⟩ := ih.term hs.tail hterm
    rw [hwrite] at hs hfits ⊢
    have hplain := Plain.right (s := c :: t.write) hs
    rcases hop with rfl | rfl
    · rw [if_pos rfl] at hr'
      have hadd : value A (.add e t noBlanks) = .ok r' := by
        simp only [value, hvalue, ht]
        exact hr'
      have hread := ih.exprLoop hplain hloop hadd ⟨hfits, hfitt⟩ ⟨htight, htightt, rfl⟩
      simpa only [Tree.write, noBlanks, List.append_nil, List.append_assoc, List.cons_append]
        using hread
    · rw [if_neg (by decide)] at hr'
      have hsub : value A (.sub e t noBlanks) = .ok r' := by
        simp only [value, hvalue, ht]
        exact hr'
      have hread := ih.exprLoop hplain hloop hsub ⟨hfits, hfitt⟩ ⟨htight, htightt, rfl⟩
      simpa only [Tree.write, noBlanks, List.append_nil, List.append_assoc, List.cons_append]
        using hread
  · rw [if_neg hop] at h
    cases h
    exact ⟨e, rfl, hvalue, hfits, htight⟩

theorem sound (A : Arith V E) (fuel : Nat) : Sound A fuel := by
  induction fuel with
  | zero =>
    constructor
    · intro s v rest _ h
      cases h
    · intro s v rest _ h
      cases h
    · intro t r s v rest _ h
      cases h
    · intro s v rest _ h
      cases h
    · intro e r s v rest _ h
      cases h
  | succ fuel ih =>
    exact ⟨factor_sound ih, term_sound ih, termLoop_sound ih, expr_sound ih, exprLoop_sound ih⟩

/-! ## Trees are read -/

section Complete

/-- Reading an operand, and going on with its value. -/
theorem settles_bind_lift {f : Nat → Except (Thrown E) (V × Text)} {x : Except E V} {rest : Text}
    {k : Nat → V × Text → Except (Thrown E) (V × Text)} {r : Except (Thrown E) (V × Text)}
    (hf : Settles f (lift x >>= fun v => .ok (v, rest)))
    (hk : Settles (fun n => lift x >>= fun v => k n (v, rest)) r) :
    Settles (fun n => f n >>= k n) r := by
  cases x with
  | ok v => exact Settles.bind hf hk
  | error e =>
    obtain rfl : Except.error (.arithmetic e) = r := Settles.unique (settles_const _) hk
    exact Settles.bind_error hf

theorem settles_lift_stop {f : Nat → V → Except (Thrown E) (V × Text)} {x : Except E V} {s : Text}
    (h : ∀ v, Settles (fun n => f n v) (.ok (v, s))) :
    Settles (fun n => lift x >>= fun v => f n v) (lift x >>= fun v => .ok (v, s)) := by
  cases x with
  | ok v => exact h v
  | error e => exact settles_const _

theorem ne_nil_of_ends {s : Text} (h : cur s ∈ factorEnds) : s ≠ [] := by
  rintro rfl
  exact absurd h (by decide)

theorem ffSpace_of_ends {s : Text} (h : cur (skip s) ∈ factorEnds) :
    (ffSpace s : Except (Thrown E) Text) = .ok (skip s) :=
  ffSpace_of_skip (ne_nil_of_ends h)

theorem ffSpace_of_cons {s t : Text} {c : Char} (h : skip s = c :: t) :
    (ffSpace s : Except (Thrown E) Text) = .ok (c :: t) := by
  rw [ffSpace_of_skip (by rw [h]; exact List.cons_ne_nil c t), h]

theorem int_of_ends {rest : Text} (h : cur (skip rest) ∈ factorEnds) :
    A.int (cur rest) = none := by
  have hascii : (cur rest).toNat < 128 := by
    refine cur_of_ends (fun c => c.toNat < 128) h (by decide) ?_
    intro c hc
    rcases eq_of_isBlank hc with rfl | rfl <;> decide
  rw [A.int_ascii _ hascii]
  exact (not_digit_of_ends h).1

theorem skip_ne_nil {s : Text} {c : Char} (h : c ∈ s) (hc : isBlank c = false) : skip s ≠ [] := by
  intro hnil
  have hblank := List.dropWhile_eq_nil_iff.mp hnil c h
  rw [hc] at hblank
  cases hblank

theorem rest_ne_nil {rest : Text} (h : cur (skip rest) ∈ factorEnds) : rest ≠ [] := by
  rintro rfl
  exact ne_nil_of_ends h rfl

theorem ffSpace_append (w : Text) {rest : Text} (h : cur (skip rest) ∈ factorEnds) :
    (ffSpace (w ++ rest) : Except (Thrown E) Text) = .ok (skip (w ++ rest)) := by
  obtain ⟨c, t, ht⟩ := List.exists_cons_of_ne_nil (ne_nil_of_ends h)
  have hmem : c ∈ rest := by
    rw [← takeBlanks_append_skip rest, ht]
    simp
  have hblank := cur_skip_not_blank rest
  rw [ht, cur_cons] at hblank
  exact ffSpace_of_skip (skip_ne_nil (List.mem_append_right w hmem) hblank)

/-- What stands in front of a number is skipped, and so is the number. -/
theorem number_write (ds : List Digit) {before : Text} (hb : ∀ c ∈ before, isBlank c = true)
    {rest : Text} (hrest : cur (skip rest) ∈ factorEnds)
    (hempty : ds = [] → isBlank (cur rest) = false) :
    number A (before ++ (ds.map digitChar ++ rest)) = .ok ((Tree.literal ds : Nat), rest) := by
  have hskip : skip (before ++ (ds.map digitChar ++ rest)) = ds.map digitChar ++ rest := by
    rw [skip_blanks hb]
    cases ds with
    | nil => exact skip_of_not_blank (hempty rfl)
    | cons d ds => exact skip_cons_of_not_blank (isBlank_digitChar d) _
  have hne : ds.map digitChar ++ rest ≠ [] := by
    intro h
    exact rest_ne_nil hrest (List.append_eq_nil_iff.mp h).2
  unfold number
  rw [ffSpace_of_skip (by rw [hskip]; exact hne), hskip]
  show numberLoop A _ 0 = _
  rw [numberLoop_map ds (int_of_ends hrest) (rest_ne_nil hrest), literal_eq]

def Completes (A : Arith V E) : (l : Level) → Tree l → Prop
  | .factor, f => ∀ rest, cur (skip rest) ∈ factorEnds → f.Fits rest →
      Settles (fun n => factor A n (f.write ++ rest)) (lift (value A f) >>= fun v => .ok (v, rest))
  | .term, t => ∀ rest, cur (skip rest) ∈ factorEnds → t.Fits rest → Onward rest fun s => ∀ r,
      Settles (fun n => lift (value A t) >>= fun v => termLoop A n v s) r →
      Settles (fun n => term A n (t.write ++ rest)) r
  | .expr, e => ∀ rest, cur (skip rest) ∈ termEnds → e.Fits rest → Onward rest fun s => ∀ r,
      Settles (fun n => lift (value A e) >>= fun v => exprLoop A n v s) r →
      Settles (fun n => expr A n (e.write ++ rest)) r

theorem termLoop_stops {s : Text} (hs : s ≠ []) (hmul : cur s ≠ '*') (hdiv : cur s ≠ '/') (v : V) :
    Settles (fun n => termLoop A n v s) (.ok (v, s)) := by
  refine settles_succ ⟨0, fun n _ => ?_⟩
  have hop : ¬ (cur s = '*' ∨ cur s = '/') := not_or.mpr ⟨hmul, hdiv⟩
  simp only [termLoop, current_of_ne_nil hs, ok_bind, if_neg hop]

theorem exprLoop_stops {s : Text} (hs : s ≠ []) (hplus : cur s ≠ '+') (hminus : cur s ≠ '-') (v : V) :
    Settles (fun n => exprLoop A n v s) (.ok (v, s)) := by
  refine settles_succ ⟨0, fun n _ => ?_⟩
  have hop : ¬ (cur s = '+' ∨ cur s = '-') := not_or.mpr ⟨hplus, hminus⟩
  simp only [exprLoop, current_of_ne_nil hs, ok_bind, if_neg hop]

theorem completes_number (before : Blanks) (sign : Option Blanks) (ds : List Digit) :
    Completes A .factor (.number before sign ds) := by
  intro rest hrest hfits
  refine settles_succ ⟨0, fun n _ => ?_⟩
  simp only [Tree.write, List.append_assoc]
  cases sign with
  | some b =>
    have hskip : skip (before.val ++ (Tree.signText (some b) ++ (ds.map digitChar ++ rest))) =
        '-' :: (b.val ++ (ds.map digitChar ++ rest)) := by
      rw [skip_blanks before.property]
      exact skip_cons_of_not_blank (by decide) _
    have hnumber := number_write (A := A) ds b.property hrest fun h => (hfits h).1
    rw [factor, ffSpace_of_cons hskip]
    simp only [bind, Except.bind, current, List.tail_cons, hnumber]
    rfl
  | none =>
    have hne : skip (before.val ++ (ds.map digitChar ++ rest)) ≠ [] ∧
        cur (skip (before.val ++ (ds.map digitChar ++ rest))) ≠ '(' ∧
        cur (skip (before.val ++ (ds.map digitChar ++ rest))) ≠ '-' := by
      rw [skip_blanks before.property]
      cases ds with
      | nil =>
        rw [List.map_nil, List.nil_append, skip_of_not_blank (hfits rfl).1]
        exact ⟨rest_ne_nil hrest, (not_digit_of_ends hrest).2.2, (hfits rfl).2 rfl⟩
      | cons d ds =>
        rw [List.map_cons, List.cons_append, skip_cons_of_not_blank (isBlank_digitChar d), cur_cons]
        exact ⟨List.cons_ne_nil _ _, digitChar_ne d⟩
    have hnumber := number_write (A := A) ds before.property hrest fun h => (hfits h).1
    have hskipped : number A (skip (before.val ++ (ds.map digitChar ++ rest))) =
        .ok ((Tree.literal ds : Nat), rest) := by
      rw [← hnumber]
      simp only [number, ffSpace_skip]
    rw [show Tree.signText none = [] from rfl, List.nil_append, factor, ffSpace_of_skip hne.1]
    simp only [bind, Except.bind, current_of_ne_nil hne.1, if_neg hne.2.1, if_neg hne.2.2, hskipped]
    rfl

theorem completes_paren {before after : Blanks} {e : Tree .expr} (ih : Completes A .expr e) :
    Completes A .factor (.paren before e after) := by
  intro rest hrest hfits
  have hskip := skip_open before after e rest
  have hclose := skip_close after rest
  obtain ⟨s, hs, hexpr⟩ := ih (after.val ++ ')' :: rest) (by rw [hclose, cur_cons]; decide) hfits
  have hskips : skip s = ')' :: rest := (skip_onward hs).trans hclose
  have hstop : cur s ≠ '+' ∧ cur s ≠ '-' := by
    have hparen : cur (skip s) ∈ [')'] := by
      rw [hskips, cur_cons]
      decide
    exact cur_of_ends (fun c => c ≠ '+' ∧ c ≠ '-') hparen (by decide)
      fun c hc => (not_operator_of_blank hc).2
  have hne : s ≠ [] := by
    rintro rfl
    cases hskips
  have hread := hexpr _ (settles_lift_stop fun v => exprLoop_stops hne hstop.1 hstop.2 v)
  have hinside : (ffSpace (e.write ++ (after.val ++ ')' :: rest)) : Except (Thrown E) Text) =
      .ok (skip (e.write ++ (after.val ++ ')' :: rest))) :=
    ffSpace_append e.write (by rw [hclose, cur_cons]; decide)
  refine settles_succ ?_
  simp only [factor, ffSpace_of_cons hskip, ok_bind, current, if_true, List.tail_cons, hinside,
    expr_skip]
  refine settles_bind_lift hread ?_
  simp only [ffSpace_of_cons hskips, ok_bind, List.tail_cons, ne_eq, not_true_eq_false,
    if_false]
  exact settles_lift_stop fun v => settles_const _

theorem completes_factor {f : Tree .factor} {after : Blanks} (ih : Completes A .factor f) :
    Completes A .term (.factor f after) := by
  intro rest hrest hfits
  have hskip : skip (after.val ++ rest) = skip rest := skip_blanks after.property rest
  have hread := ih (after.val ++ rest) (by rw [hskip]; exact hrest) hfits
  refine ⟨skip rest, .inr rfl, ?_⟩
  intro r h
  refine settles_succ ?_
  simp only [term, Tree.write, List.append_assoc]
  refine settles_bind_lift hread ?_
  have hfront : (ffSpace (after.val ++ rest) : Except (Thrown E) Text) = .ok (skip rest) := by
    rw [ffSpace_of_ends (by rw [hskip]; exact hrest), hskip]
  simp only [hfront]
  exact h

theorem completes_term {t : Tree .term} {after : Blanks} (ih : Completes A .term t) :
    Completes A .expr (.term t after) := by
  intro rest hrest hfits
  have hskip : skip (after.val ++ rest) = skip rest := skip_blanks after.property rest
  obtain ⟨s, hs, hterm⟩ := ih (after.val ++ rest)
    (by rw [hskip]; exact factorEnds_of_termEnds hrest) hfits
  have hskips : skip s = skip rest := (skip_onward hs).trans hskip
  have hends : cur (skip s) ∈ termEnds := by
    rw [hskips]
    exact hrest
  have hstop : cur s ≠ '*' ∧ cur s ≠ '/' :=
    cur_of_ends (fun c => c ≠ '*' ∧ c ≠ '/') hends (by decide)
      fun c hc => (not_operator_of_blank hc).1
  have hread := hterm _ (settles_lift_stop fun v =>
    termLoop_stops (rest_ne_nil (factorEnds_of_termEnds hends)) hstop.1 hstop.2 v)
  refine ⟨skip rest, .inr rfl, ?_⟩
  intro r h
  refine settles_succ ?_
  simp only [expr, Tree.write, List.append_assoc]
  refine settles_bind_lift hread ?_
  have hfront : (ffSpace s : Except (Thrown E) Text) = .ok (skip rest) := by
    rw [ffSpace_of_ends (factorEnds_of_termEnds hends), hskips]
  simp only [hfront]
  exact h

/-- One pass of the loop of `term`, on an operator and the text of its right operand. -/
theorem completes_product {t : Tree .term} {f : Tree .factor} {p : Tree .term} {c : Char}
    (hc : c = '*' ∨ c = '/') (iht : Completes A .term t) (ihf : Completes A .factor f)
    (hvalue : value A p = value A t >>= fun v => value A f >>= fun w =>
      if c = '*' then A.mul v w else A.div v w)
    (hwrite : p.write = t.write ++ c :: f.write)
    (hfit : ∀ rest, p.Fits rest → t.Fits (c :: (f.write ++ rest)) ∧ f.Fits rest) :
    Completes A .term p := by
  intro rest hrest hfits
  obtain ⟨hfitt, hfitf⟩ := hfit rest hfits
  have hblank : isBlank c = false ∧ c ∈ factorEnds := by
    rcases hc with rfl | rfl <;> decide
  have hskip : skip (c :: (f.write ++ rest)) = c :: (f.write ++ rest) :=
    skip_cons_of_not_blank hblank.1 _
  obtain ⟨s, hs, hterm⟩ := iht (c :: (f.write ++ rest)) (by rw [hskip]; exact hblank.2) hfitt
  obtain rfl : s = c :: (f.write ++ rest) := by
    rcases hs with h | h
    · exact h
    · rw [h, hskip]
  have hfront : (ffSpace (f.write ++ rest) : Except (Thrown E) Text) =
      .ok (skip (f.write ++ rest)) := ffSpace_append f.write hrest
  have hread := ihf rest hrest hfitf
  refine ⟨rest, .inl rfl, ?_⟩
  intro r h
  rw [hwrite, List.append_assoc, List.cons_append]
  refine hterm r ?_
  rw [hvalue] at h
  cases hv : value A t with
  | error e =>
    rw [hv] at h
    exact h
  | ok v =>
    rw [hv] at h
    refine settles_succ ?_
    show Settles (fun n => termLoop A (n + 1) v (c :: (f.write ++ rest))) r
    simp only [termLoop, current, ok_bind, if_pos hc, List.tail_cons, hfront, factor_skip]
    refine settles_bind_lift hread ?_
    cases hw : value A f with
    | error e =>
      rw [hw] at h
      exact h
    | ok w =>
      rw [hw] at h
      exact h

/-- One pass of the loop of `expr`. -/
theorem completes_sum {e : Tree .expr} {t : Tree .term} {p : Tree .expr} {c : Char}
    (hc : c = '+' ∨ c = '-') (ihe : Completes A .expr e) (iht : Completes A .term t)
    (hvalue : value A p = value A e >>= fun v => value A t >>= fun w =>
      if c = '+' then A.add v w else A.sub v w)
    (hwrite : p.write = e.write ++ c :: t.write)
    (hfit : ∀ rest, p.Fits rest → e.Fits (c :: (t.write ++ rest)) ∧ t.Fits rest) :
    Completes A .expr p := by
  intro rest hrest hfits
  obtain ⟨hfite, hfitt⟩ := hfit rest hfits
  have hblank : isBlank c = false ∧ c ∈ termEnds := by
    rcases hc with rfl | rfl <;> decide
  have hskip : skip (c :: (t.write ++ rest)) = c :: (t.write ++ rest) :=
    skip_cons_of_not_blank hblank.1 _
  obtain ⟨s, hs, hexpr⟩ := ihe (c :: (t.write ++ rest)) (by rw [hskip]; exact hblank.2) hfite
  obtain rfl : s = c :: (t.write ++ rest) := by
    rcases hs with h | h
    · exact h
    · rw [h, hskip]
  have hends := factorEnds_of_termEnds hrest
  have hfront : (ffSpace (t.write ++ rest) : Except (Thrown E) Text) =
      .ok (skip (t.write ++ rest)) := ffSpace_append t.write hends
  obtain ⟨s', hs', hterm⟩ := iht rest hends hfitt
  have hends' : cur (skip s') ∈ termEnds := by
    rw [skip_onward hs']
    exact hrest
  have hstop : cur s' ≠ '*' ∧ cur s' ≠ '/' :=
    cur_of_ends (fun c => c ≠ '*' ∧ c ≠ '/') hends' (by decide)
      fun c hc => (not_operator_of_blank hc).1
  have hread := hterm _ (settles_lift_stop fun v =>
    termLoop_stops (rest_ne_nil (factorEnds_of_termEnds hends')) hstop.1 hstop.2 v)
  refine ⟨s', hs', ?_⟩
  intro r h
  rw [hwrite, List.append_assoc, List.cons_append]
  refine hexpr r ?_
  rw [hvalue] at h
  cases hv : value A e with
  | error x =>
    rw [hv] at h
    exact h
  | ok v =>
    rw [hv] at h
    refine settles_succ ?_
    show Settles (fun n => exprLoop A (n + 1) v (c :: (t.write ++ rest))) r
    simp only [exprLoop, current, ok_bind, if_pos hc, List.tail_cons, hfront, term_skip]
    refine settles_bind_lift hread ?_
    cases hw : value A t with
    | error x =>
      rw [hw] at h
      exact h
    | ok w =>
      rw [hw] at h
      exact h

theorem completes {l : Level} (t : Tree l) (h : t.Tight) : Completes A l t := by
  induction t with
  | number before sign ds => exact completes_number before sign ds
  | paren before e after ih => exact completes_paren (ih h)
  | factor f after ih => exact completes_factor (ih h)
  | mul t f iht ihf =>
    exact completes_product (.inl rfl) (iht h.1) (ihf h.2) rfl rfl fun rest hfits => hfits
  | div t f iht ihf =>
    exact completes_product (.inr rfl) (iht h.1) (ihf h.2) rfl rfl fun rest hfits => hfits
  | term t after ih => exact completes_term (ih h)
  | add e t after ihe iht =>
    obtain ⟨hte, htt, hafter⟩ := h
    refine completes_sum (.inl rfl) (ihe hte) (iht htt) rfl ?_ ?_
    · rw [Tree.write, hafter, List.append_nil]
    · intro rest hfits
      rw [Tree.Fits, hafter] at hfits
      exact hfits
  | sub e t after ihe iht =>
    obtain ⟨hte, htt, hafter⟩ := h
    refine completes_sum (.inr rfl) (ihe hte) (iht htt) rfl ?_ ?_
    · rw [Tree.write, hafter, List.append_nil]
    · intro rest hfits
      rw [Tree.Fits, hafter] at hfits
      exact hfits

end Complete

/-! ## Lines -/

section Lines

def Parses (A : Arith V E) (str : Text) (v : V) : Prop := Settles (fun n => parser A n str) (.ok v)

variable {str : Text}

theorem spells_of_parses (hplain : Plain A (str ++ ['$'])) (h : Parses A str v) :
    ∃ e, Spells (str.takeWhile notMark) e ∧ value A e = .ok v ∧ e.Tight := by
  obtain ⟨N, hN⟩ := h
  obtain ⟨⟨w, s⟩, hexpr, hend⟩ := bind_eq_ok (hN N (Nat.le_refl N))
  obtain ⟨c, hcur, hend⟩ := bind_eq_ok hend
  have hcons := current_eq_ok hcur
  by_cases hmark : c = '$'
  · rw [if_neg (not_not.mpr hmark)] at hend
    cases hend
    obtain ⟨e, hwrite, hvalue, hfits, htight⟩ := (sound A N).expr hplain hexpr
    rw [hcons, hmark] at hwrite hfits
    refine ⟨e, ⟨?_, Tree.fits_congr (Tree.cur_cons_congr '$' s.tail []) hfits⟩, hvalue, htight⟩
    rw [← takeWhile_append_stop (p := notMark) (c := '$') (by decide) str [], hwrite,
      Tree.takeWhile_write]
  · rw [if_pos hmark] at hend
    cases hend

theorem parses_of_tree {e : Tree .expr} (h : Spells str e) (htight : e.Tight) :
    Settles (fun n => parser A n str) (lift (value A e)) := by
  have hmark : cur (skip ['$']) ∈ termEnds := by decide
  obtain ⟨s, hs, hexpr⟩ := completes (A := A) e htight ['$'] hmark h.2
  obtain rfl : s = ['$'] := by
    rcases hs with h | h
    · exact h
    · exact h
  have hread := hexpr _ (settles_lift_stop fun v =>
    exprLoop_stops (List.cons_ne_nil _ _) (by decide) (by decide) v)
  rw [h.1] at hread
  unfold parser
  cases hv : value A e with
  | ok v =>
    rw [hv] at hread
    exact Settles.bind hread (settles_const _)
  | error x =>
    rw [hv] at hread
    exact Settles.bind_error hread

end Lines

end Python
end Calculator
end SsuComputer
