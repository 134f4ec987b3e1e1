import SsuComputer.Calculator.ClangReads
import SsuComputer.Calculator.TokenTrees

/-!
# SsuComputer.Calculator.Readable

What the C calculator makes of a line, without a cursor.

* `step` — one character, as long as there is no error and no division by zero.
* `unwinds` — after an error each open parenthesis moves the cursor over one character, unless a
  division by zero ends the parse first.
* `Readable` — no parenthesis moves the cursor behind the mark, except as a divisor of value zero.
-/

namespace SsuComputer
namespace Calculator
namespace ClangReads

open Descent

/-- What waits for a factor: `later` tells that it follows `*` or `/`, and `multiply` gives no value
where it is a divisor and zero. -/
structure Context where
  later : Bool
  multiply : Long → Option Long
  add : Long → Long

/-- The value of the expression when it ends behind a factor of value `v`. -/
def Context.value (k : Context) (v : Long) : Option Long := (k.multiply v).map k.add

/-- A first factor, in front of which `add` waits. -/
def Context.first (add : Long → Long) : Context := ⟨false, some, add⟩

/-- A factor behind `*` and the product `res`. -/
def Context.times (k : Context) (res : Long) : Context := ⟨true, fun v => some (res * v), k.add⟩

/-- A factor behind `/` and the product `res`. -/
def Context.over (k : Context) (res : Long) : Context :=
  ⟨true, fun v => if v = 0 then none else some (res.sdiv v), k.add⟩

/-- Where the parser stands in the innermost expression. -/
inductive Mode
  | operand (k : Context)
  | negative (k : Context)
  | number (k : Context) (sign v : Long)
  | behind (k : Context) (v : Long)
  | sum (v : Long)

/-- The value of the innermost expression when it ends here; a number may have no digits. -/
def Mode.value : Mode → Option Long
  | .operand k => k.value 0
  | .negative k => k.value 0
  | .number k sign v => k.value (sign * v)
  | .behind k v => k.value v
  | .sum v => some v

section Steps

variable (stack : List Context)

def sumStep (v : Long) (c : Char) : Option (List Context × Mode) :=
  if isBlank c then some (stack, .sum v)
  else if c = '+' then some (stack, .operand (.first fun x => v + x))
  else if c = '-' then some (stack, .operand (.first fun x => v - x))
  else if c = ')' then
    match stack with
    | [] => none
    | k :: stack => some (stack, .behind k v)
  else none

def behindStep (k : Context) (v : Long) (c : Char) : Option (List Context × Mode) :=
  (k.multiply v).bind fun res =>
    if c = '*' then some (stack, .operand (k.times res))
    else if c = '/' then some (stack, .operand (k.over res))
    else if isBlank c ∧ k.later = false then some (stack, .behind k v)
    else sumStep stack (k.add res) c

def numberStep (k : Context) (sign v : Long) (c : Char) : Option (List Context × Mode) :=
  match digitOf c with
  | some d => some (stack, .number k sign (push v d))
  | none => behindStep stack k (sign * v) c

/-- `stack` holds what waits for each open parenthesis. -/
def step : Mode → Char → Option (List Context × Mode)
  | .operand k, c =>
    if isBlank c then some (stack, .operand k)
    else if c = '(' then some (k :: stack, .operand (.first id))
    else if c = '-' then some (stack, .negative k)
    else numberStep stack k 1 0 c
  | .negative k, c =>
    if isBlank c then some (stack, .negative k) else numberStep stack k (-1) 0 c
  | .number k sign v, c => numberStep stack k sign v c
  | .behind k v, c => behindStep stack k v c
  | .sum v, c => sumStep stack v c

end Steps

/-- The characters that are no blanks. -/
def inked (t : Text) : Nat := (unblank t).length

/-- From an error on, with as many characters left: a parenthesis closed behind the last of them is
followed by a read, unless it is a divisor and its value is zero. -/
def unwinds : List Context → Option Long → Nat → Bool
  | _, none, _ => true
  | [], some _, _ => true
  | k :: _, some v, 0 => (k.value v).isNone
  | k :: stack, some v, left + 1 => unwinds stack (k.value v) left

/-- The parser reads the text up to its end, to an error or to a division by zero. -/
def scan : List Context → Mode → Text → Bool
  | stack, m, [] => unwinds stack m.value 0
  | stack, m, c :: t =>
    match step stack m c with
    | some (stack', m') => scan stack' m' t
    | none => unwinds stack m.value (inked (c :: t))

/-- The line as `getInputString` leaves it in the buffer: a zero byte in it becomes the mark. -/
def marked (line : Text) : Text := (Clang.getInputString line []).rest.take line.length

def Readable (line : Text) : Prop := scan [] (.operand (.first id)) (marked line) = true

/-! ## Scanning -/

theorem inked_nil : inked [] = 0 := rfl

theorem inked_cons {c : Char} (h : isBlank c = false) (t : Text) : inked (c :: t) = inked t + 1 := by
  unfold inked
  rw [unblank_cons h, List.length_cons]

theorem inked_blank {c : Char} (h : isBlank c = true) (t : Text) : inked (c :: t) = inked t := by
  simp [inked, unblank, h]

theorem inked_skip (t : Text) : inked (skip t) = inked t := by
  induction t with
  | nil => rfl
  | cons c t ih =>
    cases hc : isBlank c with
    | true => rw [skip_blank hc, inked_blank hc, ih]
    | false => rw [skip_cons_of_not_blank hc]

@[simp] theorem unwinds_none {stack : List Context} {left : Nat} :
    unwinds stack none left = true := by
  unfold unwinds
  rfl

section Scan

variable {stack : List Context} {k : Context} {sign v res : Long} {t : Text}

theorem value_of_none (h : k.multiply v = none) : k.value v = none := by
  rw [Context.value, h]
  rfl

theorem value_of_some (h : k.multiply v = some res) : k.value v = some (k.add res) := by
  rw [Context.value, h]
  rfl

theorem scan_step {m m' : Mode} {stack' : List Context} {c : Char}
    (h : step stack m c = some (stack', m')) : scan stack m (c :: t) = scan stack' m' t := by
  rw [scan, h]

theorem scan_skip {m : Mode} (h : ∀ c, isBlank c = true → step stack m c = some (stack, m))
    (t : Text) : scan stack m (skip t) = scan stack m t := by
  induction t with
  | nil => rfl
  | cons c t ih =>
    cases hc : isBlank c with
    | true => rw [skip_blank hc, ih, scan_step (h c hc)]
    | false => rw [skip_cons_of_not_blank hc]

theorem scan_skip_operand (t : Text) :
    scan stack (.operand k) (skip t) = scan stack (.operand k) t :=
  scan_skip (m := .operand k) (fun c hc => by rw [step, if_pos hc]) t

theorem scan_skip_negative (t : Text) :
    scan stack (.negative k) (skip t) = scan stack (.negative k) t :=
  scan_skip (m := .negative k) (fun c hc => by rw [step, if_pos hc]) t

theorem scan_skip_sum (t : Text) : scan stack (.sum v) (skip t) = scan stack (.sum v) t :=
  scan_skip (m := .sum v) (fun c hc => by rw [step, sumStep.eq_def, if_pos hc]) t

theorem scan_skip_first (hfirst : k.later = false) (hv : k.multiply v = some res) (t : Text) :
    scan stack (.behind k v) (skip t) = scan stack (.behind k v) t := by
  refine scan_skip (fun c hc => ?_) t
  have hop : c ≠ '*' ∧ c ≠ '/' := by
    rcases eq_of_isBlank hc with rfl | rfl <;> decide
  rw [step, behindStep, hv, Option.bind_some, if_neg hop.1, if_neg hop.2, if_pos ⟨hc, hfirst⟩]

/-- Where two modes have one value and make the same of a character, they go on in the same way. -/
theorem scan_congr {m m' : Mode} (hv : m.value = m'.value)
    (h : ∀ c, c = cur t → t ≠ [] → step stack m c = step stack m' c) :
    scan stack m t = scan stack m' t := by
  cases t with
  | nil => rw [scan, scan, hv]
  | cons c t => rw [scan, scan, h c rfl (List.cons_ne_nil c t), hv]

theorem scan_number (t : Text) : scan stack (.number k sign v) t =
    scan stack (.behind k (sign * (digits t).1.foldl push v)) (digits t).2 := by
  induction t generalizing v with
  | nil => rfl
  | cons c t ih =>
    unfold digits
    cases hd : digitOf c with
    | some d =>
      have hstep : step stack (.number k sign v) c = some (stack, .number k sign (push v d)) := by
        rw [step, numberStep, hd]
      rw [scan_step hstep, ih, List.foldl_cons]
    | none =>
      refine scan_congr rfl ?_
      intro a ha _
      rw [cur_cons] at ha
      rw [ha, step, numberStep, hd]
      rfl

theorem scan_operand_number (hskip : skip t = t) (hopen : cur t ≠ '(') (hminus : cur t ≠ '-') :
    scan stack (.operand k) t =
      scan stack (.behind k (1 * longOf (digits t).1)) (digits t).2 := by
  refine Eq.trans ?_ (scan_number t)
  have hblank := cur_skip_not_blank t
  rw [hskip] at hblank
  refine scan_congr rfl ?_
  rintro _ rfl _
  rw [step, hblank, if_neg hopen, if_neg hminus]
  rfl

theorem scan_negative_number (t : Text) : scan stack (.negative k) t =
    scan stack (.behind k (-1 * longOf (digits (skip t)).1)) (digits (skip t)).2 := by
  rw [← scan_skip_negative]
  refine Eq.trans ?_ (scan_number (skip t))
  refine scan_congr rfl ?_
  rintro _ rfl _
  rw [step, cur_skip_not_blank]
  rfl

theorem scan_stop {m : Mode} (h : t ≠ [] → step stack m (cur t) = none) :
    scan stack m t = unwinds stack m.value (inked t) := by
  cases t with
  | nil => rfl
  | cons c t =>
    have hstep := h (List.cons_ne_nil c t)
    rw [cur_cons] at hstep
    rw [scan, hstep]

/-- A division by zero ends the parse. -/
theorem scan_behind_zero (h : k.multiply v = none) : scan stack (.behind k v) t = true := by
  rw [scan_stop fun _ => by rw [step, behindStep, h]; rfl, Mode.value, value_of_none h, unwinds_none]

theorem scan_behind_sum (hv : k.multiply v = some res) (hstar : cur t ≠ '*') (hslash : cur t ≠ '/')
    (hskip : k.later = false → skip t = t) :
    scan stack (.behind k v) t = scan stack (.sum (k.add res)) t := by
  refine scan_congr (value_of_some hv) ?_
  rintro _ rfl _
  have hblank : ¬ (isBlank (cur t) = true ∧ k.later = false) := by
    rintro ⟨hb, hl⟩
    have hnot := cur_skip_not_blank t
    rw [hskip hl, hb] at hnot
    cases hnot
  rw [step, behindStep, hv, Option.bind_some, if_neg hstar, if_neg hslash, if_neg hblank]
  rfl

theorem scan_sum_stop (hskip : skip t = t) (hplus : cur t ≠ '+') (hminus : cur t ≠ '-')
    (hclose : stack = [] ∨ cur t ≠ ')') :
    scan stack (.sum v) t = unwinds stack (some v) (inked t) := by
  refine scan_stop fun _ => ?_
  have hblank := cur_skip_not_blank t
  rw [hskip] at hblank
  rw [step, sumStep.eq_def, hblank, if_neg hplus, if_neg hminus]
  rcases hclose with rfl | hclose
  · simp
  · simp [hclose]

theorem scan_invalid (h : t ≠ [] → Clang.isValid (cur t) = false) :
    scan stack (.behind k v) t = unwinds stack (k.value v) (inked t) := by
  refine scan_stop fun hne => ?_
  have hvalid := h hne
  have hnot : ∀ {c : Char}, Clang.isValid c = true → cur t ≠ c := by
    intro c hc heq
    rw [heq, hc] at hvalid
    cases hvalid
  have hblank : isBlank (cur t) = false := by
    cases hb : isBlank (cur t) with
    | false => rfl
    | true =>
      rcases eq_of_isBlank hb with hc | hc
      · exact absurd hc (hnot (by decide))
      · exact absurd hc (hnot (by decide))
  rw [step, behindStep]
  cases k.multiply v with
  | none => rfl
  | some res =>
    rw [Option.bind_some, if_neg (hnot (by decide)), if_neg (hnot (by decide)), hblank,
      sumStep.eq_def, hblank, if_neg (hnot (by decide)), if_neg (hnot (by decide)),
      if_neg (hnot (by decide))]
    rfl

end Scan

-- The parser stops at the `x`, inside of one parenthesis and with two characters left.
example : Readable ['(', '1', ' ', 'x', ')'] := rfl

-- The division by zero comes before the parenthesis that is left open.
example : Readable ['1', '/', '0', '+', '('] := rfl

end ClangReads
end Calculator
end SsuComputer
