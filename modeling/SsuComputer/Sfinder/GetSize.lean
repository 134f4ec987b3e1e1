import Mathlib.Data.List.TakeWhile
import Mathlib.Tactic.Positivity
import SsuComputer.Lib.CString

/-!
# SsuComputer.Sfinder.GetSize

`get_size`, the syntax of a size argument.

* `scan` — the loop over the characters, with its look at the character behind a dot.
* `SizeSyntax` — the sizes that the help describes, as a grammar.
* `getSize_exact_iff` — when the answer of `get_size` is that of the grammar.
-/

namespace SsuComputer
namespace Sfinder

def STRMAX : Nat := 10000

def KB : Nat := 1000
def MB : Nat := 1000000
def GB : Nat := 1000000000
def KiB : Nat := 1024
def MiB : Nat := 1048576
def GiB : Nat := 1073741824

def SIZE_ERROR : Int := -2

/-- The chain of comparisons with `size_unit`. -/
def unitFactor (sizeUnit : CString) : Option Nat :=
  if sizeUnit = ['k', 'b'] ∨ sizeUnit = ['K', 'B'] then some KB
  else if sizeUnit = ['m', 'b'] ∨ sizeUnit = ['M', 'B'] then some MB
  else if sizeUnit = ['g', 'b'] ∨ sizeUnit = ['G', 'B'] then some GB
  else if sizeUnit = ['k', 'i', 'b'] ∨ sizeUnit = ['K', 'i', 'B'] then some KiB
  else if sizeUnit = ['m', 'i', 'b'] ∨ sizeUnit = ['M', 'i', 'B'] then some MiB
  else if sizeUnit = ['g', 'i', 'b'] ∨ sizeUnit = ['G', 'i', 'B'] then some GiB
  else none

def numeric (c : Char) : Bool := c.isDigit || c = '.'

def startsWithDigit : CString → Bool
  | [] => false
  | c :: _ => c.isDigit

/-- How the loop over `filesize` ends. -/
inductive Scan where
  /-- A character is written behind the end of `size`. -/
  | overflow
  /-- The function returns `SIZE_ERROR` from the loop. -/
  | sizeError
  /-- The content of `size`, and the text that goes to `size_unit`. -/
  | done (size sizeUnit : CString)
  deriving DecidableEq

def scan (size : CString) : CString → Scan
  | [] => .done size []
  | c :: rest =>
    if numeric c then
      if size.length < STRMAX then
        if c = '.' ∧ startsWithDigit rest = false then .sizeError
        else scan (size ++ [c]) rest
      else .overflow
    else .done size (c :: rest)

/-- `get_size`; `toBytes` is `atof`, the multiplication by the factor of the unit and the cast to
`long long`. There is no result when a text does not fit into its array. -/
def getSize (toBytes : CString → Nat → Int) (filesize : CString) : Option Int :=
  if filesize = ['~'] then some (-1)
  else match scan [] filesize with
    | .overflow => none
    | .sizeError => some SIZE_ERROR
    | .done size sizeUnit =>
      if size.length < STRMAX ∧ sizeUnit.length < 4 then
        if sizeUnit = [] then some (toBytes size 1)
        else match unitFactor sizeUnit with
          | some factor => some (toBytes size factor)
          | none => some SIZE_ERROR
      else none

/-- The text that `strcpy` copies to `size_unit`, when it is reached. -/
def copiedUnit (filesize : CString) : CString :=
  if filesize = ['~'] then []
  else match scan [] filesize with
    | .done _ sizeUnit => sizeUnit
    | _ => []

/-! ## The grammar -/

def units : List CString :=
  [['k', 'b'], ['K', 'B'], ['m', 'b'], ['M', 'B'], ['g', 'b'], ['G', 'B'],
    ['k', 'i', 'b'], ['K', 'i', 'B'], ['m', 'i', 'b'], ['M', 'i', 'B'], ['g', 'i', 'b'],
    ['G', 'i', 'B']]

def Digits (s : CString) : Prop := s ≠ [] ∧ ∀ c ∈ s, c.isDigit

inductive Number : CString → Prop
  | whole {ds} : Digits ds → Number ds
  | fraction {ds fs} : Digits ds → Digits fs → Number (ds ++ '.' :: fs)

inductive SizeSyntax : CString → Prop
  | unlimited : SizeSyntax ['~']
  | bytes {number} : Number number → SizeSyntax number
  | unit {number sizeUnit} : Number number → sizeUnit ∈ units → SizeSyntax (number ++ sizeUnit)

/-- The function returns the error for exactly the texts outside of the grammar, and the text of the
unit fits. -/
def SizeExact (toBytes : CString → Nat → Int) (filesize : CString) : Prop :=
  (∃ size, getSize toBytes filesize = some size ∧ (size = SIZE_ERROR ↔ ¬SizeSyntax filesize)) ∧
    (copiedUnit filesize).length ≤ 3

/-- A dot that a number leads to, with no digit behind it. -/
def BareDot (filesize before after : CString) : Prop :=
  filesize = before ++ '.' :: after ∧ (∀ c ∈ before, numeric c) ∧ startsWithDigit after = false

def numberOf (filesize : CString) : CString := filesize.takeWhile numeric

def unitOf (filesize : CString) : CString := filesize.dropWhile numeric

/-- A wrong unit, or one number before it; a bare dot is found before that. -/
def SizeCondition (filesize : CString) : Prop :=
  filesize = ['~'] ∨
    (∃ before after, BareDot filesize before after ∧ before.length < STRMAX) ∨
    (numberOf filesize).length < STRMAX ∧ (unitOf filesize).length ≤ 3 ∧
      (unitOf filesize ≠ [] ∧ unitOf filesize ∉ units ∨
        numberOf filesize ≠ [] ∧ (numberOf filesize).head? ≠ some '.' ∧
          (numberOf filesize).count '.' ≤ 1)

/-! ## What the grammar says of the two parts -/

@[simp] theorem numeric_dot : numeric '.' = true := rfl

theorem numeric_of_isDigit {c : Char} (h : c.isDigit = true) : numeric c = true := by
  simp [numeric, h]

@[simp] theorem number_unit (filesize : CString) : numberOf filesize ++ unitOf filesize = filesize :=
  List.takeWhile_append_dropWhile

theorem numeric_numberOf {filesize : CString} {c : Char} (h : c ∈ numberOf filesize) :
    numeric c = true :=
  List.mem_takeWhile_imp h

theorem unitOf_head {filesize : CString} {c : Char} (h : (unitOf filesize).head? = some c) :
    numeric c = false := by
  have hhead := List.head?_dropWhile_not numeric filesize
  rw [unitOf] at h
  simpa [h] using hhead

theorem startsWithDigit_append_unitOf (b filesize : CString) :
    startsWithDigit (b ++ unitOf filesize) = startsWithDigit b := by
  cases b with
  | cons c b => rfl
  | nil =>
    cases h : unitOf filesize with
    | nil => rfl
    | cons c u =>
      have hc : numeric c = false := unitOf_head (by rw [h]; rfl)
      simp only [numeric, Bool.or_eq_false_iff] at hc
      simpa [startsWithDigit] using hc.1

theorem Digits.numeric {ds : CString} (h : Digits ds) : ∀ c ∈ ds, numeric c = true :=
  fun c hc => numeric_of_isDigit (h.2 c hc)

theorem Digits.no_dot {ds : CString} (h : Digits ds) : '.' ∉ ds :=
  fun hdot => absurd (h.2 '.' hdot) (by simp)

theorem Number.numeric {n : CString} (h : Number n) : ∀ c ∈ n, numeric c = true := by
  cases h with
  | whole hds => exact hds.numeric
  | fraction hds hfs =>
    intro c hc
    rcases List.mem_append.mp hc with h | h
    · exact hds.numeric c h
    · rcases List.mem_cons.mp h with rfl | h
      · rfl
      · exact hfs.numeric c h

/-- The dot of a number has a digit behind it. -/
theorem Number.dot {n a b : CString} (h : Number n) (heq : n = a ++ '.' :: b) :
    startsWithDigit b = true := by
  cases h with
  | whole hds => exact absurd (by simp [heq]) hds.no_dot
  | @fraction ds fs hds hfs =>
    obtain ⟨-, hb⟩ := (List.append_cons_inj_of_notMem hds.no_dot hfs.no_dot).mp heq
    obtain ⟨hne, hdigit⟩ := hfs
    cases fs with
    | nil => exact absurd rfl hne
    | cons c fs => rw [← hb.2]; exact hdigit c List.mem_cons_self

theorem units_head {u : CString} (h : u ∈ units) :
    ∃ c rest, u = c :: rest ∧ numeric c = false := by
  simp only [units, List.mem_cons, List.not_mem_nil, or_false] at h
  rcases h with rfl | rfl | rfl | rfl | rfl | rfl | rfl | rfl | rfl | rfl | rfl | rfl <;>
    exact ⟨_, _, rfl, rfl⟩

theorem numberOf_append_unit {n u : CString} (hn : ∀ c ∈ n, numeric c = true) (hu : u ∈ units) :
    numberOf (n ++ u) = n ∧ unitOf (n ++ u) = u := by
  obtain ⟨c, rest, rfl, hc⟩ := units_head hu
  simp [numberOf, unitOf, List.takeWhile_append_of_pos hn, List.dropWhile_append_of_pos hn, hc]

theorem numberOf_eq_self {n : CString} (hn : ∀ c ∈ n, numeric c = true) :
    numberOf n = n ∧ unitOf n = [] :=
  ⟨List.takeWhile_eq_self_iff.mpr hn, List.dropWhile_eq_nil_iff.mpr hn⟩

theorem sizeSyntax_iff (filesize : CString) :
    SizeSyntax filesize ↔ filesize = ['~'] ∨
      Number (numberOf filesize) ∧ (unitOf filesize = [] ∨ unitOf filesize ∈ units) := by
  constructor
  · intro h
    cases h with
    | unlimited => exact .inl rfl
    | bytes hn =>
      obtain ⟨h1, h2⟩ := numberOf_eq_self hn.numeric
      exact .inr ⟨by rwa [h1], .inl h2⟩
    | unit hn hu =>
      obtain ⟨h1, h2⟩ := numberOf_append_unit hn.numeric hu
      exact .inr ⟨by rwa [h1], .inr (by rwa [h2])⟩
  · rintro (rfl | ⟨hn, hu | hu⟩)
    · exact .unlimited
    · have heq := number_unit filesize
      rw [hu, List.append_nil] at heq
      rw [← heq]
      exact .bytes hn
    · rw [← number_unit filesize]
      exact .unit hn hu

theorem unitFactor_eq_none {u : CString} : unitFactor u = none ↔ u ∉ units := by
  simp [unitFactor, units, ite_eq_iff]
  tauto

theorem Number.shape {n : CString} (h : Number n) :
    n ≠ [] ∧ n.head? ≠ some '.' ∧ n.count '.' ≤ 1 := by
  cases h with
  | whole hds =>
    refine ⟨hds.1, fun h => hds.no_dot (List.mem_of_mem_head? h), ?_⟩
    rw [List.count_eq_zero.mpr hds.no_dot]
    omega
  | @fraction ds fs hds hfs =>
    obtain ⟨c, ds', rfl⟩ := List.exists_cons_of_ne_nil hds.1
    refine ⟨by simp, ?_, ?_⟩
    · rintro h
      cases h
      exact hds.no_dot List.mem_cons_self
    · rw [List.count_append, List.count_cons_self, List.count_eq_zero.mpr hds.no_dot,
        List.count_eq_zero.mpr hfs.no_dot]

/-- Without a bare dot, the dots decide alone what is a number. -/
theorem number_iff {n : CString} (hn : ∀ c ∈ n, numeric c = true)
    (hdots : ∀ a b, n = a ++ '.' :: b → startsWithDigit b = true) :
    Number n ↔ n ≠ [] ∧ n.head? ≠ some '.' ∧ n.count '.' ≤ 1 := by
  have hdigits : ∀ {a : CString}, (∀ c ∈ a, c ∈ n) → '.' ∉ a → ∀ c ∈ a, c.isDigit = true := by
    intro a hsub hdot c hc
    have := hn c (hsub c hc)
    simp only [numeric, Bool.or_eq_true, decide_eq_true_eq] at this
    rcases this with h | rfl
    · exact h
    · exact absurd hc hdot
  refine ⟨Number.shape, ?_⟩
  rintro ⟨hne, hhead, hcount⟩
  by_cases hdot : '.' ∈ n
  · obtain ⟨a, b, rfl⟩ := List.append_of_mem hdot
    rw [List.count_append, List.count_cons_self] at hcount
    have ha : '.' ∉ a := List.count_eq_zero.mp (by omega)
    have hb : '.' ∉ b := List.count_eq_zero.mp (by omega)
    refine .fraction ⟨?_, hdigits (fun c hc => List.mem_append_left _ hc) ha⟩
      ⟨?_, hdigits (fun c hc => List.mem_append_right _ (List.mem_cons_of_mem _ hc)) hb⟩
    · rintro rfl
      exact hhead rfl
    · rintro rfl
      exact absurd (hdots a [] rfl) (by simp [startsWithDigit])
  · exact .whole ⟨hne, hdigits (fun _ hc => hc) hdot⟩

/-! ## The loop -/

theorem BareDot.cons {s a b : CString} {c : Char} (hc : numeric c = true) (h : BareDot s a b) :
    BareDot (c :: s) (c :: a) b := by
  obtain ⟨heq, hnum, hb⟩ := h
  exact ⟨by rw [heq]; rfl, List.forall_mem_cons.mpr ⟨hc, hnum⟩, hb⟩

theorem scan_sizeError {s a b : CString} (h : BareDot s a b) (size : CString)
    (hlen : size.length + a.length < STRMAX) : scan size s = .sizeError := by
  obtain ⟨rfl, hnum, hb⟩ := h
  induction a generalizing size with
  | nil =>
    have hlt : size.length < STRMAX := hlen
    simp [scan, hlt, hb]
  | cons c a ih =>
    rw [List.length_cons] at hlen
    obtain ⟨hc, hnum⟩ := List.forall_mem_cons.mp hnum
    have ih := ih (size ++ [c]) (by rw [List.length_append, List.length_singleton]; omega) hnum
    rw [List.cons_append, scan, if_pos hc, if_pos (by omega)]
    split
    · rfl
    · exact ih

theorem scan_done {s : CString} (hdots : ∀ a b, ¬BareDot s a b) (size : CString)
    (hlen : size.length + (numberOf s).length ≤ STRMAX) :
    scan size s = .done (size ++ numberOf s) (unitOf s) := by
  induction s generalizing size with
  | nil => simp [scan, numberOf, unitOf]
  | cons c s ih =>
    by_cases hc : numeric c
    · have hnum : numberOf (c :: s) = c :: numberOf s := List.takeWhile_cons_of_pos hc
      have hunit : unitOf (c :: s) = unitOf s := List.dropWhile_cons_of_pos hc
      rw [hnum, List.length_cons] at hlen
      have hdot : ¬(c = '.' ∧ startsWithDigit s = false) := by
        rintro ⟨rfl, hs⟩
        exact hdots [] s ⟨rfl, by simp, hs⟩
      rw [scan, if_pos hc, if_pos (by omega), if_neg hdot,
        ih (fun a b h => hdots _ _ (h.cons hc)) _
          (by rw [List.length_append, List.length_singleton]; omega), hnum, hunit]
      simp
    · have hnum : numberOf (c :: s) = [] := List.takeWhile_cons_of_neg hc
      have hunit : unitOf (c :: s) = c :: s := List.dropWhile_cons_of_neg hc
      rw [scan, if_neg hc, hnum, hunit, List.append_nil]

theorem scan_overflow {s : CString} (size : CString) (hsize : size.length ≤ STRMAX)
    (hdots : ∀ a b, BareDot s a b → STRMAX ≤ size.length + a.length)
    (hlen : STRMAX < size.length + (numberOf s).length) : scan size s = .overflow := by
  induction s generalizing size with
  | nil => simp [numberOf] at hlen; omega
  | cons c s ih =>
    by_cases hc : numeric c
    · have hnum : numberOf (c :: s) = c :: numberOf s := List.takeWhile_cons_of_pos hc
      rw [hnum, List.length_cons] at hlen
      rw [scan, if_pos hc]
      by_cases hlt : size.length < STRMAX
      · have hdot : ¬(c = '.' ∧ startsWithDigit s = false) := by
          rintro ⟨rfl, hs⟩
          have := hdots [] s ⟨rfl, by simp, hs⟩
          rw [List.length_nil] at this
          omega
        have hlen' : (size ++ [c]).length = size.length + 1 := by simp
        rw [if_pos hlt, if_neg hdot]
        refine ih _ (by omega) (fun a b h => ?_) (by omega)
        have := hdots _ _ (h.cons hc)
        rw [List.length_cons] at this
        omega
      · rw [if_neg hlt]
    · have hnum : numberOf (c :: s) = [] := List.takeWhile_cons_of_neg hc
      rw [hnum, List.length_nil] at hlen
      omega

/-! ## The answer -/

theorem BareDot.parts {s a b : CString} (h : BareDot s a b) :
    numberOf s = a ++ '.' :: numberOf b ∧ unitOf s = unitOf b := by
  obtain ⟨rfl, hnum, -⟩ := h
  constructor
  · simp [numberOf, List.takeWhile_append_of_pos hnum, List.takeWhile_cons]
  · simp [unitOf, List.dropWhile_append_of_pos hnum, List.dropWhile_cons]

theorem BareDot.not_syntax {s a b : CString} (h : BareDot s a b) : ¬SizeSyntax s := by
  intro hwf
  rcases (sizeSyntax_iff s).mp hwf with rfl | ⟨hnumber, -⟩
  · have hdot : '.' ∈ ['~'] := by
      rw [h.1]
      simp
    simp at hdot
  · have hdigit := hnumber.dot h.parts.1
    rw [← startsWithDigit_append_unitOf, number_unit, h.2.2] at hdigit
    cases hdigit

/-- Without a bare dot in reach, there is none in the number if that fits. -/
theorem no_bareDot {s : CString}
    (hdots : ¬∃ before after, BareDot s before after ∧ before.length < STRMAX)
    (hlen : (numberOf s).length ≤ STRMAX) (a b : CString) : ¬BareDot s a b := by
  intro h
  have hparts := congrArg List.length h.parts.1
  rw [List.length_append, List.length_cons] at hparts
  exact hdots ⟨a, b, h, by omega⟩

theorem dots_followed {s : CString} (hdots : ∀ a b, ¬BareDot s a b) (a b : CString)
    (heq : numberOf s = a ++ '.' :: b) : startsWithDigit b = true := by
  by_contra hb
  refine hdots a (b ++ unitOf s) ⟨?_, fun c hc => ?_, ?_⟩
  · conv_lhs => rw [← number_unit s, heq]
    simp
  · exact numeric_numberOf (by rw [heq]; exact List.mem_append_left _ hc)
  · rw [startsWithDigit_append_unitOf]
    simpa using hb

/-- What is copied to `size_unit` when the loop reaches the end of the number. -/
theorem getSize_done (toBytes : CString → Nat → Int) {s : CString} (htilde : s ≠ ['~'])
    (hdots : ∀ a b, ¬BareDot s a b) (hlen : (numberOf s).length ≤ STRMAX) :
    getSize toBytes s =
        (if (numberOf s).length < STRMAX ∧ (unitOf s).length < 4 then
          if unitOf s = [] then some (toBytes (numberOf s) 1)
          else match unitFactor (unitOf s) with
            | some factor => some (toBytes (numberOf s) factor)
            | none => some SIZE_ERROR
        else none) ∧
      copiedUnit s = unitOf s := by
  have hscan := scan_done hdots [] (by rw [List.length_nil]; omega)
  rw [List.nil_append] at hscan
  simp [getSize, copiedUnit, htilde, hscan]

theorem sizeExact_of_done {toBytes : CString → Nat → Int}
    (hbytes : ∀ size factor, toBytes size factor ≠ SIZE_ERROR) {s : CString} (htilde : s ≠ ['~'])
    (hdots : ∀ a b, ¬BareDot s a b) (hlen : (numberOf s).length < STRMAX)
    (hunit : (unitOf s).length ≤ 3) :
    SizeExact toBytes s ↔ unitOf s ≠ [] ∧ unitOf s ∉ units ∨ Number (numberOf s) := by
  obtain ⟨hsize, hcopied⟩ := getSize_done toBytes htilde hdots hlen.le
  rw [if_pos ⟨hlen, by omega⟩] at hsize
  have hwf : SizeSyntax s ↔
      Number (numberOf s) ∧ (unitOf s = [] ∨ unitOf s ∈ units) := by
    rw [sizeSyntax_iff, or_iff_right htilde]
  rw [SizeExact, hcopied, and_iff_left hunit, hsize, hwf]
  by_cases hnil : unitOf s = []
  · simp [hnil, hbytes]
  · cases hf : unitFactor (unitOf s) with
    | none =>
      have hu := unitFactor_eq_none.mp hf
      simp [hnil, hu]
    | some factor =>
      have hu : unitOf s ∈ units := by
        by_contra hu
        rw [unitFactor_eq_none.mpr hu] at hf
        cases hf
      simp [hnil, hu, hbytes]

theorem getSize_exact_iff {toBytes : CString → Nat → Int}
    (hbytes : ∀ size factor, toBytes size factor ≠ SIZE_ERROR) (filesize : CString) :
    SizeExact toBytes filesize ↔ SizeCondition filesize := by
  by_cases htilde : filesize = ['~']
  · refine iff_of_true ⟨⟨-1, if_pos htilde, ?_⟩, ?_⟩ (.inl htilde)
    · rw [htilde]
      exact iff_of_false (by simp [SIZE_ERROR]) (not_not_intro .unlimited)
    · simp [copiedUnit, htilde]
  rw [SizeCondition, or_iff_right htilde]
  by_cases hbare : ∃ before after, BareDot filesize before after ∧ before.length < STRMAX
  · obtain ⟨before, after, h, hlen⟩ := hbare
    have hscan := scan_sizeError h [] (by rw [List.length_nil]; omega)
    refine iff_of_true ⟨⟨SIZE_ERROR, ?_, iff_of_true rfl h.not_syntax⟩, ?_⟩
      (.inl ⟨before, after, h, hlen⟩)
    · simp [getSize, htilde, hscan]
    · simp [copiedUnit, htilde, hscan]
  rw [or_iff_right hbare]
  by_cases hlen : (numberOf filesize).length < STRMAX ∧ (unitOf filesize).length ≤ 3
  · have hdots := no_bareDot hbare hlen.1.le
    rw [sizeExact_of_done hbytes htilde hdots hlen.1 hlen.2, ← and_assoc, and_iff_right hlen,
      number_iff (fun _ => numeric_numberOf) (dots_followed hdots)]
  · -- one of the two texts does not fit, and there is no result
    have hnone : getSize toBytes filesize = none := by
      by_cases hmax : (numberOf filesize).length ≤ STRMAX
      · rw [(getSize_done toBytes htilde (no_bareDot hbare hmax) hmax).1, if_neg (by omega)]
      · have hscan : scan [] filesize = .overflow := by
          refine scan_overflow [] (Nat.zero_le _) (fun a b h => ?_) (by rw [List.length_nil]; omega)
          by_contra hlt
          exact hbare ⟨a, b, h, by rw [List.length_nil] at hlt; omega⟩
        simp [getSize, htilde, hscan]
    refine iff_of_false ?_ (fun h => hlen ⟨h.1, h.2.1⟩)
    rintro ⟨⟨size, hsome, -⟩, -⟩
    rw [hnone] at hsome
    cases hsome

/-- `atof` on the text of a whole number. -/
def wholeBytes (size : CString) (factor : Nat) : Int := decimal size * factor

theorem wholeBytes_ne (size : CString) (factor : Nat) : wholeBytes size factor ≠ SIZE_ERROR := by
  have h : (0 : Int) ≤ wholeBytes size factor := by
    rw [wholeBytes]
    positivity
  rw [SIZE_ERROR]
  omega

theorem getSize_exact_kibibytes : SizeExact wholeBytes ['1', '0', 'k', 'i', 'b'] :=
  (getSize_exact_iff wholeBytes_ne _).mpr
    (.inr (.inr ⟨by simp [numberOf, numeric, STRMAX], by simp [unitOf, numeric],
      .inr ⟨by simp [numberOf, numeric], by simp [numberOf, numeric],
        by simp [numberOf, numeric]⟩⟩))

/-- A number with two dots is taken for what is before the second one. -/
theorem two_dots_accepted : ¬SizeExact wholeBytes ['1', '.', '2', '.', '3'] := by
  rintro ⟨⟨size, hsize, hiff⟩, -⟩
  have hone : getSize wholeBytes ['1', '.', '2', '.', '3'] = some 1 := rfl
  rw [hone] at hsize
  cases hsize
  have hwf : ¬SizeSyntax ['1', '.', '2', '.', '3'] := by
    rw [sizeSyntax_iff]
    rintro (h | ⟨h, -⟩)
    · cases h
    · exact absurd h.shape.2.2 (by decide)
  exact absurd (hiff.mpr hwf) (by decide)

end Sfinder
end SsuComputer
