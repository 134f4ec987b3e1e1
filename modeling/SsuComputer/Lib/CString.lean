import Mathlib.Data.List.Infix

/-!
# SsuComputer.Lib.CString

Strings of C, as the characters before the terminator, and the functions of the C library that are
used on them. A pointer into a string is the text before it and the text from it on.
-/

namespace SsuComputer

abbrev CString := List Char

instance : LawfulBEq CString := inferInstance

/-- `strcasecmp(a, b) == 0`. -/
def strcaseEq (a b : CString) : Bool := a.map Char.toLower = b.map Char.toLower

/-- `strrchr`: the text before the last `c`, and the text after it. -/
def strrchr (c : Char) : CString → Option (CString × CString)
  | [] => none
  | x :: xs =>
    match strrchr c xs with
    | some (before, after) => some (x :: before, after)
    | none => if x = c then some ([], xs) else none

/-- `strstr`: the text before the first occurrence, and the text from it on. -/
def strstr (needle : CString) : CString → Option (CString × CString)
  | [] => if needle = [] then some ([], []) else none
  | x :: xs =>
    if needle <+: x :: xs then some ([], x :: xs)
    else (strstr needle xs).map fun r => (x :: r.1, r.2)

/-- The loop of `strtok(s, " ")`: the pieces between the separators, empty ones left out. -/
def pieces (separator : Char) : CString → CString → List CString
  | piece, [] => if piece = [] then [] else [piece]
  | piece, c :: s =>
    if c = separator then
      if piece = [] then pieces separator [] s else piece :: pieces separator [] s
    else pieces separator (piece ++ [c]) s

def strtok (separator : Char) (s : CString) : List CString := pieces separator [] s

def isSpace (c : Char) : Bool :=
  c = ' ' || c = '\t' || c = '\n' || c = '\x0b' || c = '\x0c' || c = '\r'

/-- The number that the leading digits spell. -/
def decimal (s : CString) : Nat :=
  (s.takeWhile Char.isDigit).foldl (fun n c => 10 * n + (c.toNat - '0'.toNat)) 0

/-- `strtol(s, NULL, 10)` with a 64-bit `long`: values out of range are clamped. -/
def strtol (s : CString) : Int :=
  match s.dropWhile isSpace with
  | '-' :: digits => max (-9223372036854775808) (-(decimal digits : Int))
  | '+' :: digits => min 9223372036854775807 (decimal digits : Int)
  | digits => min 9223372036854775807 (decimal digits : Int)

/-! ## What the searches find -/

theorem strrchr_append_of_mem {c : Char} {t : CString} (h : c ∈ t) (s : CString) :
    ∃ before after, strrchr c t = some (before, after) ∧
      strrchr c (s ++ t) = some (s ++ before, after) := by
  have ht : ∃ before after, strrchr c t = some (before, after) := by
    induction t with
    | nil => cases h
    | cons x xs ih =>
      simp only [strrchr]
      cases hr : strrchr c xs with
      | some r => exact ⟨_, _, rfl⟩
      | none =>
        have hx : x = c := by
          rcases List.mem_cons.mp h with rfl | hm
          · rfl
          · obtain ⟨_, _, h'⟩ := ih hm
            rw [hr] at h'
            cases h'
        exact ⟨[], xs, if_pos hx⟩
  obtain ⟨before, after, ht⟩ := ht
  refine ⟨before, after, ht, ?_⟩
  induction s with
  | nil => exact ht
  | cons y ys ih => simp [strrchr, ih]

theorem strrchr_of_not_mem {c : Char} {t : CString} (h : c ∉ t) : strrchr c t = none := by
  induction t with
  | nil => rfl
  | cons x xs ih =>
    rw [List.mem_cons, not_or] at h
    simp [strrchr, ih h.2, Ne.symm h.1]

theorem strrchr_eq_some {c : Char} {s before after : CString}
    (h : strrchr c s = some (before, after)) : s = before ++ c :: after ∧ c ∉ after := by
  induction s generalizing before with
  | nil => cases h
  | cons x xs ih =>
    simp only [strrchr] at h
    split at h
    · rename_i b a hr
      cases h
      obtain ⟨rfl, hc⟩ := ih hr
      exact ⟨rfl, hc⟩
    · rename_i hr
      split at h
      · rename_i hx
        cases h
        refine ⟨by rw [hx]; rfl, fun hm => ?_⟩
        obtain ⟨_, _, hs, -⟩ := strrchr_append_of_mem hm []
        rw [hr] at hs
        cases hs
      · cases h

theorem strstr_eq_some {needle s before found : CString}
    (h : strstr needle s = some (before, found)) : s = before ++ found ∧ needle <+: found := by
  induction s generalizing before with
  | nil =>
    simp only [strstr] at h
    split at h
    · rename_i hn
      cases h
      subst hn
      exact ⟨rfl, List.nil_prefix⟩
    · cases h
  | cons x xs ih =>
    simp only [strstr] at h
    split at h
    · rename_i hp
      cases h
      exact ⟨rfl, hp⟩
    · obtain ⟨⟨b, f⟩, hr, heq⟩ := Option.map_eq_some_iff.mp h
      cases heq
      obtain ⟨rfl, hf⟩ := ih hr
      exact ⟨rfl, hf⟩

/-- The first occurrence stays the first when something follows. -/
theorem strstr_append_of_infix {needle s : CString} (h : needle <:+: s) (t : CString) :
    ∃ before found, strstr needle s = some (before, found) ∧
      strstr needle (s ++ t) = some (before, found ++ t) := by
  induction s with
  | nil =>
    have hn : needle = [] := List.infix_nil.mp h
    subst hn
    refine ⟨[], [], rfl, ?_⟩
    cases t with
    | nil => rfl
    | cons y ys => simp [strstr]
  | cons x xs ih =>
    by_cases hp : needle <+: x :: xs
    · have hp' : needle <+: x :: xs ++ t := hp.trans (List.prefix_append _ _)
      exact ⟨[], x :: xs, if_pos hp, if_pos hp'⟩
    · have hp' : ¬ needle <+: x :: (xs ++ t) := fun hq =>
        hp (List.prefix_of_prefix_length_le hq (List.prefix_append (x :: xs) t) h.length_le)
      have hxs : needle <:+: xs := (List.infix_cons_iff.mp h).resolve_left hp
      obtain ⟨before, found, hs, ht⟩ := ih hxs
      exact ⟨x :: before, found, by simp [strstr, hp, hs], by simp [strstr, hp', ht]⟩

/-- No occurrence reaches over a character that the needle does not have. -/
theorem strstr_append_of_not_infix {needle : CString} {c : Char} (hc : c ∉ needle) (s t : CString)
    (h : ¬ needle <:+: s ++ [c]) :
    strstr needle (s ++ c :: t) = (strstr needle t).map fun r => (s ++ c :: r.1, r.2) := by
  have hstart {u : CString} (hu : ¬ needle <:+: u ++ [c]) : ¬ needle <+: u ++ c :: t := by
    intro hp
    have hpre : u ++ [c] <+: u ++ c :: t := ⟨t, by simp⟩
    rcases List.prefix_or_prefix_of_prefix hp hpre with hp' | hp'
    · exact hu hp'.isInfix
    · exact hc (hp'.subset (by simp))
  induction s with
  | nil =>
    have h0 := hstart h
    rw [List.nil_append] at h0
    rw [List.nil_append, strstr, if_neg h0]
    rfl
  | cons x xs ih =>
    have hxs : ¬ needle <:+: xs ++ [c] := fun hi => h (hi.trans (List.suffix_cons x _).isInfix)
    have hx := hstart h
    rw [List.cons_append] at hx ⊢
    rw [strstr, if_neg hx, ih hxs, Option.map_map]
    rfl

theorem strstr_eq_none_of_not_infix {needle s : CString} (h : ¬ needle <:+: s) :
    strstr needle s = none := by
  cases hs : strstr needle s with
  | none => rfl
  | some r =>
    obtain ⟨before, found⟩ := r
    obtain ⟨rfl, hf⟩ := strstr_eq_some hs
    exact absurd (hf.isInfix.trans (List.suffix_append _ _).isInfix) h

end SsuComputer
