import SsuComputer.Sdup.ByteString

/-!
# SsuComputer.Sfinder.FilesizeComma

`filesize_with_comma`, which writes the commas from the left.

* `commaLoop_eq` — what is written for the rest of the digits.
* `comma_printers_agree` — the text is that of `get_byte_to_string`, with groups of three digits.
-/

namespace SsuComputer
namespace Sfinder

/-- `sprintf("%lld")`. -/
def lld (n : Int) : CString :=
  if n < 0 then '-' :: Nat.toDigits 10 n.natAbs else Nat.toDigits 10 n.natAbs

/-- The loop over the digits from `i` on, with `text` written so far. -/
def commaLoop (comma : Nat) : Nat → CString → CString → CString
  | _, text, [] => text
  | i, text, c :: rest =>
    let text := if 0 < i ∧ i % 3 = comma then text ++ [','] else text
    commaLoop comma (i + 1) (text ++ [c]) rest

def filesizeWithComma (filesize : Int) : CString :=
  let filesizeWoComma := lld filesize
  commaLoop (filesizeWoComma.length % 3) 0 [] filesizeWoComma

theorem commaLoop_eq {comma i : Nat} {rest : CString} (hcomma : comma = (i + rest.length) % 3)
    (text : CString) :
    commaLoop comma i text rest =
      (if 0 < i ∧ 0 < rest.length ∧ rest.length % 3 = 0 then text ++ [','] else text) ++
        separated ',' 3 rest := by
  induction rest generalizing i text with
  | nil => simp [commaLoop]
  | cons c rest ih =>
    rw [List.length_cons] at hcomma
    have hhere : (0 < i ∧ i % 3 = comma) ↔
        0 < i ∧ 0 < (c :: rest).length ∧ (c :: rest).length % 3 = 0 := by
      rw [List.length_cons]
      omega
    rw [commaLoop, ih (by omega)]
    simp only [hhere]
    by_cases hgroup : 0 < rest.length ∧ rest.length % 3 = 0
    · rw [separated_cons_of_group hgroup.1 hgroup.2, if_pos ⟨i.succ_pos, hgroup⟩]
      simp
    · rw [separated_cons_of_not hgroup, if_neg (fun h => hgroup h.2)]
      simp

theorem filesizeWithComma_eq (n : Nat) :
    filesizeWithComma n = separated ',' 3 (Nat.toDigits 10 n) := by
  have hlld : lld n = Nat.toDigits 10 n := if_neg (by omega)
  rw [filesizeWithComma, hlld, commaLoop_eq (by rw [Nat.zero_add]), if_neg (by simp),
    List.nil_append]

theorem comma_not_mem_toDigits (n : Nat) : ',' ∉ Nat.toDigits 10 n := by
  intro h
  have hdigit := Nat.isDigit_of_mem_toDigits (by simp) (by simp) h
  simp at hdigit

theorem comma_printers_agree (n : Nat) (hn : 1 ≤ n) :
    ∃ text, Sdup.getByteToString n = some text ∧ filesizeWithComma n = text ∧
      text.filter (· ≠ ',') = Nat.toDigits 10 n ∧
      ∃ (first : CString) (groups : List CString), 1 ≤ first.length ∧ first.length ≤ 3 ∧
        (∀ g ∈ groups, g.length = 3) ∧ first ++ groups.flatten = Nat.toDigits 10 n ∧
        text = first ++ groups.flatMap (',' :: ·) :=
  ⟨separated ',' 3 (Nat.toDigits 10 n), Sdup.getByteToString_eq hn, filesizeWithComma_eq n,
    separated_filter (comma_not_mem_toDigits n), separated_groups (by simp) Nat.toDigits_ne_nil⟩

theorem comma_printers_agree_thousands :
    ∃ text, Sdup.getByteToString 1234567 = some text ∧ filesizeWithComma 1234567 = text ∧
      text.filter (· ≠ ',') = Nat.toDigits 10 1234567 ∧
      ∃ (first : CString) (groups : List CString), 1 ≤ first.length ∧ first.length ≤ 3 ∧
        (∀ g ∈ groups, g.length = 3) ∧ first ++ groups.flatten = Nat.toDigits 10 1234567 ∧
        text = first ++ groups.flatMap (',' :: ·) :=
  comma_printers_agree 1234567 (by simp)

example : filesizeWithComma 1234567 = ['1', ',', '2', '3', '4', ',', '5', '6', '7'] := by decide

end Sfinder
end SsuComputer
