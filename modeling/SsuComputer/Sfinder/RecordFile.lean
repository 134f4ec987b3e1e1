import Mathlib.Algebra.Order.BigOperators.Group.List
import SsuComputer.Sfinder.CheckArgs
import SsuComputer.Sfinder.Duplicates

/-!
# SsuComputer.Sfinder.RecordFile

The text of a file of `same_size_files_dir`, as `dir_traverse` writes it and `find_duplicates` reads
it back.

* `fgetsLines` — the lines that `fgets` reads.
* `readRound` — one round of the loop over them, with the array that holds the line.
* `readLines_writeLines_iff` — when the lines that are read are those that were written.
-/

namespace SsuComputer
namespace Sfinder

def nul : Char := '\x00'

/-- The string that starts at the beginning of the array. -/
def cstring (array : List Char) : CString := array.takeWhile (· ≠ nul)

/-- `fprintf(fp, "%s %s\n", hash, fullpath)`. -/
def fprintfLine (ln : Line) : CString := ln.hash ++ ' ' :: ln.path ++ ['\n']

/-- A size file after the lines have been appended to it. -/
def writeLines (lines : List Line) : CString := lines.flatMap fprintfLine

/-- What the calls of `fgets(line, size, fp)` read, one after the other, with `line` read already. -/
def fgetsLines (size : Nat) : CString → CString → List CString
  | line, [] => if line = [] then [] else [line]
  | line, c :: text =>
    if c = '\n' ∨ line.length + 2 = size then (line ++ [c]) :: fgetsLines size [] text
    else fgetsLines size (line ++ [c]) text

/-- `fgets` puts the text and a terminator into the array, and leaves what is behind. -/
def store (array text : List Char) : List Char := text ++ nul :: array.drop (text.length + 1)

/-- The hash and the path that are taken from the array. There is no result when the path does not
fit into `filepath`, or is empty, so that the character before `filepath` is written. -/
def readRound (hashMax : Nat) (array : List Char) : Option Line :=
  let hash := (cstring array).take (hashMax - 1)
  let filepath := cstring (array.drop hashMax)
  if filepath.length < PATHMAX ∧ filepath ≠ [] then some ⟨hash, filepath.dropLast⟩ else none

def readRounds (hashMax : Nat) (array : List Char) : List CString → Option (List Line)
  | [] => some []
  | text :: rest =>
    match readRound hashMax (store array text) with
    | none => none
    | some ln => (readRounds hashMax (store array text) rest).map (ln :: ·)

def readLines (hashMax : Nat) (array : List Char) (text : CString) : Option (List Line) :=
  readRounds hashMax array (fgetsLines STRMAX [] text)

def isHexDigit (c : Char) : Bool := c.isDigit || ('a' ≤ c && c ≤ 'f') || ('A' ≤ c && c ≤ 'F')

/-- A hash of the right length, and an absolute path as the system has them. -/
structure Line.Legal (hashMax : Nat) (ln : Line) : Prop where
  hash_length : ln.hash.length = hashMax - 1
  hex : ∀ c ∈ ln.hash, isHexDigit c = true
  absolute : ln.path.head? = some '/'
  no_nul : nul ∉ ln.path
  fits : ln.path.length < PATHMAX

/-! ## One line -/

theorem fgetsLines_newline {size : Nat} {s : CString} (hs : '\n' ∉ s) (line rest : CString)
    (hlen : line.length + s.length + 1 < size) :
    fgetsLines size line (s ++ '\n' :: rest) =
      (line ++ s ++ ['\n']) :: fgetsLines size [] rest := by
  induction s generalizing line with
  | nil => simp [fgetsLines]
  | cons c s ih =>
    rw [List.mem_cons, not_or] at hs
    rw [List.length_cons] at hlen
    have hgo : ¬(c = '\n' ∨ line.length + 2 = size) := by
      rintro (rfl | hfull)
      · exact hs.1 rfl
      · omega
    rw [List.cons_append, fgetsLines, if_neg hgo,
      ih hs.2 (line ++ [c]) (by rw [List.length_append, List.length_singleton]; omega)]
    simp

theorem cstring_append {s : CString} (hs : nul ∉ s) (rest : List Char) :
    cstring (s ++ nul :: rest) = s := by
  have hpos : ∀ c ∈ s, decide (c ≠ nul) = true := fun c hc =>
    decide_eq_true (ne_of_mem_of_not_mem hc hs)
  rw [cstring, List.takeWhile_append_of_pos hpos, List.takeWhile_cons_of_neg (by simp),
    List.append_nil]

theorem Line.Legal.no_nul_hash {hashMax : Nat} {ln : Line} (h : ln.Legal hashMax) :
    nul ∉ ln.hash :=
  fun hmem => absurd (h.hex _ hmem) (by decide)

theorem Line.Legal.no_newline_hash {hashMax : Nat} {ln : Line} (h : ln.Legal hashMax) :
    '\n' ∉ ln.hash :=
  fun hmem => absurd (h.hex _ hmem) (by decide)

theorem Line.Legal.readRound_eq {hashMax : Nat} {ln : Line} (h : ln.Legal hashMax)
    (hmax : 0 < hashMax) (array : List Char) :
    readRound hashMax (store array (fprintfLine ln)) =
      if ln.path.length + 1 < PATHMAX then some ln else none := by
  have hlen := h.hash_length
  have hpath : nul ∉ ln.path ++ ['\n'] := by
    simp only [List.mem_append, List.mem_singleton, not_or]
    exact ⟨h.no_nul, by decide⟩
  have hline : nul ∉ fprintfLine ln := by
    simp only [fprintfLine, List.append_assoc, List.cons_append, List.mem_append, List.mem_cons,
      not_or] at hpath ⊢
    exact ⟨h.no_nul_hash, by decide, hpath⟩
  have hall : store array (fprintfLine ln) =
      (ln.hash ++ [' ']) ++ ((ln.path ++ ['\n']) ++
        nul :: array.drop ((fprintfLine ln).length + 1)) := by
    simp [store, fprintfLine]
  have hskip : hashMax = (ln.hash ++ [' ']).length := by
    rw [List.length_append, List.length_singleton]
    omega
  have hdrop : cstring ((store array (fprintfLine ln)).drop hashMax) = ln.path ++ ['\n'] := by
    rw [hall, hskip, List.drop_left, cstring_append hpath]
  have htake : (cstring (store array (fprintfLine ln))).take (hashMax - 1) = ln.hash := by
    rw [store, cstring_append hline, ← hlen, fprintfLine, List.append_assoc, List.take_left]
  simp [readRound, hdrop, htake]

/-! ## All lines -/

@[simp] theorem writeLines_cons (ln : Line) (lines : List Line) :
    writeLines (ln :: lines) = fprintfLine ln ++ writeLines lines := rfl

theorem readLines_cons {hashMax : Nat} {ln : Line} (h : ln.Legal hashMax)
    (hmax : hashMax = 33 ∨ hashMax = 41) (hpath : '\n' ∉ ln.path) (array : List Char)
    (rest : CString) :
    readLines hashMax array (fprintfLine ln ++ rest) =
      if ln.path.length + 1 < PATHMAX then
        (readLines hashMax (store array (fprintfLine ln)) rest).map (ln :: ·)
      else none := by
  have hbody : '\n' ∉ ln.hash ++ ' ' :: ln.path := by
    simp only [List.mem_append, List.mem_cons, not_or]
    exact ⟨h.no_newline_hash, by decide, hpath⟩
  have hlen : (ln.hash ++ ' ' :: ln.path).length + 1 < STRMAX := by
    have h₁ := h.hash_length
    have h₂ := h.fits
    simp only [List.length_append, List.length_cons, STRMAX, PATHMAX] at h₂ ⊢
    omega
  have hlines : fgetsLines STRMAX [] (fprintfLine ln ++ rest) =
      fprintfLine ln :: fgetsLines STRMAX [] rest := by
    rw [fprintfLine, List.append_assoc _ ['\n'], List.singleton_append,
      fgetsLines_newline hbody [] rest (by rw [List.length_nil]; omega), List.nil_append]
  rw [readLines, hlines, readRounds, h.readRound_eq (by omega)]
  by_cases hfits : ln.path.length + 1 < PATHMAX
  · rw [if_pos hfits, if_pos hfits]
    rfl
  · rw [if_neg hfits, if_neg hfits]

/-- Every newline ends a line. -/
theorem count_newline_le (size : Nat) (line text : CString) :
    text.count '\n' ≤ (fgetsLines size line text).length := by
  induction text generalizing line with
  | nil => simp
  | cons c text ih =>
    rw [fgetsLines]
    by_cases hc : c = '\n'
    · rw [if_pos (.inl hc), hc, List.count_cons_self, List.length_cons]
      exact Nat.succ_le_succ (ih [])
    · rw [List.count_cons_of_ne hc]
      split
      · exact (ih []).trans (Nat.le_succ _)
      · exact ih _

theorem readRounds_length {hashMax : Nat} {texts : List CString} {array : List Char}
    {lines : List Line} (h : readRounds hashMax array texts = some lines) :
    lines.length = texts.length := by
  induction texts generalizing array lines with
  | nil => cases h; rfl
  | cons text rest ih =>
    rw [readRounds] at h
    split at h
    · cases h
    · obtain ⟨lines', hrest, rfl⟩ := Option.map_eq_some_iff.mp h
      rw [List.length_cons, List.length_cons, ih hrest]

theorem count_newline_writeLines (lines : List Line) :
    lines.length + (lines.map fun ln => ln.path.count '\n').sum ≤
      (writeLines lines).count '\n' := by
  induction lines with
  | nil => simp
  | cons ln lines ih =>
    simp only [writeLines_cons, fprintfLine, List.length_cons, List.map_cons, List.sum_cons,
      List.count_append, List.count_cons, List.count_nil, beq_self_eq_true, if_true]
    omega

/-- A newline in a path makes a line too much. -/
theorem no_newline_of_readLines {hashMax : Nat} {array : List Char} {lines : List Line}
    (h : readLines hashMax array (writeLines lines) = some lines) :
    ∀ ln ∈ lines, '\n' ∉ ln.path := by
  intro ln hln hmem
  have hlines := readRounds_length h
  have hread := count_newline_le STRMAX [] (writeLines lines)
  have hwritten := count_newline_writeLines lines
  have hpath : ln.path.count '\n' ≤ (lines.map fun ln => ln.path.count '\n').sum :=
    List.le_sum_of_mem (List.mem_map_of_mem hln)
  have hpos := List.count_pos_iff.mpr hmem
  omega

theorem readLines_of_no_newline {hashMax : Nat} (hmax : hashMax = 33 ∨ hashMax = 41)
    {lines : List Line} (hlegal : ∀ ln ∈ lines, ln.Legal hashMax)
    (hpaths : ∀ ln ∈ lines, '\n' ∉ ln.path) (array : List Char) :
    readLines hashMax array (writeLines lines) = some lines ↔
      ∀ ln ∈ lines, ln.path.length + 1 < PATHMAX := by
  induction lines generalizing array with
  | nil => exact iff_of_true rfl (by simp)
  | cons ln lines ih =>
    obtain ⟨hln, hlegal⟩ := List.forall_mem_cons.mp hlegal
    obtain ⟨hpath, hpaths⟩ := List.forall_mem_cons.mp hpaths
    rw [writeLines_cons, readLines_cons hln hmax hpath, List.forall_mem_cons]
    by_cases hfits : ln.path.length + 1 < PATHMAX
    · rw [if_pos hfits, and_iff_right hfits, ← ih hlegal hpaths (store array (fprintfLine ln))]
      constructor
      · intro h
        obtain ⟨lines', hrest, heq⟩ := Option.map_eq_some_iff.mp h
        cases heq
        exact hrest
      · intro h
        rw [h]
        rfl
    · rw [if_neg hfits]
      exact iff_of_false (fun h => by cases h) (fun h => hfits h.1)

theorem readLines_writeLines_iff {hashMax : Nat} (hmax : hashMax = 33 ∨ hashMax = 41)
    {lines : List Line} (hlegal : ∀ ln ∈ lines, ln.Legal hashMax) (array : List Char) :
    readLines hashMax array (writeLines lines) = some lines ↔
      ∀ ln ∈ lines, '\n' ∉ ln.path ∧ ln.path.length + 1 < PATHMAX := by
  constructor
  · intro h ln hln
    have hpaths := no_newline_of_readLines h
    exact ⟨hpaths ln hln, (readLines_of_no_newline hmax hlegal hpaths array).mp h ln hln⟩
  · intro h
    exact (readLines_of_no_newline hmax hlegal (fun ln hln => (h ln hln).1) array).mpr
      fun ln hln => (h ln hln).2

def zeroHash : CString := List.replicate 32 '0'

theorem legal_zeroHash {path : CString} (habs : path.head? = some '/') (hnul : nul ∉ path)
    (hfits : path.length < PATHMAX) : Line.Legal 33 ⟨zeroHash, path⟩ where
  hash_length := List.length_replicate
  hex c hc := by
    rw [List.eq_of_mem_replicate hc]
    rfl
  absolute := habs
  no_nul := hnul
  fits := hfits

theorem readLines_writeLines_two :
    readLines 33 [] (writeLines [⟨zeroHash, ['/', 'a', ' ', 'b']⟩, ⟨zeroHash, ['/', 'c']⟩]) =
      some [⟨zeroHash, ['/', 'a', ' ', 'b']⟩, ⟨zeroHash, ['/', 'c']⟩] := by
  refine (readLines_writeLines_iff (.inl rfl) ?_ []).mpr ?_
  · simp only [List.forall_mem_cons]
    exact ⟨legal_zeroHash rfl (by simp [nul]) (by simp [PATHMAX]),
      legal_zeroHash rfl (by simp [nul]) (by simp [PATHMAX]), by simp⟩
  · simp [PATHMAX]

theorem newline_splits_record :
    Line.Legal 33 ⟨zeroHash, ['/', 'a', '\n', 'b']⟩ ∧
      readLines 33 [] (writeLines [⟨zeroHash, ['/', 'a', '\n', 'b']⟩]) ≠
        some [⟨zeroHash, ['/', 'a', '\n', 'b']⟩] := by
  -- the second path is that of the line before, which is still in the array
  have hread : readLines 33 [] (writeLines [⟨zeroHash, ['/', 'a', '\n', 'b']⟩]) =
      some [⟨zeroHash, ['/', 'a']⟩, ⟨['b', '\n'], ['/', 'a']⟩] := rfl
  refine ⟨legal_zeroHash rfl (by simp [nul]) (by simp [PATHMAX]), ?_⟩
  rw [hread]
  simp

end Sfinder
end SsuComputer
