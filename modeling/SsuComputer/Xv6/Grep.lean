import SsuComputer.Lib.CString
import Mathlib.Computability.Language

/-!
# SsuComputer.Xv6.Grep

`grep`: the matcher of regular expressions, and the loop that cuts what `read` delivers into lines.

A text is the characters before the terminator. The buffer can hold a `'\0'` of its own, and then
`strchr` ends there. `grep` takes the pieces that `read` delivers one after the other; `Reads` says
which pieces these can be.

* `lang`, `langRe` — what an expression denotes.
* `matchRe_iff` — the matcher decides the language.
* `grep_file` — on a file without `'\0'`, the matching lines in their order; of a line of 1023
  characters or more only an end is seen.
* `grep_pipe` — where `read` delivers less than asked for, a piece without the end of a line is lost.
-/

namespace SsuComputer
namespace Xv6

open Computability

/-! ## The matcher -/

/-- `matchstar`, where `here` is `matchhere` with the rest of the expression. -/
def matchstar (c : Char) (here : CString → Bool) : CString → Bool
  | [] => here []
  | t :: text => here (t :: text) || ((t = c || c = '.') && matchstar c here text)

def matchhere : CString → CString → Bool
  | [], _ => true
  | c :: '*' :: re, text => matchstar c (matchhere re) text
  | ['$'], text => text.isEmpty
  | _ :: _, [] => false
  | c :: re, t :: text => (c = '.' || c = t) && matchhere re text

/-- The loop of `match`. -/
def matchAny (re : CString) : CString → Bool
  | [] => matchhere re []
  | t :: text => matchhere re (t :: text) || matchAny re text

/-- `match`. -/
def matchRe : CString → CString → Bool
  | '^' :: re, text => matchhere re text
  | re, text => matchAny re text

/-! ## The lines -/

/-- The text before the first `c` and the text behind it. -/
def strchr (c : Char) : CString → Option (CString × CString)
  | [] => none
  | x :: s =>
    if x = '\x00' then none
    else if x = c then some ([], s)
    else (strchr c s).map fun r => (x :: r.1, r.2)

theorem strchr_some {c : Char} {s line rest : CString} (h : strchr c s = some (line, rest)) :
    s = line ++ c :: rest ∧ c ∉ line := by
  induction s generalizing line with
  | nil => cases h
  | cons x s ih =>
    rw [strchr] at h
    split at h
    · cases h
    · split at h
      next hx =>
        cases h
        exact ⟨by rw [hx]; rfl, List.not_mem_nil⟩
      next hx =>
        obtain ⟨⟨l, r⟩, hs, heq⟩ := Option.map_eq_some_iff.mp h
        cases heq
        obtain ⟨rfl, hc⟩ := ih hs
        exact ⟨rfl, by simp [hc, Ne.symm hx]⟩

theorem strchr_none {c : Char} {s : CString} (hz : '\x00' ∉ s) (h : strchr c s = none) :
    c ∉ s := by
  induction s with
  | nil => exact List.not_mem_nil
  | cons x s ih =>
    rw [strchr, if_neg (by rintro rfl; exact hz (by simp))] at h
    split at h
    · cases h
    next hx =>
      have := ih (fun hmem => hz (by simp [hmem])) (Option.map_eq_none_iff.mp h)
      simp [this, Ne.symm hx]

/-- The inner loop: what is written, and what `p` points to in the end. -/
def cutLines (pattern p : CString) : CString × CString :=
  match _h : strchr '\n' p with
  | none => ([], p)
  | some (line, rest) =>
    let r := cutLines pattern rest
    ((if matchRe pattern line then line ++ ['\n'] else []) ++ r.1, r.2)
termination_by p.length
decreasing_by
  rw [(strchr_some _h).1, List.length_append, List.length_cons]
  omega

/-- One turn of the outer loop: what is written, and what is kept at the front of `buf`. -/
def grepRound (pattern kept chunk : CString) : CString × CString :=
  let r := cutLines pattern (kept ++ chunk)
  (r.1, if r.2.length = (kept ++ chunk).length then [] else r.2)

def grep (pattern kept : CString) : List CString → CString
  | [] => []
  | chunk :: chunks =>
    (grepRound pattern kept chunk).1 ++ grep pattern (grepRound pattern kept chunk).2 chunks

def BUFSIZ : Nat := 1024

/-- The pieces that `read` delivers up to the end of `data`. A file gives as much as was asked for;
a pipe or the console can give less. -/
inductive Reads (file : Bool) (pattern : CString) : CString → CString → List CString → Prop
  | eof (kept : CString) : Reads file pattern kept [] []
  | read {kept : CString} {chunks : List CString} (chunk rest : CString) (hne : chunk ≠ [])
    (hle : chunk.length ≤ BUFSIZ - kept.length - 1)
    (hfull : file = true → rest ≠ [] → chunk.length = BUFSIZ - kept.length - 1)
    (hr : Reads file pattern (grepRound pattern kept chunk).2 rest chunks) :
    Reads file pattern kept (chunk ++ rest) (chunk :: chunks)

/-! ## Languages -/

def atom (c : Char) : Language Char := {x | ∃ t, x = [t] ∧ (t = c ∨ c = '.')}

/-- The texts that an expression matches from their beginning on. -/
def lang : CString → Language Char
  | [] => ⊤
  | c :: '*' :: re => (atom c)∗ * lang re
  | ['$'] => 1
  | c :: re => atom c * lang re

def langRe : CString → Language Char
  | '^' :: re => lang re
  | re => ⊤ * lang re

theorem nil_mem_atom_mul {c : Char} {l : Language Char} : [] ∉ atom c * l := by
  rintro ⟨x, ⟨t, rfl, -⟩, y, -, hxy⟩
  cases hxy

theorem cons_mem_atom_mul {c t : Char} {text : CString} {l : Language Char} :
    t :: text ∈ atom c * l ↔ (t = c ∨ c = '.') ∧ text ∈ l := by
  constructor
  · rintro ⟨x, ⟨u, rfl, hu⟩, y, hy, hxy⟩
    cases hxy
    exact ⟨hu, hy⟩
  · rintro ⟨ht, hmem⟩
    exact ⟨[t], ⟨t, rfl, ht⟩, text, hmem, rfl⟩

/-- One round of a star. -/
theorem star_unfold (c : Char) (l : Language Char) :
    (atom c)∗ * l = l + atom c * ((atom c)∗ * l) := by
  conv_lhs => rw [← Language.one_add_self_mul_kstar_eq_kstar, add_mul, one_mul, mul_assoc]

theorem matchstar_iff {c : Char} {here : CString → Bool} {l : Language Char}
    (hl : ∀ text, here text = true ↔ text ∈ l) (text : CString) :
    matchstar c here text = true ↔ text ∈ (atom c)∗ * l := by
  induction text with
  | nil =>
    rw [star_unfold, Language.mem_add, matchstar, hl]
    simp [nil_mem_atom_mul]
  | cons t text ih =>
    rw [star_unfold, Language.mem_add, cons_mem_atom_mul, matchstar, Bool.or_eq_true, hl,
      Bool.and_eq_true, ih]
    simp

theorem matchhere_iff (re text : CString) : matchhere re text = true ↔ text ∈ lang re := by
  match re with
  | [] =>
    rw [matchhere, lang]
    exact iff_of_true rfl trivial
  | c :: re =>
    by_cases hstar : ∃ re', re = '*' :: re'
    · obtain ⟨re', rfl⟩ := hstar
      rw [matchhere, lang]
      exact matchstar_iff (fun text => matchhere_iff re' text) text
    · by_cases hdollar : c = '$' ∧ re = []
      · obtain ⟨rfl, rfl⟩ := hdollar
        rw [matchhere, lang, Language.mem_one, List.isEmpty_iff]
      · have hno : ∀ re', re = '*' :: re' → False := fun re' h => hstar ⟨re', h⟩
        have hnd : c = '$' → re = [] → False := fun hc hre => hdollar ⟨hc, hre⟩
        cases text with
        | nil =>
          rw [matchhere, lang]
          · exact iff_of_false (by simp) nil_mem_atom_mul
          all_goals assumption
        | cons t text =>
          rw [matchhere, lang, cons_mem_atom_mul, Bool.and_eq_true, matchhere_iff re text]
          · rw [Bool.or_eq_true, decide_eq_true_eq, decide_eq_true_eq, or_comm, eq_comm]
          all_goals assumption
termination_by re.length

theorem matchAny_iff (re text : CString) :
    matchAny re text = true ↔ text ∈ (⊤ : Language Char) * lang re := by
  rw [Language.mem_mul]
  induction text with
  | nil =>
    rw [matchAny, matchhere_iff]
    constructor
    · exact fun h => ⟨[], trivial, [], h, rfl⟩
    · rintro ⟨x, -, y, hy, hxy⟩
      obtain ⟨-, rfl⟩ := List.append_eq_nil_iff.mp hxy
      exact hy
  | cons t text ih =>
    rw [matchAny, Bool.or_eq_true, matchhere_iff, ih]
    constructor
    · rintro (h | ⟨x, -, y, hy, hxy⟩)
      · exact ⟨[], trivial, _, h, rfl⟩
      · exact ⟨t :: x, trivial, y, hy, congrArg (t :: ·) hxy⟩
    · rintro ⟨x, -, y, hy, hxy⟩
      cases x with
      | nil => exact .inl (hxy ▸ hy)
      | cons u x => exact .inr ⟨x, trivial, y, hy, (List.cons.inj hxy).2⟩

/-- The matcher decides whether some part of the text, or the beginning of it after `^`, belongs to
the language of the expression. -/
theorem matchRe_iff (re text : CString) : matchRe re text = true ↔ text ∈ langRe re := by
  unfold matchRe
  split
  · rw [langRe]
    exact matchhere_iff _ _
  · rw [langRe]
    · exact matchAny_iff _ _
    · assumption

/-! ## Whole files -/

/-- The complete lines of a text, each as far as it is looked at. -/
def linesWith (look : CString → CString) (data : CString) : List CString :=
  (data.splitOn '\n').dropLast.map look

def printed (pattern : CString) (lines : List CString) : CString :=
  (lines.filter (matchRe pattern)).flatMap (· ++ ['\n'])

/-- What is left of a line when the buffer is filled in the middle of it. -/
def cutLine (line : CString) : CString := line.drop (1023 * (line.length / 1023))

variable {look : CString → CString} {pattern : CString}

theorem linesWith_line {line : CString} (hl : '\n' ∉ line) (rest : CString) :
    linesWith look (line ++ '\n' :: rest) = look line :: linesWith look rest := by
  rw [linesWith, List.splitOn_append_cons_self_of_not_mem hl,
    List.dropLast_cons_of_ne_nil (List.splitOn_ne_nil _ _), List.map_cons, linesWith]

theorem linesWith_end {data : CString} (hd : '\n' ∉ data) : linesWith look data = [] := by
  rw [linesWith, List.splitOn_eq_singleton hd]
  rfl

theorem cutLine_short {line : CString} (h : line.length < 1023) : cutLine line = line := by
  rw [cutLine, Nat.div_eq_of_lt h, Nat.mul_zero, List.drop_zero]

theorem cutLine_skip {d line : CString} (hd : d.length = 1023) :
    cutLine (d ++ line) = cutLine line := by
  rw [cutLine, cutLine, List.length_append, hd, Nat.add_div_left _ (by decide), Nat.mul_succ,
    Nat.add_comm _ 1023, ← hd, List.drop_append]
  simp

theorem linesWith_skip {d : CString} (hd : d.length = 1023) (hn : '\n' ∉ d) (rest : CString) :
    linesWith cutLine (d ++ rest) = linesWith cutLine rest := by
  by_cases hr : '\n' ∈ rest
  · obtain ⟨line, s, rfl, hline⟩ := List.eq_append_cons_of_mem hr
    rw [← List.append_assoc, linesWith_line (by simp [hn, hline]), linesWith_line hline,
      cutLine_skip hd]
  · rw [linesWith_end hr, linesWith_end (by simp [hn, hr])]

theorem printed_cons (line : CString) (lines : List CString) :
    printed pattern (line :: lines) =
      (if matchRe pattern line then line ++ ['\n'] else []) ++ printed pattern lines := by
  unfold printed
  rw [List.filter_cons]
  split <;> rfl

theorem cutLines_none {p : CString} (h : strchr '\n' p = none) : cutLines pattern p = ([], p) := by
  rw [cutLines]
  split
  · rfl
  next heq => rw [h] at heq; cases heq

theorem cutLines_some {p line rest : CString} (h : strchr '\n' p = some (line, rest)) :
    cutLines pattern p =
      ((if matchRe pattern line then line ++ ['\n'] else []) ++ (cutLines pattern rest).1,
        (cutLines pattern rest).2) := by
  rw [cutLines]
  split
  next heq => rw [h] at heq; cases heq
  next heq =>
    rw [h] at heq
    cases heq
    rfl

/-- The inner loop ends at a suffix, a proper one when it found a line. -/
theorem cutLines_suffix (pattern p : CString) :
    (cutLines pattern p).2 <:+ p ∧
      ((cutLines pattern p).2.length = p.length ↔ strchr '\n' p = none) := by
  cases h : strchr '\n' p with
  | none => simp [cutLines_none h]
  | some r =>
    obtain ⟨line, rest⟩ := r
    have hp := (strchr_some h).1
    have hlen : rest.length < p.length := by
      rw [hp, List.length_append, List.length_cons]
      omega
    have hsuffix := (cutLines_suffix pattern rest).1
    have hle := hsuffix.length_le
    rw [cutLines_some h]
    refine ⟨hsuffix.trans ?_, ?_⟩
    · rw [hp]
      exact (List.suffix_cons _ _).trans (List.suffix_append _ _)
    · simp only [reduceCtorEq, iff_false]
      omega
termination_by p.length

/-- The inner loop on a filled buffer, seen from the whole text. -/
theorem cutLines_spec (pattern : CString)
    (hlook : ∀ line, line.length < 1023 → look line = line) {p : CString}
    (hz : '\x00' ∉ p) (hp : p.length ≤ 1023) (rest : CString) :
    printed pattern (linesWith look (p ++ rest)) =
        (cutLines pattern p).1 ++
          printed pattern (linesWith look ((cutLines pattern p).2 ++ rest)) ∧
      '\n' ∉ (cutLines pattern p).2 := by
  cases h : strchr '\n' p with
  | none =>
    rw [cutLines_none h]
    exact ⟨rfl, strchr_none hz h⟩
  | some r =>
    obtain ⟨line, r⟩ := r
    obtain ⟨rfl, hline⟩ := strchr_some h
    have hlen : line.length + r.length + 1 ≤ 1023 := by
      simpa [Nat.add_assoc] using hp
    obtain ⟨heq, hno⟩ := cutLines_spec pattern hlook (p := r) (fun hmem => hz (by simp [hmem]))
      (by omega) rest
    rw [cutLines_some h]
    refine ⟨?_, hno⟩
    rw [List.append_assoc, List.cons_append, linesWith_line hline, hlook line (by omega),
      printed_cons, heq, List.append_assoc]
termination_by p.length

theorem BUFSIZ_eq : BUFSIZ = 1024 := rfl

/-- Between two reads the buffer has room, so that `read` is never asked for nothing. -/
theorem grepRound_room {kept chunk : CString} (hlt : kept.length < 1023)
    (hle : chunk.length ≤ BUFSIZ - kept.length - 1) :
    (grepRound pattern kept chunk).2.length < 1023 := by
  have hsuffix := (cutLines_suffix pattern (kept ++ chunk)).1.length_le
  rw [grepRound]
  simp only
  rw [BUFSIZ_eq] at hle
  rw [List.length_append] at hsuffix ⊢
  split
  · decide
  · omega

theorem reads_exist (file : Bool) (pattern : CString) {kept : CString} (hlt : kept.length < 1023)
    (data : CString) : ∃ chunks, Reads file pattern kept data chunks := by
  cases data with
  | nil => exact ⟨[], .eof kept⟩
  | cons c data =>
    obtain ⟨n, hn⟩ : ∃ n, BUFSIZ - kept.length - 1 = n := ⟨_, rfl⟩
    have hpos : 0 < n := by
      rw [BUFSIZ_eq] at hn
      omega
    have hroom : (grepRound pattern kept ((c :: data).take n)).2.length < 1023 :=
      grepRound_room hlt (by rw [hn]; simp)
    obtain ⟨chunks, hr⟩ := reads_exist file pattern hroom ((c :: data).drop n)
    have hread : Reads file pattern kept ((c :: data).take n ++ (c :: data).drop n)
        ((c :: data).take n :: chunks) := by
      refine .read _ _ ?_ ?_ ?_ hr
      · obtain ⟨m, rfl⟩ : ∃ m, n = m + 1 := ⟨n - 1, by omega⟩
        simp
      · rw [hn]
        simp
      · intro _ hrest
        have : n < (c :: data).length := by
          simpa using hrest
        rw [hn, List.length_take]
        omega
    rw [List.take_append_drop] at hread
    exact ⟨_, hread⟩
termination_by data.length
decreasing_by
  simp
  omega

theorem grepRound_lost {kept chunk : CString} (h : '\n' ∉ kept ++ chunk) :
    grepRound pattern kept chunk = ([], []) := by
  have hno : strchr '\n' (kept ++ chunk) = none := by
    cases hs : strchr '\n' (kept ++ chunk) with
    | none => rfl
    | some r => exact absurd (by rw [(strchr_some hs).1]; simp) h
  simp [grepRound, cutLines_none hno]

theorem grepRound_found {kept chunk : CString} (hz : '\x00' ∉ kept ++ chunk)
    (h : '\n' ∈ kept ++ chunk) :
    grepRound pattern kept chunk = cutLines pattern (kept ++ chunk) := by
  have hne : (cutLines pattern (kept ++ chunk)).2.length ≠ (kept ++ chunk).length := fun heq =>
    strchr_none hz ((cutLines_suffix pattern _).2.mp heq) h
  rw [grepRound]
  simp only [if_neg hne]

/-- A turn that found a line, seen from the whole text. -/
theorem grepRound_spec (pattern : CString) (hlook : ∀ line, line.length < 1023 → look line = line)
    {kept chunk : CString} (hlt : kept.length < 1023)
    (hle : chunk.length ≤ BUFSIZ - kept.length - 1) (hz : '\x00' ∉ kept ++ chunk)
    (h : '\n' ∈ kept ++ chunk) (rest : CString) :
    printed pattern (linesWith look (kept ++ (chunk ++ rest))) =
        (grepRound pattern kept chunk).1 ++
          printed pattern (linesWith look ((grepRound pattern kept chunk).2 ++ rest)) ∧
      '\n' ∉ (grepRound pattern kept chunk).2 ∧
      ('\x00' ∉ rest → '\x00' ∉ (grepRound pattern kept chunk).2 ++ rest) := by
  have hlen : (kept ++ chunk).length ≤ 1023 := by
    rw [BUFSIZ_eq] at hle
    rw [List.length_append]
    omega
  rw [grepRound_found hz h, ← List.append_assoc]
  obtain ⟨heq, hno⟩ := cutLines_spec pattern hlook hz hlen rest
  refine ⟨heq, hno, fun hrest hmem => ?_⟩
  rcases List.mem_append.mp hmem with hmem | hmem
  · exact hz ((cutLines_suffix pattern _).1.mem hmem)
  · exact hrest hmem

theorem grep_full {kept data : CString} {chunks : List CString}
    (hr : Reads true pattern kept data chunks) (hlt : kept.length < 1023) (hn : '\n' ∉ kept)
    (hz : '\x00' ∉ kept ++ data) :
    grep pattern kept chunks = printed pattern (linesWith cutLine (kept ++ data)) := by
  induction hr with
  | eof kept =>
    rw [List.append_nil, linesWith_end hn]
    rfl
  | @read kept chunks chunk rest hne hle hfull hr ih =>
    rw [← List.append_assoc] at hz
    have hz' : '\x00' ∉ kept ++ chunk ∧ '\x00' ∉ rest :=
      ⟨fun h => hz (List.mem_append_left _ h), fun h => hz (List.mem_append_right _ h)⟩
    rw [grep]
    by_cases h : '\n' ∈ kept ++ chunk
    · obtain ⟨heq, hno, hzero⟩ := grepRound_spec pattern
        (fun _ => cutLine_short) hlt hle hz'.1 h rest
      rw [heq, ih (grepRound_room hlt hle) hno (hzero hz'.2)]
    · rw [grepRound_lost h] at ih ⊢
      rw [ih (by simp) (by simp) (by simpa using hz'.2), ← List.append_assoc]
      by_cases hrest : rest = []
      · subst hrest
        rw [List.append_nil, List.append_nil, linesWith_end h]
        rfl
      · -- the buffer is full
        have hlen : (kept ++ chunk).length = 1023 := by
          rw [List.length_append, hfull rfl hrest, BUFSIZ_eq]
          omega
        rw [linesWith_skip hlen h]
        rfl

theorem grep_split {kept data : CString} {chunks : List CString}
    (hr : Reads false pattern kept data chunks) (hlt : kept.length < 1023) (hn : '\n' ∉ kept)
    (hz : '\x00' ∉ kept ++ data) (hchunks : ∀ chunk ∈ chunks, '\n' ∈ chunk) :
    grep pattern kept chunks = printed pattern (linesWith id (kept ++ data)) := by
  induction hr with
  | eof kept =>
    rw [List.append_nil, linesWith_end hn]
    rfl
  | @read kept chunks chunk rest hne hle hfull hr ih =>
    rw [← List.append_assoc] at hz
    have hz' : '\x00' ∉ kept ++ chunk ∧ '\x00' ∉ rest :=
      ⟨fun h => hz (List.mem_append_left _ h), fun h => hz (List.mem_append_right _ h)⟩
    obtain ⟨heq, hno, hzero⟩ := grepRound_spec pattern
      (fun line _ => id_eq line) hlt hle hz'.1 (by simp [hchunks chunk (by simp)]) rest
    rw [grep, heq, ih (grepRound_room hlt hle) hno (hzero hz'.2) fun c hc =>
      hchunks c (by simp [hc])]

/-- `grep` on a file: the reads come to the end, and the lines are printed that match, in their
order; of a line of 1023 characters or more only the end is looked at and printed, from the last
place where the buffer was full. -/
theorem grep_file (pattern : CString) {data : CString} (hz : '\x00' ∉ data) :
    (∃ chunks, Reads true pattern [] data chunks) ∧
      ∀ chunks, Reads true pattern [] data chunks →
        grep pattern [] chunks = printed pattern (linesWith cutLine data) :=
  ⟨reads_exist true pattern (by decide) data, fun _ hr =>
    grep_full hr (by decide) List.not_mem_nil hz⟩

theorem grep_file_two :
    grep ['b'] [] [['a', '\n', 'b', '\n', 'c']] =
      printed ['b'] (linesWith cutLine ['a', '\n', 'b', '\n', 'c']) :=
  (grep_file ['b'] (by decide)).2 _
    (.read ['a', '\n', 'b', '\n', 'c'] [] (by simp) (by decide) (by simp) (.eof _))

/-- `grep` on a pipe or the console prints the matching lines when each read ends behind a line at
least; a read without the end of a line is lost, with what was kept before it. -/
theorem grep_pipe (pattern : CString) :
    (∀ data chunks, '\x00' ∉ data → Reads false pattern [] data chunks →
      (∀ chunk ∈ chunks, '\n' ∈ chunk) →
      grep pattern [] chunks = printed pattern (data.splitOn '\n').dropLast) ∧
    ∀ kept chunk chunks, '\n' ∉ kept ++ chunk →
      grep pattern kept (chunk :: chunks) = grep pattern [] chunks := by
  refine ⟨fun data chunks hz hr hchunks => ?_, fun kept chunk chunks h => ?_⟩
  · have := grep_split hr (by decide) List.not_mem_nil hz hchunks
    simpa [linesWith] using this
  · rw [grep, grepRound_lost h]
    rfl

theorem grep_pipe_two :
    grep ['b'] [] [['a', '\n', 'b'], ['\n']] =
      printed ['b'] (['a', '\n', 'b', '\n'].splitOn '\n').dropLast :=
  have hroom : (grepRound ['b'] [] ['a', '\n', 'b']).2.length < 1023 :=
    grepRound_room (by decide) (by decide)
  (grep_pipe ['b']).1 _ _ (by decide)
    (.read ['a', '\n', 'b'] ['\n'] (by simp) (by decide) (by simp)
      (.read ['\n'] [] (by simp)
        (by rw [BUFSIZ_eq, List.length_singleton]; omega) (by simp) (.eof _))) (by decide)

end Xv6
end SsuComputer
