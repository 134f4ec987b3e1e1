import SsuComputer.Lib.CString
import SsuComputer.Lib.Run
import Mathlib

/-!
# SsuComputer.Index.Prompt

The loop of `prompt` of `ssu_index.c`, for one line after the other, and `slicing_str` of
`slicing.c`.

* `slicingStr` — the words of a line, one row of `keyword` for each blank and for the newline; a
  fourth word is written behind the rows.
* `Prompt` — the rows, which live as long as the loop, and the commands dispatched so far.
* `slicingStr_eq` — the words of a line replace as many rows, and the others stay.
* `prompt_ownLine_iff` — each command depends on its own line exactly in the runs of which every
  step keeps to `OwnLine`.

What `is_dir` answers for a path is part of the input. For an empty third row the byte in front of
it is read, which is a `/` only where no string ends, and a `\0` written there changes no row.
-/

namespace SsuComputer
namespace Index

/-- The loop of `slicing_str`, from `temp_buffer` and `keyword_cnt` on, for a buffer of `limit`
rows. -/
def slicingStr (limit : Nat) : CString → CString → Nat → (Nat → CString) → Option (Nat → CString)
  | [], _, _, keywordBuffer => some keywordBuffer
  | c :: s, tempBuffer, keywordCnt, keywordBuffer =>
    if c = ' ' ∨ c = '\n' then
      if keywordCnt < limit then
        let keywordBuffer := Function.update keywordBuffer keywordCnt tempBuffer
        if c = '\n' then some keywordBuffer
        else slicingStr limit s [] (keywordCnt + 1) keywordBuffer
      else none
    else slicingStr limit s (tempBuffer ++ [c]) keywordCnt keywordBuffer

inductive Dispatched
  | find (filename path : CString)
  | exit
  | help
  | nothing
deriving DecidableEq

structure PromptInput where
  line : CString
  isDir : CString → Bool

/-- The path without its last `/`. -/
def removeSlash (isDir : CString → Bool) (path : CString) : CString :=
  if path.getLast? = some '/' ∧ isDir path = true then path.dropLast else path

structure Prompt where
  keyword : Nat → CString
  dispatched : List Dispatched
  /-- A word was written behind the rows. -/
  overrun : Bool

/-- One round, after `slicing_str`. -/
def dispatch (isDir : CString → Bool) (keyword : Nat → CString) : Dispatched × (Nat → CString) :=
  let cmd := keyword 0
  if cmd = ['f', 'i', 'n', 'd'] then
    let keyword := Function.update keyword 2 (removeSlash isDir (keyword 2))
    (.find (keyword 1) (keyword 2), keyword)
  else if cmd = ['e', 'x', 'i', 't'] then (.exit, keyword)
  else if cmd = ['h', 'e', 'l', 'p'] then (.help, keyword)
  else (.nothing, keyword)

/-- One round of the loop; nothing follows `exit`, nor an overrun. -/
def prompt (s : Prompt) (a : PromptInput) : Prompt :=
  if s.overrun = true ∨ .exit ∈ s.dispatched then s
  else
    match slicingStr 3 a.line [] 0 s.keyword with
    | none => { s with overrun := true }
    | some keyword =>
      let r := dispatch a.isDir keyword
      { s with keyword := r.2, dispatched := s.dispatched ++ [r.1] }

/-- The rows hold whatever was on the stack. -/
def Prompt.start (keyword : Nat → CString) : Prompt := ⟨keyword, [], false⟩

/-! ## The words of a line -/

/-- A word for each blank, and one for the newline; `word` is the beginning of the first. -/
def words : CString → CString → List CString
  | _, [] => []
  | word, c :: s =>
    if c = '\n' then [word]
    else if c = ' ' then word :: words [] s
    else words (word ++ [c]) s

/-- Rows of which the first are replaced, from a row on. -/
def overlay (ws : List CString) (start : Nat) (keyword : Nat → CString) (i : Nat) : CString :=
  if i < start then keyword i else ws[i - start]?.getD (keyword i)

theorem overlay_nil (start : Nat) (keyword : Nat → CString) : overlay [] start keyword = keyword := by
  funext i
  simp [overlay]

theorem overlay_cons (w : CString) (ws : List CString) (start : Nat) (keyword : Nat → CString) :
    overlay (w :: ws) start keyword =
      overlay ws (start + 1) (Function.update keyword start w) := by
  funext i
  rcases Nat.lt_trichotomy i start with h | rfl | h
  · rw [overlay, overlay, if_pos h, if_pos (by omega), Function.update_of_ne (by omega)]
  · simp [overlay]
  · obtain ⟨k, rfl⟩ : ∃ k, i = start + 1 + k := ⟨i - start - 1, by omega⟩
    rw [overlay, overlay, if_neg (by omega), if_neg (by omega), Function.update_of_ne (by omega)]
    have h1 : start + 1 + k - start = k + 1 := by omega
    have h2 : start + 1 + k - (start + 1) = k := by omega
    rw [h1, h2, List.getElem?_cons_succ]

theorem slicingStr_eq (limit : Nat) (s temp : CString) {cnt : Nat} (hcnt : cnt ≤ limit)
    (keyword : Nat → CString) : slicingStr limit s temp cnt keyword =
      if cnt + (words temp s).length ≤ limit then some (overlay (words temp s) cnt keyword)
      else none := by
  induction s generalizing temp cnt keyword with
  | nil => simp [slicingStr, words, overlay_nil, hcnt]
  | cons c s ih =>
    by_cases hnewline : c = '\n'
    · subst hnewline
      simp only [slicingStr, words, if_true, or_true, List.length_singleton, overlay_cons,
        overlay_nil, Nat.lt_iff_add_one_le]
    · by_cases hblank : c = ' '
      · subst hblank
        simp only [slicingStr, words, if_true, true_or, if_neg hnewline, List.length_cons,
          overlay_cons]
        split
        · rename_i hlt
          rw [ih [] (show cnt + 1 ≤ limit from hlt), Nat.add_assoc, Nat.add_comm 1]
        · rw [if_neg (by omega)]
      · rw [slicingStr, if_neg (by simp [hnewline, hblank]), ih _ hcnt, words, if_neg hnewline,
          if_neg hblank]

/-! ## What a line says -/

/-- The rows that a line fills on its own. -/
def ownRows (line : CString) : Nat → CString := overlay (words [] line) 0 fun _ => []

/-- The command of a line, with the words that it lacks empty. -/
def ownCommand (a : PromptInput) : Dispatched := (dispatch a.isDir (ownRows a.line)).1

/-- The commands of some lines, up to `exit`. -/
def ownCommands (as : List PromptInput) : List Dispatched :=
  as.foldl (fun done a => if .exit ∈ done then done else done ++ [ownCommand a]) []

/-- At most three words; and no row that the line does not fill is taken for one of its words: the
command if it has none, the arguments of `find` otherwise. -/
def OwnLine (keyword : Nat → CString) (a : PromptInput) : Prop :=
  let ws := words [] a.line
  ws.length ≤ 3 ∧
    (ws = [] → keyword 0 ∉ [['f', 'i', 'n', 'd'], ['e', 'x', 'i', 't'], ['h', 'e', 'l', 'p']]) ∧
    (ws[0]? = some ['f', 'i', 'n', 'd'] →
      (ws.length ≤ 1 → keyword 1 = []) ∧
        (ws.length ≤ 2 → removeSlash a.isDir (keyword 2) = []))

/-- What holds as long as every command was that of its own line. -/
structure Follows (as : List PromptInput) (s : Prompt) : Prop where
  dispatched : s.dispatched = ownCommands as
  inRows : s.overrun = false

theorem prompt_eq {s : Prompt} (hover : s.overrun = false) (hexit : .exit ∉ s.dispatched)
    (a : PromptInput) : prompt s a =
      if (words [] a.line).length ≤ 3 then
        let r := dispatch a.isDir (overlay (words [] a.line) 0 s.keyword)
        { s with keyword := r.2, dispatched := s.dispatched ++ [r.1] }
      else { s with overrun := true } := by
  rw [prompt, if_neg (by simp [hover, hexit]), slicingStr_eq 3 _ _ (Nat.zero_le 3), Nat.zero_add]
  split
  · rename_i keyword heq
    split at heq
    · cases heq
    · rename_i hlong
      rw [if_neg hlong]
  · rename_i keyword heq
    split at heq
    · rename_i hshort
      cases heq
      rw [if_pos hshort]
    · cases heq

theorem removeSlash_nil (isDir : CString → Bool) : removeSlash isDir [] = [] := by
  rw [removeSlash, if_neg (by simp)]

theorem dispatch_find {isDir : CString → Bool} {keyword : Nat → CString}
    (h : keyword 0 = ['f', 'i', 'n', 'd']) : (dispatch isDir keyword).1 =
      .find (keyword 1) (removeSlash isDir (keyword 2)) := by
  rw [dispatch, if_pos h]
  dsimp only
  rw [Function.update_self, Function.update_of_ne (by omega)]

/-- Without `find` only the first row matters. -/
theorem dispatch_congr {isDir : CString → Bool} {keyword keyword' : Nat → CString}
    (h : keyword 0 ≠ ['f', 'i', 'n', 'd']) (h0 : keyword' 0 = keyword 0) :
    (dispatch isDir keyword').1 = (dispatch isDir keyword).1 := by
  rw [dispatch, dispatch, h0, if_neg h, if_neg h]
  split
  · rfl
  · split <;> rfl

theorem dispatch_nothing_iff {isDir : CString → Bool} {keyword : Nat → CString} :
    (dispatch isDir keyword).1 = .nothing ↔
      keyword 0 ∉ [['f', 'i', 'n', 'd'], ['e', 'x', 'i', 't'], ['h', 'e', 'l', 'p']] := by
  rw [dispatch]
  dsimp only
  split
  · simp [*]
  · split
    · simp [*]
    · split <;> simp [*]

theorem overlay_zero_cons (w : CString) (ws : List CString) (keyword : Nat → CString) :
    overlay (w :: ws) 0 keyword 0 = w := rfl

/-- For at most three words, the command is that of the line exactly when no old row shows. -/
theorem dispatch_own_iff (a : PromptInput) (keyword : Nat → CString)
    (h : (words [] a.line).length ≤ 3) :
    (dispatch a.isDir (overlay (words [] a.line) 0 keyword)).1 = ownCommand a ↔
      OwnLine keyword a := by
  rw [ownCommand, ownRows, OwnLine]
  cases hws : words [] a.line with
  | nil =>
    have hown : (dispatch a.isDir fun _ => []).1 = .nothing := dispatch_nothing_iff.mpr (by simp)
    rw [overlay_nil, overlay_nil, hown, dispatch_nothing_iff]
    simp
  | cons w ws =>
    rw [hws] at h
    by_cases hfind : w = ['f', 'i', 'n', 'd']
    · subst hfind
      rw [dispatch_find rfl, dispatch_find rfl, Dispatched.find.injEq]
      match ws, h with
      | [], _ => simp [overlay, removeSlash_nil]
      | [filename], _ => simp [overlay, removeSlash_nil]
      | [filename, path], _ => simp [overlay]
    · have hsame : (dispatch a.isDir (overlay (w :: ws) 0 keyword)).1 =
          (dispatch a.isDir (overlay (w :: ws) 0 fun _ => [])).1 :=
        dispatch_congr (by rwa [overlay_zero_cons]) rfl
      simp only [hsame, h, List.getElem?_cons_zero, Option.some.injEq, hfind, reduceCtorEq,
        false_implies, true_and]

theorem ownCommands_concat (as : List PromptInput) (a : PromptInput) :
    ownCommands (as ++ [a]) =
      if .exit ∈ ownCommands as then ownCommands as else ownCommands as ++ [ownCommand a] := by
  rw [ownCommands, List.foldl_append]
  rfl

/-- One step. -/
theorem follows_step {as : List PromptInput} {s : Prompt} (h : Follows as s) (a : PromptInput) :
    Follows (as ++ [a]) (prompt s a) ↔ .exit ∈ s.dispatched ∨ OwnLine s.keyword a := by
  by_cases hexit : Dispatched.exit ∈ s.dispatched
  · have hstep : prompt s a = s := by rw [prompt, if_pos (.inr hexit)]
    have hown : ownCommands (as ++ [a]) = ownCommands as := by
      rw [ownCommands_concat, if_pos (h.dispatched ▸ hexit)]
    rw [hstep]
    exact ⟨fun _ => .inl hexit, fun _ => ⟨by rw [hown]; exact h.dispatched, h.inRows⟩⟩
  · have hown : ownCommands (as ++ [a]) = s.dispatched ++ [ownCommand a] := by
      rw [ownCommands_concat, ← h.dispatched, if_neg hexit]
    rw [prompt_eq h.inRows hexit]
    split
    · rename_i hshort
      rw [← dispatch_own_iff a s.keyword hshort]
      constructor
      · intro hf
        have heq := hf.dispatched
        rw [hown] at heq
        exact .inr (List.singleton_inj.mp (List.append_cancel_left heq))
      · intro hor
        refine ⟨?_, h.inRows⟩
        rw [hown, ← hor.resolve_left hexit]
    · rename_i hlong
      constructor
      · intro hf
        exact absurd hf.inRows (by simp)
      · intro hor
        exact absurd (hor.resolve_left hexit).1 hlong

theorem prompt_ownLine_iff (keyword : Nat → CString) (as : List PromptInput) :
    (∀ pre, pre <+: as → Follows pre (Run.exec prompt (Prompt.start keyword) pre)) ↔
      Run.Guarded prompt (fun s a => .exit ∈ s.dispatched ∨ OwnLine s.keyword a)
        (Prompt.start keyword) as :=
  Run.always_iff_guarded (I := fun _ _ => True) (P := Follows) trivial ⟨rfl, rfl⟩
    (fun _ _ _ _ _ => trivial) (fun _ _ a _ h _ => follows_step h a) as
    (fun _ _ => trivial : ∀ a ∈ as, True)

theorem stale_path :
    ¬ ∀ pre, pre <+: [⟨"find a b\n".toList, fun _ => false⟩, ⟨"find c\n".toList, fun _ => false⟩] →
      Follows pre (Run.exec prompt (Prompt.start fun _ => []) pre) := by
  intro h
  have hfollows := (h _ (List.prefix_refl _)).dispatched
  revert hfollows
  decide

end Index
end SsuComputer
