import SsuComputer.Lib.While
import SsuComputer.Sdup.Prompt
import Mathlib

/-!
# SsuComputer.Sdup.Tokens

The stores into `argv` that `tokenization` makes for its two callers, `find_prompter` and the `main`
of `ssu_sdup.c`.

* `strtokCall`, `tokenizationLoop` — one call of `strtok`, and the loop around it; a `Store` is an
  index and what is stored there, `none` for `NULL`.
* `tokenizationLoop_eq` — the loop stores the first `MAX_ARGV + 1` tokens of the line.
* `storesFit_iff` — both arrays hold what is stored exactly when the line has at most `MAX_ARGV`
  words.
-/

namespace SsuComputer
namespace Sdup

/-- `strtok` on the text that is left: a token, and the text behind its separator. -/
def strtokCall (separator : Char) (s : CString) : Option CString × CString :=
  match s.dropWhile (· = separator) with
  | [] => (none, [])
  | c :: s => (some (c :: s.takeWhile (· ≠ separator)), (s.dropWhile (· ≠ separator)).drop 1)

abbrev Store := Option CString × Nat

structure Tokenizing where
  argc : Nat
  substring : Option CString
  rest : CString
  stores : List Store

def tokenizationStart (string : CString) : Tokenizing :=
  let r := strtokCall ' ' string
  ⟨0, r.1, r.2, []⟩

def tokenizationBody (s : Tokenizing) : Tokenizing :=
  let r := strtokCall ' ' s.rest
  ⟨s.argc + 1, r.1, r.2, s.stores ++ [(s.substring, s.argc)]⟩

def tokenizationLoop (fuel : Nat) (string : CString) : Option Tokenizing :=
  whileLoop (fun s => s.substring.isSome && s.argc ≤ maxArgv) (fun s => some (tokenizationBody s))
    fuel (tokenizationStart string)

/-- `find_prompter` stores nothing of its own. -/
def findPrompterStores (t : Tokenizing) : List Store := t.stores

/-- `argv[argc] = NULL` in `main`. -/
def mainStores (t : Tokenizing) : List Store := t.stores ++ [(none, t.argc)]

/-- The lengths of `argv` in `find_prompter` and in `main`. -/
def findPrompterLength : Nat := maxArgv

def mainLength : Nat := maxArgv + 1

/-! ## The tokens of a line -/

section

variable {separator : Char}

theorem pieces_dropWhile (s : CString) :
    pieces separator [] s = pieces separator [] (s.dropWhile (· = separator)) := by
  induction s with
  | nil => rfl
  | cons c s ih =>
    by_cases h : c = separator
    · rw [pieces, if_pos h, if_pos rfl, List.dropWhile_cons_of_pos (by simpa using h), ih]
    · rw [List.dropWhile_cons_of_neg (by simpa using h)]

theorem pieces_token {piece : CString} (h : piece ≠ []) (s : CString) :
    pieces separator piece s = (piece ++ s.takeWhile (· ≠ separator)) ::
      pieces separator [] ((s.dropWhile (· ≠ separator)).drop 1) := by
  induction s generalizing piece with
  | nil => simp [pieces, h]
  | cons c s ih =>
    by_cases hc : c = separator
    · simp [pieces, hc, h]
    · rw [pieces, if_neg hc, ih (by simp), List.takeWhile_cons_of_pos (by simpa using hc),
        List.dropWhile_cons_of_pos (by simpa using hc)]
      simp

theorem strtok_call (s : CString) : strtok separator s =
    match strtokCall separator s with
    | (none, _) => []
    | (some token, rest) => token :: strtok separator rest := by
  rw [strtok, pieces_dropWhile, strtokCall]
  cases hs : s.dropWhile (· = separator) with
  | nil => rfl
  | cons c rest =>
    have hc : ¬ c = separator := by
      have := List.head?_dropWhile_not (· = separator) s
      rw [hs] at this
      simpa using this
    rw [pieces, if_neg hc, List.nil_append, pieces_token (by simp)]
    rfl

end

/-! ## The loop -/

/-- The tokens that the loop has not stored yet. -/
def Tokenizing.pending (s : Tokenizing) : List CString :=
  s.substring.elim [] fun token => token :: strtok ' ' s.rest

theorem pending_start (string : CString) :
    (tokenizationStart string).pending = strtok ' ' string := by
  rw [strtok_call, tokenizationStart, Tokenizing.pending]
  rcases strtokCall ' ' string with ⟨_ | token, rest⟩ <;> rfl

theorem pending_body {s : Tokenizing} {token : CString} (h : s.substring = some token) :
    s.pending = token :: (tokenizationBody s).pending := by
  rw [Tokenizing.pending, h, Option.elim_some, strtok_call, tokenizationBody, Tokenizing.pending]
  rcases strtokCall ' ' s.rest with ⟨_ | next, rest⟩ <;> rfl

/-- The stores of the first words of a line. -/
def storesOf (words : List CString) : List Store := (words.map some).zipIdx

structure HasStored (words : List CString) (s : Tokenizing) : Prop where
  stores : s.stores = storesOf (words.take s.argc)
  pending : s.pending = words.drop s.argc
  argc : s.argc ≤ min words.length (maxArgv + 1)

theorem stored_start (string : CString) : HasStored (strtok ' ' string) (tokenizationStart string) where
  stores := rfl
  pending := pending_start string
  argc := Nat.zero_le _

theorem stored_body {words : List CString} {s : Tokenizing} (h : HasStored words s)
    (hsome : s.substring.isSome) (hargc : s.argc ≤ maxArgv) : HasStored words (tokenizationBody s) := by
  obtain ⟨token, htoken⟩ := Option.isSome_iff_exists.mp hsome
  have hpending := h.pending
  rw [pending_body htoken] at hpending
  have hlt : s.argc < words.length := by
    by_contra hge
    rw [List.drop_eq_nil_of_le (by omega)] at hpending
    cases hpending
  rw [List.drop_eq_getElem_cons hlt] at hpending
  obtain ⟨hword, hrest⟩ := List.cons.inj hpending
  refine ⟨?_, hrest, ?_⟩
  · show s.stores ++ [(s.substring, s.argc)] = storesOf (words.take (s.argc + 1))
    rw [h.stores, htoken, hword, List.take_succ_eq_append_getElem hlt, storesOf, storesOf,
      List.map_append, List.zipIdx_append]
    simp [Nat.min_eq_left (Nat.le_of_lt hlt)]
  · show s.argc + 1 ≤ _
    omega

theorem argc_of_stopped {words : List CString} {s : Tokenizing} (h : HasStored words s)
    (hstop : (s.substring.isSome && s.argc ≤ maxArgv) = false) :
    s.argc = min words.length (maxArgv + 1) := by
  have hargc := h.argc
  cases hs : s.substring with
  | none =>
    have hpending := h.pending
    rw [Tokenizing.pending, hs, Option.elim_none, eq_comm, List.drop_eq_nil_iff] at hpending
    omega
  | some token =>
    rw [hs, Option.isSome_some, Bool.true_and, decide_eq_false_iff_not] at hstop
    omega

theorem tokenizationLoop_eq (string : CString) : ∃ fuel t, tokenizationLoop fuel string = some t ∧
    t.argc = min (strtok ' ' string).length (maxArgv + 1) ∧
      t.stores = storesOf ((strtok ' ' string).take t.argc) := by
  have hstep : ∀ n s, (HasStored (strtok ' ' string) s ∧ maxArgv + 1 - s.argc = n) →
      (s.substring.isSome && s.argc ≤ maxArgv) = true →
        ∃ s' m, some (tokenizationBody s) = some s' ∧ m < n ∧
          (HasStored (strtok ' ' string) s' ∧ maxArgv + 1 - s'.argc = m) := by
    intro n s hs hcond
    obtain ⟨hstored, rfl⟩ := hs
    rw [Bool.and_eq_true, decide_eq_true_iff] at hcond
    refine ⟨tokenizationBody s, _, rfl, ?_, stored_body hstored hcond.1 hcond.2, rfl⟩
    show maxArgv + 1 - (s.argc + 1) < _
    omega
  obtain ⟨t, -, hrun, ⟨hstored, -⟩, hstop⟩ :=
    whileLoop_of_measure hstep _ _ ⟨stored_start string, rfl⟩ (Nat.le_refl _)
  exact ⟨_, t, hrun, argc_of_stopped hstored hstop, hstored.stores⟩

/-! ## The arrays -/

/-- For a line as `fgets` gives it, of which the callers cut off the last character. -/
def StoresFit (input : CString) : Prop :=
  ∃ fuel t, tokenizationLoop fuel input.dropLast = some t ∧
    (∀ store ∈ findPrompterStores t, store.2 < findPrompterLength) ∧
    (∀ store ∈ mainStores t, store.2 < mainLength) ∧
    t.stores = storesOf ((strtok ' ' input.dropLast).take t.argc)

theorem forall_storesOf {words : List CString} {n : Nat} :
    (∀ store ∈ storesOf words, store.2 < n) ↔ words.length ≤ n := by
  constructor
  · intro h
    by_contra hlt
    have hn : n < (words.map some).length := by simpa using hlt
    have hmem : ((words.map some)[n], n) ∈ storesOf words :=
      List.mk_mem_zipIdx_iff_getElem?.mpr (List.getElem?_eq_getElem hn)
    exact Nat.lt_irrefl n (h _ hmem)
  · intro h store hstore
    have := (List.mem_zipIdx hstore).2.1
    rw [List.length_map] at this
    omega

theorem tokenizationLoop_unique {string : CString} {fuel fuel' : Nat} {t t' : Tokenizing}
    (h : tokenizationLoop fuel string = some t) (h' : tokenizationLoop fuel' string = some t') :
    t = t' :=
  whileLoop_unique h h'

theorem length_take_argc {words : List CString} {argc : Nat}
    (h : argc = min words.length (maxArgv + 1)) : (words.take argc).length = argc := by
  rw [List.length_take]
  omega

/-- A word more is stored than `find_prompter` has room for. -/
theorem length_le_of_fit {input : CString} (h : StoresFit input) :
    (strtok ' ' input.dropLast).length ≤ maxArgv := by
  obtain ⟨fuel, t, hrun, hargc, hstores⟩ := tokenizationLoop_eq input.dropLast
  obtain ⟨fuel', t', hrun', hfind, -, -⟩ := h
  obtain rfl := tokenizationLoop_unique hrun' hrun
  rw [findPrompterStores, hstores, forall_storesOf, length_take_argc hargc,
    findPrompterLength] at hfind
  omega

theorem storesFit_iff (input : CString) :
    StoresFit input ↔ (strtok ' ' input.dropLast).length ≤ maxArgv := by
  constructor
  · exact length_le_of_fit
  · intro h
    obtain ⟨fuel, t, hrun, hargc, hstores⟩ := tokenizationLoop_eq input.dropLast
    refine ⟨fuel, t, hrun, ?_, ?_, hstores⟩
    · rw [findPrompterStores, hstores, forall_storesOf, length_take_argc hargc, findPrompterLength]
      omega
    · intro store hstore
      rcases List.mem_append.mp hstore with hstore | hstore
      · rw [hstores] at hstore
        refine forall_storesOf.mpr ?_ store hstore
        rw [length_take_argc hargc, mainLength]
        omega
      · rw [List.mem_singleton.mp hstore]
        show t.argc < mainLength
        rw [mainLength]
        omega

theorem six_words_overrun : ¬ StoresFit "1 i a b c d\n".toList := fun h =>
  absurd (length_le_of_fit h) (by decide)

end Sdup
end SsuComputer
