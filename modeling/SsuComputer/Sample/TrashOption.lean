import Mathlib.Data.Finset.Max
import SsuComputer.Lib.While
import SsuComputer.Sfinder.Newest
import Mathlib

/-!
# SsuComputer.Sample.TrashOption

The loop of option t in `delete_prompt` of the sample `ssu_sdup.h`. Its `get_recent_mtime`,
`get_filename`, `get_extension` and `get_new_file_name` are those of `ssu_sfinder.h`, and so is the
path a file is moved to.

* `Trashing` — the files from `deleted` on, the disk, and the paths for which `rename` was called.
* `trashLoop_ends` — the loop ends when no `rename` fails.
* `trashLoop_stuck` — after a `rename` that failed, `continue` leaves `deleted` where it is.
* `optionT_finishes_iff` — so the option does its work exactly for groups that can all be moved.
-/

namespace SsuComputer
namespace Sample

open Sfinder

structure Trashing (D : Type) where
  deleted : List FileInfo
  disk : D
  attempts : List CString

variable {D : Type} (os : Os D) (lastFilepath : CString)

def trashing (s : Trashing D) : Bool := s.deleted ≠ []

def trashBody (s : Trashing D) : Trashing D :=
  match s.deleted with
  | [] => s
  | file :: tmp =>
    if file.path = lastFilepath then { s with deleted := tmp }
    else
      match os.rename file.path (moveToTrash os file.path s.disk) s.disk with
      | none => { s with attempts := s.attempts ++ [file.path] }
      | some disk => { deleted := tmp, disk := disk, attempts := s.attempts ++ [file.path] }

def trashLoop (fuel : Nat) (s : Trashing D) : Option (Trashing D) :=
  whileLoop trashing (fun s => some (trashBody os lastFilepath s)) fuel s

/-- Option t for the files of a group; `last_filepath` holds what an earlier command left there. -/
def optionT (stale : CString) (files : List FileInfo) (disk : D) (fuel : Nat) :
    Option (Trashing D) :=
  trashLoop os (getRecentMtime files stale).2 fuel ⟨files, disk, []⟩

/-- Whether `rename` fails depends on the file alone. -/
def FailsFor (fails : CString → Bool) : Prop :=
  ∀ path target disk, os.rename path target disk = none ↔ fails path = true

def Newest (files : List FileInfo) (x : FileInfo) : Prop :=
  x ∈ files ∧ ∀ y ∈ files, y.statbuf.mtime ≤ x.statbuf.mtime

/-- The loop ends, and each file but the newest was attempted once. -/
def Finishes (stale : CString) (files : List FileInfo) (disk : D) : Prop :=
  ∃ fuel s, optionT os stale files disk fuel = some s ∧
    ∃ newest, Newest files newest ∧
      ∀ x ∈ files, x.path ≠ newest.path → s.attempts.count x.path = 1

/-- The files for which `rename` is called. -/
def attempted (files : List FileInfo) : List CString :=
  (files.map FileInfo.path).filter fun path => path ≠ lastFilepath

variable {os lastFilepath} {fails : CString → Bool}

theorem trashLoop_step {s : Trashing D} (h : s.deleted ≠ []) (fuel : Nat) :
    trashLoop os lastFilepath (fuel + 1) s =
      trashLoop os lastFilepath fuel (trashBody os lastFilepath s) := by
  rw [trashLoop, whileLoop, if_pos (by simpa [trashing] using h), Option.bind_some]
  rfl

theorem trashLoop_ends (hfails : FailsFor os fails) {files : List FileInfo}
    (h : ∀ x ∈ files, x.path ≠ lastFilepath → fails x.path = false) (disk : D)
    (attempts : List CString) :
    ∃ s, trashLoop os lastFilepath files.length ⟨files, disk, attempts⟩ = some s ∧
      s.attempts = attempts ++ attempted lastFilepath files := by
  induction files generalizing disk attempts with
  | nil => exact ⟨⟨[], disk, attempts⟩, rfl, by simp [attempted]⟩
  | cons file tmp ih =>
    have htmp := ih fun x hx => h x (List.mem_cons_of_mem _ hx)
    rw [List.length_cons, trashLoop_step (by simp), trashBody]
    dsimp only
    split
    · rename_i hlast
      obtain ⟨s, hs, hattempts⟩ := htmp disk attempts
      refine ⟨s, hs, ?_⟩
      rw [hattempts, attempted, attempted, List.map_cons, List.filter_cons_of_neg (by simpa using hlast)]
    · rename_i hlast
      have hworks := h file List.mem_cons_self hlast
      split
      · rename_i hnone
        rw [(hfails _ _ _).mp hnone] at hworks
        cases hworks
      · rename_i disk' _
        obtain ⟨s, hs, hattempts⟩ := htmp disk' (attempts ++ [file.path])
        refine ⟨s, hs, ?_⟩
        rw [hattempts, attempted, attempted, List.map_cons, List.filter_cons_of_pos (by simpa using hlast),
          List.append_assoc, List.singleton_append]

/-- A file that cannot be moved stays among those that the loop still has. -/
theorem trashBody_stuck (hfails : FailsFor os fails) {s : Trashing D}
    (h : ∃ x ∈ s.deleted, x.path ≠ lastFilepath ∧ fails x.path = true) :
    ∃ x ∈ (trashBody os lastFilepath s).deleted, x.path ≠ lastFilepath ∧ fails x.path = true := by
  obtain ⟨x, hx, hlast, hfail⟩ := h
  rw [trashBody]
  split
  · exact ⟨x, hx, hlast, hfail⟩
  · rename_i file tmp hdeleted
    rw [hdeleted, List.mem_cons] at hx
    split
    · rename_i heq
      refine ⟨x, hx.resolve_left ?_, hlast, hfail⟩
      rintro rfl
      exact hlast heq
    · split
      · exact ⟨x, by rwa [hdeleted, List.mem_cons], hlast, hfail⟩
      · rename_i disk hsome
        refine ⟨x, hx.resolve_left ?_, hlast, hfail⟩
        rintro rfl
        rw [(hfails _ _ _).mpr hfail] at hsome
        cases hsome

theorem trashLoop_stuck (hfails : FailsFor os fails) {s : Trashing D}
    (h : ∃ x ∈ s.deleted, x.path ≠ lastFilepath ∧ fails x.path = true) (fuel : Nat) :
    trashLoop os lastFilepath fuel s = none := by
  refine whileLoop_of_stuck
    (I := fun s => ∃ x ∈ s.deleted, x.path ≠ lastFilepath ∧ fails x.path = true) ?_ h fuel
  intro t ht
  refine ⟨?_, _, rfl, trashBody_stuck hfails ht⟩
  obtain ⟨x, hx, -, -⟩ := ht
  exact decide_eq_true (List.ne_nil_of_mem hx)

theorem trashLoop_unique {s : Trashing D} {fuel fuel' : Nat} {t t' : Trashing D}
    (h : trashLoop os lastFilepath fuel s = some t)
    (h' : trashLoop os lastFilepath fuel' s = some t') : t = t' :=
  whileLoop_unique h h'

/-! ## The newest file -/

theorem exists_newest {files : List FileInfo} (h : files ≠ []) : ∃ x, Newest files x := by
  obtain ⟨x, hx⟩ := List.exists_mem_of_ne_nil files h
  obtain ⟨m, hm, hmax⟩ := files.toFinset.exists_max_image (fun y => y.statbuf.mtime)
    ⟨x, List.mem_toFinset.mpr hx⟩
  exact ⟨m, List.mem_toFinset.mp hm, fun y hy => hmax y (List.mem_toFinset.mpr hy)⟩

theorem count_attempted {files : List FileInfo} (hnodup : (files.map FileInfo.path).Nodup)
    {x : FileInfo} (hx : x ∈ files) :
    (attempted lastFilepath files).count x.path = if x.path = lastFilepath then 0 else 1 := by
  have hmem : x.path ∈ files.map FileInfo.path := List.mem_map_of_mem hx
  split
  · rename_i hlast
    rw [attempted, List.count_eq_zero]
    simp [hlast]
  · rename_i hlast
    rw [attempted, List.count_filter (by simpa using hlast), hnodup.count, if_pos hmem]

/-- Unless a file has a time above 0, the path that an earlier command left is not that of a file
older than another. -/
def StaleHarmless (stale : CString) (files : List FileInfo) : Prop :=
  (∀ y ∈ files, y.statbuf.mtime ≤ 0) → ∀ x ∈ files, x.path = stale → Newest files x

theorem eq_of_path {files : List FileInfo} (hnodup : (files.map FileInfo.path).Nodup)
    {x y : FileInfo} (hx : x ∈ files) (hy : y ∈ files) (h : x.path = y.path) : x = y :=
  List.inj_on_of_nodup_map hnodup hx hy h

/-- The file that the loop leaves is a newest one. -/
theorem staleHarmless_iff {files : List FileInfo} (hnodup : (files.map FileInfo.path).Nodup)
    (stale : CString) : StaleHarmless stale files ↔
      ∀ x ∈ files, x.path = (getRecentMtime files stale).2 → Newest files x := by
  rcases getRecentMtime_spec files stale with ⟨hall, heq⟩ | ⟨x, hx, hpos, hmax, heq⟩
  · rw [heq]
    exact ⟨fun h => h hall, fun h _ => h⟩
  · rw [heq]
    constructor
    · intro _ y hy hpath
      rw [eq_of_path hnodup hy hx hpath]
      exact ⟨hx, hmax⟩
    · intro _ hall
      exact absurd (hall x hx) (not_le.mpr hpos)

theorem optionT_finishes_iff (os : Os D) (fails : CString → Bool) (stale : CString)
    (files : List FileInfo) (disk : D) (hfails : FailsFor os fails) (hne : files ≠ [])
    (hnodup : (files.map FileInfo.path).Nodup) :
    Finishes os stale files disk ↔
      (∀ x ∈ files, x.path ≠ (getRecentMtime files stale).2 → fails x.path = false) ∧
        StaleHarmless stale files := by
  rw [staleHarmless_iff hnodup]
  constructor
  · intro h
    obtain ⟨fuel, s, hs, newest, hnewest, honce⟩ := h
    have hworks : ∀ x ∈ files, x.path ≠ (getRecentMtime files stale).2 → fails x.path = false := by
      intro x hx hlast
      by_contra hfail
      rw [optionT, trashLoop_stuck hfails ⟨x, hx, hlast, Bool.eq_true_of_not_eq_false hfail⟩] at hs
      cases hs
    refine ⟨hworks, ?_⟩
    intro x hx hlast
    obtain ⟨t, ht, hattempts⟩ := trashLoop_ends hfails hworks disk []
    rw [trashLoop_unique hs ht, hattempts, List.nil_append] at honce
    have hsame : x.path = newest.path := by
      by_contra hother
      have hcount := honce x hx hother
      rw [count_attempted hnodup hx, if_pos hlast] at hcount
      cases hcount
    rw [eq_of_path hnodup hx hnewest.1 hsame]
    exact hnewest
  · intro h
    obtain ⟨hworks, hkept⟩ := h
    obtain ⟨s, hs, hattempts⟩ := trashLoop_ends hfails hworks disk []
    rw [List.nil_append] at hattempts
    refine ⟨_, s, hs, ?_⟩
    rw [hattempts]
    by_cases hlast : ∃ x ∈ files, x.path = (getRecentMtime files stale).2
    · obtain ⟨x, hx, hpath⟩ := hlast
      refine ⟨x, hkept x hx hpath, ?_⟩
      intro y hy hother
      rw [count_attempted hnodup hy, if_neg (by rwa [← hpath])]
    · obtain ⟨x, hx⟩ := exists_newest hne
      refine ⟨x, hx, ?_⟩
      intro y hy _
      rw [count_attempted hnodup hy, if_neg fun hpath => hlast ⟨y, hy, hpath⟩]

/-- A disk that only says for which files `rename` fails. -/
def failing (fails : CString → Bool) : Os Unit where
  remove _ disk := disk
  rename path _ _ := if fails path then none else some ()
  access _ _ := false
  getDirlist _ _ := []
  lstat _ _ := none
  now _ := 0
  trashPath := ['/', 't', '/']
  beyondNull := []

theorem failing_failsFor (fails : CString → Bool) : FailsFor (failing fails) fails := by
  intro path target disk
  show (if fails path then none else some ()) = none ↔ _
  cases fails path <;> simp

/-- `/a` is older than `/b`. -/
def twoTimes : List FileInfo :=
  [⟨['/', 'a'], { Stat.zero with mtime := 1 }⟩, ⟨['/', 'b'], { Stat.zero with mtime := 2 }⟩]

theorem optionT_finishes_two : Finishes (failing fun _ => false) [] twoTimes () :=
  (optionT_finishes_iff (failing fun _ => false) (fun _ => false) [] twoTimes ()
    (failing_failsFor _) (by simp [twoTimes]) (by simp [twoTimes])).mpr
    ⟨fun _ _ _ => rfl, fun hall => absurd (hall _ List.mem_cons_self) (by simp)⟩

theorem failed_rename_repeats : ¬ Finishes (failing fun _ => true) [] twoTimes () := by
  intro h
  obtain ⟨fuel, s, hs, -⟩ := h
  rw [optionT, trashLoop_stuck (failing_failsFor _)
    ⟨⟨['/', 'a'], { Stat.zero with mtime := 1 }⟩, List.mem_cons_self, by decide, rfl⟩] at hs
  cases hs

end Sample
end SsuComputer
