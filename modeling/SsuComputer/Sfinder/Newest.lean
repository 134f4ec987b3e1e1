import Mathlib.Data.Int.Order.Basic
import Mathlib.Data.List.Nodup
import SsuComputer.Sfinder.PromptCorrect

/-!
# SsuComputer.Sfinder.Newest

Which file of a group the options f and t keep.

* `Os.logged` — the calls as they are, with the paths removed or moved written down.
* `targetOf` — the group that a line is about; its newest time goes through `localtime`, which has no
  result for a year that is no `int`.
* `leavesNewest_iff` — all files but the newest go exactly when that one is newer than 1970 or its path
  is still in the buffer.
-/

namespace SsuComputer
namespace Sfinder

variable {D T : Type}

def Os.logged (os : Os D) : Os (D × List CString) where
  remove path disk := (os.remove path disk.1, disk.2 ++ [path])
  rename path target disk := (os.rename path target disk.1).map fun d => (d, disk.2 ++ [path])
  access path disk := os.access path disk.1
  getDirlist dir disk := os.getDirlist dir disk.1
  lstat disk := os.lstat disk.1
  now disk := os.now disk.1
  trashPath := os.trashPath
  beyondNull := os.beyondNull

/-- The group whose command is run. -/
def targetOf (s : Prompt D) : Input → Option FileList
  | .cmd argc opts _ =>
    let fl := Flags.parse opts
    if s.ended ∨ argc < 3 ∨ fl.l = false ∨ fl.setIdx < 1 ∨ fl.setIdx > filelistSize s.dups then none
    else s.dups.chain[(fl.setIdx - 1).toNat]?
  | _ => none

/-- An iteration of the loop, with `sec_to_ymdt(localtime(&mtime), modifiedtime)`: a null pointer of
`localtime` is followed. -/
def deletePromptTimed (localtime : Int → Option T) (os : Os D) (s : Prompt D) (input : Input) :
    Option (Prompt D) :=
  match targetOf s input with
  | some target =>
    (localtime (getRecentMtime target.files s.lastFilepath).1).bind fun _ => deletePrompt os s input
  | none => deletePrompt os s input

/-- What the options are for: all files go but one, and none is newer than that. -/
def KeepsNewest (files : List FileInfo) (gone : List CString) : Prop :=
  ∃ pre kept post, files = pre ++ kept :: post ∧
    (∀ x ∈ files, x.statbuf.mtime ≤ kept.statbuf.mtime) ∧ gone = (pre ++ post).map FileInfo.path

/-- The command ends, and of the group only the newest file is left. -/
def LeavesNewest (files : List FileInfo) (s : Prompt (D × List CString))
    (result : Option (Prompt (D × List CString))) : Prop :=
  ∃ s' gone, result = some s' ∧ s'.disk.2 = s.disk.2 ++ gone ∧ KeepsNewest files gone

/-- The newest file has a time that `localtime` takes, and one behind the starting value of the scan,
or else the buffer holds its path. -/
def NewestFound (localtime : Int → Option T) (files : List FileInfo) (lastFilepath : CString) : Prop :=
  ∃ x ∈ files, (∀ y ∈ files, y.statbuf.mtime ≤ x.statbuf.mtime) ∧
    (localtime (max 0 x.statbuf.mtime)).isSome ∧ (0 < x.statbuf.mtime ∨ x.path = lastFilepath)

/-! ## The scan -/

theorem getRecentMtime_from (files : List FileInfo) (r : Int × CString) :
    ((∀ x ∈ files, x.statbuf.mtime ≤ r.1) ∧ files.foldl (fun r x =>
        if r.1 < x.statbuf.mtime then (x.statbuf.mtime, x.path) else r) r = r) ∨
      ∃ x ∈ files, r.1 < x.statbuf.mtime ∧ (∀ y ∈ files, y.statbuf.mtime ≤ x.statbuf.mtime) ∧
        files.foldl (fun r x => if r.1 < x.statbuf.mtime then (x.statbuf.mtime, x.path) else r) r =
          (x.statbuf.mtime, x.path) := by
  induction files generalizing r with
  | nil => exact .inl ⟨(fun x hx => by cases hx), rfl⟩
  | cons x files ih =>
    rw [List.foldl_cons]
    by_cases hx : r.1 < x.statbuf.mtime
    · rw [if_pos hx]
      rcases ih (x.statbuf.mtime, x.path) with ⟨hall, heq⟩ | ⟨y, hy, hlt, hall, heq⟩
      · exact .inr ⟨x, List.mem_cons_self, hx, List.forall_mem_cons.mpr ⟨le_refl _, hall⟩, heq⟩
      · exact .inr ⟨y, List.mem_cons_of_mem _ hy, hx.trans hlt,
          List.forall_mem_cons.mpr ⟨hlt.le, hall⟩, heq⟩
    · rw [if_neg hx]
      rcases ih r with ⟨hall, heq⟩ | ⟨y, hy, hlt, hall, heq⟩
      · exact .inl ⟨List.forall_mem_cons.mpr ⟨not_lt.mp hx, hall⟩, heq⟩
      · exact .inr ⟨y, List.mem_cons_of_mem _ hy, hlt,
          List.forall_mem_cons.mpr ⟨(not_lt.mp hx).trans hlt.le, hall⟩, heq⟩

/-- The scan has the newest file, or its starting value when no time is behind that. -/
theorem getRecentMtime_spec (files : List FileInfo) (lastFilepath : CString) :
    ((∀ x ∈ files, x.statbuf.mtime ≤ 0) ∧ getRecentMtime files lastFilepath = (0, lastFilepath)) ∨
      ∃ x ∈ files, 0 < x.statbuf.mtime ∧ (∀ y ∈ files, y.statbuf.mtime ≤ x.statbuf.mtime) ∧
        getRecentMtime files lastFilepath = (x.statbuf.mtime, x.path) :=
  getRecentMtime_from files (0, lastFilepath)

/-- The path in the buffer after the scan is that of a newest file exactly when one is found. -/
theorem newestFound_iff (localtime : Int → Option T) (files : List FileInfo)
    (lastFilepath : CString) :
    NewestFound localtime files lastFilepath ↔
      (localtime (getRecentMtime files lastFilepath).1).isSome ∧
        ∃ x ∈ files, (∀ y ∈ files, y.statbuf.mtime ≤ x.statbuf.mtime) ∧
          x.path = (getRecentMtime files lastFilepath).2 := by
  rcases getRecentMtime_spec files lastFilepath with ⟨hall, heq⟩ | ⟨x, hx, hpos, hmax, heq⟩
  · rw [heq]
    constructor
    · rintro ⟨y, hy, hmax, htime, hfound⟩
      rw [max_eq_left (hall y hy)] at htime
      exact ⟨htime, y, hy, hmax, hfound.resolve_left (not_lt.mpr (hall y hy))⟩
    · rintro ⟨htime, y, hy, hmax, hpath⟩
      refine ⟨y, hy, hmax, ?_, .inr hpath⟩
      rw [max_eq_left (hall y hy)]
      exact htime
  · rw [heq]
    constructor
    · rintro ⟨y, hy, hmax', htime, -⟩
      have hsame : y.statbuf.mtime = x.statbuf.mtime := le_antisymm (hmax y hy) (hmax' x hx)
      rw [hsame, max_eq_right hpos.le] at htime
      exact ⟨htime, x, hx, hmax, rfl⟩
    · rintro ⟨htime, -⟩
      refine ⟨x, hx, hmax, ?_, .inl hpos⟩
      rw [max_eq_right hpos.le]
      exact htime

/-! ## The files that go -/

/-- The paths that the loops of both options act on. -/
def others (lastFilepath : CString) (files : List FileInfo) : List CString :=
  (files.map FileInfo.path).filter fun path => path ≠ lastFilepath

theorem others_cons (lastFilepath : CString) (x : FileInfo) (files : List FileInfo) :
    others lastFilepath (x :: files) =
      (if x.path = lastFilepath then [] else [x.path]) ++ others lastFilepath files := by
  rw [others, List.map_cons, List.filter_cons]
  by_cases hx : x.path = lastFilepath
  · simp [hx, others]
  · simp [hx, others]

theorem others_kept {pre post : List FileInfo} {kept : FileInfo}
    (h : ((pre ++ kept :: post).map FileInfo.path).Nodup) :
    others kept.path (pre ++ kept :: post) = (pre ++ post).map FileInfo.path := by
  have hout : kept.path ∉ (pre ++ post).map FileInfo.path := by
    rw [List.map_append, List.map_cons, List.nodup_middle, List.nodup_cons] at h
    rw [List.map_append]
    exact h.1
  have hsplit : others kept.path (pre ++ kept :: post) =
      ((pre ++ post).map FileInfo.path).filter fun path => path ≠ kept.path := by
    rw [others, List.map_append, List.map_append, List.map_cons, List.filter_append,
      List.filter_append, List.filter_cons, if_neg (by simp)]
  rw [hsplit]
  exact List.filter_eq_self.mpr fun path hpath =>
    decide_eq_true (ne_of_mem_of_not_mem hpath hout)

/-- All but the newest go exactly when the path left out is that of a newest one. -/
theorem keepsNewest_others {lastFilepath : CString} {files : List FileInfo}
    (hnd : (files.map FileInfo.path).Nodup) :
    KeepsNewest files (others lastFilepath files) ↔
      ∃ x ∈ files, (∀ y ∈ files, y.statbuf.mtime ≤ x.statbuf.mtime) ∧ x.path = lastFilepath := by
  constructor
  · rintro ⟨pre, kept, post, rfl, hmax, heq⟩
    have hkept : kept ∈ pre ++ kept :: post := List.mem_append_right _ List.mem_cons_self
    refine ⟨kept, hkept, hmax, ?_⟩
    by_contra hne
    -- the file kept would be among those that go
    have hmem : kept.path ∈ others lastFilepath (pre ++ kept :: post) :=
      List.mem_filter.mpr ⟨List.mem_map_of_mem hkept, decide_eq_true hne⟩
    rw [heq, ← others_kept hnd] at hmem
    exact of_decide_eq_true (List.mem_filter.mp hmem).2 rfl
  · rintro ⟨x, hx, hmax, rfl⟩
    obtain ⟨pre, post, rfl⟩ := List.append_of_mem hx
    exact ⟨pre, x, post, rfl, hmax, others_kept hnd⟩

theorem removeOthers_log (os : Os D) (lastFilepath : CString) (files : List FileInfo)
    (disk : D × List CString) :
    (removeOthers os.logged lastFilepath files disk).2 = disk.2 ++ others lastFilepath files := by
  induction files generalizing disk with
  | nil => exact (List.append_nil _).symm
  | cons x files ih =>
    rw [removeOthers, List.foldl_cons, others_cons]
    by_cases hx : x.path = lastFilepath
    · rw [if_pos hx, if_pos hx]
      exact ih disk
    · rw [if_neg hx, if_neg hx, ← List.append_assoc]
      exact ih (os.logged.remove x.path disk)

theorem trashOthers_log (os : Os D) (lastFilepath : CString) (files : List FileInfo)
    (trash : InfoList) (disk : D × List CString)
    (hok : (trashOthers os.logged lastFilepath files trash disk).2.2 = true) :
    (trashOthers os.logged lastFilepath files trash disk).2.1.2 =
      disk.2 ++ others lastFilepath files := by
  induction files generalizing trash disk with
  | nil => exact (List.append_nil _).symm
  | cons x files ih =>
    rw [others_cons]
    rw [trashOthers] at hok ⊢
    by_cases hx : x.path = lastFilepath
    · rw [if_pos hx] at hok ⊢
      rw [if_pos hx]
      exact ih trash disk hok
    · rw [if_neg hx] at hok ⊢
      rw [if_neg hx, ← List.append_assoc]
      cases hren : os.logged.rename x.path (moveToTrash os.logged x.path disk) disk with
      | none => rw [hren] at hok; cases hok
      | some disk' =>
        have hlog : disk'.2 = disk.2 ++ [x.path] := by
          obtain ⟨d, -, rfl⟩ := Option.map_eq_some_iff.mp hren
          rfl
        rw [hren] at hok
        rw [← hlog]
        exact ih _ disk' hok

/-! ## The command -/

theorem filelistDeleteNode_isSome {hash : CString} {chain : List FileList}
    (h : hash ∈ chain.map FileList.hash) : (filelistDeleteNode hash chain).isSome := by
  induction chain with
  | nil => cases h
  | cons g chain ih =>
    rw [filelistDeleteNode]
    by_cases hg : g.hash = hash
    · rw [if_pos hg]
      rfl
    · rw [if_neg hg, Option.isSome_map]
      exact ih ((List.mem_cons.mp h).resolve_left (Ne.symm hg))

theorem deleteSet_of_mem {s : Prompt D} {g : FileList} (h : g ∈ s.dups.chain) :
    ∃ s', s.deleteSet g.hash = some s' ∧ s'.disk = s.disk ∧ s'.error = s.error := by
  obtain ⟨chain, hchain⟩ := Option.isSome_iff_exists.mp
    (filelistDeleteNode_isSome (List.mem_map_of_mem (f := FileList.hash) h))
  have hdelete : s.deleteSet g.hash = some { s with dups := { s.dups with chain := chain } } := by
    rw [Prompt.deleteSet, hchain]
    rfl
  exact ⟨_, hdelete, rfl, rfl⟩

theorem targetOf_cmd {s : Prompt D} {argc : Nat} {opts : List Opt} {answers : List CString}
    {target : FileList} (h : targetOf s (.cmd argc opts answers) = some target) (os : Os D) :
    target ∈ s.dups.chain ∧
      deletePrompt os s (.cmd argc opts answers) =
        chooseCommand os ((Flags.parse opts).setIdx - 1).toNat target (Flags.parse opts) answers
          { s with
            error := none
            lastFilepath := (getRecentMtime target.files s.lastFilepath).2 } := by
  simp only [targetOf] at h
  split at h
  · cases h
  · rename_i hout
    rw [not_or, not_or, not_or] at hout
    obtain ⟨hended, hargc, hl, hrange⟩ := hout
    have hmem := List.mem_of_getElem? h
    have hne : filelistSize s.dups ≠ 0 := fun h0 => by
      rw [List.eq_nil_of_length_eq_zero h0] at hmem
      cases hmem
    refine ⟨hmem, ?_⟩
    rw [deletePrompt, if_neg (not_or.mpr ⟨hended, hne⟩)]
    rw [if_neg hargc, deleteCommand, if_neg hl, if_neg hrange]
    dsimp only
    rw [h, Option.bind_some]

/-- A command line without a group changes neither the groups nor the disk. -/
theorem deletePrompt_rejected {s : Prompt D} {argc : Nat} {opts : List Opt} {answers : List CString}
    (h : targetOf s (.cmd argc opts answers) = none) (os : Os D) :
    ∃ s', deletePrompt os s (.cmd argc opts answers) = some s' ∧ s'.dups = s.dups ∧
      s'.disk = s.disk := by
  rw [deletePrompt]
  by_cases hstop : s.ended = true ∨ filelistSize s.dups = 0
  · rw [if_pos hstop]
    exact ⟨s, rfl, rfl, rfl⟩
  · rw [if_neg hstop]
    by_cases hargc : argc < 3
    · exact ⟨_, if_pos hargc, rfl, rfl⟩
    · rw [if_neg hargc, deleteCommand]
      by_cases hl : (Flags.parse opts).l = false
      · exact ⟨_, if_pos hl, rfl, rfl⟩
      · rw [if_neg hl]
        by_cases hrange : (Flags.parse opts).setIdx < 1 ∨
            (Flags.parse opts).setIdx > filelistSize s.dups
        · exact ⟨_, if_pos hrange, rfl, rfl⟩
        · -- an index in range has a group
          have hout : ¬(s.ended = true ∨ argc < 3 ∨ (Flags.parse opts).l = false ∨
              (Flags.parse opts).setIdx < 1 ∨
              (Flags.parse opts).setIdx > filelistSize s.dups) :=
            not_or.mpr ⟨fun he => hstop (.inl he), not_or.mpr ⟨hargc, not_or.mpr ⟨hl, hrange⟩⟩⟩
          simp only [targetOf] at h
          rw [if_neg hout, List.getElem?_eq_none_iff] at h
          rw [not_or, filelistSize] at hrange
          omega

theorem forceCommand_log (os : Os D) {s : Prompt (D × List CString)} {target : FileList}
    (h : target ∈ s.dups.chain) :
    ∃ s', forceCommand os.logged target s = some s' ∧ s'.error = s.error ∧
      s'.disk.2 = s.disk.2 ++ others s.lastFilepath target.files := by
  obtain ⟨s', hs', hdisk, herror⟩ := deleteSet_of_mem (g := target)
    (s := { s with disk := removeOthers os.logged s.lastFilepath target.files s.disk }) h
  refine ⟨s', hs', herror, ?_⟩
  rw [hdisk]
  exact removeOthers_log os s.lastFilepath target.files s.disk

theorem trashCommand_log (os : Os D) {s : Prompt (D × List CString)} {target : FileList}
    (h : target ∈ s.dups.chain) :
    ∃ s', trashCommand os.logged target s = some s' ∧ (s'.error = some .trashFailed ∨
      s'.disk.2 = s.disk.2 ++ others s.lastFilepath target.files) := by
  have hlog := trashOthers_log os s.lastFilepath target.files s.trash s.disk
  rw [trashCommand]
  generalize trashOthers os.logged s.lastFilepath target.files s.trash s.disk = r at hlog
  obtain ⟨trash, disk, ok⟩ := r
  cases ok with
  | true =>
    obtain ⟨s', hs', hdisk, -⟩ := deleteSet_of_mem (g := target)
      (s := { s with trash := trash, disk := disk }) h
    refine ⟨s', hs', .inr ?_⟩
    rw [hdisk]
    exact hlog rfl
  | false => exact ⟨_, rfl, .inl rfl⟩

/-- **The options f and t keep the newest file** exactly when it is found: its time is behind 1970,
or an earlier command left its path in the buffer, and `localtime` takes it. -/
theorem leavesNewest_iff (localtime : Int → Option T) (os : Os D) (s : Prompt (D × List CString))
    (argc : Nat) (opts : List Opt) (answers : List CString) (target : FileList)
    (htarget : targetOf s (.cmd argc opts answers) = some target)
    (hnd : target.paths.Nodup) (hoption : (Flags.parse opts).f = true ∨ (Flags.parse opts).t = true)
    (hrename : ∀ s', deletePromptTimed localtime os.logged s (.cmd argc opts answers) = some s' →
      s'.error ≠ some .trashFailed) :
    LeavesNewest target.files s
        (deletePromptTimed localtime os.logged s (.cmd argc opts answers)) ↔
      NewestFound localtime target.files s.lastFilepath := by
  obtain ⟨hmem, hprompt⟩ := targetOf_cmd htarget os.logged
  rw [newestFound_iff, ← keepsNewest_others hnd]
  rw [deletePromptTimed, htarget] at hrename ⊢
  dsimp only at hrename ⊢
  cases hlocal : localtime (getRecentMtime target.files s.lastFilepath).1 with
  | none =>
    rw [Option.bind_none]
    exact ⟨(fun ⟨s', gone, hs', _⟩ => by cases hs'), fun h => by cases h.1⟩
  | some tm =>
    rw [hlocal] at hrename
    rw [Option.bind_some, Option.isSome_some, and_iff_right rfl]
    have hrun : ∃ s', deletePrompt os.logged s (.cmd argc opts answers) = some s' ∧
        s'.disk.2 = s.disk.2 ++
          others (getRecentMtime target.files s.lastFilepath).2 target.files := by
      rw [Option.bind_some] at hrename
      rw [hprompt] at hrename ⊢
      rw [chooseCommand] at hrename ⊢
      by_cases hf : (Flags.parse opts).f = true
      · rw [if_pos hf]
        obtain ⟨s', hs', -, hdisk⟩ := forceCommand_log os
          (s := { s with
            error := none
            lastFilepath := (getRecentMtime target.files s.lastFilepath).2 }) hmem
        exact ⟨s', hs', hdisk⟩
      · have ht := hoption.resolve_left hf
        rw [if_neg hf, if_pos ht] at hrename ⊢
        obtain ⟨s', hs', herror | hdisk⟩ := trashCommand_log os
          (s := { s with
            error := none
            lastFilepath := (getRecentMtime target.files s.lastFilepath).2 }) hmem
        · exact absurd herror (hrename s' hs')
        · exact ⟨s', hs', hdisk⟩
    obtain ⟨s', hs', hdisk⟩ := hrun
    constructor
    · rintro ⟨s'', gone, hs'', hgone, hkeeps⟩
      rw [hs'] at hs''
      cases hs''
      rw [hdisk] at hgone
      rwa [← List.append_cancel_left hgone] at hkeeps
    · intro hkeeps
      exact ⟨s', _, hs', hdisk, hkeeps⟩

/-- One group with the paths `/a` and `/b`. -/
def aged (mtimeA mtimeB : Int) : Prompt (List CString × List CString) :=
  Prompt.start
    ⟨FileList.zeroed, [⟨1, ['h'], ⟨FileInfo.zeroed, [⟨['/', 'a'], { Stat.zero with mtime := mtimeA }⟩,
      ⟨['/', 'b'], { Stat.zero with mtime := mtimeB }⟩]⟩⟩]⟩ [] ([['/', 'a'], ['/', 'b']], [])

theorem leavesNewest_newer :
    LeavesNewest [⟨['/', 'a'], { Stat.zero with mtime := 5 }⟩, ⟨['/', 'b'], { Stat.zero with mtime := 7 }⟩]
        (aged 5 7) (deletePromptTimed some pathsOs.logged (aged 5 7) (.cmd 4 [.l 1, .t] [])) ↔
      NewestFound (some : Int → Option Int) [⟨['/', 'a'], { Stat.zero with mtime := 5 }⟩,
        ⟨['/', 'b'], { Stat.zero with mtime := 7 }⟩] [] := by
  refine leavesNewest_iff some pathsOs (aged 5 7) 4 [.l 1, .t] []
    ⟨1, ['h'], ⟨FileInfo.zeroed, [⟨['/', 'a'], { Stat.zero with mtime := 5 }⟩,
      ⟨['/', 'b'], { Stat.zero with mtime := 7 }⟩]⟩⟩ rfl (by decide) (.inr rfl) fun s' hs' => ?_
  have hend : (deletePromptTimed some pathsOs.logged (aged 5 7) (.cmd 4 [.l 1, .t] [])).map
      Prompt.error = some none := rfl
  rw [hs'] at hend
  cases s' with
  | mk dups trash lastFilepath disk error ended => cases hend; simp

/-- Two files of the first of January 1970, after no other command: both are removed. -/
theorem both_files_removed :
    targetOf (aged 0 0) (.cmd 4 [.l 1, .f] []) = some ⟨1, ['h'], ⟨FileInfo.zeroed,
        [⟨['/', 'a'], Stat.zero⟩, ⟨['/', 'b'], Stat.zero⟩]⟩⟩ ∧
      ¬LeavesNewest [⟨['/', 'a'], Stat.zero⟩, ⟨['/', 'b'], Stat.zero⟩] (aged 0 0)
        (deletePromptTimed some pathsOs.logged (aged 0 0) (.cmd 4 [.l 1, .f] [])) := by
  refine ⟨rfl, ?_⟩
  rintro ⟨s', gone, hs', hgone, pre, kept, post, hfiles, -, rfl⟩
  have hlog : (deletePromptTimed some pathsOs.logged (aged 0 0) (.cmd 4 [.l 1, .f] [])).map
      (fun s => s.disk.2) = some [['/', 'a'], ['/', 'b']] := rfl
  rw [hs', Option.map_some, Option.some_inj, hgone] at hlog
  have hlength := congrArg List.length hlog
  have hlength' := congrArg List.length hfiles
  simp [aged, Prompt.start] at hlength hlength'
  omega

end Sfinder
end SsuComputer
