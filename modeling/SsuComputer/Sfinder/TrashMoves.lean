import Mathlib.Data.List.Induction
import SsuComputer.Lib.Paths
import SsuComputer.Sfinder.Newest

/-!
# SsuComputer.Sfinder.TrashMoves

Where option t moves files to.

* `Os.moving` — the calls as they are, with every move written down.
* `getTrashPath` — the path of the trash has no slash at its end, and the name is put right behind it.
* `moveToTrash_outside` — so no file is moved into that directory.
* `trashed_iff` — a run of commands leaves every file where it should be only if it moves none.
-/

namespace SsuComputer
namespace Sfinder

variable {D : Type}

/-- A call of `rename` that worked, and whether the new path was there before. -/
structure Move where
  source : CString
  target : CString
  existed : Bool
  deriving DecidableEq

def Os.moving (os : Os D) : Os (D × List Move) where
  remove path disk := (os.remove path disk.1, disk.2)
  rename path target disk :=
    (os.rename path target disk.1).map fun d =>
      (d, disk.2 ++ [⟨path, target, os.access target disk.1⟩])
  access path disk := os.access path disk.1
  getDirlist dir disk := os.getDirlist dir disk.1
  lstat disk := os.lstat disk.1
  now disk := os.now disk.1
  trashPath := os.trashPath
  beyondNull := os.beyondNull

/-- `get_path_from_home`: `strncpy` leaves out the terminator, and what the array held goes on. -/
def getPathFromHome (home path behind : CString) : CString :=
  if path.length = 1 then home ++ behind else home ++ path.drop 1

def TRASH_PATH : CString := ['~', '/', '.', 'T', 'r', 'a', 's', 'h', '/', 'f', 'i', 'l', 'e', 's']

def getTrashPath (home : CString) : CString := getPathFromHome home TRASH_PATH []

/-- The file lies in the directory under its own name, and nothing was there. -/
def Trashed (trashPath : CString) (m : Move) : Prop :=
  ∃ dir name, strrchr '/' m.source = some (dir, name) ∧
    components m.target = components trashPath ++ [name] ∧ m.existed = false

/-- A command line with option t and without option f. -/
def Input.IsTrash : Input → Prop
  | .cmd _ opts _ => (Flags.parse opts).f = false ∧ (Flags.parse opts).t = true
  | _ => False

/-- The command is accepted, its group has another path than the one kept, and the first `rename`
works. -/
def MovesFile (os : Os D) (s : Prompt (D × List Move)) (input : Input) : Prop :=
  ∃ target x, targetOf s input = some target ∧
    (target.files.find? fun x =>
      x.path ≠ (getRecentMtime target.files s.lastFilepath).2) = some x ∧
    (os.rename x.path (moveToTrash os x.path s.disk.1) s.disk.1).isSome

/-! ## The path of the trash -/

def dotTrash : CString := ['.', 'T', 'r', 'a', 's', 'h']

def files : CString := ['f', 'i', 'l', 'e', 's']

theorem getTrashPath_eq (home : CString) :
    getTrashPath home = (home ++ '/' :: dotTrash) ++ '/' :: files := by
  rw [List.append_assoc]
  rfl

theorem components_trashPath (home : CString) :
    components (getTrashPath home) = components (home ++ '/' :: dotTrash) ++ [files] := by
  have hfiles : Component files := ⟨by decide, by decide⟩
  rw [getTrashPath_eq, components_append, components_name hfiles]

theorem splitExtension_subset {name before after : CString}
    (h : splitExtension name = some (before, after)) : before ⊆ name := by
  rw [splitExtension] at h
  split at h
  · rename_i hs
    cases h
    rw [(strstr_eq_some hs).1]
    exact List.subset_append_left _ _
  · rw [(strrchr_eq_some h).1]
    exact List.subset_append_left _ _

theorem getFilename_no_slash {path : CString} (h : '/' ∈ path) : '/' ∉ getFilename path := by
  obtain ⟨before, after, hr, -⟩ := strrchr_append_of_mem h []
  have hafter := (strrchr_eq_some hr).2
  simp only [getFilename, hr, h, if_true]
  split
  · rename_i before' after' hsplit
    exact fun hmem => hafter (splitExtension_subset hsplit hmem)
  · exact hafter

/-- A new name starts with a text that has a dot. -/
theorem getNewFileName_start (namelist : List CString) {path : CString} (h : '/' ∈ path) :
    ∃ start rest, getNewFileName namelist path = start ++ rest ∧ Component start ∧ '.' ∈ start := by
  have hdot : ∃ rest, getNewFileName namelist path = getFilename path ++ '.' :: rest :=
    ⟨_, List.append_assoc _ _ _⟩
  obtain ⟨rest, hrest⟩ := hdot
  refine ⟨getFilename path ++ ['.'], rest, hrest.trans (List.append_cons _ _ _), ?_,
    List.mem_append_right _ (List.mem_singleton_self _)⟩
  refine ⟨List.append_ne_nil_of_right_ne_nil _ (List.cons_ne_nil _ _), fun hmem => ?_⟩
  rcases List.mem_append.mp hmem with hmem | hmem
  · exact getFilename_no_slash h hmem
  · exact absurd (List.mem_singleton.mp hmem) (by decide)

theorem strrchr_cons_slash (dir : CString) {name : CString} (h : '/' ∉ name) :
    strrchr '/' (dir ++ '/' :: name) = some (dir, name) := by
  induction dir with
  | nil => rw [List.nil_append, strrchr, strrchr_of_not_mem h, if_pos rfl]
  | cons c dir ih => rw [List.cons_append, strrchr, ih]

/-- **Nothing is moved into the trash**: the name joins the last name of its path, or replaces it. -/
theorem moveToTrash_outside {os : Os D} {home : CString} (hos : os.trashPath = getTrashPath home)
    {path : CString} (h : '/' ∈ path) (disk : D) (name : CString) :
    components (moveToTrash os path disk) ≠ components os.trashPath ++ [name] := by
  obtain ⟨dir, base, hr, -⟩ := strrchr_append_of_mem h []
  have hbase := (strrchr_eq_some hr).2
  have hjoined : '/' ∉ files ++ base := by
    rw [List.mem_append, not_or]
    exact ⟨by decide, hbase⟩
  have htarget : os.trashPath ++ baseName os path =
      (home ++ '/' :: dotTrash) ++ '/' :: (files ++ base) := by
    rw [hos, getTrashPath_eq, baseName, hr, List.append_assoc, List.cons_append]
  rw [hos, components_trashPath, List.append_assoc]
  simp only [moveToTrash, htarget]
  by_cases haccess : os.access ((home ++ '/' :: dotTrash) ++ '/' :: (files ++ base)) disk = true
  · -- the new name stands in place of `files`
    rw [if_pos haccess, strrchr_cons_slash _ hjoined]
    dsimp only
    rw [List.append_assoc, List.cons_append, components_append]
    intro heq
    have hrest := List.append_cancel_left heq
    obtain ⟨start, rest, hname, hstart, hdot⟩ :=
      getNewFileName_start (os.getDirlist os.trashPath disk) h
    rw [hname, List.append_assoc] at hrest
    obtain ⟨first, names, hfirst, hstarts⟩ := components_head hstart
      (rest ++ (files ++ base).drop (start ++ rest).length)
    rw [hfirst] at hrest
    have hfiles : first = files := (List.cons.inj hrest).1
    exact absurd (hstarts.subset hdot) (by rw [hfiles]; decide)
  · rw [if_neg haccess, components_append]
    intro heq
    have hcomponent : Component (files ++ base) := ⟨(fun hnil => by cases hnil), hjoined⟩
    rw [components_name hcomponent] at heq
    have hlength := congrArg List.length (List.append_cancel_left heq)
    cases hlength

/-! ## The commands -/

def Move.Outside (trashPath : CString) (m : Move) : Prop :=
  ∀ name, components m.target ≠ components trashPath ++ [name]

theorem Move.Outside.not_trashed {trashPath : CString} {m : Move} (h : m.Outside trashPath) :
    ¬Trashed trashPath m := by
  rintro ⟨dir, name, -, htarget, -⟩
  exact h name htarget

/-- The move of a file, as it is written down. -/
def Os.trashMove (os : Os D) (path : CString) (disk : D) : Move :=
  ⟨path, moveToTrash os path disk, os.access (moveToTrash os path disk) disk⟩

theorem trashOthers_moves {os : Os D} {home : CString} (hos : os.trashPath = getTrashPath home)
    (lastFilepath : CString) (files : List FileInfo) (habs : ∀ x ∈ files, '/' ∈ x.path)
    (trash : InfoList) (disk : D × List Move) :
    ∃ new, (trashOthers os.moving lastFilepath files trash disk).2.1.2 = disk.2 ++ new ∧
      (∀ m ∈ new, m.Outside os.trashPath) ∧
      (new ≠ [] ↔ ∃ x, (files.find? fun x => x.path ≠ lastFilepath) = some x ∧
        (os.rename x.path (moveToTrash os x.path disk.1) disk.1).isSome) := by
  induction files generalizing trash disk with
  | nil =>
    refine ⟨[], (List.append_nil _).symm, (fun m hm => by cases hm), fun h => absurd rfl h, ?_⟩
    rintro ⟨x, hx, -⟩
    cases hx
  | cons x files ih =>
    have htail : ∀ x ∈ files, '/' ∈ x.path := fun y hy => habs y (List.mem_cons_of_mem _ hy)
    rw [trashOthers]
    by_cases hx : x.path = lastFilepath
    · rw [if_pos hx, List.find?_cons_of_neg (by simpa using hx)]
      exact ih htail trash disk
    · rw [if_neg hx, List.find?_cons_of_pos (by simpa using hx)]
      have hrename : os.moving.rename x.path (moveToTrash os.moving x.path disk) disk =
          (os.rename x.path (moveToTrash os x.path disk.1) disk.1).map fun d =>
            (d, disk.2 ++ [os.trashMove x.path disk.1]) := rfl
      rw [hrename]
      cases hr : os.rename x.path (moveToTrash os x.path disk.1) disk.1 with
      | none =>
        refine ⟨[], (List.append_nil _).symm, (fun m hm => by cases hm), fun h => absurd rfl h, ?_⟩
        rintro ⟨y, hy, hsome⟩
        cases hy
        rw [hr] at hsome
        cases hsome
      | some d =>
        rw [Option.map_some]
        dsimp only
        have hrest (disk' : D × List Move) := ih htail
          (fileinfoAppend (os.moving.lstat disk') (some (os.moving.now disk')) trash x.path) disk'
        obtain ⟨new, hnew, hout, -⟩ := hrest (d, disk.2 ++ [os.trashMove x.path disk.1])
        refine ⟨_ :: new, hnew.trans (List.append_cons _ _ _).symm, ?_, ?_⟩
        · refine List.forall_mem_cons.mpr ⟨?_, hout⟩
          exact moveToTrash_outside hos (habs x List.mem_cons_self) disk.1
        · refine ⟨fun _ => ⟨x, rfl, by rw [hr]; rfl⟩, fun _ => List.cons_ne_nil _ _⟩

/-- All files of the groups have paths with a directory. -/
def AbsolutePaths (s : Prompt D) : Prop := ∀ g ∈ s.dups.chain, ∀ x ∈ g.files, '/' ∈ x.path

theorem filelistDeleteNode_subset {hash : CString} {chain chain' : List FileList}
    (h : filelistDeleteNode hash chain = some chain') : chain' ⊆ chain := by
  induction chain generalizing chain' with
  | nil => cases h
  | cons g chain ih =>
    rw [filelistDeleteNode] at h
    split at h
    · cases h
      exact List.subset_cons_self _ _
    · obtain ⟨rest, hrest, rfl⟩ := Option.map_eq_some_iff.mp h
      exact List.cons_subset_cons _ (ih hrest)

/-- One command of option t: it ends, and moves files only where they are not in the trash. -/
theorem deletePrompt_moves {os : Os D} {home : CString} (hos : os.trashPath = getTrashPath home)
    {s : Prompt (D × List Move)} (habs : AbsolutePaths s) {input : Input} (ht : input.IsTrash) :
    ∃ s' new, deletePrompt os.moving s input = some s' ∧ AbsolutePaths s' ∧
      s'.disk.2 = s.disk.2 ++ new ∧ (∀ m ∈ new, m.Outside os.trashPath) ∧
      (new ≠ [] ↔ MovesFile os s input) := by
  cases input with
  | exit => cases ht
  | blank => cases ht
  | cmd argc opts answers =>
    cases htarget : targetOf s (.cmd argc opts answers) with
    | none =>
      obtain ⟨s', hs', hdups, hdisk⟩ := deletePrompt_rejected htarget os.moving
      refine ⟨s', [], hs', ?_, ?_, (fun m hm => by cases hm), fun h => absurd rfl h, ?_⟩
      · rw [AbsolutePaths, hdups]
        exact habs
      · rw [hdisk, List.append_nil]
      · rintro ⟨target, x, hsome, -⟩
        rw [htarget] at hsome
        cases hsome
    | some target =>
      obtain ⟨hmem, hprompt⟩ := targetOf_cmd htarget os.moving
      have hmoves := trashOthers_moves hos (getRecentMtime target.files s.lastFilepath).2 target.files
        (habs target hmem) s.trash s.disk
      rw [hprompt, chooseCommand, if_neg (by rw [ht.1]; exact Bool.false_ne_true), if_pos ht.2,
        trashCommand]
      dsimp only
      have hiff : MovesFile os s (.cmd argc opts answers) ↔
          ∃ x, (target.files.find? fun x =>
            x.path ≠ (getRecentMtime target.files s.lastFilepath).2) = some x ∧
              (os.rename x.path (moveToTrash os x.path s.disk.1) s.disk.1).isSome := by
        rw [MovesFile, htarget]
        constructor
        · rintro ⟨target', x, heq, hx⟩
          cases heq
          exact ⟨x, hx⟩
        · rintro ⟨x, hx⟩
          exact ⟨target, x, rfl, hx⟩
      rw [hiff]
      generalize trashOthers os.moving (getRecentMtime target.files s.lastFilepath).2 target.files
        s.trash s.disk = r at hmoves
      obtain ⟨trash, disk, ok⟩ := r
      obtain ⟨new, hnew, hout, hfirst⟩ := hmoves
      cases ok with
      | false => exact ⟨_, new, rfl, habs, hnew, hout, hfirst⟩
      | true =>
        obtain ⟨chain, hchain⟩ := Option.isSome_iff_exists.mp
          (filelistDeleteNode_isSome (List.mem_map_of_mem (f := FileList.hash) hmem))
        let left : Prompt (D × List Move) :=
          { s with
            dups := { s.dups with chain := chain }
            trash := trash
            lastFilepath := (getRecentMtime target.files s.lastFilepath).2
            disk := disk
            error := none }
        refine ⟨left, new, ?_, fun g hg => habs g (filelistDeleteNode_subset hchain hg), hnew, hout,
          hfirst⟩
        dsimp only
        rw [Prompt.deleteSet, hchain]
        rfl

/-- The steps of a run that move nothing. -/
def MovesNothing (os : Os D) (r : Option (Prompt (D × List Move))) (input : Input) : Prop :=
  ∀ s, r = some s → ¬MovesFile os s input

theorem movesNothing_iff {os : Os D} {s : Prompt (D × List Move)} {input : Input} :
    MovesNothing os (some s) input ↔ ¬MovesFile os s input := by
  constructor
  · exact fun h => h s rfl
  · intro h t ht
    cases ht
    exact h

/-- A run of such commands: every move is outside, and there is none just when no step makes one. -/
theorem run_moves {os : Os D} {home : CString} (hos : os.trashPath = getTrashPath home)
    {s₀ : Prompt (D × List Move)} (habs : AbsolutePaths s₀) (hnone : s₀.disk.2 = [])
    (inputs : List Input) (ht : ∀ input ∈ inputs, input.IsTrash) :
    ∃ s, Run.exec? (deletePrompt os.moving) s₀ inputs = some s ∧ AbsolutePaths s ∧
      (∀ m ∈ s.disk.2, m.Outside os.trashPath) ∧
      (s.disk.2 = [] ↔ Run.Guarded (fun r a => r.bind fun t => deletePrompt os.moving t a)
        (MovesNothing os) (some s₀) inputs) := by
  induction inputs using List.reverseRecOn with
  | nil => exact ⟨_, rfl, habs, by simp [hnone], iff_of_true hnone trivial⟩
  | append_singleton inputs input ih =>
    obtain ⟨s, hs, habs', hout, hiff⟩ := ih fun i hi => ht i (List.mem_append_left _ hi)
    obtain ⟨s', new, hs', habs'', hnew, hout', hmoves⟩ :=
      deletePrompt_moves hos habs' (ht input (List.mem_append_right _ (List.mem_singleton_self _)))
    refine ⟨s', ?_, habs'', ?_, ?_⟩
    · rw [Run.exec?_concat, hs, Option.bind_some, hs']
    · rw [hnew]
      exact List.forall_mem_append.mpr ⟨hout, hout'⟩
    · have hreached : Run.exec (fun r a => r.bind fun t => deletePrompt os.moving t a) (some s₀)
          inputs = some s := hs
      have hstep : MovesNothing os (some s) input ↔ new = [] := by
        rw [movesNothing_iff, ← hmoves, not_not]
      rw [Run.guarded_concat, ← hiff, hnew, List.append_eq_nil_iff, hreached, hstep]

/-- **Files are left in the trash under their names** only by runs that move none. -/
theorem trashed_iff (os : Os D) (home : CString) (hos : os.trashPath = getTrashPath home)
    (dups : DupsList) (lastFilepath : CString) (disk : D)
    (habs : ∀ g ∈ dups.chain, ∀ x ∈ g.files, '/' ∈ x.path) (inputs : List Input)
    (ht : ∀ input ∈ inputs, input.IsTrash) :
    ∃ s, Run.exec? (deletePrompt os.moving) (Prompt.start dups lastFilepath (disk, [])) inputs =
        some s ∧
      ((∀ m ∈ s.disk.2, Trashed os.trashPath m) ↔
        Run.Guarded (fun r a => r.bind fun t => deletePrompt os.moving t a) (MovesNothing os)
          (some (Prompt.start dups lastFilepath (disk, []))) inputs) := by
  have hstart : AbsolutePaths (Prompt.start dups lastFilepath (disk, ([] : List Move))) := habs
  obtain ⟨s, hs, -, hout, hiff⟩ := run_moves hos hstart rfl inputs ht
  refine ⟨s, hs, ?_⟩
  rw [← hiff]
  constructor
  · intro h
    exact List.eq_nil_iff_forall_not_mem.mpr fun m hm => (hout m hm).not_trashed (h m hm)
  · intro h m hm
    rw [h] at hm
    cases hm

/-! ## Four files of one name -/

/-- A disk that is the list of its paths; `rename` replaces what is there. -/
def homeOs : Os (List CString) where
  remove path disk := disk.erase path
  rename path target disk := some (target :: (disk.erase path).erase target)
  access path disk := disk.contains path
  getDirlist dir disk := (disk.filter fun p => dir ++ ['/'] <+: p).map fun p => p.drop (dir.length + 1)
  lstat disk path := if disk.contains path then some Stat.zero else none
  now _ := 0
  trashPath := getTrashPath ['/', 'h']
  beyondNull := []

def fourPaths : List CString :=
  [['/', '1', '/', 'a'], ['/', '2', '/', 'a'], ['/', '3', '/', 'a'], ['/', '4', '/', 'a']]

/-- The four files are one group, the last of them the newest. -/
def fourFiles : DupsList :=
  ⟨FileList.zeroed, [⟨1, ['h'], ⟨FileInfo.zeroed,
    fourPaths.map fun path => ⟨path, { Stat.zero with mtime := if path = ['/', '4', '/', 'a'] then 2 else 1 }⟩⟩⟩]⟩

theorem fourFiles_absolute : ∀ g ∈ fourFiles.chain, ∀ x ∈ g.files, '/' ∈ x.path := by
  decide

def besideTrash (name : CString) : CString := ['/', 'h', '/'] ++ dotTrash ++ '/' :: name

/-- The names are put behind `files`, or replace it in part; the third file replaces the second. -/
theorem fourFiles_misplaced :
    (Run.exec? (deletePrompt homeOs.moving) (Prompt.start fourFiles [] (fourPaths, []))
      [.cmd 4 [.l 1, .t] []]).map (fun s => s.disk.2) =
        some [⟨['/', '1', '/', 'a'], besideTrash (files ++ ['a']), false⟩,
          ⟨['/', '2', '/', 'a'], besideTrash ['a', '.', '1', 'e', 's', 'a'], false⟩,
          ⟨['/', '3', '/', 'a'], besideTrash ['a', '.', '1', 'e', 's', 'a'], true⟩] ∧
      ¬Trashed homeOs.trashPath ⟨['/', '1', '/', 'a'], besideTrash (files ++ ['a']), false⟩ ∧
      ¬Trashed homeOs.trashPath
        ⟨['/', '3', '/', 'a'], besideTrash ['a', '.', '1', 'e', 's', 'a'], true⟩ := by
  refine ⟨by decide, ?_, ?_⟩
  · rintro ⟨dir, name, -, htarget, -⟩
    have hlength := congrArg List.length htarget
    rw [List.length_append, List.length_singleton] at hlength
    exact absurd hlength (by decide)
  · rintro ⟨dir, name, -, -, hexisted⟩
    cases hexisted

/-- The same calls where the trash is on another device than the files: every `rename` fails. -/
def otherDeviceOs : Os (List CString) := { homeOs with rename := fun _ _ _ => none }

theorem otherDeviceOs_moves_nothing (r : Option (Prompt (List CString × List Move)))
    (input : Input) : MovesNothing otherDeviceOs r input := by
  rintro s - ⟨target, x, -, -, hrename⟩
  cases hrename

/-- A command with an index out of range, and one that ends with its first `rename`. -/
theorem fourFiles_stay :
    ∃ s, Run.exec? (deletePrompt otherDeviceOs.moving) (Prompt.start fourFiles [] (fourPaths, []))
        [.cmd 4 [.l 7, .t] [], .cmd 4 [.l 1, .t] []] = some s ∧
      ∀ m ∈ s.disk.2, Trashed otherDeviceOs.trashPath m := by
  have htrash : ∀ input ∈ [Input.cmd 4 [.l 7, .t] [], .cmd 4 [.l 1, .t] []], input.IsTrash := by
    simp only [List.mem_cons, List.not_mem_nil, or_false]
    rintro input (rfl | rfl)
    · exact ⟨rfl, rfl⟩
    · exact ⟨rfl, rfl⟩
  obtain ⟨s, hs, hiff⟩ := trashed_iff otherDeviceOs ['/', 'h'] rfl fourFiles [] fourPaths
    fourFiles_absolute _ htrash
  refine ⟨s, hs, hiff.mpr ⟨?_, ?_, trivial⟩⟩
  · exact otherDeviceOs_moves_nothing _ _
  · exact otherDeviceOs_moves_nothing _ _

end Sfinder
end SsuComputer
