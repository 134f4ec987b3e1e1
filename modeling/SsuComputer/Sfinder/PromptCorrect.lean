import SsuComputer.Sfinder.DeletePrompt

/-!
# SsuComputer.Sfinder.PromptCorrect

What the commands of the deletion prompt do to the list of groups.

* `Flags.edit` — the effect meant: at most one group changes, and one left with fewer than two files
  goes.
* `askLoop_eq` — the cursor of option i, which deletes from the list it walks on, keeps exactly the
  files not answered yes.
* `deleteCommand_edit` — a command has the effect meant.
* `deletePrompt_consistent` — over any run of inputs.
-/

namespace SsuComputer
namespace Sfinder

structure WellFormed (chain : List FileList) : Prop where
  hashes : (chain.map FileList.hash).Nodup
  paths : ∀ g ∈ chain, g.paths.Nodup
  two : ∀ g ∈ chain, 2 ≤ g.files.length

/-! ## The effect meant -/

def FileList.withFiles (g : FileList) (files : List FileInfo) : FileList :=
  { g with fileInfoList := { g.fileInfoList with chain := files } }

/-- What stands in the place of a group whose files are now these. -/
def FileList.left (g : FileList) (files : List FileInfo) : List FileList :=
  if files.length < 2 then [] else [g.withFiles files]

/-- The files not answered yes before the first invalid answer. -/
def unanswered (answers : List CString) (files : List FileInfo) : List FileInfo :=
  let valid := answers.takeWhile fun a => isYes a || isNo a
  ((files.zip valid).filter fun p => !isYes p.2).map Prod.fst ++ files.drop valid.length

/-- The files that a command leaves in its group, if it is not rejected. -/
def Flags.keep (fl : Flags) (answers : List CString) (files : List FileInfo) :
    Option (List FileInfo) :=
  if fl.f || fl.t then some []
  else if fl.i then some (unanswered answers files)
  else if fl.d then
    if 1 ≤ fl.listIdx ∧ fl.listIdx ≤ files.length then
      some (files.eraseIdx (fl.listIdx - 1).toNat)
    else none
  else some files

/-- The groups after a command, in terms of the groups before, in their places. -/
def Flags.edit (fl : Flags) (answers : List CString) (chain : List FileList) : List FileList :=
  if fl.l ∧ 1 ≤ fl.setIdx then
    let k := (fl.setIdx - 1).toNat
    match chain[k]? with
    | some g =>
      match fl.keep answers g.files with
      | some files => chain.take k ++ g.left files ++ chain.drop (k + 1)
      | none => chain
    | none => chain
  else chain

def Input.edit (chain : List FileList) : Input → List FileList
  | .exit => chain
  | .blank => chain
  | .cmd argc opts answers =>
    if argc < 3 then chain else (Flags.parse opts).edit answers chain

/-- The errors that a command is rejected with; the others come up while one is carried out. -/
def PromptError.Rejects : PromptError → Prop
  | .usage | .setIdxMissing | .setIdxRange | .listIdxMissing | .listIdxRange => True
  | .badAnswer | .trashFailed => False

/-! ## Lists -/

theorem WellFormed.left {pre post : List FileList} {g : FileList} {files : List FileInfo}
    (h : WellFormed (pre ++ g :: post)) (hsub : files.Sublist g.files) :
    WellFormed (pre ++ g.left files ++ post) := by
  have hmem {x : FileList} (hx : x ∈ pre ++ g.left files ++ post) :
      x ∈ pre ++ g :: post ∨ (2 ≤ files.length ∧ x = g.withFiles files) := by
    simp only [FileList.left, List.mem_append, List.mem_cons] at hx ⊢
    split at hx
    · simp only [List.not_mem_nil] at hx; tauto
    · rw [List.mem_singleton] at hx
      rcases hx with (hx | hx) | hx
      · exact .inl (.inl hx)
      · exact .inr ⟨by omega, hx⟩
      · exact .inl (.inr (.inr hx))
  refine ⟨?_, fun x hx => ?_, fun x hx => ?_⟩
  · refine h.hashes.sublist ?_
    simp only [FileList.left]
    split
    · simp
    · simp [FileList.withFiles]
  · rcases hmem hx with hx | ⟨-, rfl⟩
    · exact h.paths x hx
    · exact (h.paths g (by simp)).sublist (hsub.map _)
  · rcases hmem hx with hx | ⟨hlen, rfl⟩
    · exact h.two x hx
    · exact hlen

theorem unanswered_nil (answers : List CString) : unanswered answers [] = [] := by
  simp [unanswered]

theorem unanswered_yes {ans : CString} (h : isYes ans) (answers : List CString) (x : FileInfo)
    (xs : List FileInfo) : unanswered (ans :: answers) (x :: xs) = unanswered answers xs := by
  simp [unanswered, h]

theorem unanswered_no {ans : CString} (h : isYes ans = false) (hn : isNo ans)
    (answers : List CString) (x : FileInfo) (xs : List FileInfo) :
    unanswered (ans :: answers) (x :: xs) = x :: unanswered answers xs := by
  simp [unanswered, h, hn]

theorem unanswered_invalid {ans : CString} (h : isYes ans = false) (hn : isNo ans = false)
    (answers : List CString) (files : List FileInfo) :
    unanswered (ans :: answers) files = files := by
  simp [unanswered, h, hn]

theorem unanswered_sublist (answers : List CString) (files : List FileInfo) :
    (unanswered answers files).Sublist files := by
  induction files generalizing answers with
  | nil => rw [unanswered_nil]
  | cons x xs ih =>
    cases answers with
    | nil => simp [unanswered]
    | cons ans answers =>
      cases hy : isYes ans with
      | true => rw [unanswered_yes hy]; exact (ih answers).cons x
      | false =>
        cases hn : isNo ans with
        | true => rw [unanswered_no hy hn]; exact (ih answers).cons_cons x
        | false => rw [unanswered_invalid hy hn]

theorem Flags.keep_sublist {fl : Flags} {answers : List CString} {files kept : List FileInfo}
    (h : fl.keep answers files = some kept) : kept.Sublist files := by
  simp only [Flags.keep] at h
  split at h
  · cases h; exact List.nil_sublist _
  · split at h
    · cases h; exact unanswered_sublist _ _
    · split at h
      · split at h
        · cases h; exact List.eraseIdx_sublist _ _
        · cases h
      · cases h; exact .refl _

theorem Flags.edit_wellFormed {fl : Flags} {answers : List CString} {chain : List FileList}
    (h : WellFormed chain) : WellFormed (fl.edit answers chain) := by
  simp only [Flags.edit]
  split
  · split
    · rename_i g hg
      split
      · rename_i files hk
        obtain ⟨hlt, rfl⟩ := List.getElem?_eq_some_iff.mp hg
        refine WellFormed.left ?_ (Flags.keep_sublist hk)
        rwa [List.cons_getElem_drop_succ, List.take_append_drop]
      · exact h
    · exact h
  · exact h

theorem Input.edit_wellFormed {chain : List FileList} (h : WellFormed chain) (input : Input) :
    WellFormed (input.edit chain) := by
  cases input with
  | exit => exact h
  | blank => exact h
  | cmd argc opts answers =>
    simp only [Input.edit]
    split
    · exact h
    · exact Flags.edit_wellFormed h

/-! ## Commands -/

variable {D : Type} {os : Os D}

/-- The files before the cursor stay, those from it on are the ones asked about. -/
theorem askLoop_eq (os : Os D) (listcnt : Nat) (before cursor : List FileInfo)
    (answers : List CString) (disk : D)
    (hnd : ((before ++ cursor).map FileInfo.path).Nodup) (hcnt : cursor.length ≤ listcnt) :
    ∃ disk' ok, askLoop os listcnt cursor (before ++ cursor) answers disk =
      some (before ++ unanswered answers cursor, disk', ok) := by
  induction listcnt generalizing before cursor answers disk with
  | zero =>
    rw [List.eq_nil_of_length_eq_zero (Nat.le_zero.mp hcnt), unanswered_nil]
    exact ⟨disk, true, rfl⟩
  | succ listcnt ih =>
    cases cursor with
    | nil => rw [unanswered_nil]; exact ⟨disk, true, rfl⟩
    | cons x xs =>
      have hcnt' : xs.length ≤ listcnt := Nat.le_of_succ_le_succ hcnt
      cases answers with
      | nil => exact ⟨disk, false, by simp [askLoop, isYes, isNo, unanswered]⟩
      | cons ans answers =>
        cases hy : isYes ans with
        | true =>
          have hdel := fileinfoDeleteNode_split hnd
          have hnd' : ((before ++ xs).map FileInfo.path).Nodup :=
            hnd.sublist (((List.sublist_cons_self x xs).append_left before).map _)
          rw [unanswered_yes hy]
          simpa [askLoop, hy, hdel] using ih before xs answers (os.remove x.path disk) hnd' hcnt'
        | false =>
          cases hn : isNo ans with
          | true =>
            rw [unanswered_no hy hn]
            simpa [askLoop, hy, hn] using ih (before ++ [x]) xs answers disk (by simpa using hnd) hcnt'
          | false =>
            rw [unanswered_invalid hy hn]
            exact ⟨disk, false, by simp [askLoop, hy, hn]⟩

/-- The command ends in a state with the groups `new`, which are `old` if it is rejected. -/
def Yields (r : Option (Prompt D)) (old new : List FileList) : Prop :=
  ∃ s', r = some s' ∧ s'.dups.chain = new ∧ ∀ e, s'.error = some e → e.Rejects → new = old

theorem Yields.rejected {s : Prompt D} {e : PromptError} :
    Yields (some (s.failed e)) s.dups.chain s.dups.chain :=
  ⟨_, rfl, rfl, fun _ _ _ => rfl⟩

/-- No error of the kind that commands are rejected with. -/
def Accepted (s : Prompt D) : Prop := ∀ e, s.error = some e → ¬ e.Rejects

variable {s : Prompt D} {pre post : List FileList} {g : FileList}

theorem deleteSet_yields (hs : s.dups.chain = pre ++ g :: post) (ha : Accepted s)
    (hnd : ((pre ++ g :: post).map FileList.hash).Nodup) (old : List FileList) :
    Yields (s.deleteSet g.hash) old (pre ++ post) := by
  refine ⟨{ s with dups := ⟨s.dups.head, pre ++ post⟩ }, ?_, rfl, fun e he hr => absurd hr (ha e he)⟩
  rw [Prompt.deleteSet, hs, filelistDeleteNode_split hnd]
  rfl

theorem deleteIfSmall_yields (hs : s.dups.chain = pre ++ g :: post) (ha : Accepted s)
    (hnd : ((pre ++ g :: post).map FileList.hash).Nodup) (files : List FileInfo)
    (old : List FileList) :
    Yields ((s.setFiles pre.length files).deleteIfSmall files g.hash) old
      (pre ++ g.left files ++ post) := by
  have hset : (s.setFiles pre.length files).dups.chain = pre ++ g.withFiles files :: post := by
    simp only [Prompt.setFiles, hs]
    exact modify_length _ _ _ _
  by_cases hlen : files.length < 2
  · rw [Prompt.deleteIfSmall, if_pos hlen, FileList.left, if_pos hlen, List.append_nil]
    exact deleteSet_yields (g := g.withFiles files) hset ha
      (by simpa [FileList.withFiles] using hnd) old
  · rw [Prompt.deleteIfSmall, if_neg hlen, FileList.left, if_neg hlen]
    exact ⟨_, rfl, by simp [hset], fun e he hr => absurd hr (ha e he)⟩

theorem forceCommand_yields (hs : s.dups.chain = pre ++ g :: post) (ha : Accepted s)
    (hnd : ((pre ++ g :: post).map FileList.hash).Nodup) (old : List FileList) :
    Yields (forceCommand os g s) old (pre ++ post) := by
  rw [forceCommand]
  exact deleteSet_yields (s := { s with disk := removeOthers os s.lastFilepath g.files s.disk })
    hs ha hnd old

theorem trashOthers_ok (hren : ∀ path target disk, (os.rename path target disk).isSome)
    (last : CString) (files : List FileInfo) (trash : InfoList) (disk : D) :
    ∃ trash' disk', trashOthers os last files trash disk = (trash', disk', true) := by
  induction files generalizing trash disk with
  | nil => exact ⟨trash, disk, rfl⟩
  | cons x xs ih =>
    rw [trashOthers]
    split
    · exact ih trash disk
    · obtain ⟨disk', hd⟩ := Option.isSome_iff_exists.mp (hren x.path (moveToTrash os x.path disk) disk)
      rw [hd]
      exact ih _ disk'

theorem trashCommand_yields (hren : ∀ path target disk, (os.rename path target disk).isSome)
    (hs : s.dups.chain = pre ++ g :: post) (ha : Accepted s)
    (hnd : ((pre ++ g :: post).map FileList.hash).Nodup) (old : List FileList) :
    Yields (trashCommand os g s) old (pre ++ post) := by
  obtain ⟨trash, disk, h⟩ := trashOthers_ok hren s.lastFilepath g.files s.trash s.disk
  rw [trashCommand, h]
  exact deleteSet_yields (s := { s with trash := trash, disk := disk }) hs ha hnd old

theorem askCommand_yields (hs : s.dups.chain = pre ++ g :: post)
    (hnd : ((pre ++ g :: post).map FileList.hash).Nodup) (hp : g.paths.Nodup)
    (answers : List CString) (old : List FileList) :
    Yields (askCommand os pre.length g answers s) old
      (pre ++ g.left (unanswered answers g.files) ++ post) := by
  obtain ⟨disk, ok, h⟩ := askLoop_eq os g.files.length [] g.files answers s.disk
    (by simpa [FileList.paths] using hp) le_rfl
  rw [List.nil_append, List.nil_append] at h
  rw [askCommand, fileinfolistSize, ← FileList.files, h]
  refine deleteIfSmall_yields (s := { s with disk := disk, error := _ }) hs ?_ hnd _ old
  intro e he
  cases ok with
  | true => cases he
  | false => cases he; exact id

theorem deleteIndexCommand_yields (os : Os D) (hs : s.dups.chain = pre ++ g :: post)
    (ha : Accepted s)
    (hnd : ((pre ++ g :: post).map FileList.hash).Nodup) (hp : g.paths.Nodup) (listIdx : Int) :
    Yields (deleteIndexCommand os pre.length g listIdx s) (pre ++ g :: post)
      (if 1 ≤ listIdx ∧ listIdx ≤ g.files.length then
        pre ++ g.left (g.files.eraseIdx (listIdx - 1).toNat) ++ post
      else pre ++ g :: post) := by
  rw [← hs]
  have hsize : fileinfolistSize g.fileInfoList = g.files.length := rfl
  rw [deleteIndexCommand, hsize]
  split
  · rw [if_neg (by omega)]
    exact .rejected
  · split
    · rw [if_neg (by omega)]
      exact .rejected
    · rw [if_pos (by omega)]
      obtain ⟨before, x, after, hfiles, hlen⟩ : ∃ before x after,
          g.files = before ++ x :: after ∧ before.length = (listIdx - 1).toNat := by
        have hlt : (listIdx - 1).toNat < g.files.length := by omega
        refine ⟨g.files.take (listIdx - 1).toNat, g.files[(listIdx - 1).toNat],
          g.files.drop ((listIdx - 1).toNat + 1), ?_, by simp; omega⟩
        rw [List.cons_getElem_drop_succ, List.take_append_drop]
      have hdel : fileinfoDeleteNode x.path g.files = some (before ++ after, after) := by
        rw [hfiles]
        exact fileinfoDeleteNode_split (by simpa [FileList.paths, hfiles] using hp)
      have herase : g.files.eraseIdx (listIdx - 1).toNat = before ++ after := by
        rw [hfiles, ← hlen, List.eraseIdx_append_of_length_le le_rfl, Nat.sub_self]
        rfl
      have hget : g.files[(listIdx - 1).toNat]? = some x := by
        rw [hfiles, ← hlen]; simp
      rw [hget, Option.bind_some, hdel, Option.bind_some, herase]
      exact deleteIfSmall_yields (s := { s with disk := os.remove x.path s.disk }) hs ha hnd _ _

theorem chooseCommand_yields (os : Os D)
    (hren : ∀ path target disk, (os.rename path target disk).isSome)
    (hwf : WellFormed (pre ++ g :: post)) (hs : s.dups.chain = pre ++ g :: post) (ha : Accepted s)
    (fl : Flags) (answers : List CString) :
    Yields (chooseCommand os pre.length g fl answers s) (pre ++ g :: post)
      (match fl.keep answers g.files with
        | some files => pre ++ g.left files ++ post
        | none => pre ++ g :: post) := by
  have hp := hwf.paths g (by simp)
  have hnil : pre ++ g.left [] ++ post = pre ++ post := by simp [FileList.left]
  simp only [chooseCommand, Flags.keep]
  cases fl.f with
  | true =>
    simp only [Bool.true_or, if_true, hnil]
    exact forceCommand_yields hs ha hwf.hashes _
  | false =>
    cases fl.t with
    | true =>
      simp only [Bool.or_true, if_true, hnil]
      exact trashCommand_yields hren hs ha hwf.hashes _
    | false =>
      cases fl.i with
      | true => simpa using askCommand_yields hs hwf.hashes hp answers _
      | false =>
        cases fl.d with
        | true =>
          have hdel := deleteIndexCommand_yields os hs ha hwf.hashes hp fl.listIdx
          simp only [Bool.or_self, Bool.false_eq_true, if_false, if_true]
          by_cases hin : 1 ≤ fl.listIdx ∧ fl.listIdx ≤ g.files.length
          · rw [if_pos hin] at hdel ⊢; exact hdel
          · rw [if_neg hin] at hdel ⊢; exact hdel
        | false =>
          have htwo := hwf.two g (by simp)
          have hsame : g.left g.files = [g] := if_neg (by omega)
          simp only [Bool.or_self, Bool.false_eq_true, if_false, hsame, List.append_assoc]
          exact ⟨s, rfl, hs, fun e he hr => absurd hr (ha e he)⟩

/-- A command has the effect meant. -/
theorem deleteCommand_edit (hren : ∀ path target disk, (os.rename path target disk).isSome)
    (hwf : WellFormed s.dups.chain) (ha : Accepted s) (fl : Flags) (answers : List CString) :
    Yields (deleteCommand os s fl answers) s.dups.chain (fl.edit answers s.dups.chain) := by
  simp only [deleteCommand, filelistSize, Flags.edit]
  cases hl : fl.l with
  | false => simpa using Yields.rejected (s := s) (e := .setIdxMissing)
  | true =>
    by_cases hlow : fl.setIdx < 1
    · have hno : ¬ 1 ≤ fl.setIdx := by omega
      simpa [hlow, hno] using Yields.rejected (s := s) (e := .setIdxRange)
    · have hyes : 1 ≤ fl.setIdx := by omega
      cases hk : s.dups.chain[(fl.setIdx - 1).toNat]? with
      | none =>
        have hhigh : fl.setIdx > s.dups.chain.length := by
          have := List.getElem?_eq_none_iff.mp hk
          omega
        simpa [hhigh] using Yields.rejected (s := s) (e := .setIdxRange)
      | some g =>
        obtain ⟨hlt, hg⟩ := List.getElem?_eq_some_iff.mp hk
        have hin : ¬ fl.setIdx > s.dups.chain.length := by omega
        have hlen : (s.dups.chain.take (fl.setIdx - 1).toNat).length = (fl.setIdx - 1).toNat := by
          rw [List.length_take]; omega
        have hsplit : s.dups.chain = s.dups.chain.take (fl.setIdx - 1).toNat ++
            g :: s.dups.chain.drop ((fl.setIdx - 1).toNat + 1) := by
          rw [← hg, List.cons_getElem_drop_succ, List.take_append_drop]
        simp only [hyes, hlow, hin, and_self, if_true, if_false, or_self, Option.bind_some]
        have := chooseCommand_yields os
          (s := { s with lastFilepath := (getRecentMtime g.files s.lastFilepath).2 })
          hren (hsplit ▸ hwf) hsplit ha fl answers
        rw [hlen, ← hsplit] at this
        exact this

theorem Input.edit_nil (input : Input) : input.edit [] = [] := by
  cases input with
  | exit => rfl
  | blank => rfl
  | cmd argc opts answers => simp [Input.edit, Flags.edit]

theorem deletePrompt_edit (hren : ∀ path target disk, (os.rename path target disk).isSome)
    (hwf : WellFormed s.dups.chain) (input : Input) :
    Yields (deletePrompt os s input) s.dups.chain
      (if s.ended then s.dups.chain else input.edit s.dups.chain) := by
  unfold deletePrompt
  split
  · rename_i h
    have hsame : (if s.ended then s.dups.chain else input.edit s.dups.chain) = s.dups.chain := by
      rcases h with h | h
      · rw [if_pos h]
      · rw [List.eq_nil_of_length_eq_zero h, Input.edit_nil, ite_self]
    exact ⟨s, rfl, hsame.symm, fun _ _ _ => hsame⟩
  · rename_i h
    have hended : ¬ s.ended := fun he => h (.inl he)
    have hclear : Accepted { s with error := none } := fun e he => by cases he
    rw [if_neg hended]
    cases input with
    | exit => exact ⟨_, rfl, rfl, fun _ he => by cases he⟩
    | blank => exact ⟨_, rfl, rfl, fun _ he => by cases he⟩
    | cmd argc opts answers =>
      simp only [Input.edit]
      split
      · exact .rejected
      · exact deleteCommand_edit (s := { s with error := none }) hren hwf hclear _ answers

/-- **The prompt keeps the list of groups consistent.** No helper misses its node, and after every
input the list is well formed and is the list before it with the effect meant. -/
theorem deletePrompt_consistent (os : Os D)
    (hren : ∀ path target disk, (os.rename path target disk).isSome) (dups : DupsList)
    (hwf : WellFormed dups.chain) (lastFilepath : CString) (disk : D) (inputs : List Input)
    (input : Input) :
    ∃ s s', Run.exec? (deletePrompt os) (Prompt.start dups lastFilepath disk) inputs = some s ∧
      Run.exec? (deletePrompt os) (Prompt.start dups lastFilepath disk) (inputs ++ [input]) =
        some s' ∧
      WellFormed s'.dups.chain ∧
      s'.dups.chain = (if s.ended then s.dups.chain else input.edit s.dups.chain) ∧
      ∀ e, s'.error = some e → e.Rejects → s'.dups.chain = s.dups.chain := by
  have hstep : ∀ (t : Prompt D) (a : Input), WellFormed t.dups.chain → ∃ t',
      deletePrompt os t a = some t' ∧ WellFormed t'.dups.chain := by
    intro t a ht
    obtain ⟨t', h, hchain, -⟩ := deletePrompt_edit hren ht a
    refine ⟨t', h, ?_⟩
    rw [hchain]
    split
    · exact ht
    · exact Input.edit_wellFormed ht a
  obtain ⟨s, hs, hwfs⟩ := Run.exec?_invariant (I := fun s => WellFormed s.dups.chain)
    (s := Prompt.start dups lastFilepath disk) hwf hstep inputs
  obtain ⟨s', hs', hchain, herr⟩ := deletePrompt_edit hren hwfs input
  refine ⟨s, s', hs, ?_, ?_, hchain, fun e he hr => ?_⟩
  · rw [Run.exec?_concat, hs, Option.bind_some, hs']
  · obtain ⟨_, h, hwf'⟩ := hstep s input hwfs
    rw [hs'] at h
    cases h
    exact hwf'
  · rw [hchain]; exact herr e he hr

/-! ## A concrete run -/

/-- A disk that is the list of its paths. -/
def pathsOs : Os (List CString) where
  remove path disk := disk.erase path
  rename path target disk := some (target :: disk.erase path)
  access path disk := disk.contains path
  getDirlist dir disk := (disk.filter fun p => dir <+: p).map fun p => p.drop dir.length
  lstat disk path := if disk.contains path then some Stat.zero else none
  now _ := 0
  trashPath := ['/', 't', '/']
  beyondNull := []

def filesAt (paths : List CString) : InfoList := ⟨FileInfo.zeroed, paths.map (⟨·, Stat.zero⟩)⟩

def twoSets : DupsList :=
  ⟨FileList.zeroed, [⟨1, ['h'], filesAt [['/', 'a'], ['/', 'b'], ['/', 'c']]⟩,
    ⟨2, ['k'], filesAt [['/', 'd'], ['/', 'e']]⟩]⟩

/-- `-l 1 -d 2` takes the second path out of the first set. -/
theorem deletePrompt_consistent_second_path :
    ∃ s', Run.exec? (deletePrompt pathsOs) (Prompt.start twoSets [] [['/', 'b']])
        [.cmd 5 [.l 1, .d 2] []] = some s' ∧ WellFormed s'.dups.chain ∧
      s'.dups.chain.map FileList.paths = [[['/', 'a'], ['/', 'c']], [['/', 'd'], ['/', 'e']]] := by
  obtain ⟨s, s', h0, h1, hwf, hedit, -⟩ := deletePrompt_consistent pathsOs (fun _ _ _ => rfl)
    twoSets ⟨by decide, by decide, by decide⟩ [] [['/', 'b']] [] (.cmd 5 [.l 1, .d 2] [])
  cases h0
  exact ⟨s', h1, hwf, by rw [hedit]; decide⟩

end Sfinder
end SsuComputer
