import Mathlib.Data.List.Nodup
import Mathlib.Data.List.Flatten
import SsuComputer.Lib.Run
import SsuComputer.Sdup.FileSets
import SsuComputer.Sdup.Prompt

/-!
# SsuComputer.Sdup.PromptCorrect

Sequences of `d` and `i` commands: the sets and the disk.

* `chosen` — the files that a command names; `remaining` — the sets without them.
* `findPrompter_step` — one command leaves `remaining`, and removes what it chose unless it is a `d`
  command for the first file of a set.
* `inStep_iff` — a run keeps list and disk in step exactly when it has no such command.
-/

namespace SsuComputer
namespace Sdup

/-- The disk as the paths of the files on it. -/
def pathsOs : Os (List CString) where
  remove path disk := disk.filter (· ≠ path)
  rename old new disk :=
    if old ∈ disk then some (new :: disk.filter fun p => p ≠ old ∧ p ≠ new) else none

/-! ## What a command asks for -/

section Asked

variable {D : Type}

def answeredYes : List FileInfo → List CString → List CString
  | info :: list, input :: answers =>
    if isYes input then info.path :: answeredYes list answers else answeredYes list answers
  | _, _ => []

def chosen (s : Prompt D) (a : Input) : List CString :=
  match readCommand a.line with
  | some (.d setIndex listIndex) =>
    (((s.head[setIndex.toNat]?).bind fun set => set.list[listIndex.toNat]?).map
      FileInfo.path).toList
  | some (.i setIndex) =>
    ((s.head[setIndex.toNat]?).map fun set => answeredYes set.list a.answers).getD []
  | _ => []

/-- A `d` or `i` command whose indexes are in range, with an answer for every file it asks about. -/
def Accepted (s : Prompt D) (a : Input) : Prop :=
  match readCommand a.line with
  | some (.d setIndex listIndex) => 0 ≤ setIndex ∧ 0 ≤ listIndex ∧
      ∃ set, s.head[setIndex.toNat]? = some set ∧ listIndex.toNat < set.list.length
  | some (.i setIndex) => 0 ≤ setIndex ∧
      ∃ set, s.head[setIndex.toNat]? = some set ∧ set.list.length ≤ a.answers.length
  | _ => False

def without (gone : List CString) (set : FileListSet) : FileListSet :=
  { set with list := set.list.filter fun info => info.path ∉ gone }

def remaining (s : Prompt D) (a : Input) : List FileListSet :=
  (s.head.map (without (chosen s a))).filter fun set => 2 ≤ set.list.length

def DeletesFirst (a : Input) : Prop := ∃ setIndex, readCommand a.line = some (.d setIndex 0)

def paths (head : List FileListSet) : List CString :=
  head.flatMap fun set => set.list.map FileInfo.path

end Asked

/-! ## Runs -/

section Runs

variable {D : Type} (os : Os D)

def AcceptedRun : Prompt D → List Input → Prop
  | _, [] => True
  | s, a :: as => Accepted s a ∧ ∀ t, findPrompter os s a = some t → AcceptedRun t as

def picked : Prompt D → List Input → List CString
  | _, [] => []
  | s, a :: as =>
    chosen s a ++ ((findPrompter os s a).map fun t => picked t as).getD []

/-- After each command the sets are the previous ones without the chosen files. -/
def SetsFollow : Prompt D → List Input → Prop
  | _, [] => True
  | s, a :: as => ∃ t, findPrompter os s a = some t ∧ t.head = remaining s a ∧ SetsFollow t as

end Runs

/-- The files that are removed from the disk are those picked, and the sets follow. -/
def InStep (s : Prompt (List CString)) (as : List Input) : Prop :=
  ∃ t, Run.exec? (findPrompter pathsOs) s as = some t ∧
    (∀ p ∈ s.disk, p ∉ t.disk ↔ p ∈ picked pathsOs s as) ∧ SetsFollow pathsOs s as

/-! ## The two commands -/

theorem walk_eq {α : Type} {n : Nat} {l : List α} (h : n ≤ l.length) (before : List α) :
    walk n before l = some (before ++ l.take n, l.drop n) := by
  induction n generalizing before l with
  | zero =>
    unfold walk
    rw [List.take_zero, List.append_nil, List.drop_zero]
  | succ n ih =>
    cases l with
    | nil => simp at h
    | cons cur next =>
      unfold walk
      rw [ih (by simpa using h), List.append_assoc, List.take_succ_cons, List.drop_succ_cons]
      rfl

theorem walk_at {α : Type} {l : List α} {n : Int} {x : α} (h : l[n.toNat]? = some x) :
    ∃ pre post, l = pre ++ x :: post ∧ pre.length = n.toNat ∧
      walk n.toNat [] l = some (pre, x :: post) := by
  obtain ⟨hlt, hx⟩ := List.getElem?_eq_some_iff.mp h
  refine ⟨l.take n.toNat, l.drop (n.toNat + 1), ?_, ?_, ?_⟩
  · rw [← hx, List.getElem_cons_drop, List.take_append_drop]
  · rw [List.length_take]
    omega
  · rw [walk_eq (Nat.le_of_lt hlt), List.nil_append, ← hx, List.getElem_cons_drop]

theorem answeredYes_sub {list : List FileInfo} {answers : List CString} {p : CString}
    (h : p ∈ answeredYes list answers) : p ∈ list.map FileInfo.path := by
  induction list generalizing answers with
  | nil => cases h
  | cons info list ih =>
    cases answers with
    | nil => cases h
    | cons input answers =>
      unfold answeredYes at h
      split_ifs at h with hyes
      · rcases List.mem_cons.mp h with rfl | h
        · exact List.mem_cons_self
        · exact List.mem_cons_of_mem _ (ih h)
      · exact List.mem_cons_of_mem _ (ih h)

theorem askFrom_eq (before : List FileInfo) {list : List FileInfo} {answers : List CString}
    (h : list.length ≤ answers.length) (hnd : (list.map FileInfo.path).Nodup)
    (disk : List CString) :
    askFrom pathsOs before list answers disk =
      some (before ++ list.filter fun info => info.path ∉ answeredYes list answers,
        disk.filter (· ∉ answeredYes list answers)) := by
  induction list generalizing before answers disk with
  | nil => simp [askFrom, answeredYes]
  | cons cur next ih =>
    cases answers with
    | nil => simp at h
    | cons input answers =>
      have hle : next.length ≤ answers.length := by simpa using h
      obtain ⟨hcur, hnext⟩ := List.nodup_cons.mp hnd
      unfold askFrom answeredYes
      by_cases hyes : isYes input
      · rw [if_pos hyes, if_pos hyes, ih _ hle hnext]
        have hlist : (cur :: next).filter (fun info =>
            info.path ∉ cur.path :: answeredYes next answers) =
            next.filter fun info => info.path ∉ answeredYes next answers := by
          rw [List.filter_cons_of_neg (by simp)]
          refine List.filter_congr ?_
          intro info hinfo
          have hne : info.path ≠ cur.path := fun heq => hcur (heq ▸ List.mem_map_of_mem hinfo)
          simp [hne]
        have hdisk : (pathsOs.remove cur.path disk).filter (· ∉ answeredYes next answers) =
            disk.filter (· ∉ cur.path :: answeredYes next answers) := by
          show (disk.filter (· ≠ cur.path)).filter (· ∉ answeredYes next answers) = _
          rw [List.filter_filter]
          refine List.filter_congr ?_
          intro p _
          simp [Bool.and_comm]
        rw [hlist, hdisk]
      · rw [if_neg hyes, if_neg hyes, ih _ hle hnext, List.append_assoc]
        have hin : cur.path ∉ answeredYes next answers := fun hmem => hcur (answeredYes_sub hmem)
        rw [List.filter_cons_of_pos (by simpa using hin)]
        rfl

/-- Files of one set are in no other. -/
theorem map_without {pre post : List FileListSet} {set : FileListSet} {gone : List CString}
    (hnd : (paths (pre ++ set :: post)).Nodup) (hgone : ∀ p ∈ gone, p ∈ set.list.map FileInfo.path) :
    (pre ++ set :: post).map (without gone) = pre ++ without gone set :: post := by
  have hsplit : paths (pre ++ set :: post) =
      paths pre ++ (set.list.map FileInfo.path ++ paths post) := by
    unfold paths
    rw [List.flatMap_append, List.flatMap_cons]
  rw [hsplit, List.nodup_append, List.nodup_append] at hnd
  obtain ⟨_, ⟨_, _, hpost⟩, hpre⟩ := hnd
  have hsame : ∀ g : FileListSet, (∀ info ∈ g.list, info.path ∉ gone) → without gone g = g := by
    intro g hg
    unfold without
    rw [List.filter_eq_self.mpr (by simpa using hg)]
  have hall : ∀ l : List FileListSet, (∀ g ∈ l, ∀ info ∈ g.list, info.path ∉ gone) →
      l.map (without gone) = l := by
    intro l hl
    exact (List.map_congr_left fun g hg => hsame g (hl g hg)).trans (List.map_id l)
  have hmem : ∀ l : List FileListSet, ∀ g ∈ l, ∀ info ∈ g.list, info.path ∈ paths l := by
    intro l g hg info hinfo
    exact List.mem_flatMap.mpr ⟨g, hg, List.mem_map_of_mem hinfo⟩
  rw [List.map_append, List.map_cons, hall pre, hall post]
  · intro g hg info hinfo hin
    exact hpost _ (hgone _ hin) _ (hmem post g hg info hinfo) rfl
  · intro g hg info hinfo hin
    exact hpre _ (hmem pre g hg info hinfo) _ (List.mem_append_left _ (hgone _ hin)) rfl

theorem nodup_of_mem {head : List FileListSet} (hnd : (paths head).Nodup) {set : FileListSet}
    (h : set ∈ head) : (set.list.map FileInfo.path).Nodup :=
  (List.nodup_flatMap.mp hnd).1 set h

theorem without_one {passed rest : List FileInfo} {info : FileInfo}
    (hnd : ((passed ++ info :: rest).map FileInfo.path).Nodup) :
    (passed ++ info :: rest).filter (fun x => x.path ∉ [info.path]) = passed ++ rest := by
  rw [List.map_append, List.map_cons, List.nodup_middle, List.nodup_cons, ← List.map_append] at hnd
  have hne : ∀ x ∈ passed ++ rest, x.path ≠ info.path := fun x hx heq =>
    hnd.1 (heq ▸ List.mem_map_of_mem hx)
  rw [List.filter_append, List.filter_cons_of_neg (by simp), ← List.filter_append]
  refine List.filter_eq_self.mpr ?_
  intro x hx
  simpa using hne x hx

section Step

variable {s : Prompt (List CString)} {a : Input}

theorem remaining_eq {pre post : List FileListSet} {set : FileListSet}
    (hhead : s.head = pre ++ set :: post) (hnd : (paths s.head).Nodup)
    (hchosen : ∀ p ∈ chosen s a, p ∈ set.list.map FileInfo.path) :
    remaining s a = removeOnlyOneNode (pre ++ without (chosen s a) set :: post) := by
  unfold remaining removeOnlyOneNode
  rw [removeFrom_eq, List.nil_append, hhead, map_without (hhead ▸ hnd) hchosen]

theorem findPrompter_running {c : Command} (hended : s.ended = false) (hhead : s.head ≠ [])
    (hread : readCommand a.line = some c) :
    findPrompter pathsOs s a = dispatch pathsOs s a.answers c := by
  unfold findPrompter
  rw [if_neg (by simp [hended, hhead]), hread]
  rfl

/-- What one command does: the file that a `d` command unlinks at the front stays on the disk. -/
structure Follows (s : Prompt (List CString)) (a : Input) (t : Prompt (List CString)) : Prop where
  running : t.ended = false
  head : t.head = remaining s a
  chosen_sub : ∀ p ∈ chosen s a, p ∈ paths s.head
  disk : ¬ DeletesFirst a → t.disk = s.disk.filter (· ∉ chosen s a)
  first : DeletesFirst a → t.disk = s.disk ∧ chosen s a ≠ []

theorem mem_paths {head : List FileListSet} {set : FileListSet} (hset : set ∈ head) {p : CString}
    (hp : p ∈ set.list.map FileInfo.path) : p ∈ paths head :=
  List.mem_flatMap.mpr ⟨set, hset, hp⟩

theorem step_d {k l : Int} (hended : s.ended = false) (hnd : (paths s.head).Nodup)
    (hread : readCommand a.line = some (.d k l)) (hacc : Accepted s a) :
    ∃ t, findPrompter pathsOs s a = some t ∧ Follows s a t := by
  unfold Accepted at hacc
  rw [hread] at hacc
  obtain ⟨_, hl, set, hset, hlt⟩ := hacc
  obtain ⟨pre, post, hhead, hpre, hwalk⟩ := walk_at hset
  obtain ⟨passed, rest, hlist, hpassed, hwalk'⟩ :=
    walk_at (List.getElem?_eq_getElem hlt)
  generalize set.list[l.toNat] = info at hlist hwalk'
  have hmem : set ∈ s.head := List.mem_of_getElem? hset
  have hinfo : set.list[l.toNat]? = some info := by
    rw [hlist, List.getElem?_append_right (Nat.le_of_eq hpassed), hpassed, Nat.sub_self]
    rfl
  have hchosen : chosen s a = [info.path] := by
    unfold chosen
    rw [hread]
    simp only [hset, Option.bind_some, hinfo, Option.map_some, Option.toList_some]
  have hin : ∀ p ∈ chosen s a, p ∈ set.list.map FileInfo.path := by
    intro p hp
    rw [hchosen, List.mem_singleton] at hp
    rw [hp, hlist]
    exact List.mem_map_of_mem (by simp)
  have hremain : remaining s a =
      removeOnlyOneNode (pre ++ { set with list := passed ++ rest } :: post) := by
    rw [remaining_eq hhead hnd hin, hchosen]
    have hone := without_one (hlist ▸ nodup_of_mem hnd hmem)
    unfold without
    rw [hlist, hone]
  have hsub : ∀ p ∈ chosen s a, p ∈ paths s.head := fun p hp => mem_paths hmem (hin p hp)
  rw [findPrompter_running hended (by rw [hhead]; simp) hread]
  show ∃ t, (optionD pathsOs s.head k l s.disk).map s.reply = some t ∧ Follows s a t
  unfold optionD getListInSet getInfoInList
  rw [hwalk]
  simp only [hwalk']
  cases passed with
  | nil =>
    have hfirst : DeletesFirst a := by
      refine ⟨k, ?_⟩
      rw [hread]
      have : l = 0 := by
        rw [List.length_nil] at hpassed
        omega
      rw [this]
    refine ⟨_, rfl, hended, hremain.symm, hsub, ?_, ?_⟩
    · intro hnot
      exact absurd hfirst hnot
    · intro _
      refine ⟨rfl, ?_⟩
      rw [hchosen]
      exact List.cons_ne_nil _ _
  | cons x xs =>
    have hnot : ¬ DeletesFirst a := by
      rintro ⟨k', hk'⟩
      rw [hread] at hk'
      cases hk'
      simp at hpassed
    refine ⟨_, rfl, hended, hremain.symm, hsub, ?_, ?_⟩
    · intro _
      rw [hchosen]
      show s.disk.filter (· ≠ info.path) = _
      refine List.filter_congr ?_
      intro p _
      simp
    · intro hfirst
      exact absurd hfirst hnot

theorem step_i {k : Int} (hended : s.ended = false) (hnd : (paths s.head).Nodup)
    (hread : readCommand a.line = some (.i k)) (hacc : Accepted s a) :
    ∃ t, findPrompter pathsOs s a = some t ∧ Follows s a t := by
  unfold Accepted at hacc
  rw [hread] at hacc
  obtain ⟨_, set, hset, hanswers⟩ := hacc
  obtain ⟨pre, post, hhead, hpre, hwalk⟩ := walk_at hset
  have hmem : set ∈ s.head := List.mem_of_getElem? hset
  have hchosen : chosen s a = answeredYes set.list a.answers := by
    unfold chosen
    rw [hread]
    simp only [hset, Option.map_some, Option.getD_some]
  have hin : ∀ p ∈ chosen s a, p ∈ set.list.map FileInfo.path := by
    intro p hp
    rw [hchosen] at hp
    exact answeredYes_sub hp
  have hnot : ¬ DeletesFirst a := by
    rintro ⟨k', hk'⟩
    rw [hread] at hk'
    cases hk'
  have hremain := remaining_eq hhead hnd hin
  rw [findPrompter_running hended (by rw [hhead]; simp) hread]
  show ∃ t, (optionI pathsOs s.head k a.answers s.disk).map s.reply = some t ∧ Follows s a t
  unfold optionI getListInSet
  rw [hwalk]
  simp only [askFrom_eq [] hanswers (nodup_of_mem hnd hmem), ← hchosen]
  refine ⟨_, rfl, hended, hremain.symm, fun p hp => mem_paths hmem (hin p hp), ?_, ?_⟩
  · intro _
    rfl
  · intro hfirst
    exact absurd hfirst hnot

theorem findPrompter_step (hended : s.ended = false) (hnd : (paths s.head).Nodup)
    (hacc : Accepted s a) : ∃ t, findPrompter pathsOs s a = some t ∧ Follows s a t := by
  cases hread : readCommand a.line with
  | none =>
    unfold Accepted at hacc
    rw [hread] at hacc
    exact hacc.elim
  | some c =>
    cases c with
    | d k l => exact step_d hended hnd hread hacc
    | i k => exact step_i hended hnd hread hacc
    | exit | usage | f | t | other =>
      unfold Accepted at hacc
      rw [hread] at hacc
      exact hacc.elim

end Step

/-! ## Whole runs -/

theorem exec?_cons {s t : Prompt (List CString)} {a : Input} (h : findPrompter pathsOs s a = some t)
    (as : List Input) :
    Run.exec? (findPrompter pathsOs) s (a :: as) = Run.exec? (findPrompter pathsOs) t as := by
  unfold Run.exec?
  rw [Run.exec_cons, Option.bind_some, h]

theorem paths_remaining {s : Prompt (List CString)} {a : Input} :
    (paths (remaining s a)).Sublist ((paths s.head).filter (· ∉ chosen s a)) := by
  have hfilter : ∀ head : List FileListSet,
      paths (head.map (without (chosen s a))) = (paths head).filter (· ∉ chosen s a) := by
    intro head
    induction head with
    | nil => rfl
    | cons set head ih =>
      unfold paths at ih ⊢
      rw [List.map_cons, List.flatMap_cons, ih, List.flatMap_cons, List.filter_append,
        List.filter_map]
      rfl
  rw [← hfilter]
  exact List.filter_sublist.flatMap _

structure Listed (s : Prompt (List CString)) : Prop where
  running : s.ended = false
  distinct : (paths s.head).Nodup
  existing : ∀ p ∈ paths s.head, p ∈ s.disk

theorem Follows.paths_sub {s t : Prompt (List CString)} {a : Input} (h : Follows s a t) {p : CString}
    (hp : p ∈ paths t.head) : p ∈ paths s.head ∧ p ∉ chosen s a := by
  rw [h.head] at hp
  simpa using paths_remaining.subset hp

theorem Follows.mem_disk {s t : Prompt (List CString)} {a : Input} (h : Follows s a t) {p : CString}
    (hp : p ∈ s.disk) (hnot : p ∉ chosen s a) : p ∈ t.disk := by
  by_cases hfirst : DeletesFirst a
  · rw [(h.first hfirst).1]
    exact hp
  · rw [h.disk hfirst]
    simpa using ⟨hp, hnot⟩

theorem Follows.listed {s t : Prompt (List CString)} {a : Input} (h : Follows s a t)
    (hs : Listed s) : Listed t := by
  refine ⟨h.running, ?_, ?_⟩
  · rw [h.head]
    exact (hs.distinct.filter _).sublist paths_remaining
  · intro p hp
    obtain ⟨hold, hnot⟩ := h.paths_sub hp
    exact h.mem_disk (hs.existing p hold) hnot

theorem Follows.disk_sub {s t : Prompt (List CString)} {a : Input} (h : Follows s a t) {p : CString}
    (hp : p ∈ t.disk) : p ∈ s.disk := by
  by_cases hfirst : DeletesFirst a
  · rw [(h.first hfirst).1] at hp
    exact hp
  · rw [h.disk hfirst] at hp
    exact (List.mem_filter.mp hp).1

theorem picked_cons {s t : Prompt (List CString)} {a : Input}
    (h : findPrompter pathsOs s a = some t) (as : List Input) :
    picked pathsOs s (a :: as) = chosen s a ++ picked pathsOs t as := by
  conv_lhs => unfold picked
  rw [h]
  rfl

/-- What holds of every run from `s` by `as` to `t`. -/
structure RunFollows (s : Prompt (List CString)) (as : List Input) (t : Prompt (List CString)) :
    Prop where
  run : Run.exec? (findPrompter pathsOs) s as = some t
  sets : SetsFollow pathsOs s as
  picked_sub : ∀ p ∈ picked pathsOs s as, p ∈ paths s.head
  disk_sub : ∀ p ∈ t.disk, p ∈ s.disk
  mem_disk : ∀ p ∈ s.disk, p ∉ picked pathsOs s as → p ∈ t.disk

theorem run_follows {s : Prompt (List CString)} (hs : Listed s) {as : List Input}
    (hacc : AcceptedRun pathsOs s as) : ∃ t, RunFollows s as t := by
  induction as generalizing s with
  | nil =>
    refine ⟨s, rfl, trivial, ?_, fun p hp => hp, fun p hp _ => hp⟩
    intro p hp
    cases hp
  | cons a as ih =>
    obtain ⟨ha, hrest⟩ := hacc
    obtain ⟨t, hstep, hfol⟩ := findPrompter_step hs.running hs.distinct ha
    obtain ⟨u, hu⟩ := ih (hfol.listed hs) (hrest t hstep)
    refine ⟨u, by rw [exec?_cons hstep, hu.run], ⟨t, hstep, hfol.head, hu.sets⟩, ?_, ?_, ?_⟩
    · intro p hp
      rw [picked_cons hstep] at hp
      rcases List.mem_append.mp hp with hp | hp
      · exact hfol.chosen_sub p hp
      · exact (hfol.paths_sub (hu.picked_sub p hp)).1
    · intro p hp
      exact hfol.disk_sub (hu.disk_sub p hp)
    · intro p hp hnot
      rw [picked_cons hstep, List.mem_append, not_or] at hnot
      exact hu.mem_disk p (hfol.mem_disk hp hnot.1) hnot.2

/-- By induction on the run; what a later command picks is not what an earlier one picked. -/
theorem removed_iff {s : Prompt (List CString)} (hs : Listed s) {as : List Input}
    (hacc : AcceptedRun pathsOs s as) {u : Prompt (List CString)} (hu : RunFollows s as u) :
    (∀ p ∈ picked pathsOs s as, p ∉ u.disk) ↔ ∀ a ∈ as, ¬ DeletesFirst a := by
  induction as generalizing s with
  | nil => simp [picked]
  | cons a as ih =>
    obtain ⟨ha, hrest⟩ := hacc
    obtain ⟨t, hstep, hfol⟩ := findPrompter_step hs.running hs.distinct ha
    have ht := hfol.listed hs
    obtain ⟨u', hu'⟩ := run_follows ht (hrest t hstep)
    obtain rfl : u' = u := by
      have hrun := hu.run
      rw [exec?_cons hstep, hu'.run] at hrun
      exact Option.some.inj hrun
    have hlater := ih ht (hrest t hstep) hu'
    rw [picked_cons hstep, List.forall_mem_cons]
    constructor
    · intro h
      refine ⟨?_, hlater.mp fun p hp => h p (List.mem_append_right _ hp)⟩
      intro hfirst
      -- the file stays on the disk, and no list holds it any more
      obtain ⟨hdisk, hne⟩ := hfol.first hfirst
      obtain ⟨p, hp⟩ := List.exists_mem_of_ne_nil _ hne
      have hin : p ∈ t.disk := by
        rw [hdisk]
        exact hs.existing p (hfol.chosen_sub p hp)
      refine h p (List.mem_append_left _ hp) (hu'.mem_disk p hin ?_)
      intro hpicked
      exact (hfol.paths_sub (hu'.picked_sub p hpicked)).2 hp
    · rintro ⟨hnot, hothers⟩ p hp
      rcases List.mem_append.mp hp with hp | hp
      · intro hin
        have hin' := hu'.disk_sub p hin
        rw [hfol.disk hnot] at hin'
        simp [hp] at hin'
      · exact hlater.mpr hothers p hp

/-- Whatever is listed at first, list and disk stay in step in a run of accepted commands exactly
when no `d` command of it is for the first file of a set. -/
theorem inStep_iff (head : List FileListSet) (disk : List CString) (inputs : List Input)
    (hdistinct : (paths head).Nodup) (hexisting : ∀ p ∈ paths head, p ∈ disk)
    (hacc : AcceptedRun pathsOs ⟨head, disk, false⟩ inputs) :
    InStep ⟨head, disk, false⟩ inputs ↔ ∀ a ∈ inputs, ¬ DeletesFirst a := by
  have hs : Listed ⟨head, disk, false⟩ := ⟨rfl, hdistinct, hexisting⟩
  obtain ⟨t, ht⟩ := run_follows hs hacc
  rw [← removed_iff hs hacc ht]
  constructor
  · rintro ⟨t', hrun, hdisk, _⟩ p hp
    rw [ht.run] at hrun
    cases hrun
    exact (hdisk p (hexisting p (ht.picked_sub p hp))).mpr hp
  · intro h
    refine ⟨t, ht.run, ?_, ht.sets⟩
    intro p hp
    constructor
    · intro hnot
      by_contra hpicked
      exact hnot (ht.mem_disk p hp hpicked)
    · exact h p

/-- A set of three files `a`, `b` and `c`, all on the disk. -/
def threeFiles : FileListSet :=
  ⟨[⟨['a'], 0, []⟩, ⟨['b'], 0, []⟩, ⟨['c'], 0, []⟩], 1, ['h']⟩

/-- `1 d 2`, then `1 i` with the answers `n` and `y`. -/
theorem inStep_two_commands :
    InStep ⟨[threeFiles], [['a'], ['b'], ['c']], false⟩
      [⟨['1', ' ', 'd', ' ', '2', '\n'], []⟩,
        ⟨['1', ' ', 'i', '\n'], [['n', '\n'], ['y', '\n']]⟩] := by
  refine (inStep_iff [threeFiles] [['a'], ['b'], ['c']]
    [⟨['1', ' ', 'd', ' ', '2', '\n'], []⟩,
      ⟨['1', ' ', 'i', '\n'], [['n', '\n'], ['y', '\n']]⟩] (by decide) (by decide) ?_).mpr ?_
  · refine ⟨⟨by decide, by decide, threeFiles, rfl, by decide⟩, ?_⟩
    intro t ht
    cases ht
    exact ⟨⟨by decide, _, rfl, by decide⟩, fun _ _ => trivial⟩
  · intro a ha
    rintro ⟨k, hk⟩
    rcases List.mem_pair.mp ha with rfl | rfl
    · cases hk
    · cases hk

/-- `1 d 1` takes `a` from the list and leaves it on the disk. -/
theorem first_file_stays :
    ¬ InStep ⟨[threeFiles], [['a'], ['b'], ['c']], false⟩
      [⟨['1', ' ', 'd', ' ', '1', '\n'], []⟩] := by
  rintro ⟨t, hrun, hdisk, _⟩
  cases hrun
  exact ((hdisk ['a'] List.mem_cons_self).mpr List.mem_cons_self) List.mem_cons_self

end Sdup
end SsuComputer
