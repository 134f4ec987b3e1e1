import SsuComputer.Lib.Moves
import SsuComputer.Sdup.PromptCorrect

/-!
# SsuComputer.Sdup.TrashCopies

What option t leaves of a set and of the trash.

* `Files` — what each name of each directory is for; `Places` — where the paths lead to.
* `dropOthers_run` — the loop makes the moves of `Plan.run`: from the place of a file to its own name
  in the trash.
* `optionFt_losesNothing_iff` — so nothing is lost exactly when every `rename` works, and the names
  in the trash are free and distinct.
-/

namespace SsuComputer
namespace Sdup

/-- An entry: a file by its number, which other entries may have too, or a directory. -/
inductive Stored
  | file (i : Nat)
  | dir
  deriving DecidableEq

/-- A directory and a name in it. -/
abbrev Slot := Nat × CString

abbrev Files := Slot → Option Stored

/-- The directories that paths lead to, which no move of a file changes, and the pairs of paths that
`rename` refuses, as for a trash on another file system. -/
structure Places where
  dirOf : CString → Nat
  trash : Nat
  refuses : CString → CString → Bool
  dirOf_trash : ∀ name, '/' ∉ name → dirOf (trashCanPath ++ '/' :: name) = trash

namespace Places

variable (w : Places)

def entryOf (path : CString) : Slot := (w.dirOf path, extractName path)

/-- `rename` of a file. It does nothing when both names are for one file. -/
def rename (oldPath newPath : CString) (k : Files) : Option Files :=
  if w.refuses oldPath newPath then none
  else
    match k (w.entryOf oldPath), k (w.entryOf newPath) with
    | some (.file i), some (.file j) =>
      if i = j then some k
      else some (Function.update (Function.update k (w.entryOf oldPath) none) (w.entryOf newPath)
        (some (.file i)))
    | some (.file i), none =>
      some (Function.update (Function.update k (w.entryOf oldPath) none) (w.entryOf newPath)
        (some (.file i)))
    | _, _ => none

def remove (path : CString) (k : Files) : Files :=
  match k (w.entryOf path) with
  | some (.file _) => Function.update k (w.entryOf path) none
  | _ => k

def os : Os Files := ⟨w.remove, w.rename⟩

/-- The name of a file in the trash. -/
def inTrash (f : FileInfo) : Slot := (w.trash, extractName f.path)

/-- The `rename` of the file fails. -/
def fails (k : Files) (f : FileInfo) : Bool :=
  w.refuses f.path (trashCanPath ++ '/' :: extractName f.path) || k (w.inTrash f) = some .dir

end Places

/-- Distinct regular files. -/
structure SetOfFiles (w : Places) (k : Files) (list : List FileInfo) : Prop where
  regular : ∀ f ∈ list, ∃ i, k (w.entryOf f.path) = some (.file i)
  distinct : list.Pairwise fun f g => k (w.entryOf f.path) ≠ k (w.entryOf g.path)

/-- The files are in the trash under names of their own, what was there still is, and a file that
could not be moved is where it was. -/
structure LosesNothing (w : Places) (k k' : Files) (list : List FileInfo) : Prop where
  stored : ∃ name : FileInfo → CString,
    (∀ f ∈ list, w.fails k f = false → k' (w.trash, name f) = k (w.entryOf f.path)) ∧
    ∀ f ∈ list, ∀ g ∈ list, w.fails k f = false → w.fails k g = false → name f = name g → f = g
  before : ∀ name x, k (w.trash, name) = some x → k' (w.trash, name) = some x
  intact : ∀ f ∈ list, w.fails k f = true → k' (w.entryOf f.path) = k (w.entryOf f.path)

/-- No `rename` fails, and the name of each file is not in the trash, or there it is a name of one of
the files that it belongs to. Of two files with one name the second does not lie in the trash, and
the first has another name there. -/
structure NoCollision (w : Places) (k : Files) (list : List FileInfo) : Prop where
  works : ∀ f ∈ list, w.fails k f = false
  free : ∀ f ∈ list, k (w.inTrash f) = none ∨
    ∃ g ∈ list, extractName g.path = extractName f.path ∧ k (w.inTrash f) = k (w.entryOf g.path)
  apart : list.Pairwise fun f g => extractName f.path = extractName g.path →
    w.entryOf g.path ≠ w.inTrash g ∧ k (w.inTrash f) ≠ k (w.entryOf f.path) ∧
      ∃ name, k (w.trash, name) = k (w.entryOf f.path)

/-! ## The loop -/

theorem foldl_zipIdx_skip {D : Type} (act : D → FileInfo → D) (list : List FileInfo) (current n : Nat)
    (disk : D) :
    (list.zipIdx n).foldl (fun disk x => if x.2 = n + current then disk else act disk x.1) disk =
      (list.eraseIdx current).foldl act disk := by
  induction list generalizing current n disk with
  | nil => rfl
  | cons f list ih =>
    rw [List.zipIdx_cons, List.foldl_cons]
    cases current with
    | zero =>
      rw [if_pos (Nat.add_zero n).symm, List.eraseIdx_zero, List.tail_cons]
      -- no later index is that of the first file
      have hlater : ∀ m, n < m → ∀ (disk : D), (list.zipIdx m).foldl
          (fun disk x => if x.2 = n + 0 then disk else act disk x.1) disk = list.foldl act disk := by
        intro m
        clear ih
        induction list generalizing m with
        | nil => exact fun _ _ => rfl
        | cons g list ih =>
          intro hm disk
          rw [List.zipIdx_cons, List.foldl_cons, List.foldl_cons]
          have hne : m ≠ n + 0 := Nat.ne_of_gt hm
          simp only [hne, if_false]
          exact ih (m + 1) (Nat.lt_succ_of_lt hm) _
      exact hlater (n + 1) (Nat.lt_succ_self n) disk
    | succ current =>
      have hne : n ≠ n + (current + 1) := by omega
      rw [List.eraseIdx_cons_succ, List.foldl_cons]
      simp only [hne, if_false]
      rw [← ih current (n + 1) (act disk f)]
      have hindex : n + (current + 1) = n + 1 + current := by omega
      rw [hindex]

theorem dropOthers_eq {D : Type} (os : Os D) (current : Nat) (list : List FileInfo) (disk : D) :
    dropOthers os true current list disk =
      (list.eraseIdx current).foldl (fun disk f => moveTrash os f.path disk) disk := by
  rw [← foldl_zipIdx_skip _ list current 0 disk]
  simp only [dropOthers, if_true, Nat.zero_add]

theorem extractName_no_slash (path : CString) : '/' ∉ extractName path := by
  rw [extractName]
  split
  · rename_i hr
    exact (strrchr_eq_some hr).2
  · rename_i hr
    intro hmem
    obtain ⟨before, after, hsome, -⟩ := strrchr_append_of_mem hmem []
    rw [hr] at hsome
    cases hsome

theorem Places.entryOf_trash (w : Places) (f : FileInfo) :
    w.entryOf (trashCanPath ++ '/' :: extractName f.path) = w.inTrash f := by
  have hname : extractName (trashCanPath ++ '/' :: extractName f.path) = extractName f.path := by
    have hslash : '/' ∈ '/' :: extractName f.path := List.mem_cons_self
    obtain ⟨before, after, hr, happ⟩ := strrchr_append_of_mem hslash trashCanPath
    rw [strrchr, strrchr_of_not_mem (extractName_no_slash f.path), if_pos rfl] at hr
    cases hr
    rw [extractName, happ]
  rw [Places.entryOf, w.dirOf_trash _ (extractName_no_slash f.path), hname]
  rfl

section Run

variable (w : Places) (k : Files)

def plan : Plan FileInfo Slot Stored where
  source f := w.entryOf f.path
  target := w.inTrash
  thing f := (k (w.entryOf f.path)).getD .dir
  fails := w.fails k

variable {w k} {list : List FileInfo}

theorem SetOfFiles.thing (h : SetOfFiles w k list) {f : FileInfo} (hf : f ∈ list) :
    ∃ i, k (w.entryOf f.path) = some (.file i) ∧ (plan w k).thing f = .file i := by
  obtain ⟨i, hi⟩ := h.regular f hf
  exact ⟨i, hi, congrArg (fun o => Option.getD o Stored.dir) hi⟩

theorem SetOfFiles.source (h : SetOfFiles w k list) {f : FileInfo} (hf : f ∈ list) :
    k (w.entryOf f.path) = some ((plan w k).thing f) := by
  obtain ⟨i, hi, hthing⟩ := h.thing hf
  rw [hi, hthing]

theorem SetOfFiles.ready (h : SetOfFiles w k list) :
    (plan w k).Ready (fun e => e.1 = w.trash) k list where
  source := fun f hf => h.source hf
  target := fun _ _ => rfl
  inside := fun f _ hdir => Prod.ext hdir rfl
  distinct := by
    refine h.distinct.imp_of_mem fun {f g} hf hg hne heq => hne ?_
    rw [h.source hf, h.source hg, heq]

theorem SetOfFiles.tail {f : FileInfo} (h : SetOfFiles w k (f :: list)) : SetOfFiles w k list where
  regular := fun g hg => h.regular g (List.mem_cons_of_mem _ hg)
  distinct := (List.pairwise_cons.mp h.distinct).2

/-- Between two moves, with the files `rest` to go. -/
structure Midway (w : Places) (k : Files) (rest : List FileInfo) (k' : Files) : Prop where
  file : ∀ f ∈ rest, ∃ i, k' (w.entryOf f.path) = some (.file i)
  source : ∀ f ∈ rest, w.entryOf f.path ≠ w.inTrash f →
    k' (w.entryOf f.path) = some ((plan w k).thing f)
  dirs : ∀ name, k' (w.trash, name) = some .dir ↔ k (w.trash, name) = some .dir

theorem SetOfFiles.midway (h : SetOfFiles w k list) : Midway w k list k where
  file := h.regular
  source := fun _ hf _ => h.source hf
  dirs := fun _ => Iff.rfl

theorem moveTrash_eq {D : Type} (os : Os D) (path : CString) (disk : D) :
    moveTrash os path disk =
      (os.rename path (trashCanPath ++ '/' :: extractName path) disk).getD (os.remove path disk) := by
  rw [moveTrash]
  cases os.rename path (trashCanPath ++ '/' :: extractName path) disk <;> rfl

theorem Midway.rename {k' : Files} {f : FileInfo} (h : SetOfFiles w k (f :: list))
    (hm : Midway w k (f :: list) k') :
    w.rename f.path (trashCanPath ++ '/' :: extractName f.path) k' =
      if w.fails k f then none else some ((plan w k).move k' f) := by
  obtain ⟨i, hi⟩ := hm.file f List.mem_cons_self
  obtain ⟨j, -, hthing⟩ := h.thing List.mem_cons_self
  have hdirs : k' (w.inTrash f) = some .dir ↔ k (w.inTrash f) = some .dir := hm.dirs _
  rw [Places.rename, w.entryOf_trash, hi]
  by_cases hrefuses : w.refuses f.path (trashCanPath ++ '/' :: extractName f.path) = true
  · have hfails : w.fails k f = true := by rw [Places.fails, hrefuses, Bool.true_or]
    rw [if_pos hrefuses, if_pos hfails]
  · rw [if_neg hrefuses]
    rw [Bool.not_eq_true] at hrefuses
    by_cases hdir : k (w.inTrash f) = some .dir
    · have hfails : w.fails k f = true := by
        rw [Places.fails, hrefuses, Bool.false_or, decide_eq_true hdir]
      rw [if_pos hfails, hdirs.mpr hdir]
    · have hfails : w.fails k f = false := by
        rw [Places.fails, hrefuses, Bool.false_or, decide_eq_false hdir]
      have hdir' : k' (w.inTrash f) ≠ some .dir := fun hk => hdir (hdirs.mp hk)
      rw [if_neg (by rw [hfails]; exact Bool.false_ne_true)]
      by_cases hst : w.entryOf f.path = w.inTrash f
      · rw [← hst, hi, Plan.move_stays hfails (.inl hst)]
        dsimp only
        rw [if_pos rfl]
      · have hsource := hm.source f List.mem_cons_self hst
        rw [hi, hthing, Option.some_inj, Stored.file.injEq] at hsource
        rw [← hsource] at hthing
        have hmove : k' (w.inTrash f) ≠ some (.file i) → (plan w k).move k' f =
            Function.update (Function.update k' (w.entryOf f.path) none) (w.inTrash f)
              (some (.file i)) := by
          rw [← hthing]
          exact fun hk => Plan.move_moves (p := plan w k) hfails hst hk
        cases hnode : k' (w.inTrash f) with
        | none => rw [hmove (by rw [hnode]; exact (Option.some_ne_none _).symm)]
        | some node =>
          cases node with
          | dir => exact absurd hnode hdir'
          | file m =>
            dsimp only
            by_cases him : i = m
            · -- both names are for the file
              have hlink : k' (w.inTrash f) = some ((plan w k).thing f) := by rw [hnode, hthing, him]
              rw [if_pos him, Plan.move_stays hfails (.inr hlink)]
            · rw [if_neg him, hmove fun heq => him (by simpa [hnode] using heq.symm)]

theorem Midway.moveTrash {k' : Files} {f : FileInfo} (h : SetOfFiles w k (f :: list))
    (hm : Midway w k (f :: list) k') : moveTrash w.os f.path k' = (plan w k).move k' f := by
  have hrename : w.os.rename f.path (trashCanPath ++ '/' :: extractName f.path) k' =
      if w.fails k f then none else some ((plan w k).move k' f) := hm.rename h
  obtain ⟨i, hi⟩ := hm.file f List.mem_cons_self
  rw [moveTrash_eq, hrename]
  by_cases hfails : w.fails k f = true
  · have hremove : w.os.remove f.path k' = Function.update k' (w.entryOf f.path) none := by
      show w.remove f.path k' = _
      rw [Places.remove, hi]
    have hmove : (plan w k).move k' f = Function.update k' (w.entryOf f.path) none :=
      Plan.move_fails hfails
    rw [if_pos hfails, Option.getD_none, hremove, hmove]
  · rw [if_neg hfails, Option.getD_some]

/-- A move neither makes nor takes away a directory of the trash. -/
theorem Midway.next_dirs {k' : Files} {f : FileInfo} (h : SetOfFiles w k (f :: list))
    (hm : Midway w k (f :: list) k') (name : CString) :
    (plan w k).move k' f (w.trash, name) = some .dir ↔ k (w.trash, name) = some .dir := by
  obtain ⟨i, hi⟩ := hm.file f List.mem_cons_self
  obtain ⟨j, -, hthing⟩ := h.thing List.mem_cons_self
  constructor
  · intro hdir
    by_contra hno
    refine Plan.move_ne (fun hk => hno ((hm.dirs name).mp hk)) (fun _ _ _ heq => ?_) hdir
    rw [hthing] at heq
    cases heq
  · intro hk
    have hdir := (hm.dirs name).mpr hk
    have hsource : (w.trash, name) ≠ w.entryOf f.path := by
      intro heq
      rw [heq, hi] at hdir
      cases hdir
    by_cases hfails : w.fails k f = true
    · have hmove : (plan w k).move k' f = Function.update k' (w.entryOf f.path) none :=
        Plan.move_fails hfails
      rw [hmove, Function.update_of_ne hsource]
      exact hdir
    · have htarget : (w.trash, name) ≠ w.inTrash f := by
        intro heq
        rw [heq] at hk
        exact hfails (by rw [Places.fails, decide_eq_true hk, Bool.or_true])
      exact (Plan.move_of_ne hsource htarget).trans hdir

theorem Midway.next {k' : Files} {f : FileInfo} (h : SetOfFiles w k (f :: list))
    (hm : Midway w k (f :: list) k') : Midway w k list ((plan w k).move k' f) := by
  have hready := h.ready
  have hthings : ∀ g ∈ list, (plan w k).thing f ≠ (plan w k).thing g :=
    (List.pairwise_cons.mp hready.distinct).1
  have hsources : ∀ g ∈ list, w.entryOf g.path ≠ w.entryOf f.path := by
    intro g hg heq
    have hsource := h.source (List.mem_cons_of_mem _ hg)
    rw [heq, h.source List.mem_cons_self] at hsource
    exact hthings g hg (Option.some.inj hsource)
  -- outside of the trash nothing but the own move takes place
  have houtside : ∀ g ∈ list, w.entryOf g.path ≠ w.inTrash g → w.entryOf g.path ≠ w.inTrash f :=
    fun g hg hne heq => hne (hready.inside g (List.mem_cons_of_mem _ hg) (congrArg Prod.fst heq))
  obtain ⟨j, -, hthing⟩ := h.thing List.mem_cons_self
  constructor
  · intro g hg
    obtain ⟨m, hm'⟩ := hm.file g (List.mem_cons_of_mem _ hg)
    by_cases htarget : w.entryOf g.path = w.inTrash f
    · rw [Plan.move]
      split
      · exact ⟨m, (Function.update_of_ne (hsources g hg) _ _).trans hm'⟩
      · split
        · exact ⟨m, hm'⟩
        · refine ⟨j, ?_⟩
          rw [htarget, ← hthing]
          exact Function.update_self _ _ _
    · exact ⟨m, (Plan.move_of_ne (hsources g hg) htarget).trans hm'⟩
  · intro g hg hne
    exact (Plan.move_of_ne (hsources g hg) (houtside g hg hne)).trans
      (hm.source g (List.mem_cons_of_mem _ hg) hne)
  · exact hm.next_dirs h

theorem foldl_moveTrash (rest : List FileInfo) (h : SetOfFiles w k rest) {k' : Files}
    (hm : Midway w k rest k') :
    rest.foldl (fun k f => Sdup.moveTrash w.os f.path k) k' = (plan w k).run k' rest := by
  induction rest generalizing k' with
  | nil => rfl
  | cons f rest ih =>
    rw [List.foldl_cons, hm.moveTrash h]
    exact ih h.tail (hm.next h)

/-- The loop of option t makes the moves of the plan. -/
theorem dropOthers_run {files : List FileInfo} {current : Nat}
    (h : SetOfFiles w k (files.eraseIdx current)) :
    dropOthers w.os true current files k = (plan w k).run k (files.eraseIdx current) := by
  rw [dropOthers_eq]
  exact foldl_moveTrash _ h h.midway

/-! ## Losses -/

theorem losesNothing_iff_lossless (h : SetOfFiles w k list) {k' : Files} :
    LosesNothing w k k' list ↔ (plan w k).Lossless (fun e => e.1 = w.trash) k k' list := by
  constructor
  · rintro ⟨⟨name, hname, -⟩, hbefore, hintact⟩
    refine ⟨fun f hf hfails => ⟨(w.trash, name f), rfl, ?_⟩, ?_, fun f hf hfails => ?_⟩
    · exact (hname f hf hfails).trans (h.source hf)
    · rintro ⟨dir, n⟩ x rfl hx
      exact hbefore n x hx
    · exact (hintact f hf hfails).trans (h.source hf)
  · rintro ⟨hstored, hbefore, hintact⟩
    have hname : ∀ f, ∃ n, f ∈ list → w.fails k f = false →
        k' (w.trash, n) = k (w.entryOf f.path) := by
      intro f
      by_cases hf : f ∈ list ∧ w.fails k f = false
      · obtain ⟨⟨dir, n⟩, rfl, hn⟩ := hstored f hf.1 hf.2
        exact ⟨n, fun _ _ => hn.trans (h.source hf.1).symm⟩
      · exact ⟨[], fun h1 h2 => absurd ⟨h1, h2⟩ hf⟩
    choose name hname using hname
    refine ⟨⟨name, hname, fun f hf g hg hff hfg heq => ?_⟩, fun n x hx => hbefore _ x rfl hx,
      fun f hf hfails => (hintact f hf hfails).trans (h.source hf).symm⟩
    -- one name has one file
    have hf' := hname f hf hff
    rw [heq, hname g hg hfg, h.source hf, h.source hg] at hf'
    exact h.ready.eq_of_thing hf hg (Option.some.inj hf').symm

theorem inTrash_eq_iff {f g : FileInfo} :
    w.inTrash f = w.inTrash g ↔ extractName f.path = extractName g.path := by
  rw [Places.inTrash, Places.inTrash, Prod.mk.injEq, and_iff_right rfl]

theorem noCollision_iff_free (h : SetOfFiles w k list) :
    NoCollision w k list ↔ (plan w k).Free (fun e => e.1 = w.trash) k list := by
  have hfree : ∀ f, (∃ g ∈ list, extractName g.path = extractName f.path ∧
      k (w.inTrash f) = k (w.entryOf g.path)) ↔ ∃ g ∈ list, w.inTrash g = w.inTrash f ∧
      k (w.inTrash f) = some ((plan w k).thing g) := fun f =>
    exists_congr fun g => and_congr_right fun hg => by rw [inTrash_eq_iff, h.source hg]
  have hapart : (list.Pairwise fun f g => extractName f.path = extractName g.path →
      w.entryOf g.path ≠ w.inTrash g ∧ k (w.inTrash f) ≠ k (w.entryOf f.path) ∧
        ∃ name, k (w.trash, name) = k (w.entryOf f.path)) ↔
      list.Pairwise fun f g => w.inTrash f = w.inTrash g → w.entryOf g.path ≠ w.inTrash g ∧
        k (w.inTrash f) ≠ some ((plan w k).thing f) ∧
          ∃ e : Slot, e.1 = w.trash ∧ k e = some ((plan w k).thing f) := by
    refine List.Pairwise.iff_of_mem fun {f g} hf _ => ?_
    rw [inTrash_eq_iff, h.source hf, Prod.exists]
    simp
  exact ⟨fun hl => ⟨hl.works, fun f hf => (hl.free f hf).imp_right (hfree f).mp, hapart.mp hl.apart⟩,
    fun hl => ⟨hl.works, fun f hf => (hl.free f hf).imp_right (hfree f).mpr, hapart.mpr hl.apart⟩⟩

end Run

theorem SetOfFiles.sublist {w : Places} {k : Files} {list list' : List FileInfo}
    (h : SetOfFiles w k list) (hsub : list'.Sublist list) : SetOfFiles w k list' where
  regular := fun f hf => h.regular f (hsub.subset hf)
  distinct := h.distinct.sublist hsub

/-- **Option t loses nothing** exactly when every `rename` works, what has the name of a file in the
trash is a file that goes there, and a file that another is put over is there under a further name. -/
theorem optionFt_losesNothing_iff (w : Places) (k : Files) (head : List FileListSet) (setIndex : Int)
    (set : FileListSet) (hset : head[setIndex.toNat]? = some set) (hlength : 2 ≤ set.list.length)
    (hfiles : SetOfFiles w k set.list) :
    ∃ current r, getCurrentFile set.list = some current ∧
      optionFt w.os head setIndex true k = some r ∧ r.code = 0 ∧
      (LosesNothing w k r.disk (set.list.eraseIdx current.1) ↔
        NoCollision w k (set.list.eraseIdx current.1)) := by
  obtain ⟨pre, post, rfl, -, hwalk⟩ := walk_at hset
  have hcurrent : ∃ current, getCurrentFile set.list = some current := by
    cases hlist : set.list with
    | nil => rw [hlist] at hlength; cases hlength
    | cons f list => exact ⟨_, rfl⟩
  obtain ⟨current, hcurrent⟩ := hcurrent
  have hothers : SetOfFiles w k (set.list.eraseIdx current.1) :=
    hfiles.sublist (List.eraseIdx_sublist _ _)
  refine ⟨current, ⟨0, pre ++ post, dropOthers w.os true current.1 set.list k⟩, hcurrent, ?_, rfl, ?_⟩
  · rw [optionFt, getListInSet, hwalk]
    dsimp only
    rw [hcurrent, Option.map_some]
  · dsimp only
    rw [dropOthers_run hothers, losesNothing_iff_lossless hothers, noCollision_iff_free hothers]
    exact Plan.lossless_iff hothers.ready

/-! ## Three directories -/

/-- The directories `/a`, `/b`, `/c` and the trash, all on one file system. -/
def places : Places where
  dirOf path := if path.head? = some '.' then 0 else (path.getD 1 '.').toNat
  trash := 0
  refuses _ _ := false
  dirOf_trash := fun name _ => by
    have hdot : trashCanPath = '.' :: trashCanPath.tail := by rfl
    rw [hdot]
    rfl

/-- The file 1 is `/a/f`, the file 2 is `/b/f` and the file 3 is `/c/g`. -/
def threeDirs : Files := fun e =>
  if e = ('a'.toNat, ['f']) then some (.file 1)
  else if e = ('b'.toNat, ['f']) then some (.file 2)
  else if e = ('c'.toNat, ['g']) then some (.file 3)
  else none

/-- The set of the three files, the last of them the newest. -/
def threeNamed : FileListSet where
  list := [⟨['/', 'a', '/', 'f'], 0, ['1']⟩, ⟨['/', 'b', '/', 'f'], 0, ['1']⟩,
    ⟨['/', 'c', '/', 'g'], 0, ['2']⟩]
  size := 1
  hash := ['h']

/-- With the file 1 under the name `y` in the trash as well, and the file 9 under `x`. -/
def linkedDirs : Files :=
  Function.update (Function.update threeDirs (0, ['y']) (some (.file 1))) (0, ['x'])
    (some (.file 9))

theorem threeNamed_files : SetOfFiles places threeDirs threeNamed.list where
  regular := by
    intro f hf
    simp only [threeNamed, List.mem_cons, List.not_mem_nil, or_false] at hf
    rcases hf with rfl | rfl | rfl
    · exact ⟨1, rfl⟩
    · exact ⟨2, rfl⟩
    · exact ⟨3, rfl⟩
  distinct := by decide

theorem threeNamed_linked : SetOfFiles places linkedDirs threeNamed.list where
  regular := by
    intro f hf
    simp only [threeNamed, List.mem_cons, List.not_mem_nil, or_false] at hf
    rcases hf with rfl | rfl | rfl
    · exact ⟨1, rfl⟩
    · exact ⟨2, rfl⟩
    · exact ⟨3, rfl⟩
  distinct := by decide

/-- Two files named `f` are moved, the second onto the first. -/
theorem same_names_overwritten :
    ∃ r, optionFt places.os [threeNamed] 0 true threeDirs = some r ∧
      getCurrentFile threeNamed.list = some (2, ⟨['/', 'c', '/', 'g'], 0, ['2']⟩) ∧
      ¬LosesNothing places threeDirs r.disk (threeNamed.list.eraseIdx 2) := by
  have hothers : SetOfFiles places threeDirs (threeNamed.list.eraseIdx 2) :=
    threeNamed_files.sublist (List.eraseIdx_sublist _ _)
  refine ⟨⟨0, [], dropOthers places.os true 2 threeNamed.list threeDirs⟩, rfl, by decide, ?_⟩
  dsimp only
  rw [dropOthers_run hothers, losesNothing_iff_lossless hothers]
  intro hlossless
  have hapart := ((noCollision_iff_free hothers).mpr ((Plan.lossless_iff hothers.ready).mp
    hlossless)).apart
  obtain ⟨-, -, name, hname⟩ := (List.pairwise_cons.mp hapart).1 _ List.mem_cons_self rfl
  -- the trash is empty
  have hempty : threeDirs (places.trash, name) = none := by simp [threeDirs, places]
  rw [hempty] at hname
  exact absurd hname.symm (by decide)

/-- The second file is put over the first, which the trash has under another name. -/
theorem linked_noCollision :
    NoCollision places linkedDirs (threeNamed.list.eraseIdx 2) where
  works := by decide
  free := fun f hf => .inl ((by decide : ∀ f ∈ threeNamed.list.eraseIdx 2,
    linkedDirs (places.inTrash f) = none) f hf)
  apart := by
    refine List.pairwise_pair.mpr fun _ => ⟨by decide, by decide, ['y'], by decide⟩

theorem optionFt_losesNothing_linked :
    ∃ r, optionFt places.os [threeNamed] 0 true linkedDirs = some r ∧ r.code = 0 ∧
      LosesNothing places linkedDirs r.disk (threeNamed.list.eraseIdx 2) := by
  obtain ⟨current, r, hcurrent, hrun, hcode, hiff⟩ :=
    optionFt_losesNothing_iff places linkedDirs [threeNamed] 0 threeNamed rfl (by decide)
      threeNamed_linked
  have hlast : getCurrentFile threeNamed.list = some (2, ⟨['/', 'c', '/', 'g'], 0, ['2']⟩) := by
    decide
  rw [hlast, Option.some.injEq] at hcurrent
  subst hcurrent
  exact ⟨r, hrun, hcode, hiff.mpr linked_noCollision⟩

end Sdup
end SsuComputer
