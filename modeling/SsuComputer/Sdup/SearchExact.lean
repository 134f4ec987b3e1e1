import Mathlib.Algebra.BigOperators.Group.List.Basic
import Mathlib.Algebra.Ring.Nat
import SsuComputer.Sdup.FindDup

/-!
# SsuComputer.Sdup.SearchExact

Which files of a tree `find_dup` passes on.

* `Node.Shown` — the system's answers for the paths below a target are those for a tree.
* `findDup_perm` — the queue is worked off, and all files that pass the tests are found, unless the
  target itself is excluded.
* `findDup_exact_iff` — so the excluded directories are left out in one case only.
-/

namespace SsuComputer
namespace Sdup

/-- A tree without links. -/
inductive Node
  | file (name : CString) (size : Nat) (mtime hash : CString)
  | dir (name : CString) (entries : List Node)
  | other (name : CString)

def Node.name : Node → CString
  | .file name _ _ _ => name
  | .dir name _ => name
  | .other name => name

/-- A regular file, by the names that lead to it. -/
structure FileAt where
  names : List CString
  size : Nat
  mtime : CString
  hash : CString

mutual
def Node.files (above : List CString) : Node → List FileAt
  | .file name size mtime hash => [⟨above ++ [name], size, mtime, hash⟩]
  | .dir name entries => filesBelow (above ++ [name]) entries
  | .other _ => []

def filesBelow (above : List CString) : List Node → List FileAt
  | [] => []
  | e :: es => e.files above ++ filesBelow above es
end

/-- The listing of a directory, in any order. -/
def Lists (c : Calls) (path : CString) (entries : List Node) : Prop :=
  ∃ names, c.scandir path = some names ∧
    (names.filter fun n => !isDotName n).Perm (entries.map Node.name)

mutual
/-- The system shows the node at the path. -/
def Node.Shown (c : Calls) (path : CString) : Node → Prop
  | .file name size mtime hash =>
    LegalName name ∧ c.stat path = some ⟨.reg, size, mtime⟩ ∧ c.hash path = some hash
  | .dir name entries =>
    LegalName name ∧ (∃ size mtime, c.stat path = some ⟨.dir, size, mtime⟩) ∧
      Lists c path entries ∧ ShownBelow c path entries
  | .other name => LegalName name ∧ ∃ size mtime, c.stat path = some ⟨.other, size, mtime⟩

def ShownBelow (c : Calls) (path : CString) : List Node → Prop
  | [] => True
  | e :: es => e.Shown c (path ++ '/' :: e.name) ∧ ShownBelow c path es
end

mutual
/-- The number of directories. -/
def Node.weight : Node → Nat
  | .file _ _ _ _ => 0
  | .dir _ entries => 1 + weightBelow entries
  | .other _ => 0

def weightBelow : List Node → Nat
  | [] => 0
  | e :: es => e.weight + weightBelow es
end

/-- The absolute path of a target. -/
def targetText (ts : List CString) : CString := if ts = [] then ['/'] else pathText ts

def excludedNames : List CString := [['p', 'r', 'o', 'c'], ['r', 'u', 'n'], ['s', 'y', 's']]

section Search

variable (c : Calls) (s : Search) (ts : List CString)

/-- The tests that a file has to pass in the code. -/
def Search.selects (f : FileAt) : Bool :=
  f.size ≠ 0 && !s.skipsExtension (targetText ts ++ pathText f.names) &&
    decide ((f.size : Int) ≥ s.minSize ∧ (f.size : Int) ≤ s.maxSize)

def FileAt.insertion (f : FileAt) : Insertion :=
  ⟨⟨targetText ts ++ pathText f.names, f.names.length - 1, f.mtime⟩, f.size, f.hash⟩

/-- A directory in the queue, with its entries. -/
structure Pending where
  names : List CString
  entries : List Node

def Pending.node (p : Pending) : DirNode := ⟨targetText ts ++ pathText p.names, p.names.length⟩

def Pending.insertions (p : Pending) : List Insertion :=
  ((filesBelow p.names p.entries).filter fun f => s.selects ts f).map (FileAt.insertion ts)

def Pending.Shown (p : Pending) : Prop :=
  Lists c (p.node ts).dirPath p.entries ∧ ShownBelow c (p.node ts).dirPath p.entries

def Pending.weight (p : Pending) : Nat := 1 + weightBelow p.entries

variable {c s ts}

/-! ## One directory -/

theorem filesBelow_eq (above : List CString) (es : List Node) :
    filesBelow above es = es.flatMap (Node.files above) := by
  induction es with
  | nil => rw [filesBelow]; rfl
  | cons e es ih => rw [filesBelow, ih, List.flatMap_cons]

theorem weightBelow_eq (es : List Node) : weightBelow es = (es.map Node.weight).sum := by
  induction es with
  | nil => rw [weightBelow]; rfl
  | cons e es ih => rw [weightBelow, ih, List.map_cons, List.sum_cons]

theorem ShownBelow.mem {path : CString} {es : List Node} (h : ShownBelow c path es) :
    ∀ e ∈ es, e.Shown c (path ++ '/' :: e.name) := by
  induction es with
  | nil => intro e he; cases he
  | cons e es ih =>
    rw [ShownBelow] at h
    exact List.forall_mem_cons.mpr ⟨h.1, ih h.2⟩

theorem Node.Shown.legalName {e : Node} {path : CString} (h : e.Shown c path) : LegalName e.name := by
  cases e with
  | file name size mtime hash => rw [Node.Shown] at h; exact h.1
  | dir name entries => rw [Node.Shown] at h; exact h.1
  | other name => rw [Node.Shown] at h; exact h.1

/-- What an entry puts in the queue. -/
def Node.pending (names : List CString) : Node → List Pending
  | .dir name entries => [⟨names ++ [name], entries⟩]
  | .file _ _ _ _ => []
  | .other _ => []

/-- The insertion for an entry. -/
def Node.insertion (s : Search) (ts names : List CString) (e : Node) : List Insertion :=
  match e with
  | .file name size mtime hash =>
    ([⟨names ++ [name], size, mtime, hash⟩].filter fun f => s.selects ts f).map (FileAt.insertion ts)
  | .dir _ _ => []
  | .other _ => []

theorem insertion_pending (names : List CString) (e : Node) :
    e.insertion s ts names ++ (e.pending names).flatMap (Pending.insertions s ts) =
      ((e.files names).filter fun f => s.selects ts f).map (FileAt.insertion ts) := by
  cases e with
  | file name size mtime hash =>
    rw [Node.files, Node.insertion, Node.pending, List.flatMap_nil, List.append_nil]
  | dir name entries =>
    rw [Node.files, Node.insertion, Node.pending, List.flatMap_singleton, List.nil_append]
    rfl
  | other name => rw [Node.files]; rfl

theorem path_concat (names : List CString) (name : CString) :
    targetText ts ++ pathText names ++ '/' :: name = targetText ts ++ pathText (names ++ [name]) := by
  rw [pathText_concat, List.append_assoc]

theorem visitName_eq {p : Pending} {e : Node} (h : e.Shown c ((p.node ts).dirPath ++ '/' :: e.name))
    (st : DirSearch) : visitName c s (p.node ts) st e.name =
      ⟨st.queue ++ (e.pending p.names).map (Pending.node ts),
        st.found ++ e.insertion s ts p.names⟩ := by
  rw [visitName, if_neg (by rw [h.legalName.not_dot]; exact Bool.false_ne_true)]
  cases e with
  | file name size mtime hash =>
    rw [Node.Shown] at h
    obtain ⟨-, hstat, hhash⟩ := h
    simp only [Node.name] at hstat hhash ⊢
    rw [hstat]
    simp only [Node.pending, Node.insertion, List.map_nil, List.append_nil, Pending.node,
      path_concat] at hhash ⊢
    by_cases hsize : size = 0
    · rw [if_pos hsize, List.filter_cons_of_neg (by simp [Search.selects, hsize]), List.filter_nil,
        List.map_nil, List.append_nil]
    · rw [if_neg hsize]
      by_cases hext : s.skipsExtension (targetText ts ++ pathText (p.names ++ [name])) = true
      · rw [if_pos hext, List.filter_cons_of_neg (by simp [Search.selects, hext]), List.filter_nil,
          List.map_nil, List.append_nil]
      · rw [if_neg hext]
        by_cases hrange : (size : Int) ≥ s.minSize ∧ (size : Int) ≤ s.maxSize
        · rw [if_pos hrange, hhash, List.filter_cons_of_pos]
          · simp [FileAt.insertion]
          · simp [Search.selects, hsize, hext, hrange.1, hrange.2]
        · rw [if_neg hrange, List.filter_cons_of_neg, List.filter_nil, List.map_nil, List.append_nil]
          simp only [Search.selects, Bool.and_eq_true, decide_eq_true_eq, not_and]
          exact fun _ hmin hmax => hrange ⟨hmin, hmax⟩
  | dir name entries =>
    rw [Node.Shown] at h
    obtain ⟨-, ⟨size, mtime, hstat⟩, -⟩ := h
    simp only [Node.name] at hstat ⊢
    rw [hstat]
    simp only [Node.pending, Node.insertion, List.append_nil, List.map_singleton, Pending.node,
      path_concat, enqueueMyDirQueue, List.length_append, List.length_singleton]
  | other name =>
    rw [Node.Shown] at h
    obtain ⟨-, size, mtime, hstat⟩ := h
    simp only [Node.name] at hstat ⊢
    rw [hstat]
    simp only [Node.pending, Node.insertion, List.map_nil, List.append_nil]

theorem foldl_visitName {p : Pending} {es : List Node}
    (h : ∀ e ∈ es, e.Shown c ((p.node ts).dirPath ++ '/' :: e.name)) (st : DirSearch) :
    (es.map Node.name).foldl (visitName c s (p.node ts)) st =
      ⟨st.queue ++ (es.flatMap (Node.pending p.names)).map (Pending.node ts),
        st.found ++ es.flatMap (Node.insertion s ts p.names)⟩ := by
  induction es generalizing st with
  | nil => simp
  | cons e es ih =>
    rw [List.map_cons, List.foldl_cons, visitName_eq (h e List.mem_cons_self),
      ih fun e' he' => h e' (List.mem_cons_of_mem _ he')]
    simp only [List.flatMap_cons, List.map_append, List.append_assoc]

theorem foldl_dotNames (work : DirNode) (names : List CString) (st : DirSearch) :
    names.foldl (visitName c s work) st =
      (names.filter fun n => !isDotName n).foldl (visitName c s work) st := by
  induction names generalizing st with
  | nil => rfl
  | cons n names ih =>
    by_cases hdot : isDotName n = true
    · rw [List.filter_cons_of_neg (by simp [hdot]), List.foldl_cons, visitName, if_pos hdot, ih]
    · rw [List.filter_cons_of_pos (by simp [hdot]), List.foldl_cons, List.foldl_cons, ih]

theorem exists_of_perm_map {α β : Type _} {l : List β} {es : List α} {f : α → β}
    (h : l.Perm (es.map f)) : ∃ es' : List α, l = es'.map f ∧ es'.Perm es := by
  obtain ⟨es', hl, hperm⟩ := List.perm_comp_forall₂ (r := fun b a => b = f a) h
    (List.forall₂_map_left_iff.mpr (List.forall₂_same.mpr fun _ _ => rfl))
  refine ⟨es', ?_, hperm⟩
  rw [← List.forall₂_eq_eq_eq, List.forall₂_map_right_iff]
  exact hl

/-- What a directory gives: directories for the queue and insertions, together all of its files. -/
theorem visit_dir {p : Pending} (h : p.Shown c ts) (st : DirSearch) :
    ∃ (names : List CString) (ps : List Pending) (found : List Insertion),
      c.scandir (p.node ts).dirPath = some names ∧
      names.foldl (visitName c s (p.node ts)) st =
        ⟨st.queue ++ ps.map (Pending.node ts), st.found ++ found⟩ ∧
      (∀ q ∈ ps, q.Shown c ts ∧ ∃ n, Component n ∧ q.names = p.names ++ [n]) ∧
      (found ++ ps.flatMap (Pending.insertions s ts)).Perm (p.insertions s ts) ∧
      (ps.map Pending.weight).sum = weightBelow p.entries := by
  obtain ⟨⟨names, hscan, hnames⟩, hbelow⟩ := h
  obtain ⟨es, hes, hperm⟩ := exists_of_perm_map hnames
  have hshown : ∀ e ∈ es, e.Shown c ((p.node ts).dirPath ++ '/' :: e.name) :=
    fun e he => hbelow.mem e (hperm.mem_iff.mp he)
  refine ⟨names, es.flatMap (Node.pending p.names), es.flatMap (Node.insertion s ts p.names), hscan,
    ?_, ?_, ?_, ?_⟩
  · rw [foldl_dotNames, hes, foldl_visitName hshown]
  · intro q hq
    obtain ⟨e, he, hq⟩ := List.mem_flatMap.mp hq
    have he := hshown e he
    cases e with
    | file name size mtime hash => cases hq
    | other name => cases hq
    | dir name entries =>
      rw [Node.pending, List.mem_singleton] at hq
      rw [Node.Shown] at he
      rw [hq, Pending.Shown, Pending.node, ← path_concat]
      exact ⟨he.2.2, name, he.1.toComponent, rfl⟩
  · have hsplit := List.flatMap_append_perm es (Node.insertion s ts p.names)
      fun e => (e.pending p.names).flatMap (Pending.insertions s ts)
    simp only [insertion_pending] at hsplit
    rw [List.flatMap_assoc]
    refine hsplit.trans ((hperm.flatMap_right _).trans (List.Perm.of_eq ?_))
    rw [Pending.insertions, filesBelow_eq, List.filter_flatMap, List.map_flatMap]
  · rw [weightBelow_eq, ← (hperm.map Node.weight).sum_eq]
    clear hes hperm hshown
    induction es with
    | nil => rfl
    | cons e es ih =>
      rw [List.flatMap_cons, List.map_append, List.sum_append, ih, List.map_cons, List.sum_cons]
      congr 1
      cases e with
      | file name size mtime hash => rw [Node.weight]; rfl
      | other name => rw [Node.weight]; rfl
      | dir name entries =>
        rw [Node.weight, Node.pending, List.map_singleton, List.sum_singleton, Pending.weight]

/-! ## The queue -/

theorem components_target (hts : ∀ n ∈ ts, Component n) {names : List CString}
    (hnames : ∀ n ∈ names, Component n) :
    components (targetText ts ++ pathText names) = ts ++ names := by
  rw [targetText]
  split
  · rename_i hnil
    rw [hnil, List.singleton_append, components_slash, components_pathText hnames, List.nil_append]
  · rw [← pathText_append, components_pathText]
    exact fun n hn => (List.mem_append.mp hn).elim (hts n) (hnames n)

theorem component_excluded : ∀ d ∈ excludedNames, Component d := by
  intro d hd
  have hall : ∀ d ∈ excludedNames, d ≠ [] ∧ '/' ∉ d := by decide
  exact ⟨(hall d hd).1, (hall d hd).2⟩

theorem targetText_excluded (hts : ∀ n ∈ ts, Component n) :
    targetText ts ∈ excludedDirs ↔ ∃ d ∈ excludedNames, ts = [d] := by
  rw [show excludedDirs = excludedNames.map fun d => pathText [d] from rfl, List.mem_map]
  constructor
  · rintro ⟨d, hd, htext⟩
    have hcomp := components_target hts (fun n (hn : n ∈ []) => by cases hn)
    rw [pathText_nil, List.append_nil, List.append_nil, ← htext, components_pathText] at hcomp
    · exact ⟨d, hd, hcomp.symm⟩
    · intro n hn
      rw [List.mem_singleton.mp hn]
      exact component_excluded d hd
  · rintro ⟨d, hd, rfl⟩
    exact ⟨d, hd, rfl⟩

/-- An excluded path in the queue is that of the target. -/
theorem node_excluded (hts : ∀ n ∈ ts, Component n) {p : Pending}
    (hp : ∀ n ∈ p.names, Component n) (h : (p.node ts).dirPath ∈ excludedDirs) :
    targetText ts ∈ excludedDirs := by
  have hpath : (p.node ts).dirPath = targetText ts ++ pathText p.names := rfl
  cases hnames : p.names with
  | nil => rwa [hpath, hnames, pathText_nil, List.append_nil] at h
  | cons n names =>
    exfalso
    rw [hpath, hnames, targetText] at h
    split at h
    · -- the path starts with two slashes
      have hall : ∀ d ∈ excludedDirs, d[1]? ≠ some '/' := by decide
      exact hall _ h rfl
    · rename_i hne
      rw [← pathText_append] at h
      have hlegal : ∀ m ∈ ts ++ n :: names, Component m := fun m hm =>
        (List.mem_append.mp hm).elim (hts m) fun hm => hp m (hnames ▸ hm)
      have hall : ∀ d ∈ excludedDirs, (components d).length = 1 := by decide
      have hlen := hall _ h
      rw [components_pathText hlegal, List.length_append, List.length_cons] at hlen
      have := List.length_pos_of_ne_nil hne
      omega

/-- The queue is that of the directories `ps`; what has been found and what they hold is `all`. Each
directory taken off the queue makes `m` smaller. -/
def SearchInv (c : Calls) (s : Search) (ts : List CString) (all : List Insertion) (m : Nat)
    (st : DirSearch) : Prop :=
  ∃ ps : List Pending, m = (ps.map Pending.weight).sum ∧ st.queue = ps.map (Pending.node ts) ∧
    (∀ p ∈ ps, p.Shown c ts ∧ ∀ n ∈ p.names, Component n) ∧
    (st.found ++ ps.flatMap (Pending.insertions s ts)).Perm all

/-- A pass puts what a directory holds in its place: files found, and directories at the end. -/
theorem searchInv_step (hts : ∀ n ∈ ts, Component n) (htarget : targetText ts ∉ excludedDirs)
    {all : List Insertion} {m : Nat} {st : DirSearch} (h : SearchInv c s ts all m st)
    (hmore : isMyDirQueueEmpty st.queue = true) :
    ∃ st' m', findDupBody c s st = some st' ∧ m' < m ∧ SearchInv c s ts all m' st' := by
  obtain ⟨queue, found⟩ := st
  obtain ⟨ps, rfl, rfl, hps, hperm⟩ := h
  cases ps with
  | nil => cases hmore
  | cons p ps =>
    obtain ⟨hshown, hcomp⟩ := hps p List.mem_cons_self
    obtain ⟨names, qs, new, hscan, hfold, hqs, hnew, hweight⟩ :=
      visit_dir (s := s) hshown ⟨ps.map (Pending.node ts), found⟩
    have hbody : findDupBody c s ⟨(p :: ps).map (Pending.node ts), found⟩ =
        some ⟨ps.map (Pending.node ts) ++ qs.map (Pending.node ts), found ++ new⟩ := by
      rw [findDupBody, List.map_cons, popFrontMyDirQueue, Option.map_some]
      dsimp only
      rw [if_neg fun hex => htarget (node_excluded hts hcomp hex), hscan]
      exact congrArg some hfold
    refine ⟨_, ((ps ++ qs).map Pending.weight).sum, hbody, ?_, ps ++ qs, rfl, ?_, ?_, ?_⟩
    · rw [List.map_append, List.sum_append, hweight, List.map_cons, List.sum_cons, Pending.weight]
      omega
    · rw [List.map_append]
    · intro q hq
      rcases List.mem_append.mp hq with hq | hq
      · exact hps q (List.mem_cons_of_mem _ hq)
      · obtain ⟨hshown', n, hn, hnames⟩ := hqs q hq
        refine ⟨hshown', fun n' hn' => ?_⟩
        rw [hnames] at hn'
        rcases List.mem_append.mp hn' with hn' | hn'
        · exact hcomp n' hn'
        · rw [List.mem_singleton.mp hn']
          exact hn
    · refine List.Perm.trans ?_ hperm
      rw [List.flatMap_append, List.flatMap_cons, List.append_assoc]
      refine List.Perm.append_left _ ?_
      refine (List.perm_append_comm.append_left new).trans ?_
      rw [← List.append_assoc]
      exact hnew.append_right _

/-- All files that pass the tests are found once each. -/
theorem findDup_perm (hts : ∀ n ∈ ts, Component n) (htarget : targetText ts ∉ excludedDirs)
    {entries : List Node} (h : (Pending.mk [] entries).Shown c ts) {fuel : Nat}
    (hfuel : 1 + weightBelow entries ≤ fuel) : ∃ found,
    findDup c s fuel (targetText ts) = some found ∧
      found.Perm ((Pending.mk [] entries).insertions s ts) := by
  have hstart : SearchInv c s ts ((Pending.mk [] entries).insertions s ts)
      (1 + weightBelow entries) ⟨[⟨targetText ts, 0⟩], []⟩ := by
    refine ⟨[⟨[], entries⟩], ?_, ?_, ?_, ?_⟩
    · rw [List.map_singleton, List.sum_singleton, Pending.weight]
    · rw [List.map_singleton, Pending.node, pathText_nil, List.append_nil, List.length_nil]
    · intro p hp
      rw [List.mem_singleton.mp hp]
      exact ⟨h, fun n hn => by cases hn⟩
    · rw [List.flatMap_singleton, List.nil_append]
  obtain ⟨st, m, hrun, ⟨ps, -, hqueue, -, hperm⟩, hend⟩ :=
    whileLoop_of_measure (fun _ _ => searchInv_step hts htarget) _ _ hstart hfuel
  refine ⟨st.found, by rw [findDup, hrun, Option.map_some], ?_⟩
  have hnil : ps = [] := by
    cases ps with
    | nil => rfl
    | cons p ps => rw [hqueue] at hend; cases hend
  rwa [hnil, List.flatMap_nil, List.append_nil] at hperm

/-- An excluded target is not even listed. -/
theorem findDup_excluded (htarget : targetText ts ∈ excludedDirs) {fuel : Nat} (hfuel : 1 ≤ fuel) :
    findDup c s fuel (targetText ts) = some [] := by
  have hbody : findDupBody c s ⟨[⟨targetText ts, 0⟩], []⟩ = some ⟨[], []⟩ := by
    rw [findDupBody, popFrontMyDirQueue, Option.map_some]
    dsimp only
    rw [if_pos htarget]
  obtain ⟨fuel, rfl⟩ : ∃ n, fuel = n + 1 := ⟨fuel - 1, by omega⟩
  rw [findDup, whileLoop_step rfl hbody, whileLoop_of_not rfl, Option.map_some]

end Search

/-! ## Patterns -/

/-- `*` and `*.ext`. -/
inductive Pattern
  | any
  | ext (e : CString)
deriving DecidableEq

def Pattern.text : Pattern → CString
  | .any => ['*']
  | .ext e => '*' :: '.' :: e

/-- The pattern that is left when the code has looked for the last dot. -/
def Pattern.read : Pattern → Pattern
  | .any => .any
  | .ext e => .ext ((parseFileExtension e).getD e)

def Pattern.matches (p : Pattern) (name : CString) : Bool :=
  match p with
  | .any => true
  | .ext e => parseFileExtension name = some e

def Pattern.wants (p : Pattern) (minSize maxSize : Int) (f : FileAt) : Bool :=
  f.size ≠ 0 && p.matches (f.names.getLast?.getD []) &&
    decide ((f.size : Int) ≥ minSize ∧ (f.size : Int) ≤ maxSize)

def commandSearch (pattern : CString) (minSize maxSize : Int) : Option Search :=
  (commandExtension pattern).map fun ext => ⟨ext, minSize, maxSize⟩

/-- The extension of a path is that of the last name in it, if it has no slash. -/
theorem parseFileExtension_path {e : CString} (he : '/' ∉ e) (dir name : CString) :
    parseFileExtension (dir ++ '/' :: name) = some e ↔ parseFileExtension name = some e := by
  by_cases hdot : '.' ∈ name
  · obtain ⟨before, after, hname, hpath⟩ := strrchr_append_of_mem hdot (dir ++ ['/'])
    rw [List.append_assoc, List.singleton_append] at hpath
    rw [parseFileExtension, parseFileExtension, hname, hpath]
    rfl
  · rw [parseFileExtension, parseFileExtension, strrchr_of_not_mem hdot]
    constructor
    · intro h
      obtain ⟨⟨before, after⟩, hpath, heq⟩ := Option.map_eq_some_iff.mp h
      obtain rfl : after = e := heq
      obtain ⟨htext, hafter⟩ := strrchr_eq_some hpath
      -- the last dot is in `dir`, so that the slash is behind it
      exfalso
      rcases List.append_eq_append_iff.mp htext with ⟨mid, -, hmid⟩ | ⟨mid, -, hmid⟩
      · rcases List.cons_eq_append_iff.mp hmid with ⟨-, hmid⟩ | ⟨mid', -, hmid⟩
        · cases hmid
        · exact hdot (hmid ▸ List.mem_append_right _ List.mem_cons_self)
      · rcases List.cons_eq_append_iff.mp hmid with ⟨-, hmid⟩ | ⟨mid', -, hmid⟩
        · cases hmid
        · exact he (hmid ▸ List.mem_append_right _ List.mem_cons_self)
    · intro h
      cases h

theorem parseFileExtension_eq_some {name e : CString} (h : parseFileExtension name = some e) :
    '.' ∉ e ∧ e ⊆ name := by
  obtain ⟨⟨before, after⟩, hname, rfl⟩ := Option.map_eq_some_iff.mp h
  obtain ⟨rfl, hafter⟩ := strrchr_eq_some hname
  exact ⟨hafter, fun x hx => List.mem_append_right _ (List.mem_cons_of_mem _ hx)⟩

theorem parseFileExtension_text (e : CString) :
    parseFileExtension ('*' :: '.' :: e) = some ((parseFileExtension e).getD e) := by
  rw [parseFileExtension, parseFileExtension]
  cases h : strrchr '.' e with
  | none => simp [strrchr, h]
  | some r => simp [strrchr, h]

theorem commandSearch_text (p : Pattern) (minSize maxSize : Int) :
    commandSearch p.text minSize maxSize = some ⟨match p.read with
      | .any => none
      | .ext e => some e, minSize, maxSize⟩ := by
  cases p with
  | any => rfl
  | ext e =>
    rw [Pattern.text, commandSearch, commandExtension, if_neg (by simp), if_pos (by simp),
      parseFileExtension_text]
    rfl

/-- The tests of the code are for the pattern as it is read. -/
theorem selects_eq {p : Pattern} (hslash : '/' ∉ p.text) {minSize maxSize : Int} {s : Search}
    (hs : commandSearch p.text minSize maxSize = some s) {ts : List CString} {f : FileAt}
    (hf : f.names ≠ []) : s.selects ts f = p.read.wants minSize maxSize f := by
  rw [commandSearch_text, Option.some.injEq] at hs
  obtain ⟨above, name, hnames⟩ : ∃ above name, f.names = above ++ [name] :=
    ⟨_, _, (List.dropLast_append_getLast hf).symm⟩
  have hext : s.skipsExtension (targetText ts ++ pathText f.names) =
      !p.read.matches (f.names.getLast?.getD []) := by
    rw [← hs, hnames, ← path_concat, List.getLast?_concat, Option.getD_some, Search.skipsExtension]
    cases p with
    | any => rfl
    | ext e =>
      have hread : '/' ∉ (parseFileExtension e).getD e := by
        have he : '/' ∉ e := fun h => hslash (List.mem_cons_of_mem _ (List.mem_cons_of_mem _ h))
        cases hparse : parseFileExtension e with
        | none => exact he
        | some e' => exact fun h => he ((parseFileExtension_eq_some hparse).2 h)
      simp only [Pattern.read, Pattern.matches, ne_eq, parseFileExtension_path hread, decide_not]
  rw [Search.selects, Pattern.wants, hext, Bool.not_not, ← hs]

/-- A pattern that is not read as it stands matches no name. -/
theorem read_of_matches {p : Pattern} {name : CString} (h : p.matches name = true) : p.read = p := by
  cases p with
  | any => rfl
  | ext e =>
    have hdot := (parseFileExtension_eq_some (of_decide_eq_true h)).1
    rw [Pattern.read, parseFileExtension, strrchr_of_not_mem hdot]
    rfl

/-! ## Exactness -/

/-- The names lead into an excluded directory. -/
def inside : List CString → Bool
  | d :: _ :: _ => d ∈ excludedNames
  | _ => false

/-- An insertion, by the file that its path denotes. -/
structure Passed where
  names : List CString
  depth : Nat
  size : Nat
  mtime : CString
  hash : CString
deriving DecidableEq

def Insertion.passed (r : Insertion) : Passed :=
  ⟨components r.file.path, r.file.depth, r.size, r.file.mtime, r.hash⟩

def FileAt.passed (ts : List CString) (f : FileAt) : Passed :=
  ⟨ts ++ f.names, f.names.length - 1, f.size, f.mtime, f.hash⟩

def PassesExactly (p : Pattern) (minSize maxSize : Int) (ts : List CString) (entries : List Node)
    (found : List Insertion) : Prop :=
  (found.map Insertion.passed).Perm
    (((filesBelow [] entries).filter fun f =>
      p.wants minSize maxSize f && !inside (ts ++ f.names)).map (FileAt.passed ts))

mutual
theorem Node.Shown.files_names {c : Calls} {path : CString} (above : List CString) :
    ∀ {e : Node}, e.Shown c path → ∀ f ∈ e.files above,
      ∃ rest, rest ≠ [] ∧ f.names = above ++ rest ∧ ∀ n ∈ rest, Component n
  | .file name size mtime hash, h, f, hf => by
    rw [Node.Shown] at h
    rw [Node.files, List.mem_singleton] at hf
    refine ⟨[name], List.cons_ne_nil _ _, by rw [hf], fun n hn => ?_⟩
    rw [List.mem_singleton.mp hn]
    exact h.1.toComponent
  | .dir name entries, h, f, hf => by
    rw [Node.Shown] at h
    rw [Node.files] at hf
    obtain ⟨rest, -, hnames, hrest⟩ := ShownBelow.files_names (above ++ [name]) h.2.2.2 f hf
    refine ⟨name :: rest, List.cons_ne_nil _ _, by rw [hnames, List.append_assoc]; rfl, ?_⟩
    exact List.forall_mem_cons.mpr ⟨h.1.toComponent, hrest⟩
  | .other name, h, f, hf => by rw [Node.files] at hf; cases hf
theorem ShownBelow.files_names {c : Calls} {path : CString} (above : List CString) :
    ∀ {es : List Node}, ShownBelow c path es → ∀ f ∈ filesBelow above es,
      ∃ rest, rest ≠ [] ∧ f.names = above ++ rest ∧ ∀ n ∈ rest, Component n
  | [], _, f, hf => by rw [filesBelow] at hf; cases hf
  | e :: es, h, f, hf => by
    rw [ShownBelow] at h
    rw [filesBelow, List.mem_append] at hf
    rcases hf with hf | hf
    · exact Node.Shown.files_names above h.1 f hf
    · exact ShownBelow.files_names above h.2 f hf
end

theorem passed_insertion {ts : List CString} (hts : ∀ n ∈ ts, Component n) {f : FileAt}
    (hf : ∀ n ∈ f.names, Component n) : (f.insertion ts).passed = f.passed ts := by
  rw [FileAt.insertion, Insertion.passed, FileAt.passed, components_target hts hf]

/-- Two filters of a list, one within the other, give lists of one length only when they agree. -/
theorem filter_agrees {α : Type _} {l : List α} {p q : α → Bool} (hqp : ∀ a ∈ l, q a → p a)
    (hlen : (l.filter p).length = (l.filter q).length) : ∀ a ∈ l, p a → q a := by
  rw [← List.countP_eq_length_filter, ← List.countP_eq_length_filter] at hlen
  induction l with
  | nil => intro a ha; cases ha
  | cons b l ih =>
    obtain ⟨hb, hl⟩ := List.forall_mem_cons.mp hqp
    have hle : l.countP q ≤ l.countP p := List.countP_mono_left hl
    rw [List.countP_cons, List.countP_cons] at hlen
    by_cases hp : p b = true
    · by_cases hq : q b = true
      · rw [if_pos hp, if_pos hq] at hlen
        exact List.forall_mem_cons.mpr ⟨fun _ => hq, ih hl (by omega)⟩
      · rw [if_pos hp, if_neg hq] at hlen
        omega
    · rw [if_neg hp, if_neg fun hq => hp (hb hq)] at hlen
      exact List.forall_mem_cons.mpr ⟨fun h => absurd h hp, ih hl (by omega)⟩

section Exact

variable {c : Calls} {p : Pattern} {minSize maxSize : Int} {ts : List CString}
  {entries : List Node}

theorem ShownBelow.names (h : ShownBelow c (targetText ts) entries) :
    ∀ f ∈ filesBelow [] entries, f.names ≠ [] ∧ ∀ n ∈ f.names, Component n := by
  intro f hf
  obtain ⟨rest, hne, hnames, hrest⟩ := h.files_names [] f hf
  rw [hnames]
  exact ⟨hne, hrest⟩

/-- What is found, for the pattern as it is read. -/
theorem findDup_found (hslash : '/' ∉ p.text) {s : Search}
    (hs : commandSearch p.text minSize maxSize = some s) (hts : ∀ n ∈ ts, Component n)
    (htarget : targetText ts ∉ excludedDirs) (hlists : Lists c (targetText ts) entries)
    (hshown : ShownBelow c (targetText ts) entries) : ∃ found,
    (∀ fuel, 1 + weightBelow entries ≤ fuel → findDup c s fuel (targetText ts) = some found) ∧
      (found.map Insertion.passed).Perm
        (((filesBelow [] entries).filter fun f => p.read.wants minSize maxSize f).map
          (FileAt.passed ts)) := by
  have hroot : (Pending.mk [] entries).node ts = ⟨targetText ts, 0⟩ := by
    rw [Pending.node, pathText_nil, List.append_nil, List.length_nil]
  have hpending : (Pending.mk [] entries).Shown c ts := by
    rw [Pending.Shown, hroot]
    exact ⟨hlists, hshown⟩
  obtain ⟨found, hrun, hperm⟩ := findDup_perm (s := s) hts htarget hpending (Nat.le_refl _)
  refine ⟨found, fun fuel hfuel => ?_, (hperm.map _).trans (List.Perm.of_eq ?_)⟩
  · rw [findDup, Option.map_eq_some_iff] at hrun ⊢
    obtain ⟨st, hrun, hst⟩ := hrun
    exact ⟨st, whileLoop_more hrun hfuel, hst⟩
  · have hsel : ((filesBelow [] entries).filter fun f => s.selects ts f) =
        (filesBelow [] entries).filter fun f => p.read.wants minSize maxSize f :=
      List.filter_congr fun f hf => selects_eq hslash hs (hshown.names f hf).1
    rw [Pending.insertions, hsel, List.map_map]
    refine List.map_congr_left fun f hf => ?_
    exact passed_insertion hts (hshown.names f (List.mem_filter.mp hf).1).2

theorem wants_iff {f : FileAt} :
    p.wants minSize maxSize f = true ↔ p.read = p ∧ p.read.wants minSize maxSize f = true := by
  constructor
  · intro hw
    have hread := read_of_matches (Bool.and_eq_true_iff.mp (Bool.and_eq_true_iff.mp hw).1).2
    rw [hread]
    exact ⟨rfl, hw⟩
  · rintro ⟨hread, hw⟩
    rwa [hread] at hw

/-- When the files wanted are all those that are found. -/
theorem passesExactly_iff {found : List Insertion}
    (hfound : (found.map Insertion.passed).Perm
      (((filesBelow [] entries).filter fun f => p.read.wants minSize maxSize f).map
        (FileAt.passed ts))) :
    PassesExactly p minSize maxSize ts entries found ↔ ∀ f ∈ filesBelow [] entries,
      p.read.wants minSize maxSize f → inside (ts ++ f.names) = false ∧ p.read = p := by
  have hboth : ∀ f, (p.wants minSize maxSize f && !inside (ts ++ f.names)) = true ↔
      p.read.wants minSize maxSize f = true ∧ inside (ts ++ f.names) = false ∧ p.read = p := by
    intro f
    rw [Bool.and_eq_true, wants_iff, Bool.not_eq_true']
    tauto
  rw [PassesExactly, hfound.congr_left]
  constructor
  · intro hexact f hf hw
    have hlen := hexact.length_eq
    rw [List.length_map, List.length_map] at hlen
    exact ((hboth f).mp (filter_agrees (fun f _ h => ((hboth f).mp h).1) hlen f hf hw)).2
  · intro hall
    rw [List.filter_congr fun f hf => Bool.eq_iff_iff.mpr ?_]
    rw [hboth f]
    exact ⟨fun hw => ⟨hw, hall f hf hw⟩, And.left⟩

theorem passesExactly_excluded (hshown : ShownBelow c (targetText ts) entries) {d : CString}
    (hd : d ∈ excludedNames) (hts : ts = [d]) :
    PassesExactly p minSize maxSize ts entries [] := by
  rw [PassesExactly, List.filter_eq_nil_iff.mpr]
  · exact .refl _
  · intro f hf
    obtain ⟨n, names, hn⟩ := List.exists_cons_of_ne_nil (hshown.names f hf).1
    rw [hn, hts, inside.eq_def]
    simp [hd]

end Exact

/-- The search ends, and it is exact when the target is an excluded directory itself, or when no
file that is found for the pattern as it is read lies in one, and none is found for a pattern that
is read as another. -/
theorem findDup_exact_iff {c : Calls} {p : Pattern} (hslash : '/' ∉ p.text) (minSize maxSize : Int)
    {ts : List CString} (hts : ∀ n ∈ ts, Component n) {entries : List Node}
    (hlists : Lists c (targetText ts) entries) (hshown : ShownBelow c (targetText ts) entries) :
    ∃ s found, commandSearch p.text minSize maxSize = some s ∧
      (∀ fuel, 1 + weightBelow entries ≤ fuel → findDup c s fuel (targetText ts) = some found) ∧
      (PassesExactly p minSize maxSize ts entries found ↔
        (∃ d ∈ excludedNames, ts = [d]) ∨ ∀ f ∈ filesBelow [] entries,
          p.read.wants minSize maxSize f → inside (ts ++ f.names) = false ∧ p.read = p) := by
  have hs := commandSearch_text p minSize maxSize
  rw [← targetText_excluded hts]
  by_cases htarget : targetText ts ∈ excludedDirs
  · refine ⟨_, [], hs, fun fuel hfuel => findDup_excluded htarget (by omega), ?_⟩
    obtain ⟨d, hd, hd'⟩ := (targetText_excluded hts).mp htarget
    exact iff_of_true (passesExactly_excluded hshown hd hd') (.inl htarget)
  · obtain ⟨found, hrun, hfound⟩ := findDup_found hslash hs hts htarget hlists hshown
    refine ⟨_, found, hs, hrun, ?_⟩
    rw [passesExactly_iff hfound, or_iff_right htarget]

/-- A target that holds a directory with a file of five bytes. -/
def nestedFile (target dir name : CString) : Calls where
  scandir path :=
    if path = target then some [['.'], ['.', '.'], dir]
    else if path = target ++ '/' :: dir then some [['.'], ['.', '.'], name]
    else none
  stat path :=
    if path = target ++ '/' :: dir then some ⟨.dir, 4096, ['1']⟩
    else if path = target ++ '/' :: dir ++ '/' :: name then some ⟨.reg, 5, ['1']⟩
    else none
  hash _ := some ['h']

def nestedTree (dir name : CString) : List Node := [.dir dir [.file name 5 ['1'] ['h']]]

theorem nestedFile_shown (target : CString) {dir name : CString} (hdir : LegalName dir) (hname : LegalName name) :
    Lists (nestedFile target dir name) target (nestedTree dir name) ∧
      ShownBelow (nestedFile target dir name) target (nestedTree dir name) := by
  have hlist {n : CString} (hn : LegalName n) :
      ([['.'], ['.', '.'], n].filter fun n => !isDotName n) = [n] := by
    rw [List.filter_cons_of_neg (by decide), List.filter_cons_of_neg (by decide),
      List.filter_cons_of_pos (by rw [hn.not_dot]; rfl), List.filter_nil]
  have hsub : target ++ '/' :: dir ≠ target := by simp
  have hfile : target ++ '/' :: dir ++ '/' :: name ≠ target ++ '/' :: dir := by simp
  refine ⟨⟨_, if_pos rfl, by rw [hlist hdir]; exact .refl _⟩, ?_⟩
  simp only [nestedTree, ShownBelow, Node.Shown, Node.name, and_true]
  refine ⟨hdir, ⟨4096, ['1'], if_pos rfl⟩, ⟨_, (if_neg hsub).trans (if_pos rfl), ?_⟩, hname,
    (if_neg hfile).trans (if_pos rfl), rfl⟩
  rw [hlist hname]
  exact .refl _

/-- `*.c` in `/t`, with the file `/t/d/a.c`. -/
theorem findDup_exact_nested : ∃ s found, commandSearch ['*', '.', 'c'] 1 10 = some s ∧
    findDup (nestedFile ['/', 't'] ['d'] ['a', '.', 'c']) s 2 ['/', 't'] = some found ∧
      PassesExactly (.ext ['c']) 1 10 [['t']] (nestedTree ['d'] ['a', '.', 'c']) found := by
  have ht : ∀ n ∈ [['t']], Component n := by
    intro n hn
    rw [List.mem_singleton.mp hn]
    exact ⟨by decide, by decide⟩
  obtain ⟨hlists, hshown⟩ := nestedFile_shown ['/', 't']
    (⟨⟨by decide, by decide⟩, rfl⟩ : LegalName ['d'])
    (⟨⟨by decide, by decide⟩, rfl⟩ : LegalName ['a', '.', 'c'])
  obtain ⟨s, found, hs, hrun, hexact⟩ :=
    findDup_exact_iff (p := .ext ['c']) (by decide) 1 10 ht hlists hshown
  refine ⟨s, found, hs, hrun 2 (by simp [nestedTree, weightBelow, Node.weight]),
    hexact.mpr (.inr ?_)⟩
  simp only [nestedTree, filesBelow, Node.files, List.append_nil, List.nil_append, List.mem_singleton]
  rintro f rfl -
  exact ⟨rfl, rfl⟩

/-- The target `/`: the path of `/proc` in the queue is `//proc`. -/
theorem root_proc_searched : let c := nestedFile ['/'] ['p', 'r', 'o', 'c'] ['a']
    let entries := nestedTree ['p', 'r', 'o', 'c'] ['a']
    Lists c (targetText []) entries ∧ ShownBelow c (targetText []) entries ∧
      ∃ s found, commandSearch ['*'] 1 10 = some s ∧
        findDup c s 2 (targetText []) = some found ∧ ¬ PassesExactly .any 1 10 [] entries found := by
  obtain ⟨hlists, hshown⟩ := nestedFile_shown ['/']
    (⟨⟨by decide, by decide⟩, rfl⟩ : LegalName ['p', 'r', 'o', 'c'])
    (⟨⟨by decide, by decide⟩, rfl⟩ : LegalName ['a'])
  refine ⟨hlists, hshown, ⟨none, 1, 10⟩,
    [⟨⟨['/', '/', 'p', 'r', 'o', 'c', '/', 'a'], 1, ['1']⟩, 5, ['h']⟩], rfl, by decide, ?_⟩
  intro hexact
  have hlen := hexact.length_eq
  simp [nestedTree, filesBelow, Node.files, inside, excludedNames] at hlen

end Sdup
end SsuComputer
