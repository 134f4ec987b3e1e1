import Mathlib.Data.List.Nodup
import Mathlib.Algebra.NeZero
import Mathlib.Data.Option.Basic
import SsuComputer.Index.FindFiles

/-!
# SsuComputer.Index.FindExact

Which entries `find_files` records.

* `allBelow` — the entries of a tree with the names on the way to them; `Wanted` — those to record.
* `findFiles_perm` — the names tried in every directory are those of the root, so that the entries
  recorded are those whose ways have only names of the root.
* `findFilesInBuffers_eq` — where the paths fit, the arrays only bound the number of records.
* `findFiles_exact_iff` — no entry is missed when all wanted ones have such a way.
-/

namespace SsuComputer
namespace Index

/-! ## The entries -/

mutual
def Node.all (above : List CString) : Node → List (List CString × Node)
  | .file name size real => [(above ++ [name], .file name size real)]
  | .dir name size real entries =>
    (above ++ [name], .dir name size real entries) :: allBelow (above ++ [name]) entries

/-- All entries, each with the names of the directories above it and its own. -/
def allBelow (above : List CString) : List Node → List (List CString × Node)
  | [] => []
  | e :: es => e.all above ++ allBelow above es
end

mutual
def Node.Legal : Node → Prop
  | .file name _ _ => Component name ∧ isDotName name = false
  | .dir name _ _ entries => (Component name ∧ isDotName name = false) ∧ LegalNodes entries

/-- Legal names, distinct in every directory. -/
def LegalNodes : List Node → Prop
  | [] => True
  | e :: es => e.Legal ∧ (∀ e' ∈ es, e'.name ≠ e.name) ∧ LegalNodes es
end

mutual
def Node.weight : Node → Nat
  | .file _ _ _ => 1
  | .dir _ _ _ entries => 1 + weightNodes entries

def weightNodes : List Node → Nat
  | [] => 0
  | e :: es => e.weight + weightNodes es
end

/-- The entry is to be recorded: its own name, its size and its real path. -/
def Wanted (filename : CString) (file : MyFile) (e : Node) : Prop :=
  e.name = filename ∧ e.size = file.size ∧ e.real ≠ file.path

instance (filename : CString) (file : MyFile) (e : Node) : Decidable (Wanted filename file e) :=
  inferInstanceAs (Decidable (_ ∧ _))

/-- The name shown for an entry. -/
def shownName (names : List CString) : CString :=
  match names with
  | [name] => name
  | names => pathText names

def record (p : List CString × Node) : MyFile := ⟨shownName p.1, p.2.real, p.2.size⟩

/-- All names on the way are names of entries of the root. -/
def Root.Tries (r : Root) (names : List CString) : Prop := ∀ n ∈ names, n ∈ r.entries.map Node.name

instance (r : Root) (names : List CString) : Decidable (r.Tries names) :=
  inferInstanceAs (Decidable (∀ n ∈ names, n ∈ r.entries.map Node.name))

/-! ## Lookups -/

theorem Node.Legal.name {e : Node} (h : e.Legal) : Component e.name ∧ isDotName e.name = false := by
  cases e with
  | file name size real => rwa [Node.Legal] at h
  | dir name size real entries => rw [Node.Legal] at h; exact h.1

theorem LegalNodes.mem {e : Node} {es : List Node} (h : LegalNodes es) (he : e ∈ es) : e.Legal := by
  induction es with
  | nil => cases he
  | cons e' es ih =>
    rw [LegalNodes] at h
    rcases List.mem_cons.mp he with rfl | he
    · exact h.1
    · exact ih h.2.2 he

theorem LegalNodes.nodup {es : List Node} (h : LegalNodes es) : (es.map Node.name).Nodup := by
  induction es with
  | nil => exact List.nodup_nil
  | cons e es ih =>
    rw [LegalNodes] at h
    rw [List.map_cons, List.nodup_cons]
    refine ⟨fun hmem => ?_, ih h.2.2⟩
    obtain ⟨e', he', hname⟩ := List.mem_map.mp hmem
    exact h.2.1 e' he' hname

def find (es : List Node) (name : CString) : Option Node := es.find? fun e => e.name = name

theorem find_eq_some {es : List Node} (h : LegalNodes es) {name : CString} {e : Node} :
    find es name = some e ↔ e ∈ es ∧ e.name = name := by
  constructor
  · intro hfind
    exact ⟨List.mem_of_find?_eq_some hfind, by simpa using List.find?_some hfind⟩
  · rintro ⟨he, rfl⟩
    cases hfind : find es e.name with
    | none =>
      have hne := List.find?_eq_none.mp hfind e he
      simp at hne
    | some e' =>
      have he' := List.mem_of_find?_eq_some hfind
      have hname : e'.name = e.name := by simpa using List.find?_some hfind
      rw [List.inj_on_of_nodup_map h.nodup he' he hname]

theorem lookup_cons (es : List Node) (n n' : CString) (ns : List CString) :
    lookup es (n :: n' :: ns) =
      match find es n with
      | some (.dir _ _ _ entries) => lookup entries (n' :: ns)
      | _ => none := rfl

/-- The directory that the names lead to. -/
inductive Leads : List Node → List CString → List Node → Prop
  | here (es : List Node) : Leads es [] es
  | into {es es' : List Node} {names : List CString} {name real : CString} {size : Nat}
      {entries : List Node} (h : find es name = some (.dir name size real entries))
      (hrest : Leads entries names es') : Leads es (name :: names) es'

theorem Leads.lookup_concat {es es' : List Node} {names : List CString} (h : Leads es names es')
    (name : CString) : lookup es (names ++ [name]) = find es' name := by
  induction h with
  | here es => rfl
  | @into es es' names n real size entries hfind _ ih =>
    cases names with
    | nil =>
      rw [List.cons_append, List.nil_append, lookup_cons, hfind]
      exact ih
    | cons n' names =>
      rw [List.cons_append, List.cons_append, lookup_cons, hfind]
      exact ih

theorem Leads.concat {es es' : List Node} {names : List CString} (h : Leads es names es')
    {name real : CString} {size : Nat} {entries : List Node}
    (hfind : find es' name = some (.dir name size real entries)) :
    Leads es (names ++ [name]) entries := by
  induction h with
  | here es => exact .into hfind (.here _)
  | into hfind' _ ih => exact .into hfind' (ih hfind)

theorem Leads.legal {es es' : List Node} {names : List CString} (h : Leads es names es')
    (hes : LegalNodes es) : LegalNodes es' ∧ ∀ n ∈ names, Component n := by
  induction h with
  | here es => exact ⟨hes, fun n hn => by cases hn⟩
  | @into es es' names n real size entries hfind _ ih =>
    have he := hes.mem ((find_eq_some hes).mp hfind).1
    have hname := he.name.1
    rw [Node.Legal] at he
    obtain ⟨hes', hnames⟩ := ih he.2
    refine ⟨hes', fun m hm => ?_⟩
    rcases List.mem_cons.mp hm with rfl | hm
    · exact hname
    · exact hnames m hm

/-! ## The paths built -/

theorem tempPath_eq (root : CString) (names : List CString) (name : CString) :
    tempPath root (pathText names) name =
      root ++ (if names = [] then [] else ['/']) ++ pathText (names ++ [name]) := by
  rw [tempPath, pathText_concat]
  by_cases h : names = []
  · simp [h]
  · simp [h, pathText_eq_nil]

theorem stat_tempPath (r : Root) {names : List CString} {es : List Node}
    (hes : LegalNodes r.entries) (h : Leads r.entries names es) {name : CString}
    (hname : Component name) : r.stat (tempPath r.path (pathText names) name) = find es name := by
  have hcomponents : ∀ n ∈ names ++ [name], Component n := by
    intro n hn
    rcases List.mem_append.mp hn with hn | hn
    · exact (h.legal hes).2 n hn
    · exact List.mem_singleton.mp hn ▸ hname
  rw [tempPath_eq, List.append_assoc, Root.stat, if_pos (List.prefix_append _ _), List.drop_left,
    ← h.lookup_concat]
  congr 1
  split
  · rw [List.nil_append, components_pathText hcomponents]
  · exact (components_slash _).trans (components_pathText hcomponents)

theorem pathToFname_tempPath (root search : CString) {name : CString} (h : Component name) :
    pathToFname (tempPath root search name) = name := by
  have hlast (out : CString) : name.foldl (fun output c => if c = '/' then [] else output ++ [c]) out =
      out ++ name := by
    obtain ⟨-, hslash⟩ := h
    induction name generalizing out with
    | nil => simp
    | cons c name ih =>
      rw [List.mem_cons, not_or] at hslash
      rw [List.foldl_cons, if_neg (Ne.symm hslash.1), ih _ hslash.2, List.append_assoc]
      rfl
  have hafter (s : CString) : pathToFname (s ++ '/' :: name) = name := by
    rw [pathToFname, List.foldl_append, List.foldl_cons, if_pos rfl, hlast, List.nil_append]
  rw [tempPath]
  split
  · exact hafter _
  · exact hafter _

theorem foundName_eq (names : List CString) (name : CString) :
    foundName (pathText names) name = shownName (names ++ [name]) := by
  rw [foundName]
  cases names with
  | nil => rfl
  | cons n names =>
    rw [if_pos (by simp [pathText_cons]), ← pathText_concat]
    cases names <;> rfl

/-! ## The recursion -/

theorem foldlM_perm {α β : Type _} {f : List β → α → Option (List β)} {g : α → List β} {l : List α}
    (h : ∀ a ∈ l, ∃ new, (∀ acc, f acc a = some (acc ++ new)) ∧ new.Perm (g a)) (acc : List β) :
    ∃ out, l.foldlM f acc = some (acc ++ out) ∧ out.Perm (l.flatMap g) := by
  induction l generalizing acc with
  | nil => exact ⟨[], by simp, .refl _⟩
  | cons a l ih =>
    obtain ⟨new, hnew, hperm⟩ := h a List.mem_cons_self
    obtain ⟨out, hout, hrest⟩ := ih (fun b hb => h b (List.mem_cons_of_mem _ hb)) (acc ++ new)
    refine ⟨new ++ out, ?_, hperm.append hrest⟩
    rw [List.foldlM_cons, hnew, Option.bind_eq_bind, Option.bind_some, hout, List.append_assoc]

theorem allBelow_eq (above : List CString) (es : List Node) :
    allBelow above es = es.flatMap fun e => e.all above := by
  induction es with
  | nil => rw [allBelow]; rfl
  | cons e es ih => rw [allBelow, ih, List.flatMap_cons]

mutual
theorem Node.all_path (e : Node) (above : List CString) :
    ∀ p ∈ e.all above, ∃ rest, p.1 = above ++ e.name :: rest := by
  intro p hp
  cases e with
  | file name size real =>
    rw [Node.all, List.mem_singleton] at hp
    exact ⟨[], by rw [hp]; rfl⟩
  | dir name size real entries =>
    rw [Node.all] at hp
    rcases List.mem_cons.mp hp with rfl | hp
    · exact ⟨[], rfl⟩
    · obtain ⟨n, rest, hpath⟩ := allBelow_path entries (above ++ [name]) p hp
      exact ⟨n :: rest, by rw [hpath, List.append_assoc]; rfl⟩

theorem allBelow_path (es : List Node) (above : List CString) :
    ∀ p ∈ allBelow above es, ∃ n rest, p.1 = above ++ n :: rest := by
  intro p hp
  cases es with
  | nil => rw [allBelow] at hp; cases hp
  | cons e es =>
    rw [allBelow, List.mem_append] at hp
    rcases hp with hp | hp
    · exact ⟨e.name, e.all_path above p hp⟩
    · exact allBelow_path es above p hp
end

theorem weight_of_mem {e : Node} {es : List Node} (h : e ∈ es) : e.weight ≤ weightNodes es := by
  induction es with
  | nil => cases h
  | cons e' es ih =>
    rw [weightNodes]
    rcases List.mem_cons.mp h with rfl | h
    · exact Nat.le_add_right _ _
    · exact Nat.le_trans (ih h) (Nat.le_add_left _ _)

section Recursion

variable {r : Root} {filename : CString} {file : MyFile} {names : List CString} {es : List Node}

/-- What the tree below `names` adds to the files found. -/
def foundBelow (r : Root) (filename : CString) (file : MyFile) (ps : List (List CString × Node)) :
    List MyFile :=
  (ps.filter fun p => r.Tries p.1 ∧ Wanted filename file p.2).map record

/-- What one name adds. -/
def foundAt (r : Root) (filename : CString) (file : MyFile) (names : List CString) (es : List Node)
    (name : CString) : List MyFile :=
  match find es name with
  | some e => foundBelow r filename file (e.all names)
  | none => []

theorem foundBelow_cons_of_tries {p : List CString × Node} (h : r.Tries p.1)
    (ps : List (List CString × Node)) : foundBelow r filename file (p :: ps) =
      (if Wanted filename file p.2 then [record p] else []) ++ foundBelow r filename file ps := by
  rw [foundBelow, List.filter_cons]
  by_cases hw : Wanted filename file p.2
  · simp [h, hw, foundBelow]
  · simp [hw, foundBelow]

theorem getSameFile_eq {path : CString} {e : Node} (hstat : r.stat path = some e)
    (hname : pathToFname path = e.name) : r.getSameFile filename file path =
      if Wanted filename file e then some ⟨[], e.real, e.size⟩ else none := by
  rw [Root.getSameFile, hstat, Option.bind_some, hname]
  by_cases hreal : e.real = file.path
  · rw [if_pos hreal, if_neg fun hw => hw.2.2 hreal]
  · rw [if_neg hreal]
    by_cases hother : e.name ≠ filename ∨ e.size ≠ file.size
    · rw [if_pos hother, if_neg]
      rintro ⟨hn, hs, -⟩
      rcases hother with h | h
      · exact h hn
      · exact h hs
    · rw [if_neg hother, if_pos]
      rw [not_or, not_not, not_not] at hother
      exact ⟨hother.1, hother.2, hreal⟩

/-- The names of the root meet the entries of `es` that bear them. -/
theorem flatMap_foundAt (hr : LegalNodes r.entries) (hes : LegalNodes es) :
    ((r.entries.map Node.name).flatMap (foundAt r filename file names es)).Perm
      (foundBelow r filename file (allBelow names es)) := by
  let tried := (r.entries.map Node.name).filterMap (find es)
  have htried : ((r.entries.map Node.name).flatMap (foundAt r filename file names es)) =
      tried.flatMap fun e => foundBelow r filename file (e.all names) := by
    simp only [tried]
    induction r.entries.map Node.name with
    | nil => rfl
    | cons n ns ih =>
      rw [List.flatMap_cons, ih, List.filterMap_cons, foundAt]
      cases find es n <;> rfl
  have hperm : tried.Perm (es.filter fun e => e.name ∈ r.entries.map Node.name) := by
    refine (List.perm_ext_iff_of_nodup ?_ ?_).mpr fun e => ?_
    · refine hr.nodup.filterMap fun n n' e hn hn' => ?_
      rw [← ((find_eq_some hes).mp hn).2, ((find_eq_some hes).mp hn').2]
    · exact hes.nodup.of_map.filter _
    · rw [List.mem_filterMap, List.mem_filter, decide_eq_true_eq]
      constructor
      · rintro ⟨n, hn, hfind⟩
        obtain ⟨he, rfl⟩ := (find_eq_some hes).mp hfind
        exact ⟨he, hn⟩
      · rintro ⟨he, hn⟩
        exact ⟨e.name, hn, (find_eq_some hes).mpr ⟨he, rfl⟩⟩
  have hrest : ((es.filter fun e => e.name ∈ r.entries.map Node.name).flatMap fun e =>
      foundBelow r filename file (e.all names)) = foundBelow r filename file (allBelow names es) := by
    rw [allBelow_eq]
    clear hperm htried hes
    induction es with
    | nil => rfl
    | cons e es ih =>
      have happend (ps qs : List (List CString × Node)) : foundBelow r filename file (ps ++ qs) =
          foundBelow r filename file ps ++ foundBelow r filename file qs := by
        rw [foundBelow, List.filter_append, List.map_append]
        rfl
      rw [List.flatMap_cons, happend, ← ih, List.filter_cons]
      split
      · rw [List.flatMap_cons]
      · rename_i hout
        rw [decide_eq_true_eq] at hout
        have hnone : foundBelow r filename file (e.all names) = [] := by
          rw [foundBelow, List.map_eq_nil_iff, List.filter_eq_nil_iff]
          intro p hp hkeep
          rw [decide_eq_true_eq] at hkeep
          obtain ⟨rest, hpath⟩ := e.all_path names p hp
          exact hout (hkeep.1 _ (by rw [hpath]; simp))
        rw [hnone, List.nil_append]
  rw [htried, ← hrest]
  exact hperm.flatMap_right _

theorem visitName_perm (hr : LegalNodes r.entries) (hleads : Leads r.entries names es)
    (htries : r.Tries names) {recurse : CString → Option (List MyFile)} {name : CString}
    (hname : name ∈ r.entries.map Node.name)
    (hrec : ∀ size real entries, find es name = some (.dir name size real entries) →
      ∃ below, recurse (pathText (names ++ [name])) = some below ∧
        below.Perm (foundBelow r filename file (allBelow (names ++ [name]) entries))) :
    ∃ new, (∀ found, visitName r filename file recurse (pathText names) found name =
      some (found ++ new)) ∧ new.Perm (foundAt r filename file names es name) := by
  obtain ⟨e₀, he₀, rfl⟩ := List.mem_map.mp hname
  obtain ⟨hcomponent, hdot⟩ := (hr.mem he₀).name
  have hstat := stat_tempPath r hr hleads hcomponent
  have hfname := pathToFname_tempPath r.path (pathText names) hcomponent
  have htries' : r.Tries (names ++ [e₀.name]) := by
    intro n hn
    rcases List.mem_append.mp hn with hn | hn
    · exact htries n hn
    · exact List.mem_singleton.mp hn ▸ hname
  generalize e₀.name = name at *
  cases hfind : find es name with
  | none =>
    rw [hfind] at hstat
    refine ⟨[], fun found => ?_, ?_⟩
    · simp [visitName, hdot, Root.getSameFile, Root.isDir, hstat]
    · rw [foundAt, hfind]
  | some e =>
    rw [hfind] at hstat
    obtain ⟨-, hen⟩ := (find_eq_some (hleads.legal hr).1).mp hfind
    have hsame : r.getSameFile filename file (tempPath r.path (pathText names) name) =
        if Wanted filename file e then some ⟨[], e.real, e.size⟩ else none :=
      getSameFile_eq hstat (hfname.trans hen.symm)
    have hrecord : ((r.getSameFile filename file (tempPath r.path (pathText names) name)).map fun f =>
        ({ f with name := foundName (pathText names) name } : MyFile)).toList =
          if Wanted filename file e then [record (names ++ [name], e)] else [] := by
      rw [hsame, foundName_eq]
      split <;> rfl
    cases e with
    | file n size real =>
      obtain rfl : n = name := hen
      refine ⟨if Wanted filename file (.file n size real) then [record (names ++ [n], .file n size real)]
        else [], fun found => ?_, ?_⟩
      · simp only [visitName, hdot, Bool.false_eq_true, if_false, Root.isDir, hstat, hrecord]
      · simp only [foundAt, hfind]
        rw [Node.all, foundBelow_cons_of_tries htries']
        exact .of_eq (List.append_nil _).symm
    | dir n size real entries =>
      obtain rfl : n = name := hen
      obtain ⟨below, hbelow, hperm⟩ := hrec size real entries hfind
      rw [pathText_concat] at hbelow
      refine ⟨(if Wanted filename file (.dir n size real entries) then
        [record (names ++ [n], .dir n size real entries)] else []) ++ below, fun found => ?_, ?_⟩
      · simp only [visitName, hdot, Bool.false_eq_true, if_false, Root.isDir, hstat, hrecord, if_true, hbelow,
          Option.map_some, List.append_assoc]
      · simp only [foundAt, hfind]
        rw [Node.all, foundBelow_cons_of_tries htries']
        exact hperm.append_left _

theorem findFiles_perm (hr : LegalNodes r.entries) (filename : CString) (file : MyFile) {fuel : Nat}
    (hleads : Leads r.entries names es) (htries : r.Tries names) (hfuel : weightNodes es < fuel) :
    ∃ found, findFiles r filename file fuel (pathText names) = some found ∧
      found.Perm (foundBelow r filename file (allBelow names es)) := by
  induction fuel generalizing names es with
  | zero => exact absurd hfuel (Nat.not_lt_zero _)
  | succ fuel ih =>
    let g (name : CString) := if isDotName name then [] else foundAt r filename file names es name
    have hes := (hleads.legal hr).1
    have hstep : ∀ name ∈ r.listing, ∃ new,
        (∀ found, visitName r filename file (findFiles r filename file fuel) (pathText names) found name =
          some (found ++ new)) ∧ new.Perm (g name) := by
      intro name hmem
      cases hdot : isDotName name with
      | true => exact ⟨[], fun found => by simp [visitName, hdot], by simp [g, hdot]⟩
      | false =>
        have hname : name ∈ r.entries.map Node.name :=
          r.listed.subset (List.mem_filter.mpr ⟨hmem, by simp [hdot]⟩)
        have hg : g name = foundAt r filename file names es name := by simp [g, hdot]
        rw [hg]
        refine visitName_perm hr hleads htries hname fun size real entries hfind => ?_
        have hin := weight_of_mem ((find_eq_some hes).mp hfind).1
        rw [Node.weight] at hin
        refine ih (hleads.concat hfind) (fun n hn => ?_) (by omega)
        rcases List.mem_append.mp hn with hn | hn
        · exact htries n hn
        · exact List.mem_singleton.mp hn ▸ hname
    obtain ⟨found, hfound, hperm⟩ := foldlM_perm hstep []
    refine ⟨found, hfound, hperm.trans ?_⟩
    have hlisting : r.listing.flatMap g =
        (r.listing.filter fun n => !isDotName n).flatMap (foundAt r filename file names es) := by
      induction r.listing with
      | nil => rfl
      | cons n ns ih =>
        rw [List.flatMap_cons, List.filter_cons, ih]
        cases hdot : isDotName n with
        | true => simp [g, hdot]
        | false => simp [g, hdot]
    rw [hlisting]
    exact (r.listed.flatMap_right _).trans (flatMap_foundAt hr hes)

end Recursion

/-! ## The arrays -/

/-- The search paths that `find_files` is called with. -/
inductive Root.Searched (r : Root) : CString → Prop
  | root : r.Searched []
  | dir {searchPath name : CString} (h : r.Searched searchPath) (hmem : name ∈ r.listing)
    (hdot : isDotName name = false) (hdir : r.isDir (tempPath r.path searchPath name) = true) :
    r.Searched (searchPath ++ '/' :: name)

/-- Every path that is tried fits. -/
def Root.Fits (r : Root) : Prop :=
  ∀ searchPath, r.Searched searchPath → ∀ name ∈ r.listing, isDotName name = false →
    r.PathFits (tempPath r.path searchPath name)

/-- The records behind those that are there, as far as there is room. -/
def store (foundFiles found : List MyFile) : Option (List MyFile) :=
  if foundFiles.length + found.length ≤ FILE_BUFFER_SIZE then some (foundFiles ++ found) else none

theorem store_append (foundFiles a b : List MyFile) :
    (store foundFiles a).bind (fun x => store x b) = store foundFiles (a ++ b) := by
  by_cases ha : foundFiles.length + a.length ≤ FILE_BUFFER_SIZE
  · rw [store, if_pos ha, Option.bind_some, store, store, List.length_append, List.length_append,
      Nat.add_assoc, List.append_assoc]
  · have hab : ¬foundFiles.length + (a ++ b).length ≤ FILE_BUFFER_SIZE := by
      rw [List.length_append]
      omega
    rw [store, if_neg ha, store, if_neg hab, Option.bind_none]

theorem length_of_store {foundFiles a x : List MyFile} (h : store foundFiles a = some x) :
    x.length ≤ FILE_BUFFER_SIZE := by
  rw [store] at h
  split at h
  · cases h
    rwa [List.length_append]
  · cases h

theorem saveFile_eq {foundFiles : List MyFile} (h : foundFiles.length ≤ FILE_BUFFER_SIZE)
    (same : Option MyFile) : saveFile foundFiles same = store foundFiles same.toList := by
  cases same with
  | none => exact (if_pos h).symm.trans (by rw [store, Option.toList_none, List.append_nil]; rfl)
  | some f => rfl

section Buffers

variable {r : Root} {filename : CString} {file : MyFile} {searchPath : CString}
  {recurse : CString → Option (List MyFile)}
  {recurseInBuffers : CString → List MyFile → Option (List MyFile)}

/-- One name: the records found before are stored, and with those of the name at the same time. -/
theorem visitNameInBuffers_eq (filename : CString) (file : MyFile) {name : CString}
    (hfits : isDotName name = false → r.PathFits (tempPath r.path searchPath name))
    (hrec : isDotName name = false → r.isDir (tempPath r.path searchPath name) = true →
      ∀ foundFiles, foundFiles.length ≤ FILE_BUFFER_SIZE →
        recurseInBuffers (searchPath ++ '/' :: name) foundFiles =
          (recurse (searchPath ++ '/' :: name)).bind (store foundFiles))
    (foundFiles found : List MyFile) :
    (store foundFiles found).bind (fun x =>
        visitNameInBuffers r filename file recurseInBuffers searchPath x name) =
      (visitName r filename file recurse searchPath found name).bind (store foundFiles) := by
  cases hdot : isDotName name with
  | true =>
    simp only [visitNameInBuffers, visitName, hdot, if_true, Option.bind_some]
    exact Option.bind_fun_some _
  | false =>
    let same := (r.getSameFile filename file (tempPath r.path searchPath name)).map fun f =>
      ({ f with name := foundName searchPath name } : MyFile)
    have hsaved (x : List MyFile) :
        visitNameInBuffers r filename file recurseInBuffers searchPath x name =
          (saveFile x same).bind fun y =>
            if r.isDir (tempPath r.path searchPath name) then
              recurseInBuffers (searchPath ++ '/' :: name) y
            else some y := by
      rw [visitNameInBuffers, hdot, if_neg Bool.false_ne_true, if_pos (hfits hdot)]
    have hstored : (store foundFiles found).bind (fun x => saveFile x same) =
        store foundFiles (found ++ same.toList) := by
      rw [← store_append]
      exact Option.bind_congr fun x hx => saveFile_eq (length_of_store hx) same
    simp only [hsaved]
    rw [← Option.bind_assoc, hstored]
    cases hdir : r.isDir (tempPath r.path searchPath name) with
    | false =>
      have hvisit : visitName r filename file recurse searchPath found name =
          some (found ++ same.toList) := by
        rw [visitName, hdot, if_neg Bool.false_ne_true]
        exact if_neg (by rw [hdir]; exact Bool.false_ne_true)
      rw [hvisit]
      exact Option.bind_fun_some _
    | true =>
      have hvisit : visitName r filename file recurse searchPath found name =
          (recurse (searchPath ++ '/' :: name)).map (found ++ same.toList ++ ·) := by
        rw [visitName, hdot, if_neg Bool.false_ne_true]
        exact if_pos hdir
      have hbelow (y : List MyFile) (hy : store foundFiles (found ++ same.toList) = some y) :
          (if true then recurseInBuffers (searchPath ++ '/' :: name) y else some y) =
            (recurse (searchPath ++ '/' :: name)).bind (store y) :=
        hrec hdot hdir y (length_of_store hy)
      rw [hvisit, Option.bind_congr hbelow]
      cases recurse (searchPath ++ '/' :: name) with
      | none => exact Option.bind_fun_none _
      | some below => exact store_append _ _ _

end Buffers

/-- **The arrays are large enough** for paths that fit, up to the number of records there is room for:
by induction on the fuel, and on the listing. -/
theorem findFilesInBuffers_eq {r : Root} (hfits : r.Fits) (filename : CString) (file : MyFile)
    (fuel : Nat) {searchPath : CString} (hs : r.Searched searchPath) {foundFiles : List MyFile}
    (hroom : foundFiles.length ≤ FILE_BUFFER_SIZE) :
    findFilesInBuffers r filename file fuel searchPath foundFiles =
      (findFiles r filename file fuel searchPath).bind (store foundFiles) := by
  induction fuel generalizing searchPath foundFiles with
  | zero => rfl
  | succ fuel ih =>
    have hnames (names : List CString) (hsub : names ⊆ r.listing) (found : List MyFile) :
        (store foundFiles found).bind (fun x => names.foldlM (visitNameInBuffers r filename file
            (findFilesInBuffers r filename file fuel) searchPath) x) =
          (names.foldlM (visitName r filename file (findFiles r filename file fuel) searchPath)
            found).bind (store foundFiles) := by
      induction names generalizing found with
      | nil => exact Option.bind_fun_some _
      | cons name names ihn =>
        obtain ⟨hmem, hsub⟩ := List.cons_subset.mp hsub
        have hvisit := visitNameInBuffers_eq filename file (hfits _ hs name hmem)
          (fun hdot hdir x hx => ih (hs.dir hmem hdot hdir) hx) foundFiles found
        simp only [List.foldlM_cons, Option.bind_eq_bind]
        rw [← Option.bind_assoc, hvisit, Option.bind_assoc, Option.bind_assoc]
        exact Option.bind_congr fun found' _ => ihn hsub found'
    have hempty : store foundFiles [] = some foundFiles := by
      rw [store, List.append_nil]
      exact if_pos hroom
    have hall := hnames r.listing (List.Subset.refl _) []
    rw [hempty, Option.bind_some] at hall
    rw [findFilesInBuffers, findFiles]
    exact hall

/-- Called as in `ssu_find`, with the original recorded: what is found stands behind it. -/
theorem findFilesInBuffers_finds {r : Root} (hr : LegalNodes r.entries) (hfits : r.Fits)
    (filename : CString) (file : MyFile) {fuel : Nat} (hfuel : weightNodes r.entries < fuel)
    (hroom : ((allBelow [] r.entries).filter fun p => Wanted filename file p.2).length <
      FILE_BUFFER_SIZE) :
    ∃ found, findFilesInBuffers r filename file fuel [] [file] = some (file :: found) ∧
      found.Perm (foundBelow r filename file (allBelow [] r.entries)) := by
  obtain ⟨found, hfound, hperm⟩ := findFiles_perm hr filename file (.here r.entries)
    (fun n hn => by cases hn) hfuel
  refine ⟨found, ?_, hperm⟩
  have hsub : (foundBelow r filename file (allBelow [] r.entries)).length ≤
      ((allBelow [] r.entries).filter fun p => Wanted filename file p.2).length := by
    rw [foundBelow, List.length_map]
    refine (List.monotone_filter_right _ fun p hp => ?_).length_le
    rw [decide_eq_true_eq] at hp ⊢
    exact hp.2
  have hlength : [file].length + found.length ≤ FILE_BUFFER_SIZE := by
    rw [hperm.length_eq, List.length_singleton]
    omega
  have hfound' : findFiles r filename file fuel [] = some found := hfound
  have hone : [file].length ≤ FILE_BUFFER_SIZE := by
    rw [List.length_singleton]
    decide
  rw [findFilesInBuffers_eq hfits filename file fuel .root hone, hfound', Option.bind_some, store,
    if_pos hlength]
  rfl

/-! ## The whole -/

/-- The files found are the wanted entries of the tree, each once. -/
def FindsExactly (r : Root) (filename : CString) (file : MyFile) (found : List MyFile) : Prop :=
  found.Perm (((allBelow [] r.entries).filter fun p => Wanted filename file p.2).map record)

theorem findFiles_exact_iff (r : Root) (hr : LegalNodes r.entries) (filename : CString) (file : MyFile)
    (fuel : Nat) (hfuel : weightNodes r.entries < fuel) :
    ∃ found, findFiles r filename file fuel [] = some found ∧
      (FindsExactly r filename file found ↔
        ∀ p ∈ allBelow [] r.entries, Wanted filename file p.2 → r.Tries p.1) := by
  obtain ⟨found, hfound, hperm⟩ := findFiles_perm hr filename file (.here r.entries)
    (fun n hn => by cases hn) hfuel
  refine ⟨found, hfound, ?_⟩
  rw [FindsExactly, hperm.congr_left, foundBelow]
  constructor
  · intro h p hp hw
    have hlength := h.length_eq
    rw [List.length_map, List.length_map] at hlength
    have hsub : ((allBelow [] r.entries).filter fun p => r.Tries p.1 ∧ Wanted filename file p.2).Sublist
        ((allBelow [] r.entries).filter fun p => Wanted filename file p.2) :=
      List.monotone_filter_right _ fun p hp => by
        rw [decide_eq_true_eq] at hp ⊢
        exact hp.2
    have hin : p ∈ (allBelow [] r.entries).filter fun p => Wanted filename file p.2 :=
      List.mem_filter.mpr ⟨hp, decide_eq_true hw⟩
    rw [← hsub.eq_of_length hlength] at hin
    exact (of_decide_eq_true (List.mem_filter.mp hin).2).1
  · intro h
    refine .of_eq (congrArg _ (List.filter_congr fun p hp => decide_eq_decide.mpr ?_))
    exact and_iff_right_of_imp (h p hp)

/-- The directory `/r` with the files `f` and `d/f`, both of 3 bytes. -/
def nested : Root where
  path := ['/', 'r']
  entries :=
    [.dir ['d'] 4096 ['/', 'r', '/', 'd'] [.file ['f'] 3 ['/', 'r', '/', 'd', '/', 'f']],
      .file ['f'] 3 ['/', 'r', '/', 'f']]
  listing := [['.'], ['.', '.'], ['d'], ['f']]
  listed := .refl _

theorem findFiles_exact_nested :
    ∃ found, findFiles nested ['f'] ⟨['f'], ['/', 'r', '/', 'f'], 3⟩ 4 [] = some found ∧
      (FindsExactly nested ['f'] ⟨['f'], ['/', 'r', '/', 'f'], 3⟩ found ↔
        ∀ p ∈ allBelow [] nested.entries, Wanted ['f'] ⟨['f'], ['/', 'r', '/', 'f'], 3⟩ p.2 →
          nested.Tries p.1) := by
  refine findFiles_exact_iff nested ?_ ['f'] ⟨['f'], ['/', 'r', '/', 'f'], 3⟩ 4 ?_
  · have hd : Component ['d'] := ⟨by simp, by simp⟩
    have hf : Component ['f'] := ⟨by simp, by simp⟩
    simp [nested, LegalNodes, Node.Legal, Node.name, isDotName, hd, hf]
  · simp [nested, weightNodes, Node.weight]

/-- The directory `/r` with the file `d/f`, and no `f` in the root. -/
def onlyNested : Root where
  path := ['/', 'r']
  entries := [.dir ['d'] 4096 ['/', 'r', '/', 'd'] [.file ['f'] 3 ['/', 'r', '/', 'd', '/', 'f']]]
  listing := [['.'], ['.', '.'], ['d']]
  listed := .refl _

/-- The file is looked for under names of the root only. -/
theorem nested_file_missed :
    findFiles onlyNested ['f'] ⟨['f'], ['/', 'f'], 3⟩ 3 [] = some [] ∧
      ¬FindsExactly onlyNested ['f'] ⟨['f'], ['/', 'f'], 3⟩ [] := by
  refine ⟨rfl, fun h => ?_⟩
  have hlength := h.length_eq
  simp [onlyNested, allBelow, Node.all, Wanted, Node.name, Node.size, Node.real] at hlength

end Index
end SsuComputer
