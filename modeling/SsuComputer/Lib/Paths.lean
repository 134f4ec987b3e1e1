import SsuComputer.Lib.CString

/-!
# SsuComputer.Lib.Paths

The texts of paths, from their components.

* `pathText` — a slash in front of each component; `components` — the components of a text, where
  empty ones do not count.
* `components_pathText` — they are those that the text was made from.
-/

namespace SsuComputer

/-- A name that a directory can hold. -/
structure Component (name : CString) : Prop where
  ne_nil : name ≠ []
  no_slash : '/' ∉ name

def pathText (names : List CString) : CString := names.flatMap fun n => '/' :: n

def components (path : CString) : List CString := strtok '/' path

@[simp] theorem pathText_nil : pathText [] = [] := rfl

theorem pathText_cons (n : CString) (ns : List CString) : pathText (n :: ns) = '/' :: n ++ pathText ns :=
  rfl

theorem pathText_concat (ns : List CString) (n : CString) :
    pathText (ns ++ [n]) = pathText ns ++ '/' :: n := by
  rw [pathText, List.flatMap_append, List.flatMap_singleton]
  rfl

theorem pathText_append (ns ns' : List CString) : pathText (ns ++ ns') = pathText ns ++ pathText ns' :=
  List.flatMap_append

theorem pathText_eq_nil {ns : List CString} : pathText ns = [] ↔ ns = [] := by
  cases ns with
  | nil => simp
  | cons n ns => simp [pathText_cons]

theorem components_slash (path : CString) : components ('/' :: path) = components path := by
  rw [components, strtok, pieces, if_pos rfl, if_pos rfl]
  rfl

theorem pieces_append {name : CString} (h : '/' ∉ name) (piece rest : CString) :
    pieces '/' piece (name ++ rest) = pieces '/' (piece ++ name) rest := by
  induction name generalizing piece with
  | nil => rw [List.nil_append, List.append_nil]
  | cons c name ih =>
    rw [List.mem_cons, not_or] at h
    rw [List.cons_append, pieces, if_neg (Ne.symm h.1), ih h.2, List.append_assoc]
    rfl

theorem pieces_slash (piece s t : CString) :
    pieces '/' piece (s ++ '/' :: t) = pieces '/' piece s ++ pieces '/' [] t := by
  induction s generalizing piece with
  | nil =>
    rw [List.nil_append, pieces, pieces, if_pos rfl]
    split <;> rfl
  | cons c s ih =>
    rw [List.cons_append, pieces, pieces]
    split
    · split
      · exact ih []
      · rw [ih, List.cons_append]
    · exact ih _

theorem components_append (path path' : CString) :
    components (path ++ '/' :: path') = components path ++ components path' :=
  pieces_slash [] path path'

theorem components_cons {name : CString} (h : Component name) (rest : CString) :
    components ('/' :: name ++ '/' :: rest) = name :: components ('/' :: rest) := by
  rw [List.cons_append, components_slash, components_slash, components, strtok, pieces_append h.no_slash,
    List.nil_append, pieces, if_pos rfl, if_neg h.ne_nil]
  rfl

theorem components_single {name : CString} (h : Component name) : components ('/' :: name) = [name] := by
  have hpieces := pieces_append h.no_slash [] []
  rw [List.append_nil, List.nil_append] at hpieces
  rw [components_slash, components, strtok, hpieces, pieces, if_neg h.ne_nil]

theorem components_name {name : CString} (h : Component name) : components name = [name] :=
  (components_slash name).symm.trans (components_single h)

/-- The first component goes on from what has been read of it. -/
theorem pieces_head {piece : CString} (h : piece ≠ []) (path : CString) :
    ∃ name names, pieces '/' piece path = name :: names ∧ piece <+: name := by
  induction path generalizing piece with
  | nil => exact ⟨piece, [], by rw [pieces, if_neg h], List.prefix_refl _⟩
  | cons c path ih =>
    rw [pieces]
    by_cases hc : c = '/'
    · rw [if_pos hc, if_neg h]
      exact ⟨piece, _, rfl, List.prefix_refl _⟩
    · rw [if_neg hc]
      have hpiece : piece ++ [c] ≠ [] := List.append_ne_nil_of_right_ne_nil _ (List.cons_ne_nil c [])
      obtain ⟨name, names, heq, hstarts⟩ := ih hpiece
      exact ⟨name, names, heq, (List.prefix_append piece [c]).trans hstarts⟩

/-- The first component starts with what stands in front of the slashes. -/
theorem components_head {start : CString} (h : Component start) (path : CString) :
    ∃ name names, components (start ++ path) = name :: names ∧ start <+: name := by
  rw [components, strtok, pieces_append h.no_slash]
  exact pieces_head h.ne_nil path

theorem components_pathText {ns : List CString} (h : ∀ n ∈ ns, Component n) :
    components (pathText ns) = ns := by
  induction ns with
  | nil => rfl
  | cons n ns ih =>
    have hn := h n List.mem_cons_self
    cases ns with
    | nil => rw [pathText_cons, pathText_nil, List.append_nil, components_single hn]
    | cons n' ns =>
      have hrest := ih fun m hm => h m (List.mem_cons_of_mem _ hm)
      rw [pathText_cons n, pathText_cons n']
      exact (components_cons hn (n' ++ pathText ns)).trans (congrArg (List.cons n) hrest)

end SsuComputer
