import SsuComputer.Sfinder.ListReorder

/-!
# SsuComputer.Sfinder.TrashCommand

`trash` and what `insert_sort_fileset` makes of one list of files.

* `convert_trash_category` has the categories that `convert_list_category` has not.
* `trash` is the list that it leaves in `trash_list_h`; what it prints is left out.
* `insertSortFileset_sorts_iff` — the list is sorted with no file lost exactly when no two adjacent
  files are exchanged; with the category date every test in ascending order asks for an exchange,
  and none in descending order does.
-/

namespace SsuComputer
namespace Sfinder

def convertTrashCategory (str : CString) : Option Category :=
  if str = ['f', 'i', 'l', 'e', 'n', 'a', 'm', 'e'] then some .filename
  else if str = ['s', 'i', 'z', 'e'] then some .size
  else if str = ['d', 'a', 't', 'e'] then some .date
  else if str = ['t', 'i', 'm', 'e'] then some .time
  else none

inductive TrashOpt
  | c (optarg : CString)
  | o (optarg : Int)

structure TrashFlags where
  cFlag : Category
  order : Int
  errorFlag : Bool

def TrashFlags.add (fl : TrashFlags) : TrashOpt → Option TrashFlags
  | .c optarg => (convertTrashCategory optarg).map fun c => { fl with cFlag := c }
  | .o optarg =>
    some { fl with order := optarg, errorFlag := fl.errorFlag || (optarg ≠ 1 && optarg ≠ -1) }

/-- The options of `trash`, and `none` where it returns with an error. -/
def TrashFlags.parse (opts : List TrashOpt) : Option TrashFlags :=
  (opts.foldlM TrashFlags.add ⟨.filename, 1, false⟩).filter fun fl => !fl.errorFlag

/-- `trash`: the links and `trash_list_h`. -/
def trash (localtime : Int → Int × Int) (nodes : Nodes) (fuel : Nat) (next : Ptr → Option Ptr)
    (trashListH : Option Ptr) (opts : List TrashOpt) : Option ((Ptr → Option Ptr) × Option Ptr) :=
  match trashListH with
  | none => some (next, none)
  | some head =>
    if next head = none then some (next, trashListH)
    else
      match TrashFlags.parse opts with
      | none => some (next, trashListH)
      | some fl =>
        (insertSortFileset localtime nodes fuel next head fl.cFlag fl.order).map fun r =>
          (r.1, some r.2)

section Sorted

variable (localtime : Int → Int × Int) (nodes : Nodes) (c : Category) (order : Int)

/-- The chain after the head has the files `xs`, in the order asked for. -/
def SortsFiles (xs : List Ptr) (next : Ptr → Option Ptr) (phead : Ptr) : Prop :=
  ∃ ys, Linked next (some phead) (phead :: ys) ∧ ys.Perm xs ∧ InOrder localtime nodes c order ys

/-- Already in order, for ascending order without equal keys next to each other, and for ascending
order of dates without two files. -/
def AlreadySorted (xs : List Ptr) : Prop :=
  if c = .date ∧ order = 1 then xs.length ≤ 1
  else xs.IsChain fun a b =>
    categoryLt localtime c (nodes.info a) (nodes.info b) = decide (order = 1)

variable {localtime nodes c order} {next next' : Ptr → Option Ptr} {phead phead' : Ptr}
  {xs ys : List Ptr}

theorem isChain_false_iff {R : Ptr → Ptr → Prop} (hR : ∀ a b, ¬R a b) :
    xs.IsChain R ↔ xs.length ≤ 1 := by
  rcases xs with _ | ⟨a, _ | ⟨b, rest⟩⟩
  · simp
  · simp
  · simp [hR a b]

/-- A list left alone has to be in order already, and is in order. -/
theorem alreadySorted_iff : AlreadySorted localtime nodes c order xs ↔
    Settled (cmpAt localtime nodes c order id) xs ∧ InOrder localtime nodes c order xs := by
  rw [AlreadySorted, Settled]
  by_cases hc : c = .date
  · subst hc
    by_cases ho : order = 1
    · rw [if_pos ⟨rfl, ho⟩, isChain_false_iff fun a b => by
        simp [cmpAt, sortFunc, ho, sortKeyLt_date]]
      refine ⟨fun h => ⟨h, ?_⟩, And.left⟩
      rcases xs with _ | ⟨a, _ | ⟨b, rest⟩⟩
      · exact .nil
      · exact List.pairwise_singleton ..
      · simp at h
    · have hkey := categoryLt_strictWeak localtime .date
      have hweak : StrictWeak fun a b => categoryLt localtime .date (nodes.info a) (nodes.info b) :=
        ⟨hkey.asymm, hkey.negTrans⟩
      have hsettled : xs.IsChain fun a b => cmpAt localtime nodes .date order id a b = false := by
        simp only [cmpAt, sortFunc, ho, sortKeyLt_date]
        exact (List.pairwise_of_forall fun _ _ => rfl).isChain
      simp only [ho, and_false, if_false, decide_false, hsettled, true_and, InOrder]
      exact ⟨hweak.descending, List.Pairwise.isChain⟩
  · rw [if_neg fun h => hc h.1]
    have hsettled : Settled (cmpAt localtime nodes c order id) xs ↔ xs.IsChain fun a b =>
        categoryLt localtime c (nodes.info a) (nodes.info b) = decide (order = 1) := by
      by_cases ho : order = 1 <;> simp [Settled, cmpAt, sortFunc, ho, sortKeyLt_eq localtime hc]
    rw [← hsettled]
    exact ⟨fun h => ⟨h, inOrder_of_settled localtime nodes c order hc h⟩, And.left⟩

theorem Sorts.sortsFiles_iff
    (hs : Sorts (cmpAt localtime nodes c order id) next phead xs next' phead' ys)
    (h : Linked next (some phead) (phead :: xs)) :
    SortsFiles localtime nodes c order xs next' phead' ↔ AlreadySorted localtime nodes c order xs := by
  rw [alreadySorted_iff]
  constructor
  · rintro ⟨zs, hlinked, hperm, horder⟩
    obtain rfl : zs = ys := (List.cons.inj (hlinked.unique hs.linked)).2
    have hset := (hs.perm_iff h).mp hperm
    exact ⟨hset, hs.eq_of_settled h hset ▸ horder⟩
  · rintro ⟨hset, horder⟩
    exact ⟨ys, hs.linked, (hs.perm_iff h).mpr hset, (hs.eq_of_settled h hset).symm ▸ horder⟩

/-- **The list is sorted without a loss** exactly when it is sorted before and left alone: each
exchange drops the node that the head pointed to. -/
theorem insertSortFileset_sorts_iff (localtime : Int → Int × Int) (nodes : Nodes) (c : Category)
    (order : Int) {next : Ptr → Option Ptr} {phead : Ptr} {xs : List Ptr}
    (h : Linked next (some phead) (phead :: xs)) {fuel : Nat}
    (hfuel : sortFuel (xs.length + 1) xs.length ≤ fuel) :
    ∃ next' phead', insertSortFileset localtime nodes fuel next phead c order = some (next', phead') ∧
      (SortsFiles localtime nodes c order xs next' phead' ↔
        AlreadySorted localtime nodes c order xs) := by
  obtain ⟨next', phead', ys, hrun, hsorts⟩ :=
    insertSortFileset_sorts localtime nodes c order h h.nodup hfuel
  exact ⟨next', phead', hrun, hsorts.sortsFiles_iff h⟩

/-- The command sorts the trash without a loss in the same cases. -/
theorem trash_sorts_iff (localtime : Int → Int × Int) (nodes : Nodes) {next : Ptr → Option Ptr}
    {head : Ptr} {xs : List Ptr} (h : Linked next (some head) (head :: xs)) (hne : xs ≠ [])
    {opts : List TrashOpt} {fl : TrashFlags} (hopts : TrashFlags.parse opts = some fl) {fuel : Nat}
    (hfuel : sortFuel (xs.length + 1) xs.length ≤ fuel) :
    ∃ next' head', trash localtime nodes fuel next (some head) opts = some (next', some head') ∧
      (SortsFiles localtime nodes fl.cFlag fl.order xs next' head' ↔
        AlreadySorted localtime nodes fl.cFlag fl.order xs) := by
  obtain ⟨next', head', ys, hrun, hsorts⟩ :=
    insertSortFileset_sorts localtime nodes fl.cFlag fl.order h h.nodup hfuel
  have hfirst : next head ≠ none := by
    obtain ⟨p, rest, rfl⟩ := List.exists_cons_of_ne_nil hne
    rw [h.2.1]
    exact Option.some_ne_none p
  refine ⟨next', head', ?_, hsorts.sortsFiles_iff h⟩
  simp only [trash, hfirst, if_false, hopts, hrun, Option.map_some]

end Sorted

/-- The head 0, and after it the files 2 and 1. -/
def twoFiles (p : Ptr) : Option Ptr := if p = 0 then some 2 else if p = 2 then some 1 else none

theorem twoFiles_linked : Linked twoFiles (some 0) [0, 2, 1] := ⟨rfl, rfl, rfl, rfl⟩

/-- A node after the head that holds the size of its number. -/
def bySize : Nodes where
  info p := ⟨['/', Char.ofNat (p + 48)], { Stat.zero with size := p }⟩
  filesize p := p

/-- Two files in the wrong order: the smaller one becomes the head, and the list is one file long. -/
theorem insertSortFileset_loses_file :
    insertSortFileset (fun _ => (0, 0)) bySize 11 twoFiles 0 .size 1 =
        some (exchange twoFiles 0 2 1, 1) ∧
      ¬SortsFiles (fun _ => (0, 0)) bySize .size 1 [2, 1] (exchange twoFiles 0 2 1) 1 := by
  refine ⟨rfl, ?_⟩
  rintro ⟨ys, hlinked, hperm, -⟩
  have hone : Linked (exchange twoFiles 0 2 1) (some 1) [1, 2] := ⟨rfl, rfl, rfl⟩
  have heq : ys = [2] := (List.cons.inj (hlinked.unique hone)).2
  have hlength := hperm.length_eq
  rw [heq] at hlength
  cases hlength

theorem insertSortFileset_sorts_descending :
    ∃ next' phead', insertSortFileset (fun _ => (0, 0)) bySize 11 twoFiles 0 .size (-1) =
        some (next', phead') ∧
      (SortsFiles (fun _ => (0, 0)) bySize .size (-1) [2, 1] next' phead' ↔
        AlreadySorted (fun _ => (0, 0)) bySize .size (-1) [2, 1]) :=
  insertSortFileset_sorts_iff (fun _ => (0, 0)) bySize .size (-1) twoFiles_linked (by decide)

end Sfinder
end SsuComputer
