import Mathlib.Algebra.Order.Group.Nat
import SsuComputer.Sindex.Directory

/-!
# SsuComputer.Sindex.DirectoryExact

What `compare_directory` finds in two trees.

* `treeDiff` — the entries without a counterpart and the common names, by the names alone.
* `Sorted` — sorted lists without a name twice, in every directory.
* `compareDirectory_reports` — the two cursors report just that, in any two trees.
* `compareDirectory_exact_iff` — and name the directories right, unless the path of one with an entry
  of its own contains the path of the working directory and does not go on from it.
-/

namespace SsuComputer
namespace Sindex

/-! ## What there is to find -/

inductive Finding
  | only (dir name : CString)
  | common (dir1 dir2 name : CString)

def Event.finding : Event → Finding
  | .onlyIn fname _ name => .only fname name
  | .common fname1 fname2 name _ => .common fname1 fname2 name

def named (l : List Entry) (name : CString) : Option Entry := l.find? fun b => b.name = name

/-- The entries of `l` whose names are not in `l'`. -/
def without (dir : CString) (l l' : List Entry) : List Finding :=
  (l.filter fun a => !isDot a.name && (named l' a.name).isNone).map fun a => .only dir a.name

mutual
/-- The findings in two directories of the same name. -/
def Entry.inside (r : Bool) (dir1 dir2 : CString) : Entry → Entry → List Finding
  | .dir _ l1, .dir _ l2 =>
    if r then without dir1 l1 l2 ++ without dir2 l2 l1 ++ shared r dir1 dir2 l2 l1 else []
  | _, _ => []

/-- The entries of a directory whose names are in `l2` too. -/
def shared (r : Bool) (dir1 dir2 : CString) (l2 : List Entry) : List Entry → List Finding
  | [] => []
  | a :: l1 =>
    (if isDot a.name then []
    else match named l2 a.name with
      | some b => .common dir1 dir2 a.name ::
          a.inside r (pathname dir1 a.name) (pathname dir2 a.name) b
      | none => []) ++ shared r dir1 dir2 l2 l1
end

def treeDiff (r : Bool) (dir1 : CString) (l1 : List Entry) (dir2 : CString) (l2 : List Entry) :
    List Finding :=
  without dir1 l1 l2 ++ without dir2 l2 l1 ++ shared r dir1 dir2 l2 l1

mutual
def Entry.Sorted : Entry → Prop
  | .dir _ l => Sorted l
  | .reg _ => True
  | .other _ => True

/-- Ascending names, here and in all directories below. -/
def Sorted : List Entry → Prop
  | [] => True
  | a :: l => a.Sorted ∧ (∀ b ∈ l, strcmp a.name b.name < 0) ∧ Sorted l
end

mutual
def Entry.weight : Entry → Nat
  | .dir _ l => 1 + weight l
  | .reg _ => 1
  | .other _ => 1

/-- The number of entries. -/
def weight : List Entry → Nat
  | [] => 0
  | a :: l => a.weight + weight l
end

/-! ## One entry more -/

section Cons

variable {r : Bool} {dir dir1 dir2 : CString} {a b : Entry} {l l' l1 l2 : List Entry}

theorem named_cons_of_ne {name : CString} (h : b.name ≠ name) : named (b :: l) name = named l name := by
  rw [named, List.find?_cons, decide_eq_false h]
  rfl

theorem named_cons_self : named (b :: l) b.name = some b := by
  rw [named, List.find?_cons, decide_eq_true rfl]

theorem named_eq_none {name : CString} (h : ∀ b ∈ l, b.name ≠ name) : named l name = none := by
  rw [named, List.find?_eq_none]
  intro b hb
  simpa using h b hb

theorem without_congr (h : ∀ a ∈ l, isDot a.name = false → named l' a.name = named l2 a.name) :
    without dir l l' = without dir l l2 := by
  rw [without, without]
  congr 1
  refine List.filter_congr fun a ha => ?_
  cases hdot : isDot a.name with
  | true => rfl
  | false => rw [h a ha hdot]

theorem without_cons_of_dot (h : isDot a.name = true) : without dir (a :: l) l' = without dir l l' := by
  rw [without, List.filter_cons, h]
  rfl

theorem without_cons_of_named (h : named l' a.name = some b) :
    without dir (a :: l) l' = without dir l l' := by
  rw [without, List.filter_cons, h]
  simp [without]

theorem without_cons_of_none (hdot : isDot a.name = false) (h : named l' a.name = none) :
    without dir (a :: l) l' = .only dir a.name :: without dir l l' := by
  rw [without, List.filter_cons, h, hdot]
  rfl

theorem shared_congr (h : ∀ a ∈ l1, isDot a.name = false → named l a.name = named l2 a.name) :
    shared r dir1 dir2 l l1 = shared r dir1 dir2 l2 l1 := by
  induction l1 with
  | nil => rw [shared, shared]
  | cons a l1 ih =>
    rw [shared, shared, ih fun b hb => h b (List.mem_cons_of_mem _ hb)]
    cases hdot : isDot a.name with
    | true => rfl
    | false => rw [h a List.mem_cons_self hdot]

theorem name_ne_of_dot (ha : isDot a.name = true) (hb : isDot b.name = false) : a.name ≠ b.name := by
  intro h
  rw [h, hb] at ha
  cases ha

theorem treeDiff_dot_left (h : isDot a.name = true) :
    treeDiff r dir1 (a :: l1) dir2 l2 = treeDiff r dir1 l1 dir2 l2 := by
  have hright : without dir2 l2 (a :: l1) = without dir2 l2 l1 :=
    without_congr fun b _ hb => named_cons_of_ne (name_ne_of_dot h hb)
  rw [treeDiff, treeDiff, without_cons_of_dot h, hright, shared, if_pos h, List.nil_append]

theorem treeDiff_dot_right (h : isDot b.name = true) :
    treeDiff r dir1 l1 dir2 (b :: l2) = treeDiff r dir1 l1 dir2 l2 := by
  have hleft : without dir1 l1 (b :: l2) = without dir1 l1 l2 :=
    without_congr fun a _ ha => named_cons_of_ne (name_ne_of_dot h ha)
  have hshared : shared r dir1 dir2 (b :: l2) l1 = shared r dir1 dir2 l2 l1 :=
    shared_congr fun a _ ha => named_cons_of_ne (name_ne_of_dot h ha)
  rw [treeDiff, treeDiff, without_cons_of_dot h, hleft, hshared]

theorem ne_of_strcmp {x y : CString} (h : strcmp x y < 0) : x ≠ y := by
  rintro rfl
  rw [strcmp_self] at h
  exact Int.lt_irrefl 0 h

/-- `a` comes before all of `l2`. -/
theorem treeDiff_only_left (hdot : isDot a.name = false) (h : ∀ b ∈ l2, strcmp a.name b.name < 0) :
    treeDiff r dir1 (a :: l1) dir2 l2 = .only dir1 a.name :: treeDiff r dir1 l1 dir2 l2 := by
  have hnone : named l2 a.name = none := named_eq_none fun b hb => Ne.symm (ne_of_strcmp (h b hb))
  have hright : without dir2 l2 (a :: l1) = without dir2 l2 l1 :=
    without_congr fun b hb _ => named_cons_of_ne (ne_of_strcmp (h b hb))
  rw [treeDiff, treeDiff, without_cons_of_none hdot hnone, hright, shared, hdot, hnone]
  rfl

theorem treeDiff_only_right (hdot : isDot b.name = false) (h : ∀ a ∈ l1, strcmp b.name a.name < 0) :
    (treeDiff r dir1 l1 dir2 (b :: l2)).Perm (.only dir2 b.name :: treeDiff r dir1 l1 dir2 l2) := by
  have hnone : named l1 b.name = none := named_eq_none fun a ha => Ne.symm (ne_of_strcmp (h a ha))
  have hleft : without dir1 l1 (b :: l2) = without dir1 l1 l2 :=
    without_congr fun a ha _ => named_cons_of_ne (ne_of_strcmp (h a ha))
  have hshared : shared r dir1 dir2 (b :: l2) l1 = shared r dir1 dir2 l2 l1 :=
    shared_congr fun a ha _ => named_cons_of_ne (ne_of_strcmp (h a ha))
  rw [treeDiff, treeDiff, without_cons_of_none hdot hnone, hleft, hshared, List.append_assoc,
    List.append_assoc]
  exact List.perm_middle

theorem treeDiff_common (hdot : isDot a.name = false) (hab : a.name = b.name)
    (h1 : ∀ a' ∈ l1, strcmp a.name a'.name < 0) (h2 : ∀ b' ∈ l2, strcmp b.name b'.name < 0) :
    (treeDiff r dir1 (a :: l1) dir2 (b :: l2)).Perm
      (.common dir1 dir2 a.name :: a.inside r (pathname dir1 a.name) (pathname dir2 a.name) b ++
        treeDiff r dir1 l1 dir2 l2) := by
  have hb : named (b :: l2) a.name = some b := by rw [hab, named_cons_self]
  have ha : named (a :: l1) b.name = some a := by rw [← hab, named_cons_self]
  have hleft : without dir1 l1 (b :: l2) = without dir1 l1 l2 :=
    without_congr fun a' ha' _ => named_cons_of_ne (hab ▸ ne_of_strcmp (h1 a' ha'))
  have hright : without dir2 l2 (a :: l1) = without dir2 l2 l1 :=
    without_congr fun b' hb' _ => named_cons_of_ne (hab ▸ ne_of_strcmp (h2 b' hb'))
  have hshared : shared r dir1 dir2 (b :: l2) l1 = shared r dir1 dir2 l2 l1 :=
    shared_congr fun a' ha' _ => named_cons_of_ne (hab ▸ ne_of_strcmp (h1 a' ha'))
  rw [treeDiff, treeDiff, without_cons_of_named hb, without_cons_of_named ha, hleft, hright, shared,
    hdot, hb, hshared]
  exact List.perm_append_comm_assoc _ _ _

end Cons

/-! ## The loops -/

/-- The text printed for a directory is that of `get_relpath`. -/
def Event.Printed (c : Settings) : Event → Prop
  | .onlyIn fname relpath _ => relpath = getRelpath c fname
  | .common _ _ _ _ => True

structure Reports (c : Settings) (findings : List Finding) (es : List Event) : Prop where
  findings : (es.map Event.finding).Perm findings
  printed : ∀ e ∈ es, e.Printed c

theorem mem_weight {a : Entry} {l : List Entry} (h : a ∈ l) : a.weight ≤ weight l := by
  induction l with
  | nil => cases h
  | cons b l ih =>
    rw [weight]
    rcases List.mem_cons.mp h with rfl | h
    · exact Nat.le_add_right _ _
    · have := ih h
      omega

theorem length_le_weight (l : List Entry) : l.length ≤ weight l := by
  induction l with
  | nil => exact Nat.zero_le _
  | cons a l ih =>
    have hpos : 0 < a.weight := by cases a <;> simp [Entry.weight]
    rw [weight, List.length_cons]
    omega

theorem Sorted.mem {a : Entry} {l : List Entry} (h : Sorted l) (ha : a ∈ l) : a.Sorted := by
  induction l with
  | nil => cases ha
  | cons b l ih =>
    rw [Sorted] at h
    obtain ⟨hb, -, hl⟩ := h
    rcases List.mem_cons.mp ha with rfl | ha
    · exact hb
    · exact ih hl ha

theorem Sorted.drop {l : List Entry} (h : Sorted l) (k : Nat) : Sorted (l.drop k) := by
  induction k generalizing l with
  | zero => exact h
  | succ k ih =>
    cases l with
    | nil => exact h
    | cons a l =>
      rw [Sorted] at h
      exact ih h.2.2

theorem Sorted.before {l : List Entry} (h : Sorted l) {k : Nat} (hk : k < l.length) :
    ∀ b ∈ l.drop (k + 1), strcmp l[k].name b.name < 0 := by
  have hdrop := h.drop k
  rw [List.drop_eq_getElem_cons hk, Sorted] at hdrop
  exact hdrop.2.1

section Loops

variable {c : Settings} {fname1 fname2 : CString} {l1 l2 : List Entry}
  {call : CString → List Entry → CString → List Entry → Option (List Event)}

/-- The calls for the directories below come back with what there is to find. -/
def CallsReport (c : Settings) (call : CString → List Entry → CString → List Entry → Option (List Event))
    (l1 l2 : List Entry) : Prop :=
  ∀ name1 entries1 name2 entries2, Entry.dir name1 entries1 ∈ l1 → Entry.dir name2 entries2 ∈ l2 →
    ∀ path1 path2, ∃ es, call path1 entries1 path2 entries2 = some es ∧
      Reports c (treeDiff c.rOption path1 entries1 path2 entries2) es

theorem commonEntry_reports (hcall : CallsReport c call l1 l2) (fname1 fname2 : CString) {a b : Entry}
    (ha : a ∈ l1) (hb : b ∈ l2) : ∃ es, commonEntry c call fname1 fname2 a b = some es ∧
      Reports c (.common fname1 fname2 a.name ::
        a.inside c.rOption (pathname fname1 a.name) (pathname fname2 b.name) b) es := by
  have hsingle (name : CString) (action : Action) :
      Reports c [.common fname1 fname2 name] [.common fname1 fname2 name action] :=
    ⟨.refl _, by simp [Event.Printed]⟩
  cases a with
  | dir name1 entries1 =>
    cases b with
    | dir name2 entries2 =>
      rw [Entry.inside]
      cases hr : c.rOption with
      | false => exact ⟨_, if_neg (by simp [hr]), hsingle _ _⟩
      | true =>
        obtain ⟨es, hes, hfind, hprint⟩ := hcall name1 entries1 name2 entries2 ha hb
          (pathname fname1 name1) (pathname fname2 name2)
        refine ⟨.common fname1 fname2 name1 (.compareDirectory (pathname fname1 name1)
          (pathname fname2 name2)) :: es, ?_, ?_, ?_⟩
        · simp only [commonEntry, hr, if_true, Entry.name, hes, Option.map_some]
        · rw [hr, treeDiff] at hfind
          rw [if_pos rfl]
          exact hfind.cons _
        · intro e he
          rcases List.mem_cons.mp he with rfl | he
          · trivial
          · exact hprint e he
    | reg name2 => exact ⟨_, rfl, hsingle _ _⟩
    | other name2 => exact ⟨_, rfl, hsingle _ _⟩
  | reg name1 => cases b <;> exact ⟨_, rfl, hsingle _ _⟩
  | other name1 => cases b <;> exact ⟨_, rfl, hsingle _ _⟩

/-- What is reported so far, and what there is to find from the cursors on. -/
structure MergeInv (c : Settings) (fname1 : CString) (l1 : List Entry) (fname2 : CString)
    (l2 : List Entry) (k : Nat) (s : Merge) : Prop where
  steps : k = (l1.length - s.i) + (l2.length - s.j)
  within : s.i ≤ l1.length ∧ s.j ≤ l2.length
  findings : (s.out.map Event.finding ++
    treeDiff c.rOption fname1 (l1.drop s.i) fname2 (l2.drop s.j)).Perm
      (treeDiff c.rOption fname1 l1 fname2 l2)
  printed : ∀ e ∈ s.out, e.Printed c

namespace MergeInv

variable {k : Nat} {s : Merge}

theorem next (h : MergeInv c fname1 l1 fname2 l2 k s) {i j : Nat} {es : List Event}
    (hi : i ≤ l1.length) (hj : j ≤ l2.length)
    (hdiff : (treeDiff c.rOption fname1 (l1.drop s.i) fname2 (l2.drop s.j)).Perm
      (es.map Event.finding ++ treeDiff c.rOption fname1 (l1.drop i) fname2 (l2.drop j)))
    (hes : ∀ e ∈ es, e.Printed c) :
    MergeInv c fname1 l1 fname2 l2 ((l1.length - i) + (l2.length - j)) ⟨i, j, s.out ++ es⟩ := by
  refine ⟨rfl, ⟨hi, hj⟩, ?_, fun e he => ?_⟩
  · rw [List.map_append, List.append_assoc]
    exact (hdiff.symm.append_left _).trans h.findings
  · rcases List.mem_append.mp he with he | he
    · exact h.printed e he
    · exact hes e he

theorem skip (h : MergeInv c fname1 l1 fname2 l2 k s) {i j : Nat} (hi : i ≤ l1.length)
    (hj : j ≤ l2.length) (hdiff : treeDiff c.rOption fname1 (l1.drop s.i) fname2 (l2.drop s.j) =
      treeDiff c.rOption fname1 (l1.drop i) fname2 (l2.drop j)) :
    MergeInv c fname1 l1 fname2 l2 ((l1.length - i) + (l2.length - j)) ⟨i, j, s.out⟩ := by
  have hnext : MergeInv c fname1 l1 fname2 l2 _ ⟨i, j, s.out ++ []⟩ :=
    h.next hi hj (hdiff ▸ .refl _) fun e he => by cases he
  rwa [List.append_nil] at hnext

end MergeInv

theorem mergeBody_inv (hcall : CallsReport c call l1 l2) (h1 : Sorted l1) (h2 : Sorted l2) {k : Nat}
    {s : Merge} (h : MergeInv c fname1 l1 fname2 l2 k s)
    (hmore : (s.i < l1.length && s.j < l2.length : Bool) = true) :
    ∃ s' k', mergeBody c call fname1 l1 fname2 l2 s = some s' ∧ k' < k ∧
      MergeInv c fname1 l1 fname2 l2 k' s' := by
  simp only [Bool.and_eq_true, decide_eq_true_eq] at hmore
  obtain ⟨hi, hj⟩ := hmore
  have hsteps := h.steps
  have hdrop1 := List.drop_eq_getElem_cons hi
  have hdrop2 := List.drop_eq_getElem_cons hj
  have hbefore1 := h1.before hi
  have hbefore2 := h2.before hj
  have hmem1 := List.getElem_mem hi
  have hmem2 := List.getElem_mem hj
  simp only [mergeBody, List.getElem?_eq_getElem hi, List.getElem?_eq_getElem hj]
  generalize l1[s.i] = a at *
  generalize l2[s.j] = b at *
  split
  · rename_i hdot
    refine ⟨_, _, rfl, ?_, h.skip hi (Nat.le_of_lt hj) ?_⟩
    · omega
    · rw [hdrop1, treeDiff_dot_left hdot]
  · rename_i hdot1
    split
    · rename_i hdot
      refine ⟨_, _, rfl, ?_, h.skip (Nat.le_of_lt hi) hj ?_⟩
      · omega
      · rw [hdrop2, treeDiff_dot_right hdot]
    · rename_i hdot2
      rw [Bool.not_eq_true] at hdot1 hdot2
      split
      · rename_i heq
        have hname := strcmp_eq_zero.mp heq
        obtain ⟨es, hes, hfind, hprint⟩ := commonEntry_reports hcall fname1 fname2 hmem1 hmem2
        refine ⟨_, _, by rw [hes, Option.map_some], ?_, h.next hi hj ?_ hprint⟩
        · omega
        · rw [hdrop1, hdrop2]
          rw [← hname] at hfind
          exact (treeDiff_common hdot1 hname hbefore1 hbefore2).trans (hfind.symm.append_right _)
      · rename_i hne
        split
        · rename_i hlt
          refine ⟨_, _, rfl, ?_, h.next hi (Nat.le_of_lt hj) (.of_eq ?_) (by simp [Event.Printed])⟩
          · omega
          · rw [hdrop1]
            refine treeDiff_only_left hdot1 fun b' hb' => ?_
            rw [hdrop2] at hb'
            rcases List.mem_cons.mp hb' with rfl | hb'
            · exact hlt
            · exact strcmp_trans hlt (hbefore2 b' hb')
        · rename_i hge
          have hgt : strcmp a.name b.name > 0 := by omega
          have hlt := strcmp_swap.mpr hgt
          rw [if_pos hgt]
          refine ⟨_, _, rfl, ?_, h.next (Nat.le_of_lt hi) hj ?_ (by simp [Event.Printed])⟩
          · omega
          · rw [hdrop2]
            refine treeDiff_only_right hdot2 fun a' ha' => ?_
            rw [hdrop1] at ha'
            rcases List.mem_cons.mp ha' with rfl | ha'
            · exact hlt
            · exact strcmp_trans hlt (hbefore1 a' ha')

theorem restBody1_inv {k : Nat} {s : Merge}
    (h : MergeInv c fname1 l1 fname2 l2 k s ∧ (s.i = l1.length ∨ s.j = l2.length))
    (hmore : decide (s.i < l1.length) = true) :
    ∃ s' k', restBody1 c fname1 l1 s = some s' ∧ k' < k ∧ MergeInv c fname1 l1 fname2 l2 k' s' ∧
      (s'.i = l1.length ∨ s'.j = l2.length) := by
  obtain ⟨h, hend⟩ := h
  simp only [decide_eq_true_eq] at hmore
  have hj : s.j = l2.length := by omega
  have hsteps := h.steps
  have hdrop1 := List.drop_eq_getElem_cons hmore
  have hdrop2 : l2.drop s.j = [] := by rw [hj, List.drop_length]
  simp only [restBody1, List.getElem?_eq_getElem hmore, Option.map_some]
  split
  · rename_i hdot
    refine ⟨_, _, rfl, ?_, h.skip hmore h.within.2 ?_, .inr hj⟩
    · omega
    · rw [hdrop1, treeDiff_dot_left hdot]
  · rename_i hdot
    rw [Bool.not_eq_true] at hdot
    refine ⟨_, _, rfl, ?_, h.next hmore h.within.2 (.of_eq ?_) (by simp [Event.Printed]), .inr hj⟩
    · omega
    · rw [hdrop1, hdrop2]
      exact treeDiff_only_left hdot fun b hb => by cases hb

theorem restBody2_inv {k : Nat} {s : Merge}
    (h : MergeInv c fname1 l1 fname2 l2 k s ∧ s.i = l1.length)
    (hmore : decide (s.j < l2.length) = true) :
    ∃ s' k', restBody2 c fname2 l2 s = some s' ∧ k' < k ∧ MergeInv c fname1 l1 fname2 l2 k' s' ∧
      s'.i = l1.length := by
  obtain ⟨h, hi⟩ := h
  simp only [decide_eq_true_eq] at hmore
  have hsteps := h.steps
  have hdrop1 : l1.drop s.i = [] := by rw [hi, List.drop_length]
  have hdrop2 := List.drop_eq_getElem_cons hmore
  simp only [restBody2, List.getElem?_eq_getElem hmore, Option.map_some]
  split
  · rename_i hdot
    refine ⟨_, _, rfl, ?_, h.skip h.within.1 hmore ?_, hi⟩
    · omega
    · rw [hdrop2, treeDiff_dot_right hdot]
  · rename_i hdot
    rw [Bool.not_eq_true] at hdot
    refine ⟨_, _, rfl, ?_, h.next h.within.1 hmore ?_ (by simp [Event.Printed]), hi⟩
    · omega
    · rw [hdrop1, hdrop2]
      exact treeDiff_only_right hdot fun a ha => by cases ha

end Loops

/-- By induction on the fuel, which the trees below need less of. -/
theorem compareDirectory_reports (c : Settings) {fuel : Nat} {l1 l2 : List Entry}
    (h1 : Sorted l1) (h2 : Sorted l2) (hfuel : weight l1 + weight l2 < fuel) (fname1 fname2 : CString) :
    ∃ es, compareDirectory fuel c fname1 l1 fname2 l2 = some es ∧
      Reports c (treeDiff c.rOption fname1 l1 fname2 l2) es := by
  induction fuel generalizing l1 l2 fname1 fname2 with
  | zero => exact absurd hfuel (Nat.not_lt_zero _)
  | succ fuel ih =>
    have hlen1 := length_le_weight l1
    have hlen2 := length_le_weight l2
    have hcall : CallsReport c (compareDirectory fuel c) l1 l2 := by
      intro name1 entries1 name2 entries2 hm1 hm2 path1 path2
      have hw1 := mem_weight hm1
      have hw2 := mem_weight hm2
      have hs1 := h1.mem hm1
      have hs2 := h2.mem hm2
      rw [Entry.weight] at hw1 hw2
      rw [Entry.Sorted] at hs1 hs2
      exact ih hs1 hs2 (by omega) path1 path2
    have hstart : MergeInv c fname1 l1 fname2 l2 (l1.length + l2.length) ⟨0, 0, []⟩ :=
      ⟨rfl, ⟨Nat.zero_le _, Nat.zero_le _⟩, .refl _, fun e he => by cases he⟩
    have hfuel' : l1.length + l2.length ≤ fuel := by omega
    obtain ⟨s₁, k₁, hrun₁, hinv₁, hend₁⟩ := whileLoop_of_measure
      (fun _ _ => mergeBody_inv hcall h1 h2) _ _ hstart hfuel'
    have hstop : s₁.i = l1.length ∨ s₁.j = l2.length := by
      have hwithin := hinv₁.within
      simp only [Bool.and_eq_false_iff, decide_eq_false_iff_not] at hend₁
      omega
    have hk₁ : k₁ ≤ fuel := by
      have hsteps := hinv₁.steps
      omega
    obtain ⟨s₂, k₂, hrun₂, ⟨hinv₂, -⟩, hend₂⟩ := whileLoop_of_measure
      (I := fun k s => MergeInv c fname1 l1 fname2 l2 k s ∧ (s.i = l1.length ∨ s.j = l2.length))
      (fun _ _ => restBody1_inv) _ _ ⟨hinv₁, hstop⟩ hk₁
    have hi : s₂.i = l1.length := by
      have hwithin := hinv₂.within
      simp only [decide_eq_false_iff_not] at hend₂
      omega
    have hk₂ : k₂ ≤ fuel := by
      have hsteps := hinv₂.steps
      omega
    obtain ⟨s₃, k₃, hrun₃, ⟨hinv₃, hi₃⟩, hend₃⟩ := whileLoop_of_measure
      (I := fun k s => MergeInv c fname1 l1 fname2 l2 k s ∧ s.i = l1.length) (fun _ _ => restBody2_inv) _ _ ⟨hinv₂, hi⟩ hk₂
    have hj₃ : s₃.j = l2.length := by
      have hwithin := hinv₃.within
      simp only [decide_eq_false_iff_not] at hend₃
      omega
    refine ⟨s₃.out, ?_, ?_, hinv₃.printed⟩
    · rw [compareDirectory]
      simp only [hrun₁, hrun₂, hrun₃, Option.bind_eq_bind, Option.bind_some]
    · have hfind := hinv₃.findings
      rw [hi₃, hj₃, List.drop_length, List.drop_length, treeDiff, without, without, shared] at hfind
      simpa using hfind

/-! ## The directories named -/

/-- The text names the directory from the working directory. -/
def Names (cwd text dir : CString) : Prop :=
  text = dir ∨ text ≠ [] ∧ (if cwd = ['/'] then '/' :: text else pathname cwd text) = dir

/-- The path is not that of the working directory and either does not contain it or goes on from it;
the working directory is not the root. -/
def Shown (cwd dir : CString) : Prop :=
  ¬ cwd <:+: dir ∨ cwd ≠ ['/'] ∧ cwd ++ ['/'] <+: dir ∧ dir ≠ cwd ++ ['/']

theorem getRelpath_of_infix {c : Settings} {dir : CString} (h : c.cwd <:+: dir) :
    getRelpath c dir = if c.cwd.length + 1 ≤ dir.length then dir.drop (c.cwd.length + 1)
      else c.behind := by
  obtain ⟨before, found, hs, -⟩ := strstr_append_of_infix h []
  rw [getRelpath, hs]

theorem names_drop_iff {cwd dir : CString} (hlen : cwd.length + 1 ≤ dir.length) :
    Names cwd (dir.drop (cwd.length + 1)) dir ↔
      cwd ≠ ['/'] ∧ cwd ++ ['/'] <+: dir ∧ dir ≠ cwd ++ ['/'] := by
  have hlength := List.length_drop (i := cwd.length + 1) (l := dir)
  constructor
  · rintro (h | ⟨hne, h⟩)
    · have hshort := congrArg List.length h
      omega
    · split at h
      · rename_i hroot
        have hone := congrArg List.length hroot
        have hshort := congrArg List.length h
        rw [List.length_cons, hlength] at hshort
        rw [List.length_singleton] at hone
        omega
      · rename_i hroot
        refine ⟨hroot, ⟨dir.drop (cwd.length + 1), ?_⟩, ?_⟩
        · rw [List.append_assoc]
          exact h
        · intro hdir
          refine hne (List.eq_nil_of_length_eq_zero ?_)
          rw [hlength, hdir, List.length_append, List.length_singleton, Nat.sub_self]
  · rintro ⟨hroot, ⟨rest, rfl⟩, hne⟩
    have hrest : (cwd ++ ['/'] ++ rest).drop (cwd.length + 1) = rest := by
      rw [← List.length_singleton (a := '/'), ← List.length_append, List.drop_left]
    rw [hrest]
    refine .inr ⟨?_, ?_⟩
    · rintro rfl
      exact hne (List.append_nil _)
    · rw [if_neg hroot, pathname, List.append_assoc]
      rfl

theorem names_iff (r : Bool) (cwd dir : CString) :
    (∀ behind, Names cwd (getRelpath ⟨r, cwd, behind⟩ dir) dir) ↔ Shown cwd dir := by
  by_cases hin : cwd <:+: dir
  · have hshown : Shown cwd dir ↔ cwd ≠ ['/'] ∧ cwd ++ ['/'] <+: dir ∧ dir ≠ cwd ++ ['/'] :=
      ⟨fun h => h.resolve_left (not_not_intro hin), .inr⟩
    have htext (behind : CString) := getRelpath_of_infix (c := ⟨r, cwd, behind⟩) hin
    by_cases hlen : cwd.length + 1 ≤ dir.length
    · simp only [htext, if_pos hlen, names_drop_iff hlen, hshown, forall_const]
    · -- the text behind the path of the working directory can be any
      rw [hshown]
      refine iff_of_false (fun h => ?_) fun h => hlen ?_
      · have hbehind := h ('x' :: dir)
        rw [htext, if_neg hlen] at hbehind
        rcases hbehind with hb | ⟨-, hb⟩
        · have hlong := congrArg List.length hb
          rw [List.length_cons] at hlong
          omega
        · have hlong := congrArg List.length hb
          split at hlong
          · simp only [List.length_cons] at hlong
            omega
          · simp only [pathname, List.length_append, List.length_cons] at hlong
            omega
      · have hle := h.2.1.length_le
        rwa [List.length_append] at hle
  · have htext (behind : CString) : getRelpath ⟨r, cwd, behind⟩ dir = dir := by
      rw [getRelpath, strstr_eq_none_of_not_infix hin]
    refine iff_of_true (fun behind => .inl (htext behind)) (.inl hin)

/-! ## The whole -/

/-- The findings are reported, each once, with the directories named right, whatever lies behind the
paths in memory. -/
def ComparesExactly (fuel : Nat) (r : Bool) (cwd fname1 : CString) (l1 : List Entry)
    (fname2 : CString) (l2 : List Entry) : Prop :=
  ∀ behind, ∃ es, compareDirectory fuel ⟨r, cwd, behind⟩ fname1 l1 fname2 l2 = some es ∧
    (es.map Event.finding).Perm (treeDiff r fname1 l1 fname2 l2) ∧
    ∀ fname relpath name, Event.onlyIn fname relpath name ∈ es → Names cwd relpath fname

theorem compareDirectory_exact_iff (r : Bool) (cwd fname1 : CString) (l1 : List Entry)
    (fname2 : CString) (l2 : List Entry) (h1 : Sorted l1) (h2 : Sorted l2) (fuel : Nat)
    (hfuel : weight l1 + weight l2 < fuel) :
    (∀ behind, ∃ es, compareDirectory fuel ⟨r, cwd, behind⟩ fname1 l1 fname2 l2 = some es ∧
      (es.map Event.finding).Perm (treeDiff r fname1 l1 fname2 l2)) ∧
    (ComparesExactly fuel r cwd fname1 l1 fname2 l2 ↔
      ∀ dir name, Finding.only dir name ∈ treeDiff r fname1 l1 fname2 l2 → Shown cwd dir) := by
  have hruns (behind : CString) :=
    compareDirectory_reports ⟨r, cwd, behind⟩ h1 h2 hfuel fname1 fname2
  constructor
  · intro behind
    obtain ⟨es, hes, hreports⟩ := hruns behind
    exact ⟨es, hes, hreports.findings⟩
  · constructor
    · intro h dir name hfind
      refine (names_iff r cwd dir).mp fun behind => ?_
      obtain ⟨es, hes, hperm, hnames⟩ := h behind
      obtain ⟨e, he, hname⟩ := List.mem_map.mp (hperm.symm.subset hfind)
      obtain ⟨es', hes', hreports⟩ := hruns behind
      rw [hes] at hes'
      cases hes'
      cases e with
      | common => cases hname
      | onlyIn fname relpath name' =>
        cases hname
        have hprinted : relpath = _ := hreports.printed _ he
        exact hprinted ▸ hnames _ _ _ he
    · intro h behind
      obtain ⟨es, hes, hreports⟩ := hruns behind
      refine ⟨es, hes, hreports.findings, fun fname relpath name he => ?_⟩
      have hprinted : relpath = _ := hreports.printed _ he
      rw [hprinted]
      refine (names_iff r cwd fname).mpr (h fname name ?_) behind
      exact hreports.findings.subset (List.mem_map_of_mem he)

/-- The trees `/a` and `/b` seen from `/c`, with `s` in both and a file of its own below the first. -/
theorem compareDirectory_exact_two_levels :
    let l1 : List Entry := [.other ['.'], .dir ['s'] [.reg ['x']]]
    let l2 : List Entry := [.dir ['s'] [], .reg ['t']]
    (∀ behind, ∃ es,
      compareDirectory 6 ⟨true, ['/', 'c'], behind⟩ ['/', 'a'] l1 ['/', 'b'] l2 = some es ∧
        (es.map Event.finding).Perm (treeDiff true ['/', 'a'] l1 ['/', 'b'] l2)) ∧
    (ComparesExactly 6 true ['/', 'c'] ['/', 'a'] l1 ['/', 'b'] l2 ↔
      ∀ dir name, Finding.only dir name ∈ treeDiff true ['/', 'a'] l1 ['/', 'b'] l2 →
        Shown ['/', 'c'] dir) := by
  intro l1 l2
  refine compareDirectory_exact_iff true ['/', 'c'] ['/', 'a'] l1 ['/', 'b'] l2 ?_ ?_ 6 ?_
  · simp [l1, Sorted, Entry.Sorted, Entry.name, strcmp]
  · simp [l2, Sorted, Entry.Sorted, Entry.name, strcmp]
  · simp [l1, l2, weight, Entry.weight]

/-- The working directory is one of the two: what lies behind its path is printed for it. -/
theorem working_directory_misnamed :
    ¬ComparesExactly 2 false ['/', 'd'] ['/', 'd'] [.reg ['a']] ['/', 'e'] [] := by
  intro h
  obtain ⟨es, hes, -, hnames⟩ := h []
  have hrun : compareDirectory 2 ⟨false, ['/', 'd'], []⟩ ['/', 'd'] [.reg ['a']] ['/', 'e'] [] =
      some [.onlyIn ['/', 'd'] [] ['a']] := rfl
  rw [hrun] at hes
  cases hes
  have hname := hnames _ _ _ List.mem_cons_self
  simp [Names] at hname

end Sindex
end SsuComputer
