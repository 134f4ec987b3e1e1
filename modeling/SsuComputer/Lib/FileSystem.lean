import Mathlib.Data.List.Basic
import Mathlib.Data.Option.Basic

/-!
# SsuComputer.Lib.FileSystem

File systems with links, and the resolution of paths in them.

* `entries` are the entries of all directories. A file or directory has a number, so that several
  entries may name one file.
* `resolve nofollow b` follows at most `b` links, and none at the last name if `nofollow` is set; it
  keeps the entries that it went through.
* `resolve_erase` — without some entries, just the paths through them are gone.
* `unlink_erase` — entries that lead to files are removed one by one whatever their order, for none
  of them is on the way to another.
-/

namespace SsuComputer

inductive PathStep (α : Type _)
  | here
  | up
  | name (n : α)
deriving DecidableEq

inductive FsEntry (α : Type _)
  | file (i : Nat)
  | dir (d : Nat)
  | link (absolute : Bool) (target : List (PathStep α))
deriving DecidableEq

/-- What a path leads to; an entry if the last name is not followed. -/
inductive FsObject (α : Type _)
  | file (i : Nat)
  | dir (d : Nat)
  | entry (e : Nat × α)
deriving DecidableEq

structure Resolved (α : Type _) where
  object : FsObject α
  through : List (Nat × α)

def Resolved.via {α : Type _} (e : Nat × α) (r : Resolved α) : Resolved α :=
  { r with through := e :: r.through }

structure FileSystem (α : Type _) where
  root : Nat
  parent : Nat → Nat
  entries : List ((Nat × α) × FsEntry α)

namespace FileSystem

variable {α : Type _} [DecidableEq α] (fs : FileSystem α)

def lookup (e : Nat × α) : Option (FsEntry α) := (fs.entries.find? fun x => x.1 = e).map Prod.snd

def names (d : Nat) : List α := (fs.entries.filter fun x => x.1.1 = d).map fun x => x.1.2

def erase (gone : List (Nat × α)) : FileSystem α :=
  { fs with entries := fs.entries.filter fun x => x.1 ∉ gone }

/-- Where the target of a link is looked up from. -/
def start (absolute : Bool) (d : Nat) : Nat := if absolute then fs.root else d

def walkFrom (nofollow : Bool) (follow : Nat → List (PathStep α) → Option (Resolved α)) :
    Nat → List (PathStep α) → Option (Resolved α)
  | d, [] => some ⟨.dir d, []⟩
  | d, .here :: steps => walkFrom nofollow follow d steps
  | d, .up :: steps => walkFrom nofollow follow (fs.parent d) steps
  | d, .name n :: steps =>
    match fs.lookup (d, n) with
    | none => none
    | some e =>
      if nofollow ∧ steps = [] then some ⟨.entry (d, n), [(d, n)]⟩
      else
        match e with
        | .file i => if steps = [] then some ⟨.file i, [(d, n)]⟩ else none
        | .dir d' => (walkFrom nofollow follow d' steps).map (Resolved.via (d, n))
        | .link absolute target =>
          (follow (fs.start absolute d) (target ++ steps)).map (Resolved.via (d, n))

def resolve (nofollow : Bool) : Nat → Nat → List (PathStep α) → Option (Resolved α)
  | 0 => fs.walkFrom nofollow fun _ _ => none
  | b + 1 => fs.walkFrom nofollow (resolve nofollow b)

/-- The entry that a path ends at. -/
def entryAt (b : Nat) (steps : List (PathStep α)) : Option (Nat × α) :=
  match fs.resolve true b fs.root steps with
  | some ⟨.entry e, _⟩ => some e
  | _ => none

/-- `unlink`, or `rmdir` of an empty directory; nothing happens if that fails. -/
def unlink (b : Nat) (steps : List (PathStep α)) : FileSystem α :=
  match fs.entryAt b steps with
  | none => fs
  | some e =>
    match fs.lookup e with
    | some (.dir d) => if fs.names d = [] then fs.erase [e] else fs
    | _ => fs.erase [e]

variable {fs}

/-! ## Erasing -/

theorem erase_nil : fs.erase [] = fs := by
  simp [erase]

theorem erase_erase (gone gone' : List (Nat × α)) :
    (fs.erase gone).erase gone' = fs.erase (gone ++ gone') := by
  simp only [erase, List.filter_filter, List.mem_append, not_or, Bool.decide_and]
  congr 1
  exact List.filter_congr fun e _ => Bool.and_comm _ _

theorem erase_of_mem {gone : List (Nat × α)} {e : Nat × α} (h : e ∈ gone) :
    fs.erase (gone ++ [e]) = fs.erase gone := by
  rw [erase, erase]
  congr 1
  refine List.filter_congr fun x _ => decide_eq_decide.mpr (not_congr ?_)
  rw [List.mem_append, List.mem_singleton, or_iff_left_of_imp]
  rintro rfl
  exact h

theorem mem_unlink {b : Nat} {steps : List (PathStep α)} {x : (Nat × α) × FsEntry α}
    (h : x ∈ (fs.unlink b steps).entries) : x ∈ fs.entries := by
  rw [unlink] at h
  split at h
  · exact h
  · split at h
    · split at h
      · exact (List.mem_filter.mp h).1
      · exact h
    · exact (List.mem_filter.mp h).1

theorem lookup_erase (gone : List (Nat × α)) (e : Nat × α) :
    (fs.erase gone).lookup e = if e ∈ gone then none else fs.lookup e := by
  rw [lookup, lookup, erase]
  dsimp only
  rw [List.find?_filter]
  split
  · rename_i hgone
    rw [Option.map_eq_none_iff, List.find?_eq_none]
    intro x _ hx
    simp only [decide_eq_true_eq] at hx
    exact hx.1 (hx.2 ▸ hgone)
  · rename_i hgone
    congr 1
    refine congrArg (fun p => fs.entries.find? p) (funext fun x => ?_)
    by_cases hx : x.1 = e
    · simp [hx, hgone]
    · simp [hx]

/-- Nothing on the way is gone. -/
def Keeps (gone : List (Nat × α)) (r : Resolved α) : Bool := r.through.all fun e => e ∉ gone

theorem keeps_iff {gone : List (Nat × α)} {r : Resolved α} :
    Keeps gone r = true ↔ ∀ e ∈ r.through, e ∉ gone := by
  simp [Keeps]

theorem filter_via (gone : List (Nat × α)) (e : Nat × α) (x : Option (Resolved α)) :
    (x.map (Resolved.via e)).filter (Keeps gone) =
      if e ∈ gone then none else (x.filter (Keeps gone)).map (Resolved.via e) := by
  cases x with
  | none => simp
  | some r =>
    have hvia : Keeps gone (r.via e) = (decide (e ∉ gone) && Keeps gone r) := List.all_cons
    rw [Option.map_some, Option.filter_some, Option.filter_some, hvia]
    by_cases he : e ∈ gone
    · simp [he]
    · cases Keeps gone r <;> simp [he]

variable {nofollow : Bool}

theorem walkFrom_erase (gone : List (Nat × α))
    {follow follow' : Nat → List (PathStep α) → Option (Resolved α)}
    (hfollow : ∀ d steps, follow' d steps = (follow d steps).filter (Keeps gone)) (d : Nat)
    (steps : List (PathStep α)) : (fs.erase gone).walkFrom nofollow follow' d steps =
      (fs.walkFrom nofollow follow d steps).filter (Keeps gone) := by
  induction steps generalizing d with
  | nil => rfl
  | cons step steps ih =>
    cases step with
    | here => exact ih d
    | up => exact ih (fs.parent d)
    | name n =>
      have hlast (o : FsObject α) : (some (⟨o, [(d, n)]⟩ : Resolved α)).filter (Keeps gone) =
          if (d, n) ∈ gone then none else some ⟨o, [(d, n)]⟩ :=
        filter_via gone (d, n) (some ⟨o, []⟩)
      rw [walkFrom, walkFrom, lookup_erase]
      cases fs.lookup (d, n) with
      | none =>
        rw [ite_self]
        rfl
      | some e =>
        by_cases hgone : (d, n) ∈ gone
        · rw [if_pos hgone]
          dsimp only
          split
          · rw [hlast, if_pos hgone]
          · cases e with
            | file i =>
              dsimp only
              split
              · rw [hlast, if_pos hgone]
              · rfl
            | dir d' => exact ((filter_via gone _ _).trans (if_pos hgone)).symm
            | link absolute target => exact ((filter_via gone _ _).trans (if_pos hgone)).symm
        · rw [if_neg hgone]
          dsimp only
          split
          · rw [hlast, if_neg hgone]
          · cases e with
            | file i =>
              dsimp only
              split
              · rw [hlast, if_neg hgone]
              · rfl
            | dir d' =>
              exact (congrArg _ (ih d')).trans ((filter_via gone _ _).trans (if_neg hgone)).symm
            | link absolute target =>
              exact (congrArg _ (hfollow _ _)).trans
                ((filter_via gone _ _).trans (if_neg hgone)).symm

theorem resolve_erase (gone : List (Nat × α)) (b d : Nat) (steps : List (PathStep α)) :
    (fs.erase gone).resolve nofollow b d steps =
      (fs.resolve nofollow b d steps).filter (Keeps gone) := by
  induction b generalizing d steps with
  | zero =>
    have hnone : ∀ (_ : Nat) (_ : List (PathStep α)),
        (none : Option (Resolved α)) = (none : Option (Resolved α)).filter (Keeps gone) :=
      fun _ _ => rfl
    exact walkFrom_erase gone hnone d steps
  | succ b ih => exact walkFrom_erase gone ih d steps

/-! ## Entries that lead to files -/

variable (fs) in
/-- Resolution without a bound on the links. -/
inductive Leads (nofollow : Bool) : Nat → List (PathStep α) → Resolved α → Prop
  | nil (d : Nat) : Leads nofollow d [] ⟨.dir d, []⟩
  | here {d : Nat} {steps : List (PathStep α)} {r : Resolved α} (h : Leads nofollow d steps r) :
    Leads nofollow d (.here :: steps) r
  | up {d : Nat} {steps : List (PathStep α)} {r : Resolved α}
    (h : Leads nofollow (fs.parent d) steps r) : Leads nofollow d (.up :: steps) r
  | last {d : Nat} {n : α} {e : FsEntry α} (hlast : nofollow = true)
    (he : fs.lookup (d, n) = some e) :
    Leads nofollow d [.name n] ⟨.entry (d, n), [(d, n)]⟩
  | file {d i : Nat} {n : α} (hfollow : nofollow = false) (he : fs.lookup (d, n) = some (.file i)) :
    Leads nofollow d [.name n] ⟨.file i, [(d, n)]⟩
  | dir {d d' : Nat} {n : α} {steps : List (PathStep α)} {r : Resolved α}
    (hmore : ¬ (nofollow = true ∧ steps = [])) (he : fs.lookup (d, n) = some (.dir d'))
    (h : Leads nofollow d' steps r) : Leads nofollow d (.name n :: steps) (r.via (d, n))
  | link {d : Nat} {n : α} {absolute : Bool} {target steps : List (PathStep α)} {r : Resolved α}
    (hmore : ¬ (nofollow = true ∧ steps = []))
    (he : fs.lookup (d, n) = some (.link absolute target))
    (h : Leads nofollow (fs.start absolute d) (target ++ steps) r) :
    Leads nofollow d (.name n :: steps) (r.via (d, n))

theorem leads_of_walkFrom {follow : Nat → List (PathStep α) → Option (Resolved α)}
    (hfollow : ∀ d steps r, follow d steps = some r → fs.Leads nofollow d steps r) {d : Nat}
    {steps : List (PathStep α)} {r : Resolved α}
    (h : fs.walkFrom nofollow follow d steps = some r) : fs.Leads nofollow d steps r := by
  induction steps generalizing d r with
  | nil =>
    cases h
    exact .nil d
  | cons step steps ih =>
    cases step with
    | here => exact .here (ih h)
    | up => exact .up (ih h)
    | name n =>
      rw [walkFrom] at h
      cases he : fs.lookup (d, n) with
      | none => rw [he] at h; cases h
      | some e =>
        rw [he] at h
        dsimp only at h
        split at h
        · rename_i hlast
          cases h
          rw [hlast.2]
          exact .last hlast.1 he
        · rename_i hmore
          cases e with
          | file i =>
            dsimp only at h
            split at h
            · rename_i hnil
              cases h
              rw [hnil]
              exact .file (by simpa [hnil] using hmore) he
            · cases h
          | dir d' =>
            obtain ⟨r', hr', rfl⟩ := Option.map_eq_some_iff.mp h
            exact .dir hmore he (ih hr')
          | link absolute target =>
            obtain ⟨r', hr', rfl⟩ := Option.map_eq_some_iff.mp h
            exact .link hmore he (hfollow _ _ _ hr')

theorem leads_of_resolve {b d : Nat} {steps : List (PathStep α)} {r : Resolved α}
    (h : fs.resolve nofollow b d steps = some r) : fs.Leads nofollow d steps r := by
  induction b generalizing d steps r with
  | zero => exact leads_of_walkFrom (fun _ _ _ h => by cases h) h
  | succ b ih => exact leads_of_walkFrom (fun _ _ _ h => ih h) h

/-- A path does not go on behind a file. -/
theorem Leads.ends {d i : Nat} {steps : List (PathStep α)} {r : Resolved α}
    (h : fs.Leads false d steps r) (hr : r.object = .file i) (step : PathStep α)
    (rest : List (PathStep α)) (r' : Resolved α) :
    ¬ fs.Leads nofollow d (steps ++ step :: rest) r' := by
  induction h generalizing r' with
  | nil d => cases hr
  | here _ ih =>
    intro h'
    cases h' with
    | here h' => exact ih hr _ h'
  | up _ ih =>
    intro h'
    cases h' with
    | up h' => exact ih hr _ h'
  | last hlast _ => cases hlast
  | file _ he =>
    intro h'
    cases h' with
    | dir _ he' _ => rw [he] at he'; cases he'
    | link _ he' _ => rw [he] at he'; cases he'
  | @dir _ _ _ steps _ _ he _ ih =>
    intro h'
    rw [List.cons_append] at h'
    have hih := ih hr
    have hne : steps ++ step :: rest ≠ [] := List.append_ne_nil_of_right_ne_nil _ (List.cons_ne_nil _ _)
    generalize steps ++ step :: rest = long at h' hih hne
    cases h' with
    | last _ _ => exact hne rfl
    | file _ _ => exact hne rfl
    | dir _ he' h' =>
      rw [he] at he'
      cases he'
      exact hih _ h'
    | link _ he' _ => rw [he] at he'; cases he'
  | @link _ _ _ target steps _ _ he _ ih =>
    intro h'
    rw [List.cons_append] at h'
    have hih := ih hr
    rw [List.append_assoc] at hih
    have hne : steps ++ step :: rest ≠ [] := List.append_ne_nil_of_right_ne_nil _ (List.cons_ne_nil _ _)
    generalize steps ++ step :: rest = long at h' hih hne
    cases h' with
    | last _ _ => exact hne rfl
    | file _ _ => exact hne rfl
    | dir _ he' _ => rw [he] at he'; cases he'
    | link _ he' h' =>
      rw [he] at he'
      cases he'
      exact hih _ h'

variable (fs) in
/-- The entry is that of a file, or of a link to one. -/
def LeadsToFile (e : Nat × α) : Prop :=
  (∃ i, fs.lookup e = some (.file i)) ∨ ∃ absolute target r i,
    fs.lookup e = some (.link absolute target) ∧
      fs.Leads false (fs.start absolute e.1) target r ∧ r.object = .file i

/-- On the way to an entry there are only directories, and links to them. -/
theorem Leads.through_file {d : Nat} {steps : List (PathStep α)} {r : Resolved α}
    (h : fs.Leads true d steps r) {e : Nat × α} (he : e ∈ r.through) (hfile : fs.LeadsToFile e) :
    r.object = .entry e := by
  induction h with
  | nil d => cases he
  | here _ ih => exact ih he
  | up _ ih => exact ih he
  | last _ _ => rw [List.mem_singleton.mp he]
  | file hfollow _ => cases hfollow
  | dir hmore hdir _ ih =>
    rcases List.mem_cons.mp he with rfl | he
    · rcases hfile with ⟨i, hfile⟩ | ⟨absolute, target, r, i, hlink, -, -⟩
      · rw [hdir] at hfile; cases hfile
      · rw [hdir] at hlink; cases hlink
    · exact ih he
  | @link _ _ absolute target steps _ hmore hlink h ih =>
    rcases List.mem_cons.mp he with rfl | he
    · rcases hfile with ⟨i, hfile⟩ | ⟨absolute', target', r', i, hlink', hleads, hobject⟩
      · rw [hlink] at hfile; cases hfile
      · rw [hlink] at hlink'
        cases hlink'
        cases steps with
        | nil => exact absurd ⟨rfl, rfl⟩ hmore
        | cons step rest => exact absurd h (hleads.ends hobject step rest _)
    · exact ih he

theorem Leads.entry_mem {d : Nat} {steps : List (PathStep α)} {r : Resolved α}
    (h : fs.Leads nofollow d steps r) {e : Nat × α} (hr : r.object = .entry e) : e ∈ r.through := by
  induction h with
  | nil d => cases hr
  | here _ ih => exact ih hr
  | up _ ih => exact ih hr
  | last _ _ =>
    cases hr
    exact List.mem_singleton_self _
  | file _ _ => cases hr
  | dir _ _ _ ih => exact List.mem_cons_of_mem _ (ih hr)
  | link _ _ _ ih => exact List.mem_cons_of_mem _ (ih hr)

/-- A path to a file, with the call that does not follow its last name. -/
theorem walkFrom_entry {follow follow' : Nat → List (PathStep α) → Option (Resolved α)}
    (hleads : ∀ d steps r, follow d steps = some r → fs.Leads false d steps r) {n : α}
    (hfollow : ∀ d steps r i, follow d (steps ++ [.name n]) = some r → r.object = .file i →
      ∃ r' e, follow' d (steps ++ [.name n]) = some r' ∧ r'.object = .entry e ∧ e ∈ r.through ∧
        fs.LeadsToFile e) {d i : Nat} {steps : List (PathStep α)} {r : Resolved α}
    (h : fs.walkFrom false follow d (steps ++ [.name n]) = some r) (hr : r.object = .file i) :
    ∃ r' e, fs.walkFrom true follow' d (steps ++ [.name n]) = some r' ∧ r'.object = .entry e ∧
      e ∈ r.through ∧ fs.LeadsToFile e := by
  induction steps generalizing d r with
  | nil =>
    rw [List.nil_append, walkFrom] at h
    rw [List.nil_append, walkFrom]
    cases he : fs.lookup (d, n) with
    | none => rw [he] at h; cases h
    | some e =>
      rw [he] at h
      refine ⟨⟨.entry (d, n), [(d, n)]⟩, (d, n), if_pos ⟨rfl, rfl⟩, rfl, ?_⟩
      dsimp only at h
      rw [if_neg (by simp)] at h
      cases e with
      | file i' =>
        dsimp only at h
        rw [if_pos rfl] at h
        cases h
        exact ⟨List.mem_singleton_self _, .inl ⟨i', he⟩⟩
      | dir d' =>
        cases h
        cases hr
      | link absolute target =>
        obtain ⟨r', hr', rfl⟩ := Option.map_eq_some_iff.mp h
        rw [List.append_nil] at hr'
        exact ⟨List.mem_cons_self, .inr ⟨absolute, target, r', i, he, hleads _ _ _ hr', hr⟩⟩
  | cons step steps ih =>
    cases step with
    | here => exact ih h hr
    | up => exact ih h hr
    | name m =>
      rw [List.cons_append, walkFrom] at h
      rw [List.cons_append, walkFrom]
      cases he : fs.lookup (d, m) with
      | none => rw [he] at h; cases h
      | some e =>
        rw [he] at h
        dsimp only at h ⊢
        have hne : steps ++ [PathStep.name n] ≠ [] :=
          List.append_ne_nil_of_right_ne_nil _ (List.cons_ne_nil _ _)
        rw [if_neg (by simp)] at h
        rw [if_neg (fun hlast => hne hlast.2)]
        cases e with
        | file i' =>
          dsimp only at h
          rw [if_neg hne] at h
          cases h
        | dir d' =>
          obtain ⟨r', hr', rfl⟩ := Option.map_eq_some_iff.mp h
          obtain ⟨r'', e, hrun, hobject, hthrough, hfile⟩ := ih hr' hr
          exact ⟨_, e, Option.map_eq_some_iff.mpr ⟨r'', hrun, rfl⟩, hobject,
            List.mem_cons_of_mem _ hthrough, hfile⟩
        | link absolute target =>
          obtain ⟨r', hr', rfl⟩ := Option.map_eq_some_iff.mp h
          dsimp only
          rw [← List.append_assoc] at hr' ⊢
          obtain ⟨r'', e, hrun, hobject, hthrough, hfile⟩ := hfollow _ _ _ _ hr' hr
          exact ⟨_, e, Option.map_eq_some_iff.mpr ⟨r'', hrun, rfl⟩, hobject,
            List.mem_cons_of_mem _ hthrough, hfile⟩

theorem resolve_entry {b d i : Nat} {n : α} {steps : List (PathStep α)} {r : Resolved α}
    (h : fs.resolve false b d (steps ++ [.name n]) = some r) (hr : r.object = .file i) :
    ∃ r' e, fs.resolve true b d (steps ++ [.name n]) = some r' ∧ r'.object = .entry e ∧
      e ∈ r.through ∧ fs.LeadsToFile e := by
  induction b generalizing d i steps r with
  | zero =>
    exact walkFrom_entry (fun _ _ _ h => by cases h) (fun _ _ _ _ h => by cases h) h hr
  | succ b ih => exact walkFrom_entry (fun _ _ _ => leads_of_resolve) (fun _ _ _ _ h hr => ih h hr) h hr

/-- One more entry goes, unless it is gone already. -/
theorem unlink_erase {gone : List (Nat × α)} (hgone : ∀ e ∈ gone, fs.LeadsToFile e) {b i : Nat}
    {n : α} {steps : List (PathStep α)} {r : Resolved α}
    (h : fs.resolve false b fs.root (steps ++ [.name n]) = some r) (hr : r.object = .file i) :
    ∃ e, fs.entryAt b (steps ++ [.name n]) = some e ∧ e ∈ r.through ∧ fs.LeadsToFile e ∧
      (fs.erase gone).unlink b (steps ++ [.name n]) = fs.erase (gone ++ [e]) := by
  obtain ⟨r', e, hrun, hobject, hthrough, hfile⟩ := resolve_entry h hr
  have hleads := leads_of_resolve hrun
  obtain ⟨object, through⟩ := r'
  cases hobject
  have hentry : fs.entryAt b (steps ++ [.name n]) = some e := by rw [entryAt, hrun]
  have hrun' : (fs.erase gone).resolve true b (fs.erase gone).root (steps ++ [.name n]) =
      if Keeps gone ⟨.entry e, through⟩ then some ⟨.entry e, through⟩ else none := by
    rw [resolve_erase, show (fs.erase gone).root = fs.root from rfl, hrun, Option.filter_some]
  refine ⟨e, hentry, hthrough, hfile, ?_⟩
  by_cases hmem : e ∈ gone
  · rw [if_neg fun hkeeps => keeps_iff.mp hkeeps e (hleads.entry_mem rfl) hmem] at hrun'
    rw [unlink, entryAt, hrun', erase_of_mem hmem]
  · have hkeeps : Keeps gone ⟨.entry e, through⟩ = true := by
      rw [keeps_iff]
      intro x hx hx'
      cases hleads.through_file hx (hgone x hx')
      exact hmem hx'
    rw [if_pos hkeeps] at hrun'
    rw [unlink, entryAt, hrun', ← erase_erase]
    dsimp only
    rw [lookup_erase, if_neg hmem]
    split
    · rename_i d hdir
      rcases hfile with ⟨i, hfile⟩ | ⟨_, _, _, _, hlink, -, -⟩
      · rw [hdir] at hfile; cases hfile
      · rw [hdir] at hlink; cases hlink
    · rfl

end FileSystem
end SsuComputer
