import SsuComputer.Lib.Paths
import SsuComputer.Sindex.ReadDirectory

/-!
# SsuComputer.Sindex.SearchTree

Which entries `read_directory` adds to the list.

* `listing` — the entries below a directory, each with the names on the way to it.
* `Wanted` — the entries to add; `Inside` — those that lie in the original.
* `readDirectory_eq_some` — the search adds the wanted entries that do not lie in the original.
* `readDirectory_exact_iff` — so it is exact when none does, and every path it writes fits.
-/

namespace SsuComputer
namespace Sindex

/-! ## The entries of a tree -/

mutual
def Inode.listed : Inode → List (List CString × Inode)
  | .dir name entries =>
    if isDot name then []
    else ([name], .dir name entries) :: (listing entries).map fun p => (name :: p.1, p.2)
  | .reg name size => if isDot name then [] else [([name], .reg name size)]
  | .other name size => if isDot name then [] else [([name], .other name size)]

/-- All entries below a directory, each with the names from there. -/
def listing : List Inode → List (List CString × Inode)
  | [] => []
  | e :: es => e.listed ++ listing es
end

mutual
def Inode.bytes : Inode → Off
  | .dir name entries => if isDot name then 0 else total entries
  | .reg name size => if isDot name then 0 else size
  | .other name size => if isDot name then 0 else size

/-- The sizes of all entries below that are no directories, together. -/
def total : List Inode → Off
  | [] => 0
  | e :: es => e.bytes + total es
end

def Inode.typeAndSize : Inode → Option (FileType × Off)
  | .dir _ entries => some (.directory, total entries)
  | .reg _ size => some (.regfile, size)
  | .other _ _ => none

/-- The path that the names lead to from a directory. -/
def pathFrom (dirname : CString) (names : List CString) : CString := names.foldl join dirname

/-- One of the paths on the way is `path`. -/
def Passes (path : CString) : CString → List CString → Prop
  | _, [] => False
  | dirname, n :: ns => join dirname n = path ∨ Passes path (join dirname n) ns

def decidablePasses (path : CString) :
    (dirname : CString) → (names : List CString) → Decidable (Passes path dirname names)
  | _, [] => inferInstanceAs (Decidable False)
  | dirname, n :: ns =>
    have := decidablePasses path (join dirname n) ns
    inferInstanceAs (Decidable (_ ∨ _))

instance (path dirname : CString) (names : List CString) : Decidable (Passes path dirname names) :=
  decidablePasses path dirname names

section Exact

variable (origin : Fileinfo) (dirname : CString)

/-- The entry has the type, the name and the size of the original and is another one. -/
def Wanted (p : List CString × Inode) : Prop :=
  p.2.typeAndSize = some (origin.type, origin.size) ∧ p.2.name = extractName origin.path ∧
    pathFrom dirname p.1 ≠ origin.path

instance : DecidablePred (Wanted origin dirname) := fun _ => inferInstanceAs (Decidable (_ ∧ _))

/-- The entry lies in the original. -/
def Inside (names : List CString) : Prop := Passes origin.path dirname names.dropLast

instance : DecidablePred (Inside origin dirname) := fun _ => inferInstanceAs (Decidable (Passes _ _ _))

/-- A directory at the end of the names has its size taken. -/
def Measured (names : List CString) : Prop :=
  origin.type = .directory ∧ names.getLast? = some (extractName origin.path) ∧
    ¬Passes origin.path dirname names

/-- The paths written for the entry fit: that of the search, and those of the directory sizes. -/
def Fits (names : List CString) : Prop :=
  (¬Inside origin dirname names → (pathFrom dirname names).length < PATHMAX) ∧
    ∀ above below, names = above ++ below → below ≠ [] → Measured origin dirname above →
      (pathFrom dirname above ++ pathText below).length < PATHMAX

def record (depth : Nat) (p : List CString × Inode) : Fileinfo where
  path := pathFrom dirname p.1
  size := origin.size
  type := origin.type
  depth := ↑(depth + p.1.length - 1)

/-- What the search adds at some depth for the entries `ps` of a directory. -/
def found (depth : Nat) (ps : List (List CString × Inode)) : List Fileinfo :=
  (ps.filter fun p => Wanted origin dirname p ∧ ¬Inside origin dirname p.1).map
    (record origin dirname depth)

end Exact

/-! ## Sizes -/

theorem sprintf_eq_some {path path' : CString} :
    sprintf path = some path' ↔ path.length < PATHMAX ∧ path' = path := by
  rw [sprintf]
  split
  · rename_i h
    rw [Option.some_inj, eq_comm, and_iff_right h]
  · rename_i h
    exact ⟨(fun hnone => by cases hnone), fun hfit => absurd hfit.1 h⟩

theorem sprintf_bind_eq_some {α : Type} {path : CString} {f : CString → Option α} {out : α} :
    (sprintf path).bind f = some out ↔ path.length < PATHMAX ∧ f path = some out := by
  rw [Option.bind_eq_some_iff]
  constructor
  · rintro ⟨path', hpath, hout⟩
    obtain ⟨hfit, rfl⟩ := sprintf_eq_some.mp hpath
    exact ⟨hfit, hout⟩
  · rintro ⟨hfit, hout⟩
    exact ⟨path, sprintf_eq_some.mpr ⟨hfit, rfl⟩, hout⟩

theorem pathname_eq (dirname name : CString) : pathname dirname name = dirname ++ pathText [name] := by
  rw [pathText_cons, pathText_nil, List.append_nil]
  rfl

theorem pathText_below (dirname name : CString) (names : List CString) :
    dirname ++ pathText (name :: names) = pathname dirname name ++ pathText names := by
  rw [pathname_eq, List.append_assoc, ← pathText_append]
  rfl

theorem leaf_eq_some (dirname name : CString) (size size' : Off) :
    ((sprintf (pathname dirname name)).map fun _ => size) = some size' ↔
      (dirname ++ pathText [name]).length < PATHMAX ∧ size' = size := by
  rw [Option.map_eq_some_iff]
  constructor
  · rintro ⟨path, hpath, rfl⟩
    exact ⟨pathname_eq dirname name ▸ (sprintf_eq_some.mp hpath).1, rfl⟩
  · rintro ⟨hfit, rfl⟩
    exact ⟨_, sprintf_eq_some.mpr ⟨(pathname_eq dirname name).symm ▸ hfit, rfl⟩, rfl⟩

mutual
theorem Inode.contribution_eq_some (e : Inode) (dirname : CString) (size : Off) :
    e.contribution dirname = some size ↔
      (∀ p ∈ e.listed, (dirname ++ pathText p.1).length < PATHMAX) ∧ size = e.bytes := by
  have hskip : some (0 : Off) = some size ↔
      (∀ p ∈ ([] : List (List CString × Inode)), (dirname ++ pathText p.1).length < PATHMAX) ∧
        size = 0 := by
    rw [Option.some_inj, eq_comm, and_iff_right fun p hp => by cases hp]
  cases e with
  | dir name entries =>
    rw [Inode.contribution, Inode.listed, Inode.bytes]
    cases isDot name with
    | true => exact hskip
    | false =>
      simp only [Bool.false_eq_true, if_false, sprintf_bind_eq_some]
      rw [List.forall_mem_cons, List.forall_mem_map, ← pathname_eq, and_assoc]
      simp only [pathText_below]
      rw [← getDirectorySize_eq_some entries]
  | reg name size' =>
    rw [Inode.contribution, Inode.listed, Inode.bytes]
    cases isDot name with
    | true => exact hskip
    | false =>
      simp only [Bool.false_eq_true, if_false, List.forall_mem_singleton]
      exact leaf_eq_some dirname name size' size
  | other name size' =>
    rw [Inode.contribution, Inode.listed, Inode.bytes]
    cases isDot name with
    | true => exact hskip
    | false =>
      simp only [Bool.false_eq_true, if_false, List.forall_mem_singleton]
      exact leaf_eq_some dirname name size' size

/-- `get_directory_size` has the sum of the sizes, if all the paths below fit. -/
theorem getDirectorySize_eq_some (es : List Inode) (dirname : CString) (size : Off) :
    getDirectorySize dirname es = some size ↔
      (∀ p ∈ listing es, (dirname ++ pathText p.1).length < PATHMAX) ∧ size = total es := by
  cases es with
  | nil =>
    rw [getDirectorySize, listing, total, Option.some_inj, eq_comm,
      and_iff_right fun p hp => by cases hp]
  | cons e es =>
    rw [getDirectorySize, listing, total, Option.bind_eq_some_iff, List.forall_mem_append]
    simp only [Option.map_eq_some_iff, e.contribution_eq_some, getDirectorySize_eq_some es]
    constructor
    · rintro ⟨a, ⟨he, rfl⟩, b, ⟨hes, rfl⟩, rfl⟩
      exact ⟨⟨he, hes⟩, rfl⟩
    · rintro ⟨⟨he, hes⟩, rfl⟩
      exact ⟨_, ⟨he, rfl⟩, _, ⟨hes, rfl⟩, rfl⟩
end

/-! ## The search -/

section Exact

variable {origin : Fileinfo} {dirname : CString}

theorem listing_ne_nil {es : List Inode} {p : List CString × Inode} (h : p ∈ listing es) :
    p.1 ≠ [] := by
  induction es with
  | nil => rw [listing] at h; cases h
  | cons e es ih =>
    rw [listing, List.mem_append] at h
    rcases h with h | h
    · cases e with
      | dir name entries =>
        rw [Inode.listed] at h
        split at h
        · cases h
        · rcases List.mem_cons.mp h with rfl | h
          · exact List.cons_ne_nil _ _
          · obtain ⟨q, -, rfl⟩ := List.mem_map.mp h
            exact List.cons_ne_nil _ _
      | reg name size =>
        rw [Inode.listed] at h
        split at h
        · cases h
        · rw [List.mem_singleton.mp h]
          exact List.cons_ne_nil _ _
      | other name size =>
        rw [Inode.listed] at h
        split at h
        · cases h
        · rw [List.mem_singleton.mp h]
          exact List.cons_ne_nil _ _
    · exact ih h

theorem not_inside_single (name : CString) : ¬Inside origin dirname [name] := fun h => h

theorem inside_cons {name : CString} {names : List CString} (h : names ≠ []) :
    Inside origin dirname (name :: names) ↔
      join dirname name = origin.path ∨ Inside origin (join dirname name) names := by
  rw [Inside, List.dropLast_cons_of_ne_nil h, Passes]
  rfl

theorem measured_single {name : CString} : Measured origin dirname [name] ↔
    origin.type = .directory ∧ name = extractName origin.path ∧ join dirname name ≠ origin.path := by
  rw [Measured, List.getLast?_singleton, Option.some_inj, Passes, Passes, or_false]

theorem measured_cons {name : CString} {names : List CString} (h : names ≠ []) :
    Measured origin dirname (name :: names) ↔
      join dirname name ≠ origin.path ∧ Measured origin (join dirname name) names := by
  rw [Measured, Measured, List.getLast?_cons_of_ne_nil h, Passes, not_or]
  exact ⟨fun ⟨ht, hn, hp, hps⟩ => ⟨hp, ht, hn, hps⟩, fun ⟨hp, ht, hn, hps⟩ => ⟨ht, hn, hp, hps⟩⟩

theorem fits_single {name : CString} :
    Fits origin dirname [name] ↔ (join dirname name).length < PATHMAX := by
  constructor
  · intro h
    exact h.1 (not_inside_single name)
  · intro h
    refine ⟨fun _ => h, fun above below hsplit hbelow hmeasured => ?_⟩
    -- nothing is both above and below
    cases above with
    | nil => cases hmeasured.2.1
    | cons n above =>
      rw [List.cons_append, List.cons.injEq] at hsplit
      exact absurd (List.append_eq_nil_iff.mp hsplit.2.symm).2 hbelow

/-- Nothing is written for what lies in the original. -/
theorem fits_in_original {name : CString} {names : List CString} (hn : names ≠ [])
    (h : join dirname name = origin.path) : Fits origin dirname (name :: names) := by
  refine ⟨fun hout => absurd ((inside_cons hn).mpr (.inl h)) hout, fun above below hsplit _ hm => ?_⟩
  cases above with
  | nil => cases hm.2.1
  | cons n above =>
    rw [List.cons_append, List.cons.injEq] at hsplit
    rw [← hsplit.1] at hm
    exact absurd (Or.inl h) hm.2.2

theorem fits_cons {name : CString} {names : List CString} (hn : names ≠ [])
    (h : join dirname name ≠ origin.path) :
    Fits origin dirname (name :: names) ↔
      (Measured origin dirname [name] → (join dirname name ++ pathText names).length < PATHMAX) ∧
        Fits origin (join dirname name) names := by
  rw [Fits, Fits, inside_cons hn, or_iff_right h]
  constructor
  · rintro ⟨hpath, hsizes⟩
    refine ⟨hsizes [name] names rfl hn, hpath, fun above below hsplit hbelow hm => ?_⟩
    have habove : above ≠ [] := fun hnil => by rw [hnil] at hm; cases hm.2.1
    exact hsizes (name :: above) below (by rw [hsplit]; rfl) hbelow ((measured_cons habove).mpr ⟨h, hm⟩)
  · rintro ⟨hown, hpath, hsizes⟩
    refine ⟨hpath, fun above below hsplit hbelow hm => ?_⟩
    cases above with
    | nil => cases hm.2.1
    | cons n above =>
      rw [List.cons_append, List.cons.injEq] at hsplit
      obtain ⟨rfl, rfl⟩ := hsplit
      cases above with
      | nil => exact hown hm
      | cons n' above =>
        have habove := List.cons_ne_nil n' above
        exact hsizes _ below rfl hbelow ((measured_cons habove).mp hm).2

theorem found_append (depth : Nat) (ps qs : List (List CString × Inode)) :
    found origin dirname depth (ps ++ qs) =
      found origin dirname depth ps ++ found origin dirname depth qs := by
  rw [found, List.filter_append, List.map_append]
  rfl

theorem found_single (depth : Nat) (name : CString) (e : Inode) :
    found origin dirname depth [([name], e)] =
      if Wanted origin dirname ([name], e) then
        [⟨join dirname name, origin.size, origin.type, depth⟩]
      else [] := by
  have hout : ¬Inside origin dirname [name] := not_inside_single name
  rw [found, List.filter_cons, List.filter_nil]
  by_cases hw : Wanted origin dirname ([name], e)
  · simp only [hw, hout, not_false_eq_true, and_true, decide_true, if_true]
    rfl
  · simp only [hw, false_and, decide_false, if_false, Bool.false_eq_true]
    rfl

/-- What is found in a directory is found from there, one level deeper. -/
theorem found_below {es : List Inode} {name : CString} (h : join dirname name ≠ origin.path)
    (depth : Nat) :
    found origin dirname depth ((listing es).map fun p => (name :: p.1, p.2)) =
      found origin (join dirname name) (depth + 1) (listing es) := by
  rw [found, found, List.filter_map, List.map_map]
  have hkeep : ∀ p ∈ listing es, (Wanted origin dirname (name :: p.1, p.2) ∧
      ¬Inside origin dirname (name :: p.1)) ↔
        (Wanted origin (join dirname name) p ∧ ¬Inside origin (join dirname name) p.1) := by
    intro p hp
    rw [inside_cons (listing_ne_nil hp), or_iff_right h]
    rfl
  have hfilter : (listing es).filter ((fun p => decide (Wanted origin dirname p ∧
      ¬Inside origin dirname p.1)) ∘ fun p => (name :: p.1, p.2)) = (listing es).filter fun p =>
        decide (Wanted origin (join dirname name) p ∧ ¬Inside origin (join dirname name) p.1) :=
    List.filter_congr fun p hp => decide_eq_decide.mpr (hkeep p hp)
  rw [hfilter]
  refine List.map_congr_left fun p hp => ?_
  have hn := List.length_pos_iff.mpr (listing_ne_nil (List.mem_filter.mp hp).1)
  have hdepth : depth + (name :: p.1).length - 1 = depth + 1 + p.1.length - 1 := by
    rw [List.length_cons]
    omega
  rw [Function.comp, record, record, hdepth]
  rfl

theorem found_in_original {es : List Inode} {name : CString} (h : join dirname name = origin.path)
    (depth : Nat) : found origin dirname depth ((listing es).map fun p => (name :: p.1, p.2)) = [] := by
  rw [found, List.map_eq_nil_iff, List.filter_eq_nil_iff]
  intro q hq hkeep
  obtain ⟨p, hp, rfl⟩ := List.mem_map.mp hq
  exact (of_decide_eq_true hkeep).2 ((inside_cons (listing_ne_nil hp)).mpr (.inl h))

theorem addMatch_eq_some {filelist out : List Fileinfo} {f : Fileinfo} :
    addMatch filelist f = some out ↔
      filelist.length + [f].length ≤ BUFMAX ∧ out = filelist ++ [f] := by
  rw [addMatch]
  split
  · rename_i hroom
    rw [Option.some_inj, eq_comm, List.length_singleton, and_iff_right (Nat.succ_le_of_lt hroom)]
  · rename_i hroom
    exact ⟨(fun hnone => by cases hnone), fun hroom' => absurd hroom'.1 hroom⟩

theorem some_eq_some {filelist out : List Fileinfo} (h : filelist.length ≤ BUFMAX) :
    some filelist = some out ↔
      filelist.length + ([] : List Fileinfo).length ≤ BUFMAX ∧ out = filelist ++ [] := by
  rw [Option.some_inj, eq_comm, List.append_nil, List.length_nil, Nat.add_zero, and_iff_right h]

theorem matchFile_eq_some {filelist out : List Fileinfo} {name : CString}
    (hpath : join dirname name ≠ origin.path) (size : Off) (depth : Nat)
    (h : filelist.length ≤ BUFMAX) :
    matchFile origin depth (join dirname name) name size filelist = some out ↔
      filelist.length + (found origin dirname depth [([name], .reg name size)]).length ≤ BUFMAX ∧
        out = filelist ++ found origin dirname depth [([name], .reg name size)] := by
  have hwanted : Wanted origin dirname ([name], .reg name size) ↔
      origin.type = .regfile ∧ strcmp name (extractName origin.path) = 0 ∧ size = origin.size := by
    rw [strcmp_eq_zero, Wanted, Inode.typeAndSize, Option.some_inj, Prod.mk.injEq]
    constructor
    · rintro ⟨⟨ht, hs⟩, hn, -⟩
      exact ⟨ht.symm, hn, hs⟩
    · rintro ⟨ht, hn, hs⟩
      exact ⟨⟨ht.symm, hs⟩, hn, hpath⟩
  rw [found_single, matchFile]
  by_cases hw : Wanted origin dirname ([name], .reg name size)
  · obtain ⟨ht, -, hs⟩ := hwanted.mp hw
    rw [if_pos hw, if_pos (hwanted.mp hw), addMatch_eq_some, ht, hs]
  · rw [if_neg hw, if_neg fun h => hw (hwanted.mpr h)]
    exact some_eq_some h

theorem matchDirectory_eq_some {filelist out : List Fileinfo} {name : CString}
    (hpath : join dirname name ≠ origin.path) (entries : List Inode) (depth : Nat)
    (h : filelist.length ≤ BUFMAX) :
    matchDirectory origin depth (join dirname name) name entries filelist = some out ↔
      (Measured origin dirname [name] → ∀ p ∈ listing entries,
        (join dirname name ++ pathText p.1).length < PATHMAX) ∧
      filelist.length + (found origin dirname depth [([name], .dir name entries)]).length ≤ BUFMAX ∧
        out = filelist ++ found origin dirname depth [([name], .dir name entries)] := by
  have hwanted : Wanted origin dirname ([name], .dir name entries) ↔
      Measured origin dirname [name] ∧ total entries = origin.size := by
    rw [measured_single, Wanted, Inode.typeAndSize, Option.some_inj, Prod.mk.injEq]
    constructor
    · rintro ⟨⟨ht, hs⟩, hn, -⟩
      exact ⟨⟨ht.symm, hn, hpath⟩, hs⟩
    · rintro ⟨⟨ht, hn, -⟩, hs⟩
      exact ⟨⟨ht.symm, hs⟩, hn, hpath⟩
  have hmeasured : Measured origin dirname [name] ↔
      origin.type = .directory ∧ strcmp name (extractName origin.path) = 0 := by
    rw [measured_single, strcmp_eq_zero, and_iff_left hpath]
  rw [found_single, matchDirectory]
  by_cases hm : Measured origin dirname [name]
  · have ht := hm.1
    rw [if_pos (hmeasured.mp hm), Option.bind_eq_some_iff, forall_prop_of_true hm]
    simp only [getDirectorySize_eq_some]
    by_cases hs : total entries = origin.size
    · rw [if_pos (hwanted.mpr ⟨hm, hs⟩)]
      constructor
      · rintro ⟨size, ⟨hfit, rfl⟩, hadd⟩
        rw [if_pos hs, addMatch_eq_some, hs, ← ht] at hadd
        exact ⟨hfit, hadd⟩
      · rintro ⟨hfit, hadd⟩
        refine ⟨_, ⟨hfit, rfl⟩, ?_⟩
        rw [if_pos hs, addMatch_eq_some, hs, ← ht]
        exact hadd
    · rw [if_neg fun hw => hs (hwanted.mp hw).2, ← some_eq_some h]
      constructor
      · rintro ⟨size, ⟨hfit, rfl⟩, hadd⟩
        rw [if_neg hs] at hadd
        exact ⟨hfit, hadd⟩
      · rintro ⟨hfit, hadd⟩
        refine ⟨_, ⟨hfit, rfl⟩, ?_⟩
        rw [if_neg hs]
        exact hadd
  · rw [if_neg fun h => hm (hmeasured.mpr h), if_neg fun hw => hm (hwanted.mp hw).1,
      and_iff_right fun hm' => absurd hm' hm]
    exact some_eq_some h

theorem fits_below {entries : List Inode} {name : CString} (hpath : join dirname name ≠ origin.path) :
    (∀ p ∈ listing entries, Fits origin dirname (name :: p.1)) ↔
      (Measured origin dirname [name] → ∀ p ∈ listing entries,
        (join dirname name ++ pathText p.1).length < PATHMAX) ∧
      ∀ p ∈ listing entries, Fits origin (join dirname name) p.1 := by
  constructor
  · intro hfit
    have hsplit := fun p hp => (fits_cons (listing_ne_nil hp) hpath).mp (hfit p hp)
    exact ⟨fun hm p hp => (hsplit p hp).1 hm, fun p hp => (hsplit p hp).2⟩
  · rintro ⟨hsize, hfit⟩ p hp
    exact (fits_cons (listing_ne_nil hp) hpath).mpr ⟨fun hm => hsize hm p hp, hfit p hp⟩

/-- Two parts of the search, one after the other. -/
theorem found_then {P Q : Prop} {filelist out a b : List Fileinfo}
    {first : Option (List Fileinfo)} {second : List Fileinfo → Option (List Fileinfo)}
    (hfirst : ∀ mid, first = some mid ↔ P ∧ filelist.length + a.length ≤ BUFMAX ∧ mid = filelist ++ a)
    (hsecond : (filelist ++ a).length ≤ BUFMAX → (second (filelist ++ a) = some out ↔
      Q ∧ (filelist ++ a).length + b.length ≤ BUFMAX ∧ out = filelist ++ a ++ b)) :
    first.bind second = some out ↔
      (P ∧ Q) ∧ filelist.length + (a ++ b).length ≤ BUFMAX ∧ out = filelist ++ (a ++ b) := by
  rw [Option.bind_eq_some_iff, List.length_append, ← Nat.add_assoc, ← List.append_assoc]
  rw [List.length_append] at hsecond
  constructor
  · rintro ⟨mid, hmid, hout⟩
    obtain ⟨hp, hroom, rfl⟩ := (hfirst mid).mp hmid
    obtain ⟨hq, hroom', rfl⟩ := (hsecond hroom).mp hout
    exact ⟨⟨hp, hq⟩, hroom', rfl⟩
  · rintro ⟨⟨hp, hq⟩, hroom, rfl⟩
    have hroom' := Nat.le_trans (Nat.le_add_right _ _) hroom
    exact ⟨_, (hfirst _).mpr ⟨hp, hroom', rfl⟩, (hsecond hroom').mpr ⟨hq, hroom, rfl⟩⟩

mutual
theorem Inode.visit_eq_some (e : Inode) (origin : Fileinfo) (dirname : CString) (depth : Nat)
    {filelist out : List Fileinfo} (h : filelist.length ≤ BUFMAX) :
    e.visit origin depth dirname filelist = some out ↔
      (∀ p ∈ e.listed, Fits origin dirname p.1) ∧
        filelist.length + (found origin dirname depth e.listed).length ≤ BUFMAX ∧
          out = filelist ++ found origin dirname depth e.listed := by
  have hnone : some filelist = some out ↔
      (∀ p ∈ ([] : List (List CString × Inode)), Fits origin dirname p.1) ∧
        filelist.length + (found origin dirname depth []).length ≤ BUFMAX ∧
          out = filelist ++ found origin dirname depth [] := by
    rw [and_iff_right fun p hp => by cases hp]
    exact some_eq_some h
  cases e with
  | dir name entries =>
    rw [Inode.visit, Inode.listed]
    cases isDot name with
    | true => exact hnone
    | false =>
      simp only [Bool.false_eq_true, if_false, sprintf_bind_eq_some]
      rw [List.forall_mem_cons, fits_single, List.forall_mem_map]
      by_cases hpath : join dirname name = origin.path
      · have hfits : ∀ p ∈ listing entries, Fits origin dirname (name :: p.1) := fun p hp =>
          fits_in_original (listing_ne_nil hp) hpath
        have hown : ¬Wanted origin dirname ([name], .dir name entries) := fun hw => hw.2.2 hpath
        rw [← List.singleton_append, found_append, found_single, if_neg hown,
          found_in_original hpath, List.append_nil, and_iff_left hfits, ← some_eq_some h,
          if_pos (strcmp_eq_zero.mpr hpath)]
      · rw [← List.singleton_append, found_append, found_below hpath]
        have hthen := found_then (fun mid => matchDirectory_eq_some hpath entries depth h)
          fun hroom => @readDirectory_eq_some entries origin (join dirname name) (depth + 1) _ out hroom
        rw [fits_below hpath, and_assoc, ← hthen, if_neg fun h => hpath (strcmp_eq_zero.mp h)]
  | reg name size =>
    rw [Inode.visit, Inode.listed]
    cases isDot name with
    | true => exact hnone
    | false =>
      simp only [Bool.false_eq_true, if_false, sprintf_bind_eq_some, List.forall_mem_singleton,
        fits_single]
      by_cases hpath : join dirname name = origin.path
      · have hown : ¬Wanted origin dirname ([name], .reg name size) := fun hw => hw.2.2 hpath
        rw [found_single, if_neg hown, ← some_eq_some h, if_pos (strcmp_eq_zero.mpr hpath)]
      · rw [← matchFile_eq_some hpath size depth h, if_neg fun h => hpath (strcmp_eq_zero.mp h)]
  | other name size =>
    rw [Inode.visit, Inode.listed]
    cases isDot name with
    | true => exact hnone
    | false =>
      have hown : ¬Wanted origin dirname ([name], .other name size) := fun hw => by cases hw.1
      simp only [Bool.false_eq_true, if_false, Option.map_eq_some_iff, sprintf_eq_some,
        List.forall_mem_singleton, fits_single]
      rw [found_single, if_neg hown, ← some_eq_some h]
      constructor
      · rintro ⟨path, ⟨hfit, rfl⟩, hout⟩
        exact ⟨hfit, congrArg some hout⟩
      · rintro ⟨hfit, hout⟩
        exact ⟨_, ⟨hfit, rfl⟩, Option.some.inj hout⟩

/-- The search adds the wanted entries that do not lie in the original, if the paths fit. -/
theorem readDirectory_eq_some (es : List Inode) (origin : Fileinfo) (dirname : CString) (depth : Nat)
    {filelist out : List Fileinfo} (h : filelist.length ≤ BUFMAX) :
    readDirectory origin depth dirname es filelist = some out ↔
      (∀ p ∈ listing es, Fits origin dirname p.1) ∧
        filelist.length + (found origin dirname depth (listing es)).length ≤ BUFMAX ∧
          out = filelist ++ found origin dirname depth (listing es) := by
  cases es with
  | nil =>
    rw [readDirectory, listing, and_iff_right fun p hp => by cases hp]
    exact some_eq_some h
  | cons e es =>
    rw [readDirectory, listing, List.forall_mem_append, found_append]
    exact found_then (fun mid => e.visit_eq_some origin dirname depth h) fun hroom =>
      readDirectory_eq_some es origin dirname depth hroom
end

/-! ## The whole -/

/-- The entries that are to be added. -/
def wanted (origin : Fileinfo) (root : CString) (entries : List Inode) : List (List CString × Inode) :=
  (listing entries).filter fun p => Wanted origin root p

/-- The list has the original and, once each, the records of the wanted entries. -/
def FindsExactly (origin : Fileinfo) (root : CString) (entries : List Inode)
    (result : Option (List Fileinfo)) : Prop :=
  ∃ files, result = some (origin :: files) ∧
    files.Perm ((wanted origin root entries).map (record origin root 0))

theorem readDirectory_exact_iff (origin : Fileinfo) (root : CString) (entries : List Inode)
    (hroom : (wanted origin root entries).length ≤ BUFMAX - 1) :
    FindsExactly origin root entries (readDirectory origin 0 root entries [origin]) ↔
      (∀ p ∈ listing entries, Fits origin root p.1) ∧
        ∀ p ∈ wanted origin root entries, ¬Inside origin root p.1 := by
  have hone : [origin].length ≤ BUFMAX := (by decide : 1 ≤ BUFMAX)
  have hkept : (listing entries).filter (fun p => Wanted origin root p ∧ ¬Inside origin root p.1) =
      (wanted origin root entries).filter fun p => ¬Inside origin root p.1 := by
    rw [wanted, List.filter_filter]
    refine List.filter_congr fun p _ => ?_
    rw [← Bool.decide_and]
    exact decide_eq_decide.mpr and_comm
  have hlength : (found origin root 0 (listing entries)).length ≤ (wanted origin root entries).length := by
    rw [found, List.length_map, hkept]
    exact List.length_filter_le _ _
  constructor
  · rintro ⟨files, hresult, hperm⟩
    obtain ⟨hfits, -, hout⟩ := (readDirectory_eq_some entries origin root 0 hone).mp hresult
    refine ⟨hfits, fun p hp hinside => ?_⟩
    -- the lists have one length, so nothing was filtered out
    have hsame := hperm.length_eq
    have hfiles : files = found origin root 0 (listing entries) := (List.cons.inj hout).2
    rw [hfiles, found, hkept, List.length_map, List.length_map] at hsame
    have hall := List.filter_eq_self.mp (List.filter_sublist.eq_of_length hsame) p hp
    exact of_decide_eq_true hall hinside
  · rintro ⟨hfits, hout⟩
    refine ⟨found origin root 0 (listing entries), ?_, ?_⟩
    · refine (readDirectory_eq_some entries origin root 0 hone).mpr ⟨hfits, ?_, rfl⟩
      rw [List.length_singleton]
      have hmax : 1 ≤ BUFMAX := hone
      omega
    · rw [found, hkept, List.filter_eq_self.mpr fun p hp => decide_eq_true (hout p hp)]

end Exact

/-- The directory `/r` with the files `d/f` and `f`, both of 3 bytes. -/
def nested : List Inode := [.dir ['d'] [.reg ['f'] 3], .reg ['f'] 3]

theorem readDirectory_exact_nested :
    FindsExactly ⟨['/', 'r', '/', 'f'], 3, .regfile, -1⟩ ['/', 'r'] nested
        (readDirectory ⟨['/', 'r', '/', 'f'], 3, .regfile, -1⟩ 0 ['/', 'r'] nested
          [⟨['/', 'r', '/', 'f'], 3, .regfile, -1⟩]) ↔
      (∀ p ∈ listing nested, Fits ⟨['/', 'r', '/', 'f'], 3, .regfile, -1⟩ ['/', 'r'] p.1) ∧
        ∀ p ∈ wanted ⟨['/', 'r', '/', 'f'], 3, .regfile, -1⟩ ['/', 'r'] nested,
          ¬Inside ⟨['/', 'r', '/', 'f'], 3, .regfile, -1⟩ ['/', 'r'] p.1 :=
  readDirectory_exact_iff ⟨['/', 'r', '/', 'f'], 3, .regfile, -1⟩ ['/', 'r'] nested (by decide)

/-- A directory `a` in a directory `a`, with nothing in it. -/
def twofold : Inode := .dir ['a'] [.dir ['a'] []]

/-- The directory in the original is not found: its name and size are those of the original. -/
theorem directory_in_original_missed :
    ∃ origin, originOf ['/', 'r', '/', 'a'] twofold = some origin ∧
      (wanted origin ['/', 'r'] [twofold]).length ≤ BUFMAX - 1 ∧
      readDirectory origin 0 ['/', 'r'] [twofold] [origin] = some [origin] ∧
      ¬FindsExactly origin ['/', 'r'] [twofold]
        (readDirectory origin 0 ['/', 'r'] [twofold] [origin]) := by
  refine ⟨⟨['/', 'r', '/', 'a'], 0, .directory, -1⟩, by decide, by decide, by decide, ?_⟩
  rintro ⟨files, hfiles, hperm⟩
  have hresult : readDirectory ⟨['/', 'r', '/', 'a'], 0, .directory, -1⟩ 0 ['/', 'r'] [twofold]
      [⟨['/', 'r', '/', 'a'], 0, .directory, -1⟩] =
        some [⟨['/', 'r', '/', 'a'], 0, .directory, -1⟩] := by decide
  rw [hresult, Option.some_inj] at hfiles
  have hlength := hperm.length_eq
  rw [← (List.cons.inj hfiles).2, List.length_map] at hlength
  exact absurd hlength (by decide)

end Sindex
end SsuComputer
