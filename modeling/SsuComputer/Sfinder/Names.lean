import SsuComputer.Sfinder.Lists

/-!
# SsuComputer.Sfinder.Names

`get_extension`, `get_filename` and `get_new_file_name`, and when the extension of a path is that of
its last name.
-/

namespace SsuComputer
namespace Sfinder

def dotTar : CString := ['.', 't', 'a', 'r']

/-- The text before the dot that `get_extension` finds, and the text after it. -/
def splitExtension (filename : CString) : Option (CString × CString) :=
  match strstr dotTar filename with
  | some (before, found) => some (before, found.drop 1)
  | none => strrchr '.' filename

def getExtension (filename : CString) : Option CString := (splitExtension filename).map Prod.snd

def getFilename (path : CString) : CString :=
  let tmpName := match strrchr '/' path with
    | some (_, after) => after
    | none => path
  let tmpName := match splitExtension tmpName with
    | some (before, _) => before
    | none => tmpName
  if '/' ∈ path then tmpName
  else match strrchr '.' tmpName with
    | some (before, _) => before
    | none => tmpName

def isDotEntry (name : CString) : Bool := name = ['.'] || name = ['.', '.']

/-- `get_new_file_name`: the name, the number of entries of the trash with that name plus one, and
the extension. -/
def getNewFileName (namelist : List CString) (orgFilename : CString) : CString :=
  let newFilename := getFilename orgFilename
  let sameNameCnt :=
    1 + namelist.countP fun n => !isDotEntry n && decide (newFilename = getFilename n)
  newFilename ++ '.' :: Nat.toDigits 10 sameNameCnt ++
    match getExtension orgFilename with
    | some ext => '.' :: ext
    | none => []

/-! ## Extensions of paths -/

theorem getExtension_subset {filename ext : CString} (h : getExtension filename = some ext) :
    ext ⊆ filename := by
  obtain ⟨⟨before, ext⟩, hsplit, rfl⟩ := Option.map_eq_some_iff.mp h
  simp only [splitExtension] at hsplit
  split at hsplit
  · rename_i b found hs
    cases hsplit
    rw [(strstr_eq_some hs).1]
    exact fun c hc => List.mem_append_right _ (List.drop_subset _ _ hc)
  · rw [(strrchr_eq_some hsplit).1]
    exact fun c hc => List.mem_append_right _ (List.mem_cons_of_mem _ hc)

/-- The last character of `dir/`, from a match of `.tar` in it on. -/
theorem slash_mem_drop_one {dir before found : CString} (heq : dir ++ ['/'] = before ++ found)
    (hfound : dotTar <+: found) : '/' ∈ found.drop 1 := by
  have hlast : found.getLast? = some '/' := by
    have := congrArg List.getLast? heq
    rw [List.getLast?_append, List.getLast?_append] at this
    cases hfl : found.getLast? with
    | none =>
      rw [List.getLast?_eq_none_iff] at hfl
      rw [hfl] at hfound
      exact absurd (List.prefix_nil.mp hfound) (by decide)
    | some c => simpa [hfl] using this.symm
  cases found with
  | nil => cases hlast
  | cons x xs =>
    cases xs with
    | nil =>
      obtain ⟨r, hr⟩ := hfound
      simp [dotTar] at hr
    | cons y ys =>
      rw [List.getLast?_cons_cons] at hlast
      exact List.mem_of_getLast? hlast

/-- The first `.tar` is that of a directory, so what follows it has the slash. -/
theorem getExtension_of_dotTar_dir {dir ext : CString} (hdir : dotTar <:+: dir ++ ['/'])
    (hext : '/' ∉ ext) (name : CString) : getExtension (dir ++ '/' :: name) ≠ some ext := by
  obtain ⟨before, found, hs, happ⟩ := strstr_append_of_infix hdir name
  rw [List.append_assoc, List.singleton_append] at happ
  obtain ⟨heq, hfound⟩ := strstr_eq_some hs
  simp only [getExtension, splitExtension, happ, Option.map_some]
  intro h
  cases h
  refine hext ?_
  rw [List.drop_append]
  exact List.mem_append_left _ (slash_mem_drop_one heq hfound)

/-- A name without a slash and the path of a file of that name have the same extension, as long as
one without a slash is asked for and no directory has `.tar` in its name. -/
theorem getExtension_path {dir name ext : CString} (hext : '/' ∉ ext) :
    getExtension (dir ++ '/' :: name) = some ext ↔
      ¬ dotTar <:+: dir ++ ['/'] ∧ getExtension name = some ext := by
  have htar : '/' ∉ dotTar := by decide
  by_cases hdir : dotTar <:+: dir ++ ['/']
  · exact iff_of_false (getExtension_of_dotTar_dir hdir hext name) fun h => h.1 hdir
  · have hstr := strstr_append_of_not_infix htar dir name hdir
    simp only [hdir, not_false_eq_true, true_and]
    cases hn : strstr dotTar name with
    | some r =>
      rw [hn, Option.map_some] at hstr
      simp [getExtension, splitExtension, hstr, hn]
    | none =>
      rw [hn, Option.map_none] at hstr
      simp only [getExtension, splitExtension, hstr, hn]
      by_cases hdot : '.' ∈ name
      · obtain ⟨before, after, h1, h2⟩ := strrchr_append_of_mem hdot (dir ++ ['/'])
        rw [List.append_assoc, List.singleton_append] at h2
        simp [h1, h2]
      · rw [strrchr_of_not_mem hdot, Option.map_none]
        refine ⟨fun h => ?_, fun h => by cases h⟩
        obtain ⟨⟨before, after⟩, hs, rfl⟩ := Option.map_eq_some_iff.mp h
        -- the last dot is in the directory part, so the slash follows it
        obtain ⟨heq, -⟩ := strrchr_eq_some hs
        rcases List.append_eq_append_iff.mp heq with ⟨u, -, hu⟩ | ⟨u, -, hu⟩
        · cases u with
          | nil => cases hu
          | cons _ u =>
            cases hu
            exact absurd (by simp) hdot
        · cases u with
          | nil => cases hu
          | cons _ u =>
            cases hu
            exact absurd (by simp) hext

end Sfinder
end SsuComputer
