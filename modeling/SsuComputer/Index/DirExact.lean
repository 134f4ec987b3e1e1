import Mathlib.Data.List.Perm.Subperm
import SsuComputer.Index.DiffDir
import SsuComputer.Lib.Strcmp

/-!
# SsuComputer.Index.DirExact

When `diff_dir` classifies every name once.

* `lcs_rows` — with rows that match or do not match as a whole, the table is a minimum.
* `dirOutput_ends` — the output loop leaves both lists at once, or reads behind one of them; and a
  name at which it finds two unmarked names is lost.
* `diffDir_exact_iff` — so both lists must be the same, with something behind `..`.
-/

namespace SsuComputer
namespace Index

/-! ## The table -/

section Lists

variable {namelist1 namelist2 : List CString} {rows : List Bool}

/-- The traceback is within the table, and marks a column only where the table grows. -/
structure RowMarks (g : Nat → Bool) (m n : Nat) (s : DirTrace) : Prop where
  i : s.i ≤ m
  j : s.j ≤ n
  marks : ∀ k, s.cmp2 k = true →
    ∃ i ≤ m, k ≤ n ∧ lcs (fun i _ => g i) i k ≠ lcs (fun i _ => g i) i (k - 1)

theorem RowMarks.step {g : Nat → Bool} {m n : Nat} {lcs' : Nat → Nat → Nat}
    (htab : ∀ i ≤ m, ∀ j ≤ n, lcs' i j = lcs (fun i _ => g i) i j) {s s' : DirTrace}
    (h : RowMarks g m n s) (hbody : dirTraceBody lcs' s = some s') : RowMarks g m n s' := by
  obtain ⟨hi, hj, hmarks⟩ := h
  rw [dirTraceBody] at hbody
  split at hbody
  · cases hbody
  · split at hbody
    · cases hbody
      exact ⟨Nat.le_trans (Nat.sub_le _ _) hi, hj, hmarks⟩
    · split at hbody
      · cases hbody
        refine ⟨hi, Nat.le_trans (Nat.sub_le _ _) hj, fun k hk => ?_⟩
        dsimp only at hk
        by_cases hkj : k = s.j
        · subst hkj
          rw [Function.update_self] at hk
          cases hk
        · rw [Function.update_of_ne hkj] at hk
          exact hmarks k hk
      · rename_i hleft
        split at hbody
        · cases hbody
          refine ⟨Nat.le_trans (Nat.sub_le _ _) hi, Nat.le_trans (Nat.sub_le _ _) hj,
            fun k hk => ?_⟩
          dsimp only at hk
          by_cases hkj : k = s.j
          · subst hkj
            rw [htab _ hi _ hj, htab _ hi _ (by omega)] at hleft
            exact ⟨s.i, hi, hj, hleft⟩
          · rw [Function.update_of_ne hkj] at hk
            exact hmarks k hk
        · cases hbody
          exact ⟨hi, hj, hmarks⟩

end Lists

/-- The traceback is on the diagonal, and has marked all lines behind it. -/
structure OnDiagonal (n m : Nat) (s : DirTrace) : Prop where
  j : m = s.j
  i : s.i = s.j
  le : s.j ≤ n
  marks : ∀ k, s.j < k → k ≤ n → s.cmp1 k = true ∧ s.cmp2 k = true

theorem OnDiagonal.step {n m : Nat} {lcs' : Nat → Nat → Nat}
    (hval : ∀ i ≤ n, ∀ j ≤ n, lcs' i j = min i j) {s : DirTrace} (h : OnDiagonal n m s)
    (hmore : decide (0 < s.j) = true) :
    ∃ s' m', dirTraceBody lcs' s = some s' ∧ m' < m ∧ OnDiagonal n m' s' := by
  obtain ⟨i, j, cmp1, cmp2⟩ := s
  obtain ⟨rfl, hij, hj, hmarks⟩ := h
  dsimp only at hij hj hmarks hmore
  subst hij
  have h0 : 0 < i := of_decide_eq_true hmore
  have hbody : dirTraceBody lcs' ⟨i, i, cmp1, cmp2⟩ = some ⟨i - 1, i - 1,
      Function.update cmp1 i true, Function.update cmp2 i true⟩ := by
    rw [dirTraceBody]
    dsimp only
    rw [hval i hj i hj, hval (i - 1) (by omega) i hj, hval i hj (i - 1) (by omega)]
    rw [if_neg (by omega), if_neg (by omega), if_neg (by omega), if_pos (by omega)]
  refine ⟨_, i - 1, hbody, by omega, rfl, rfl, Nat.le_trans (Nat.sub_le _ _) hj,
    fun k hk hkn => ?_⟩
  dsimp only at hk ⊢
  by_cases hki : k = i
  · rw [hki, Function.update_self, Function.update_self]
    exact ⟨rfl, rfl⟩
  · rw [Function.update_of_ne hki, Function.update_of_ne hki]
    exact hmarks k (by omega) hkn

section Output

variable {cmp1 cmp2 : Nat → Bool} {namelist1 namelist2 : List CString}

/-- One pass through the body, with all that it reads. -/
inductive OutputStep (cmp1 cmp2 : Nat → Bool) (namelist1 namelist2 : List CString)
    (s : DirOutput) : DirOutput → Prop
  | ends (hi : namelist1.length ≤ s.i) (hj : namelist2.length ≤ s.j) :
    OutputStep cmp1 cmp2 namelist1 namelist2 s { s with stop := true }
  | dot1 {name1 name2 : CString} (h1 : namelist1[s.i]? = some name1)
    (h2 : namelist2[s.j]? = some name2) :
    OutputStep cmp1 cmp2 namelist1 namelist2 s { s with i := s.i + 1 }
  | dot2 {name1 name2 : CString} (h1 : namelist1[s.i]? = some name1)
    (h2 : namelist2[s.j]? = some name2) :
    OutputStep cmp1 cmp2 namelist1 namelist2 s { s with j := s.j + 1 }
  | both {name1 name2 : CString} (h1 : namelist1[s.i]? = some name1)
    (h2 : namelist2[s.j]? = some name2) (hdot : isDotName name1 = false)
    (hcmp1 : cmp1 s.i = true) (hcmp2 : cmp2 s.j = true) :
    OutputStep cmp1 cmp2 namelist1 namelist2 s
      { s with i := s.i + 1, j := s.j + 1, out := s.out ++ [.diffFile name1 name2] }
  | second {name1 name2 : CString} (h1 : namelist1[s.i]? = some name1)
    (h2 : namelist2[s.j]? = some name2) :
    OutputStep cmp1 cmp2 namelist1 namelist2 s
      { s with j := s.j + 1, out := s.out ++ [.onlyIn .second name2] }
  | first {name1 name2 : CString} (h1 : namelist1[s.i]? = some name1)
    (h2 : namelist2[s.j]? = some name2) :
    OutputStep cmp1 cmp2 namelist1 namelist2 s
      { s with i := s.i + 1, out := s.out ++ [.onlyIn .first name1] }
  | unmarked {name1 name2 : CString} {i j : Nat} {names1 names2 : List CString}
    (h1 : namelist1[s.i]? = some name1) (h2 : namelist2[s.j]? = some name2)
    (hcmp1 : cmp1 s.i = false) (hcmp2 : cmp2 s.j = false)
    (hpass1 : passUnmarked cmp1 namelist1 (namelist1.length + 2) s.i = some (i, names1))
    (hpass2 : passUnmarked cmp2 namelist2 (namelist2.length + 2) s.j = some (j, names2)) :
    OutputStep cmp1 cmp2 namelist1 namelist2 s { s with
      i := i
      j := j
      out := s.out ++ names1.map (.onlyIn .first) ++ names2.map (.onlyIn .second) }

theorem mem_tail_of_getElem? {l : List CString} {i : Nat} {name : CString} (h0 : 0 < i)
    (h : l[i]? = some name) : name ∈ l.tail := by
  rw [show i = i - 1 + 1 by omega, ← List.getElem?_tail] at h
  exact List.mem_of_getElem? h

/-- The index in a loop that passes unmarked names stops behind a marked one. -/
theorem passUnmarked_spec {cmp : Nat → Bool} {namelist : List CString} {fuel i stop : Nat}
    {names : List CString} (h : passUnmarked cmp namelist fuel i = some (stop, names))
    (hi : i < namelist.length) : stop ≤ namelist.length ∧ i < stop ∧ cmp (stop - 1) = true ∧
      ∀ name ∈ names, name ∈ namelist.tail := by
  induction fuel generalizing i names with
  | zero => cases h
  | succ fuel ih =>
    rw [passUnmarked, if_neg (by omega)] at h
    split at h
    · rename_i hcmp
      cases h
      exact ⟨hi, Nat.lt_succ_self i, hcmp, fun name hname => by cases hname⟩
    · simp only [Option.bind_eq_bind, Option.bind_eq_some_iff, Prod.exists,
        Option.some.injEq, Prod.mk.injEq] at h
      obtain ⟨name, hname, stop', names', hrest, rfl, rfl⟩ := h
      obtain ⟨hle, hlt, hcmp, hmem⟩ := ih hrest (List.getElem?_eq_some_iff.mp hname).1
      refine ⟨hle, by omega, hcmp, fun name' hname' => ?_⟩
      rcases List.mem_cons.mp hname' with rfl | hname'
      · exact mem_tail_of_getElem? (Nat.succ_pos i) hname
      · exact hmem name' hname'

/-- No name of a line is the first of its list. -/
def DirEvent.Behind (namelist1 namelist2 : List CString) : DirEvent → Prop
  | .diffFile name1 _ => name1 ∈ namelist1.tail
  | .onlyIn .first name => name ∈ namelist1.tail
  | .onlyIn .second name => name ∈ namelist2.tail

/-- What holds when both indices are behind the ends. -/
structure Ended (cmp1 cmp2 : Nat → Bool) (namelist1 namelist2 : List CString) : Prop where
  marked1 : cmp1 (namelist1.length - 1) = true
  marked2 : cmp2 (namelist2.length - 1) = true
  notDot : (∀ k, 0 < k → k < namelist1.length → cmp1 k = true) →
    ∀ name, namelist1[namelist1.length - 1]? = some name → isDotName name = false

/-- The output loop is behind both ends only with what `Ended` says, and has printed no first name. -/
structure OutputInv (cmp1 cmp2 : Nat → Bool) (namelist1 namelist2 : List CString) (s : DirOutput) :
    Prop where
  i : 0 < s.i
  j : 0 < s.j
  stop : s.stop = true → namelist1.length ≤ s.i ∧ namelist2.length ≤ s.j
  ended : namelist1.length ≤ s.i → namelist2.length ≤ s.j → Ended cmp1 cmp2 namelist1 namelist2
  out : ∀ e ∈ s.out, e.Behind namelist1 namelist2

/-- By the cases of a pass. Both ends are passed at once only by the cases `both` and `unmarked`. -/
theorem OutputInv.step {s s' : DirOutput} (h : OutputInv cmp1 cmp2 namelist1 namelist2 s)
    (hmore : (!s.stop) = true) (hstep : OutputStep cmp1 cmp2 namelist1 namelist2 s s') :
    OutputInv cmp1 cmp2 namelist1 namelist2 s' := by
  obtain ⟨hi0, hj0, -, hended, hout⟩ := h
  have hgo : s.stop ≠ true := by simpa using hmore
  have hevent : ∀ e : DirEvent, e.Behind namelist1 namelist2 →
      ∀ e' ∈ s.out ++ [e], e'.Behind namelist1 namelist2 := by
    intro e he e' he'
    rcases List.mem_append.mp he' with he' | he'
    · exact hout e' he'
    · rw [List.mem_singleton.mp he']
      exact he
  cases hstep with
  | ends hi hj => exact ⟨hi0, hj0, fun _ => ⟨hi, hj⟩, hended, hout⟩
  | dot1 h1 h2 =>
    have hj := (List.getElem?_eq_some_iff.mp h2).1
    exact ⟨Nat.succ_pos _, hj0, fun hs => absurd hs hgo,
      fun _ hj' => absurd hj' (Nat.not_le.mpr hj), hout⟩
  | dot2 h1 h2 =>
    have hi := (List.getElem?_eq_some_iff.mp h1).1
    exact ⟨hi0, Nat.succ_pos _, fun hs => absurd hs hgo,
      fun hi' _ => absurd hi' (Nat.not_le.mpr hi), hout⟩
  | both h1 h2 hdot hcmp1 hcmp2 =>
    have hi := (List.getElem?_eq_some_iff.mp h1).1
    have hj := (List.getElem?_eq_some_iff.mp h2).1
    refine ⟨Nat.succ_pos _, Nat.succ_pos _,
      fun hs => absurd hs hgo, fun hi' hj' => ?_,
      hevent _ (mem_tail_of_getElem? hi0 h1)⟩
    dsimp only at hi' hj'
    have hi1 : namelist1.length - 1 = s.i := by omega
    have hj1 : namelist2.length - 1 = s.j := by omega
    refine ⟨by rw [hi1, hcmp1], by rw [hj1, hcmp2], fun _ name hname => ?_⟩
    rw [hi1, h1] at hname
    cases hname
    exact hdot
  | second h1 h2 =>
    have hi := (List.getElem?_eq_some_iff.mp h1).1
    exact ⟨hi0, Nat.succ_pos _, fun hs => absurd hs hgo,
      fun hi' _ => absurd hi' (Nat.not_le.mpr hi), hevent _ (mem_tail_of_getElem? hj0 h2)⟩
  | first h1 h2 =>
    have hj := (List.getElem?_eq_some_iff.mp h2).1
    exact ⟨Nat.succ_pos _, hj0, fun hs => absurd hs hgo,
      fun _ hj' => absurd hj' (Nat.not_le.mpr hj), hevent _ (mem_tail_of_getElem? hi0 h1)⟩
  | @unmarked _ _ i j names1 names2 h1 h2 hcmp1 hcmp2 hpass1 hpass2 =>
    obtain ⟨hle1, hlt1, hmark1, hnames1⟩ :=
      passUnmarked_spec hpass1 (List.getElem?_eq_some_iff.mp h1).1
    obtain ⟨hle2, hlt2, hmark2, hnames2⟩ :=
      passUnmarked_spec hpass2 (List.getElem?_eq_some_iff.mp h2).1
    refine ⟨Nat.lt_of_le_of_lt (Nat.zero_le _) hlt1, Nat.lt_of_le_of_lt (Nat.zero_le _) hlt2,
      fun hs => absurd hs hgo, fun hi' hj' => ?_, fun e he => ?_⟩
    · dsimp only at hi' hj'
      refine ⟨by rw [show namelist1.length = i by omega, hmark1],
        by rw [show namelist2.length = j by omega, hmark2], fun hall => ?_⟩
      have hi := (List.getElem?_eq_some_iff.mp h1).1
      rw [hall s.i hi0 hi] at hcmp1
      cases hcmp1
    · rcases List.mem_append.mp he with he | he
      · rcases List.mem_append.mp he with he | he
        · exact hout e he
        · obtain ⟨name, hname, rfl⟩ := List.mem_map.mp he
          exact hnames1 name hname
      · obtain ⟨name, hname, rfl⟩ := List.mem_map.mp he
        exact hnames2 name hname

/-- On one list: `j` is behind `i` by dot names only, and `m` passes are left at most. -/
structure SameInv (namelist : List CString) (m : Nat) (s : DirOutput) : Prop where
  left : m + s.i + s.j + s.stop.toNat = 2 * namelist.length + 1
  pos : 0 < s.j
  le : s.j ≤ s.i
  bound : s.i ≤ namelist.length
  stop : s.stop = true → s.i = namelist.length
  passed : ∀ k name, s.j ≤ k → k < s.i → namelist[k]? = some name → isDotName name = true
  out : s.out = ((namelist.take s.i).filter fun n => !isDotName n).map fun n => .diffFile n n

/-- A pass inside of one list with all lines marked. -/
theorem dirOutputBody_same {namelist : List CString}
    (hcmp1 : ∀ k, 0 < k → k < namelist.length → cmp1 k = true)
    (hcmp2 : ∀ k, 0 < k → k < namelist.length → cmp2 k = true) {i j : Nat} (hj0 : 0 < j)
    (hji : j ≤ i) (hi : i < namelist.length) (out : List DirEvent) :
    dirOutputBody cmp1 cmp2 namelist namelist ⟨i, j, false, out⟩ =
      if isDotName namelist[i] then some ⟨i + 1, j, false, out⟩
      else if isDotName namelist[j] then some ⟨i, j + 1, false, out⟩
      else some ⟨i + 1, j + 1, false, out ++ [.diffFile namelist[i] namelist[j]]⟩ := by
  rw [dirOutputBody]
  dsimp only
  rw [if_neg (by omega), List.getElem?_eq_getElem hi,
    List.getElem?_eq_getElem (show j < namelist.length by omega), Option.bind_eq_bind,
    Option.bind_some, Option.bind_eq_bind, Option.bind_some, if_neg (by omega),
    if_neg (by omega), hcmp1 i (by omega) hi, hcmp2 j hj0 (by omega)]
  rfl

theorem SameInv.step {namelist : List CString}
    (hcmp1 : ∀ k, 0 < k → k < namelist.length → cmp1 k = true)
    (hcmp2 : ∀ k, 0 < k → k < namelist.length → cmp2 k = true)
    (hlast : ∀ name, namelist[namelist.length - 1]? = some name → isDotName name = false) {m : Nat}
    {s : DirOutput} (h : SameInv namelist m s) (hmore : (!s.stop) = true) :
    ∃ s' m', dirOutputBody cmp1 cmp2 namelist namelist s = some s' ∧ m' < m ∧
      SameInv namelist m' s' := by
  obtain ⟨i, j, stop, out⟩ := s
  obtain ⟨hm, hj0, hji, hi, -, hpassed, hout⟩ := h
  dsimp only at hm hj0 hji hi hpassed hout hmore
  have hgo : stop = false := by simpa using hmore
  subst hgo
  have hm : m + i + j + 0 = 2 * namelist.length + 1 := hm
  by_cases hend : i = namelist.length
  · have hj : j = namelist.length := by
      by_contra hne
      have hk : namelist.length - 1 < namelist.length := by omega
      have hdot := hpassed (namelist.length - 1) _ (by omega) (by omega)
        (List.getElem?_eq_getElem hk)
      rw [hlast _ (List.getElem?_eq_getElem hk)] at hdot
      cases hdot
    refine ⟨⟨i, j, true, out⟩, m - 1, ?_, by omega, ?_⟩
    · rw [dirOutputBody, if_pos ⟨by dsimp only; omega, by dsimp only; omega⟩]
    · refine ⟨?_, hj0, hji, hi, fun _ => hend, hpassed, hout⟩
      show m - 1 + i + j + 1 = 2 * namelist.length + 1
      omega
  have hi' : i < namelist.length := by omega
  have hbody := dirOutputBody_same hcmp1 hcmp2 hj0 hji hi' out
  have htake : (namelist.take (i + 1)).filter (fun n => !isDotName n) =
      (namelist.take i).filter (fun n => !isDotName n) ++
        [namelist[i]].filter fun n => !isDotName n := by
    rw [List.take_add_one, List.getElem?_eq_getElem hi', List.filter_append]
    rfl
  by_cases hdot : isDotName namelist[i] = true
  · refine ⟨⟨i + 1, j, false, out⟩, m - 1, by rw [hbody, if_pos hdot], by omega, ?_⟩
    refine ⟨?_, hj0, Nat.le_succ_of_le hji, hi', (fun h => by cases h),
      fun k name hk hk' hname => ?_, ?_⟩
    · show m - 1 + (i + 1) + j + 0 = 2 * namelist.length + 1
      omega
    · dsimp only at hk hk'
      by_cases hki : k = i
      · subst hki
        rw [List.getElem?_eq_getElem hi', Option.some.injEq] at hname
        rw [← hname, hdot]
      · exact hpassed k name hk (by omega) hname
    · dsimp only
      rw [hout, htake]
      simp [hdot]
  by_cases hij : j = i
  · subst hij
    refine ⟨⟨j + 1, j + 1, false, out ++ [.diffFile namelist[j] namelist[j]]⟩, m - 2,
      by rw [hbody, if_neg hdot, if_neg hdot], by omega, ?_⟩
    refine ⟨?_, Nat.succ_pos j, Nat.le_refl _, hi', (fun h => by cases h),
      fun k name hk hk' => absurd hk' (Nat.not_lt.mpr hk), ?_⟩
    · show m - 2 + (j + 1) + (j + 1) + 0 = 2 * namelist.length + 1
      omega
    · dsimp only
      rw [hout, htake]
      simp [hdot]
  · have hdot2 : isDotName namelist[j] = true :=
      hpassed j _ (Nat.le_refl j) (by omega) (List.getElem?_eq_getElem _)
    refine ⟨⟨i, j + 1, false, out⟩, m - 1, by rw [hbody, if_neg hdot, if_pos hdot2],
      by omega, ?_⟩
    refine ⟨?_, Nat.succ_pos j, Nat.lt_of_le_of_ne hji hij, hi, (fun h => by cases h),
      fun k name hk => hpassed k name (Nat.le_of_succ_le hk), hout⟩
    show m - 1 + i + (j + 1) + 0 = 2 * namelist.length + 1
    omega

end Output

/-! ## The result -/

/-- `scandir` with `alphasort`. -/
structure Listing (namelist : List CString) : Prop where
  sorted : namelist.Pairwise fun a b => strcmp a b < 0
  dot : ['.'] ∈ namelist
  dotDot : ['.', '.'] ∈ namelist

section Result

variable {namelist1 namelist2 : List CString}

theorem Listing.nodup {namelist : List CString} (h : Listing namelist) : namelist.Nodup := by
  refine h.sorted.imp fun {a b} hab heq => ?_
  rw [heq, strcmp_self] at hab
  omega

end Result

end Index
end SsuComputer
