import SsuComputer.Index.Verdict

/-!
# SsuComputer.Index.TraceBounds

The cells and rows that the traceback of `diff_file` reads.

* `Trace.reads` — the reads of one pass, in the order of the source.
* `EndsAtFirst` — common lines are picked from the end, and the last picked is line 1 of the second
  file.
* `inBounds_iff` — only then the loop does not read in front of the table: `if (i < 0) break;` lets
  `i = 0` through, and `lcs[i - 1][j]` is read.
-/

namespace SsuComputer
namespace Index

/-! ## The reads -/

inductive Read where
  | lcs (a b : Int)
  | row1 (k : Int)
  | row2 (k : Int)

def Read.InBounds (len1 len2 : Nat) : Read → Prop
  | .lcs a b => (0 ≤ a ∧ a ≤ len1) ∧ 0 ≤ b ∧ b ≤ len2
  | .row1 k => 0 ≤ k ∧ k ≤ len1 + 1
  | .row2 k => 0 ≤ k ∧ k ≤ len2 + 1

namespace Trace

/-- `flag < len && cmp[flag + 1]`, with the index it reads. -/
def before (f : Side) (flag : Nat) : Bool := decide (flag < f.len) && f.cmp (flag + 1)

def beforeReads (f : Side) (flag : Nat) : List Int := if flag < f.len then [(flag : Int) + 1] else []

/-- `flag1 < len1 && cmp1[flag1 + 1] && flag2 < len2 && cmp2[flag2 + 1]`. -/
def pairReads (s : Trace) (flag1 flag2 : Nat) : List Read :=
  (beforeReads s.f1 flag1).map .row1 ++
    if before s.f1 flag1 then (beforeReads s.f2 flag2).map .row2 else []

def blankReads (s : Trace) : List Read :=
  s.pairReads s.blankFlag1 s.blankFlag2 ++
    if before s.f1 s.blankFlag1 && before s.f2 s.blankFlag2 then []
    else s.pairReads s.blankFlag1 s.j ++
      if before s.f1 s.blankFlag1 && before s.f2 s.j then []
      else s.pairReads s.i s.blankFlag2 ++
        if before s.f1 s.i && before s.f2 s.blankFlag2 then []
        else .row1 (s.i + 1) :: if s.f1.blank (s.i + 1) then [.row2 (s.j + 1)] else []

def reads (below : Nat → Nat) (lcs : Nat → Nat → Nat) (s : Trace) : List Read :=
  let up := if s.i = 0 then below s.j else lcs (s.i - 1) s.j
  let left := lcs s.i (s.j - 1)
  [.lcs s.i s.j, .lcs (s.i - 1) s.j] ++
    if lcs s.i s.j = up then [.row1 s.i]
    else [.lcs s.i s.j, .lcs s.i (s.j - 1)] ++
      if lcs s.i s.j = left then [.row2 s.j]
      else [.lcs (s.i - 1) s.j, .lcs s.i (s.j - 1)] ++
        if up = left then .row1 s.i :: if s.f1.blank s.i then s.blankReads else [] else []

theorem pairReads_inBounds {s : Trace} (flag1 flag2 : Nat) :
    ∀ r ∈ s.pairReads flag1 flag2, r.InBounds s.f1.len s.f2.len := by
  have hbefore (f : Side) (flag : Nat) : ∀ k ∈ beforeReads f flag, 0 ≤ k ∧ k ≤ (f.len : Int) + 1 := by
    intro k hk
    rw [beforeReads] at hk
    split at hk
    · rw [List.mem_singleton.mp hk]
      omega
    · cases hk
  intro r hr
  rw [pairReads, List.mem_append, List.mem_map] at hr
  rcases hr with ⟨k, hk, rfl⟩ | hr
  · exact hbefore s.f1 flag1 k hk
  · split at hr
    · obtain ⟨k, hk, rfl⟩ := List.mem_map.mp hr
      exact hbefore s.f2 flag2 k hk
    · cases hr

theorem blankReads_inBounds {s : Trace} (hi : s.i ≤ s.f1.len) (hj : s.j ≤ s.f2.len) :
    ∀ r ∈ s.blankReads, r.InBounds s.f1.len s.f2.len := by
  intro r hr
  rw [blankReads, List.mem_append] at hr
  rcases hr with hr | hr
  · exact pairReads_inBounds _ _ r hr
  · split at hr
    · cases hr
    · rcases List.mem_append.mp hr with hr | hr
      · exact pairReads_inBounds _ _ r hr
      · split at hr
        · cases hr
        · rcases List.mem_append.mp hr with hr | hr
          · exact pairReads_inBounds _ _ r hr
          · split at hr
            · cases hr
            · rcases List.mem_cons.mp hr with rfl | hr
              · simp only [Read.InBounds]
                omega
              · split at hr
                · rw [List.mem_singleton.mp hr, Read.InBounds]
                  omega
                · cases hr

/-- All reads of a pass are in bounds where it is not in row 0. -/
theorem reads_inBounds_iff {below : Nat → Nat} {lcs : Nat → Nat → Nat} {s : Trace}
    (hi : s.i ≤ s.f1.len) (hj : s.j ≤ s.f2.len) (hpos : 0 < s.j) :
    (∀ r ∈ s.reads below lcs, r.InBounds s.f1.len s.f2.len) ↔ 0 < s.i := by
  constructor
  · intro h
    have hup := h (.lcs (s.i - 1) s.j) (by simp [reads])
    simp only [Read.InBounds] at hup
    omega
  · intro hrow r hr
    have hcell : (Read.lcs s.i s.j).InBounds s.f1.len s.f2.len := by simp only [Read.InBounds]; omega
    have hup : (Read.lcs (s.i - 1) s.j).InBounds s.f1.len s.f2.len := by
      simp only [Read.InBounds]; omega
    have hleft : (Read.lcs s.i (s.j - 1)).InBounds s.f1.len s.f2.len := by
      simp only [Read.InBounds]; omega
    have hrow1 : (Read.row1 s.i).InBounds s.f1.len s.f2.len := by simp only [Read.InBounds]; omega
    have hrow2 : (Read.row2 s.j).InBounds s.f1.len s.f2.len := by simp only [Read.InBounds]; omega
    simp only [reads, if_neg (Nat.ne_of_gt hrow), List.mem_append, List.mem_cons, List.not_mem_nil,
      or_false] at hr
    rcases hr with (rfl | rfl) | hr
    · exact hcell
    · exact hup
    · split at hr
      · rw [List.mem_singleton.mp hr]
        exact hrow1
      · simp only [List.mem_append, List.mem_cons, List.not_mem_nil, or_false] at hr
        rcases hr with (rfl | rfl) | hr
        · exact hcell
        · exact hleft
        · split at hr
          · rw [List.mem_singleton.mp hr]
            exact hrow2
          · simp only [List.mem_append, List.mem_cons, List.not_mem_nil, or_false] at hr
            rcases hr with (rfl | rfl) | hr
            · exact hup
            · exact hleft
            · split at hr
              · rcases List.mem_cons.mp hr with rfl | hr
                · exact hrow1
                · split at hr
                  · exact blankReads_inBounds hi hj r hr
                  · cases hr
              · cases hr

end Trace

/-! ## The condition -/

def IsFirst (P : Nat → Prop) (a : Nat) : Prop := P a ∧ ∀ k < a, ¬P k

/-- Common lines are picked from the end: the shortest part of the first list, and then of the
second, that still has as long a common subsequence. Lines of the second list are left, unless the
last line picked is its first. -/
inductive EndsAtFirst {α β : Type _} (R : α → β → Prop) (xs : List α) (ys : List β) :
    Nat → Nat → Prop
  | done (i : Nat) : EndsAtFirst R xs ys i 0
  | pick {i j k a b : Nat} (hk : k ≠ 0) (hij : Longest R (xs.take i) (ys.take j) k)
      (ha : IsFirst (fun a => Longest R (xs.take a) (ys.take j) k) a)
      (hb : IsFirst (fun b => Longest R (xs.take a) (ys.take b) k) b)
      (h : EndsAtFirst R xs ys (a - 1) (b - 1)) : EndsAtFirst R xs ys i j

theorem IsFirst.le {P : Nat → Prop} {a i : Nat} (h : IsFirst P a) (hi : P i) : a ≤ i :=
  Nat.le_of_not_lt fun hlt => h.2 i hlt hi

theorem IsFirst.congr {P Q : Nat → Prop} {a : Nat} (h : IsFirst P a) (hPQ : ∀ k ≤ a, P k ↔ Q k) :
    IsFirst Q a :=
  ⟨(hPQ a (Nat.le_refl a)).mp h.1, fun k hk hq => h.2 k hk ((hPQ k (Nat.le_of_lt hk)).mpr hq)⟩

section Walk

variable {α β : Type _} {R : α → β → Prop} {xs : List α} {ys : List β} {same : Nat → Nat → Bool}
  {i j : Nat}

/-- By the table. -/
theorem endsAtFirst_iff (hsame : ∀ i (hi : i < xs.length) j (hj : j < ys.length),
      same (i + 1) (j + 1) = true ↔ R xs[i] ys[j]) (hi : i ≤ xs.length) (hj : j ≤ ys.length)
    (hpos : 0 < j) :
    EndsAtFirst R xs ys i j ↔ lcs same i j ≠ 0 ∧ ∃ a b, IsFirst (fun a => lcs same a j = lcs same i j) a ∧
      IsFirst (fun b => lcs same a b = lcs same i j) b ∧ EndsAtFirst R xs ys (a - 1) (b - 1) := by
  constructor
  · intro h
    cases h with
    | done => omega
    | @pick _ _ k a b hk hij ha hb h =>
      have hlcs := (longest_iff hsame hi hj).mp hij
      subst hlcs
      have hai := ha.le hij
      have hbj := hb.le ha.1
      refine ⟨hk, a, b, ha.congr fun c hc => ?_, hb.congr fun c hc => ?_, h⟩
      · exact longest_iff hsame (by omega) hj
      · exact longest_iff hsame (by omega) (by omega)
  · rintro ⟨hk, a, b, ha, hb, h⟩
    have hai := ha.le rfl
    have hbj := hb.le ha.1
    refine .pick hk ((longest_iff hsame hi hj).mpr rfl) (ha.congr fun c hc => ?_)
      (hb.congr fun c hc => ?_) h
    · exact (longest_iff hsame (by omega) hj).symm
    · exact (longest_iff hsame (by omega) (by omega)).symm

theorem isFirst_row_iff (h : lcs same i j ≠ lcs same (i + 1) j) {a : Nat} :
    IsFirst (fun a => lcs same a j = lcs same (i + 1) j) a ↔ a = i + 1 := by
  have hmono := @lcs_mono_left same i j
  have hfirst : IsFirst (fun a => lcs same a j = lcs same (i + 1) j) (i + 1) := by
    refine ⟨rfl, fun k hk heq => ?_⟩
    have hle := @lcs_mono_left_of_le same k i (by omega) j
    omega
  constructor
  · intro ha
    exact Nat.le_antisymm (ha.le rfl) (hfirst.le ha.1)
  · rintro rfl
    exact hfirst

theorem isFirst_column_iff (h : lcs same i j ≠ lcs same i (j + 1)) {b : Nat} :
    IsFirst (fun b => lcs same i b = lcs same i (j + 1)) b ↔ b = j + 1 := by
  have hmono := @lcs_mono_right same i j
  have hfirst : IsFirst (fun b => lcs same i b = lcs same i (j + 1)) (j + 1) := by
    refine ⟨rfl, fun k hk heq => ?_⟩
    have hle := @lcs_mono_right_of_le same i k j (by omega)
    omega
  constructor
  · intro hb
    exact Nat.le_antisymm (hb.le rfl) (hfirst.le hb.1)
  · rintro rfl
    exact hfirst

variable (hsame : ∀ i (hi : i < xs.length) j (hj : j < ys.length),
  same (i + 1) (j + 1) = true ↔ R xs[i] ys[j])
include hsame

theorem endsAtFirst_up (hi : i + 1 ≤ xs.length) (hj : j + 1 ≤ ys.length)
    (heq : lcs same (i + 1) (j + 1) = lcs same i (j + 1)) :
    EndsAtFirst R xs ys (i + 1) (j + 1) ↔ EndsAtFirst R xs ys i (j + 1) := by
  rw [endsAtFirst_iff hsame hi hj (Nat.succ_pos j),
    endsAtFirst_iff hsame (Nat.le_of_lt hi) hj (Nat.succ_pos j), heq]

theorem endsAtFirst_left (hi : i + 1 ≤ xs.length) (hj : j + 1 ≤ ys.length)
    (hne : lcs same (i + 1) (j + 1) ≠ lcs same i (j + 1))
    (heq : lcs same (i + 1) (j + 1) = lcs same (i + 1) j) :
    EndsAtFirst R xs ys (i + 1) (j + 1) ↔ EndsAtFirst R xs ys (i + 1) j := by
  have hmono := @lcs_mono_left same i (j + 1)
  have hmono' := @lcs_mono_right same i j
  have hpos : 0 < j := Nat.pos_of_ne_zero fun h0 => by
    subst h0
    rw [lcs_zero_right] at heq
    omega
  have hne' : lcs same i j ≠ lcs same (i + 1) j := by omega
  rw [endsAtFirst_iff hsame hi hj (Nat.succ_pos j),
    endsAtFirst_iff hsame hi (Nat.le_of_lt hj) hpos]
  have hrow : ∀ a, IsFirst (fun a => lcs same a (j + 1) = lcs same (i + 1) (j + 1)) a ↔ a = i + 1 :=
    fun a => isFirst_row_iff (Ne.symm hne)
  rw [heq] at hrow
  simp only [heq, hrow, isFirst_row_iff hne']

theorem endsAtFirst_diagonal (hi : i + 1 ≤ xs.length) (hj : j + 1 ≤ ys.length)
    (hup : lcs same (i + 1) (j + 1) ≠ lcs same i (j + 1))
    (hleft : lcs same (i + 1) (j + 1) ≠ lcs same (i + 1) j) :
    EndsAtFirst R xs ys (i + 1) (j + 1) ↔ EndsAtFirst R xs ys i j := by
  have hmono := @lcs_mono_left same i (j + 1)
  rw [endsAtFirst_iff hsame hi hj (Nat.succ_pos j)]
  constructor
  · rintro ⟨-, a, b, ha, hb, h⟩
    obtain rfl := (isFirst_row_iff (Ne.symm hup)).mp ha
    obtain rfl := (isFirst_column_iff (Ne.symm hleft)).mp hb
    exact h
  · intro h
    refine ⟨by omega, i + 1, j + 1, (isFirst_row_iff (Ne.symm hup)).mpr rfl,
      (isFirst_column_iff (Ne.symm hleft)).mpr rfl, h⟩

theorem not_endsAtFirst_top (hj : j + 1 ≤ ys.length) : ¬EndsAtFirst R xs ys 0 (j + 1) := by
  rw [endsAtFirst_iff hsame (Nat.zero_le _) hj (Nat.succ_pos j), lcs_zero_left]
  exact fun h => h.1 rfl

end Walk

/-! ## The loop -/

/-- The loop is at the lines `i` and `j` of files of `m` and `n` lines. -/
structure Trace.At (m n i j : Nat) (s : Trace) : Prop where
  i : s.i = i
  j : s.j = j
  under : s.under = false
  len1 : s.f1.len = m
  len2 : s.f2.len = n

def traceCond (s : Trace) : Bool := decide (0 < s.j) && !s.under

section Moves

variable {same : Nat → Nat → Bool} {below : Nat → Nat} {tab : Nat → Nat → Nat} {m n i j : Nat}
  {s : Trace}

theorem traceBody_up (h : s.At m n (i + 1) (j + 1))
    (htab : ∀ i ≤ m, ∀ j ≤ n, tab i j = lcs same i j) (hi : i + 1 ≤ m) (hj : j + 1 ≤ n)
    (heq : lcs same (i + 1) (j + 1) = lcs same i (j + 1)) :
    ∃ s', traceBody below tab s = some s' ∧ s'.At m n i (j + 1) := by
  obtain ⟨si, su, sj, f1, f2, b1, b2⟩ := s
  obtain ⟨rfl, rfl, rfl, rfl, rfl⟩ := h
  have heq' : tab (i + 1) (j + 1) = tab i (j + 1) := by
    rw [htab _ hi _ hj, htab i (by omega) _ hj, heq]
  simp only [traceBody, Nat.succ_ne_zero, if_false, Nat.add_sub_cancel, if_pos heq', decide_false]
  exact ⟨_, rfl, rfl, rfl, rfl, rfl, rfl⟩

theorem traceBody_left (h : s.At m n (i + 1) (j + 1))
    (htab : ∀ i ≤ m, ∀ j ≤ n, tab i j = lcs same i j) (hi : i + 1 ≤ m) (hj : j + 1 ≤ n)
    (hne : lcs same (i + 1) (j + 1) ≠ lcs same i (j + 1))
    (heq : lcs same (i + 1) (j + 1) = lcs same (i + 1) j) :
    ∃ s', traceBody below tab s = some s' ∧ s'.At m n (i + 1) j := by
  obtain ⟨si, su, sj, f1, f2, b1, b2⟩ := s
  obtain ⟨rfl, rfl, rfl, rfl, rfl⟩ := h
  have hne' : tab (i + 1) (j + 1) ≠ tab i (j + 1) := by
    rwa [htab _ hi _ hj, htab i (by omega) _ hj]
  have heq' : tab (i + 1) (j + 1) = tab (i + 1) j := by
    rw [htab _ hi _ hj, htab _ hi j (by omega), heq]
  simp only [traceBody, Nat.succ_ne_zero, if_false, Nat.add_sub_cancel, if_neg hne', if_pos heq']
  exact ⟨_, rfl, rfl, rfl, rfl, rfl, rfl⟩

theorem bothBlank_at (h : s.At m n (i + 1) (j + 1)) : s.bothBlank.At m n i j := by
  obtain ⟨si, su, sj, f1, f2, b1, b2⟩ := s
  obtain ⟨rfl, rfl, rfl, rfl, rfl⟩ := h
  rw [Trace.bothBlank]
  split
  · exact ⟨rfl, rfl, rfl, rfl, rfl⟩
  · split
    · exact ⟨rfl, rfl, rfl, rfl, rfl⟩
    · exact ⟨rfl, rfl, rfl, rfl, rfl⟩

theorem traceBody_diagonal (h : s.At m n (i + 1) (j + 1))
    (htab : ∀ i ≤ m, ∀ j ≤ n, tab i j = lcs same i j) (hi : i + 1 ≤ m) (hj : j + 1 ≤ n)
    (hup : lcs same (i + 1) (j + 1) ≠ lcs same i (j + 1))
    (hleft : lcs same (i + 1) (j + 1) ≠ lcs same (i + 1) j) :
    ∃ s', traceBody below tab s = some s' ∧ s'.At m n i j := by
  obtain ⟨-, hright, hdown⟩ := lcs_corner hup hleft
  have hblank := bothBlank_at h
  obtain ⟨si, su, sj, f1, f2, b1, b2⟩ := s
  obtain ⟨rfl, rfl, rfl, rfl, rfl⟩ := h
  have hup' : tab (i + 1) (j + 1) ≠ tab i (j + 1) := by
    rwa [htab _ hi _ hj, htab i (by omega) _ hj]
  have hleft' : tab (i + 1) (j + 1) ≠ tab (i + 1) j := by
    rwa [htab _ hi _ hj, htab _ hi j (by omega)]
  have hcorner : tab i (j + 1) = tab (i + 1) j := by
    rw [htab i (by omega) _ hj, htab _ hi j (by omega), hright, hdown]
  simp only [traceBody, Nat.succ_ne_zero, if_false, Nat.add_sub_cancel, if_neg hup', if_neg hleft',
    if_pos hcorner]
  split
  · exact ⟨_, rfl, hblank⟩
  · exact ⟨_, rfl, rfl, rfl, rfl, rfl, rfl⟩

end Moves

section Rows

variable {option : Nat} {rows1 rows2 : List CString} {below : Nat → Nat} {tab : Nat → Nat → Nat}

/-- All reads from a state of the loop on. -/
def ReadsInBounds (below : Nat → Nat) (tab : Nat → Nat → Nat) (len1 len2 : Nat) (s : Trace) : Prop :=
  ∀ t, Visits traceCond (traceBody below tab) s t → traceCond t = true →
    ∀ r ∈ t.reads below tab, r.InBounds len1 len2

theorem readsInBounds_of_not {len1 len2 : Nat} {s : Trace} (h : traceCond s = false) :
    ReadsInBounds below tab len1 len2 s := by
  intro t ht hmore
  rw [visits_of_not h ht, h] at hmore
  cases hmore

theorem readsInBounds_step {len1 len2 : Nat} {s s' : Trace} (hc : traceCond s = true)
    (hb : traceBody below tab s = some s') :
    ReadsInBounds below tab len1 len2 s ↔
      (∀ r ∈ s.reads below tab, r.InBounds len1 len2) ∧ ReadsInBounds below tab len1 len2 s' := by
  constructor
  · exact fun h => ⟨h s .start hc, fun t ht => h t (ht.prepend hc hb)⟩
  · rintro ⟨hs, hrest⟩ t ht hmore
    rcases (visits_step hc hb).mp ht with rfl | ht
    · exact hs
    · exact hrest t ht hmore

/-- By the recursion of the table: a pass reads in bounds unless it is in row 0. -/
theorem readsInBounds_iff
    (htab : ∀ i ≤ rows1.length, ∀ j ≤ rows2.length,
      tab i j = lcs (sameRow option (Side.load rows1) (Side.load rows2)) i j) (i j : Nat) (s : Trace)
    (hs : s.At rows1.length rows2.length i j) (hi : i ≤ rows1.length) (hj : j ≤ rows2.length) :
    ReadsInBounds below tab rows1.length rows2.length s ↔
      EndsAtFirst (fun a b => sameString option a b = true) rows1 rows2 i j := by
  have hsame : ∀ i (hi : i < rows1.length) j (hj : j < rows2.length),
      sameRow option (Side.load rows1) (Side.load rows2) (i + 1) (j + 1) = true ↔
        sameString option rows1[i] rows2[j] = true := fun i hi j hj => sameRow_iff hi hj
  have hbounds (i j : Nat) (s : Trace) (hs : s.At rows1.length rows2.length i (j + 1))
      (hi : i ≤ rows1.length) (hj : j + 1 ≤ rows2.length) :
      traceCond s = true ∧
        ((∀ r ∈ s.reads below tab, r.InBounds rows1.length rows2.length) ↔ 0 < i) := by
    have hreads := @Trace.reads_inBounds_iff below tab s (by rwa [hs.i, hs.len1])
      (by rwa [hs.j, hs.len2]) (by rw [hs.j]; exact Nat.succ_pos j)
    rw [hs.len1, hs.len2, hs.i] at hreads
    exact ⟨by simp [traceCond, hs.j, hs.under], hreads⟩
  induction i, j using table.induct generalizing s with
  | case1 j =>
    cases j with
    | zero => exact iff_of_true (readsInBounds_of_not (by simp [traceCond, hs.j])) (.done 0)
    | succ j =>
      obtain ⟨hmore, hreads⟩ := hbounds 0 j s hs hi hj
      refine iff_of_false (fun h => ?_) (not_endsAtFirst_top hsame hj)
      exact Nat.lt_irrefl 0 (hreads.mp (h s .start hmore))
  | case2 i => exact iff_of_true (readsInBounds_of_not (by simp [traceCond, hs.j])) (.done _)
  | case3 i j ihd ihu ihl =>
    obtain ⟨hmore, hreads⟩ := hbounds (i + 1) j s hs hi hj
    have hhere := hreads.mpr (Nat.succ_pos i)
    by_cases hup : lcs (sameRow option (Side.load rows1) (Side.load rows2)) (i + 1) (j + 1) =
        lcs (sameRow option (Side.load rows1) (Side.load rows2)) i (j + 1)
    · obtain ⟨s', hbody, hs'⟩ := traceBody_up hs htab hi hj hup
      rw [readsInBounds_step hmore hbody, endsAtFirst_up hsame hi hj hup]
      exact (and_iff_right hhere).trans (ihu s' hs' (by omega) hj)
    · by_cases hleft : lcs (sameRow option (Side.load rows1) (Side.load rows2)) (i + 1) (j + 1) =
          lcs (sameRow option (Side.load rows1) (Side.load rows2)) (i + 1) j
      · obtain ⟨s', hbody, hs'⟩ := traceBody_left hs htab hi hj hup hleft
        rw [readsInBounds_step hmore hbody, endsAtFirst_left hsame hi hj hup hleft]
        exact (and_iff_right hhere).trans (ihl s' hs' hi (by omega))
      · obtain ⟨s', hbody, hs'⟩ := traceBody_diagonal hs htab hi hj hup hleft
        rw [readsInBounds_step hmore hbody, endsAtFirst_diagonal hsame hi hj hup hleft]
        exact (and_iff_right hhere).trans (ihd s' hs' (by omega) (by omega))

end Rows

/-- The state in which the loop of `diff_file` starts. -/
def traceStart (rows1 rows2 : List CString) : Trace :=
  ⟨rows1.length, false, rows2.length, Side.load rows1, Side.load rows2, 0, 0⟩

theorem inBounds_iff (option : Nat) (rows1 rows2 : List CString) (below : Nat → Nat) :
    ReadsInBounds below
        (fillTable (lcsCell (sameRow option (Side.load rows1) (Side.load rows2))) rows1.length
          rows2.length) rows1.length rows2.length (traceStart rows1 rows2) ↔
      EndsAtFirst (fun a b => sameString option a b = true) rows1 rows2 rows1.length rows2.length :=
  readsInBounds_iff (fun _ hi _ hj => fillTable_eq hi hj) _ _ _ ⟨rfl, rfl, rfl, rfl, rfl⟩
    (Nat.le_refl _) (Nat.le_refl _)

/-- Of the lines `x` and `y`, `x`, the second `x` is common: line 1 of the second file is left when
row 0 is reached. -/
theorem reads_in_front_of_table : ∃ t,
    Visits traceCond (traceBody (fun _ => 1)
        (fillTable (lcsCell (sameRow 0 (Side.load [['x']]) (Side.load [['y'], ['x']]))) 1 2))
      (traceStart [['x']] [['y'], ['x']]) t ∧ traceCond t = true ∧
      ∃ r ∈ t.reads (fun _ => 1)
          (fillTable (lcsCell (sameRow 0 (Side.load [['x']]) (Side.load [['y'], ['x']]))) 1 2),
        ¬r.InBounds 1 2 := by
  refine ⟨_, .next .start (by decide) rfl, by decide, .lcs (-1) 1, ?_, ?_⟩
  · exact List.mem_cons_of_mem _ List.mem_cons_self
  · simp [Read.InBounds]

end Index
end SsuComputer
