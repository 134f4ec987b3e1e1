import SsuComputer.Index.Printed
import SsuComputer.Lib.Noted

/-!
# SsuComputer.Index.PrintReads

`print_file_diff` once more, with the marks that it reads.

* `MarkRead` — an index of `cmp1` or of `cmp2`. What lies behind the arrays can be read as well.
* `printBody_turns` — one pass: it is that of `DiffFile`, reads within the arrays, and moves a
  cursor or stops, for any marks.
* `printFileDiff_readsWithin` — so the whole ends, and reads within the arrays.
-/

namespace SsuComputer
namespace Index
namespace PrintReads

inductive MarkRead
  | cmp1 (k : Nat)
  | cmp2 (k : Nat)

def MarkRead.Within (len1 len2 : Nat) : MarkRead → Prop
  | .cmp1 k => k ≤ len1
  | .cmp2 k => k ≤ len2

/-! ## The functions -/

section Model

variable (f1 f2 : Side)

def cmp1 (k : Nat) : Noted MarkRead Bool := note (.cmp1 k) (f1.cmp k)

def cmp2 (k : Nat) : Noted MarkRead Bool := note (.cmp2 k) (f2.cmp k)

def ffUntil1 (ls : Nat → Noted MarkRead Bool) (s limit : Nat) : Noted MarkRead Nat :=
  if s ≤ limit then do
    if ← ls s then return s
    else ffUntil1 ls (s + 1) limit
  else return s
termination_by limit + 1 - s

variable (option : Nat) (s : Print)

def printNeither : Noted MarkRead Print :=
  let change : Noted MarkRead Print := do
    let i ← ffUntil1 (cmp1 f1) s.i f1.len
    let j ← ffUntil1 (cmp2 f2) s.j f2.len
    return { s with
      i := i, j := j, out := s.out ++ printChange f1 f2 option s.i (i - 1) s.j (j - 1) }
  if s.i = 0 ∧ s.j = 0 then do
    let origin ← cmp1 f1 (s.i + 1)
    let compare ← cmp2 f2 (s.j + 1)
    if compare && origin then return { s with i := s.i + 1, j := s.j + 1 }
    else if compare then do
      let i ← ffUntil1 (cmp1 f1) (s.i + 1) f1.len
      let hunk := printDelete f1 option (s.i + 1) (i - 1) s.j
      return { s with i := i, j := s.j + 1, out := s.out ++ [hunk] }
    else if origin then do
      let j ← ffUntil1 (cmp2 f2) (s.j + 1) f2.len
      let hunk := printAppend f2 option s.i (s.j + 1) (j - 1)
      return { s with i := s.i + 1, j := j, out := s.out ++ [hunk] }
    else change
  else change

def printBody : Noted MarkRead Print :=
  if s.i > f1.len ∧ s.j > f2.len then return { s with stop := true }
  else if s.i > f1.len then
    return { s with stop := true, out := s.out ++ [printAppend f2 option f1.len s.j f2.len] }
  else if s.j > f2.len then
    return { s with stop := true, out := s.out ++ [printDelete f1 option s.i f1.len f2.len] }
  else do
    let origin ← cmp1 f1 s.i
    let compare ← cmp2 f2 s.j
    if origin && compare then return { s with i := s.i + 1, j := s.j + 1 }
    else if origin then do
      let j ← ffUntil1 (cmp2 f2) s.j f2.len
      return { s with j := j, out := s.out ++ [printAppend f2 option (s.i - 1) s.j (j - 1)] }
    else if compare then do
      let i ← ffUntil1 (cmp1 f1) s.i f1.len
      return { s with i := i, out := s.out ++ [printDelete f1 option s.i i (s.j - 1)] }
    else printNeither f1 f2 option s

end Model

/-- What is printed, and the marks read for it. -/
def printFileDiff (fuel : Nat) (f1 f2 : Side) (option : Nat) :
    Option (List (Hunk CString) × List MarkRead) :=
  (whileLoop ((fun s : Print => !s.stop) ∘ Prod.fst) (notedBody (printBody f1 f2 option)) fuel
    (⟨0, 0, false, []⟩, [])).map fun r => (r.1.out, r.2)

/-! ## The scan -/

/-- From `s` on, `e` is the next row with a mark, or behind the last row. -/
structure Skips (f : Side) (s e : Nat) : Prop where
  le : s ≤ e
  bound : e ≤ f.len + 1
  before : ∀ k, s ≤ k → k < e → f.cmp k = false
  stop : e ≤ f.len → f.cmp e = true

theorem Skips.ffUntil1 {f : Side} {s e : Nat} (h : Skips f s e) : Index.ffUntil1 f s = some e :=
  ffUntil1_eq f h.le h.bound h.before h.stop

theorem Skips.lt {f : Side} {s e : Nat} (h : Skips f s e) (hs : s ≤ f.len)
    (hcmp : f.cmp s = false) : s < e := by
  refine Nat.lt_of_le_of_ne h.le fun heq => ?_
  subst heq
  rw [h.stop hs] at hcmp
  cases hcmp

theorem ffUntil1_gives {f : Side} {ls : Nat → Noted MarkRead Bool} {P : MarkRead → Prop}
    (hls : ∀ k ≤ f.len, Gives P (ls k) (f.cmp k)) {s : Nat} (hs : s ≤ f.len + 1) :
    ∃ e, Skips f s e ∧ Gives P (ffUntil1 ls s f.len) e := by
  induction hk : f.len + 1 - s generalizing s with
  | zero =>
    refine ⟨s, ⟨Nat.le_refl s, hs, fun k _ _ => by omega, fun _ => by omega⟩, ?_⟩
    rw [ffUntil1, if_neg (by omega)]
    exact .pure P s
  | succ n ih =>
    have hle : s ≤ f.len := by omega
    rw [ffUntil1, if_pos hle]
    cases hc : f.cmp s with
    | true =>
      refine ⟨s, ⟨Nat.le_refl s, hs, fun k _ _ => by omega, fun _ => hc⟩, (hls s hle).bind ?_⟩
      rw [hc, if_pos rfl]
      exact .pure P s
    | false =>
      obtain ⟨e, hskips, hgives⟩ := ih (s := s + 1) (by omega) (by omega)
      refine ⟨e, ⟨by have := hskips.le; omega, hskips.bound, fun k hk hke => ?_, hskips.stop⟩,
        (hls s hle).bind ?_⟩
      · rcases Nat.eq_or_lt_of_le hk with rfl | hlt
        · exact hc
        · exact hskips.before k hlt hke
      · rw [hc, if_neg Bool.false_ne_true]
        exact hgives

/-! ## One pass -/

/-- What is still ahead of the cursors. -/
def ahead (f1 f2 : Side) (s : Print) : Nat :=
  if s.stop then 0 else (f1.len + 1 - s.i) + (f2.len + 1 - s.j) + 1

structure CursorsWithin (f1 f2 : Side) (s : Print) : Prop where
  i : s.i ≤ f1.len + 1
  j : s.j ≤ f2.len + 1

/-- A pass from `s`, as `DiffFile` has it and with its notes. -/
def Turns (f1 f2 : Side) (s : Print) (m : Option Print) (m' : Noted MarkRead Print) : Prop :=
  ∃ s', m = some s' ∧ Gives (MarkRead.Within f1.len f2.len) m' s' ∧ CursorsWithin f1 f2 s' ∧
    ahead f1 f2 s' < ahead f1 f2 s

section Pass

variable {f1 f2 : Side} {option : Nat} {s : Print}

/-- A pass that moves a cursor. -/
theorem turns_of_move {s' : Print} {m' : Noted MarkRead Print} (hs : s.stop = false)
    (hi : s.i ≤ f1.len) (hj : s.j ≤ f2.len) (hs' : s'.stop = false)
    (hi' : s.i ≤ s'.i ∧ s'.i ≤ f1.len + 1) (hj' : s.j ≤ s'.j ∧ s'.j ≤ f2.len + 1)
    (hmove : s.i < s'.i ∨ s.j < s'.j) (hgives : Gives (MarkRead.Within f1.len f2.len) m' s') :
    Turns f1 f2 s (some s') m' := by
  refine ⟨s', rfl, hgives, ⟨hi'.2, hj'.2⟩, ?_⟩
  simp only [ahead, hs, hs', Bool.false_eq_true, if_false]
  omega

/-- A pass that ends the loop. -/
theorem turns_of_stop {s' : Print} (hs : s.stop = false) (hin : CursorsWithin f1 f2 s)
    (hs' : s'.stop = true) (hi : s'.i = s.i) (hj : s'.j = s.j) :
    Turns f1 f2 s (some s') (pure s') := by
  refine ⟨s', rfl, .pure _ s', ⟨by rw [hi]; exact hin.i, by rw [hj]; exact hin.j⟩, ?_⟩
  simp only [ahead, hs, hs', Bool.false_eq_true, if_false, if_true]
  omega

theorem cmp1_gives {k : Nat} (hk : k ≤ f1.len) :
    Gives (MarkRead.Within f1.len f2.len) (cmp1 f1 k) (f1.cmp k) :=
  .note (r := MarkRead.cmp1 k) hk _

theorem cmp2_gives {k : Nat} (hk : k ≤ f2.len) :
    Gives (MarkRead.Within f1.len f2.len) (cmp2 f2 k) (f2.cmp k) :=
  .note (r := MarkRead.cmp2 k) hk _

theorem ff1_gives (f2 : Side) {k : Nat} (hk : k ≤ f1.len + 1) :
    ∃ e, Skips f1 k e ∧ Gives (MarkRead.Within f1.len f2.len) (ffUntil1 (cmp1 f1) k f1.len) e :=
  ffUntil1_gives (fun _ hk => cmp1_gives hk) hk

theorem ff2_gives (f1 : Side) {k : Nat} (hk : k ≤ f2.len + 1) :
    ∃ e, Skips f2 k e ∧ Gives (MarkRead.Within f1.len f2.len) (ffUntil1 (cmp2 f2) k f2.len) e :=
  ffUntil1_gives (fun _ hk => cmp2_gives hk) hk

/-- A pass that goes on with what it has read. -/
theorem turns_of_reads {k l : Nat} (hk : k ≤ f1.len) (hl : l ≤ f2.len)
    {f : Bool → Bool → Option Print} {f' : Bool → Bool → Noted MarkRead Print}
    (h : Turns f1 f2 s (f (f1.cmp k) (f2.cmp l)) (f' (f1.cmp k) (f2.cmp l))) :
    Turns f1 f2 s (do let origin ← f1.read k; let compare ← f2.read l; f origin compare)
      (do let origin ← cmp1 f1 k; let compare ← cmp2 f2 l; f' origin compare) := by
  obtain ⟨s', hbody, hgives, hturn⟩ := h
  rw [Side.read, if_pos hk, Side.read, if_pos hl]
  exact ⟨s', hbody, (cmp1_gives hk).bind ((cmp2_gives hl).bind hgives), hturn⟩

theorem change_turns (hs : s.stop = false) (hi : s.i ≤ f1.len) (hj : s.j ≤ f2.len)
    (h1 : f1.cmp s.i = false) :
    Turns f1 f2 s
      (do
        let i ← Index.ffUntil1 f1 s.i
        let j ← Index.ffUntil1 f2 s.j
        some { s with
          i := i, j := j, out := s.out ++ printChange f1 f2 option s.i (i - 1) s.j (j - 1) })
      (do
        let i ← ffUntil1 (cmp1 f1) s.i f1.len
        let j ← ffUntil1 (cmp2 f2) s.j f2.len
        return { s with
          i := i, j := j, out := s.out ++ printChange f1 f2 option s.i (i - 1) s.j (j - 1) }) := by
  obtain ⟨i, hskips, hgives⟩ := ff1_gives f2 (Nat.le_succ_of_le hi)
  obtain ⟨j, hskips', hgives'⟩ := ff2_gives f1 (Nat.le_succ_of_le hj)
  rw [hskips.ffUntil1, hskips'.ffUntil1]
  exact turns_of_move hs hi hj hs ⟨hskips.le, hskips.bound⟩ ⟨hskips'.le, hskips'.bound⟩
    (.inl (hskips.lt hi h1)) (hgives.bind (hgives'.bind (.pure _ _)))

theorem printNeither_turns (hm : 1 ≤ f1.len) (hn : 1 ≤ f2.len) (hs : s.stop = false)
    (hi : s.i ≤ f1.len) (hj : s.j ≤ f2.len) (h1 : f1.cmp s.i = false) :
    Turns f1 f2 s (Index.printNeither f1 f2 option s) (printNeither f1 f2 option s) := by
  have hchange := @change_turns f1 f2 option s hs hi hj h1
  rw [Index.printNeither, printNeither]
  by_cases hstart : s.i = 0 ∧ s.j = 0
  · -- row 1 is there in both files, and its marks are read in front of the tests
    have hi' : s.i + 1 ≤ f1.len := by omega
    have hj' : s.j + 1 ≤ f2.len := by omega
    rw [if_pos hstart, if_pos hstart]
    refine turns_of_reads hi' hj' ?_
    cases ho : f1.cmp (s.i + 1) with
    | false =>
      cases hc : f2.cmp (s.j + 1) with
      | false => exact hchange
      | true =>
        obtain ⟨i, hskips, hgives⟩ := ff1_gives f2 (Nat.le_succ_of_le hi')
        simp only [hskips.ffUntil1]
        exact turns_of_move hs hi hj hs ⟨Nat.le_of_succ_le hskips.le, hskips.bound⟩
          ⟨Nat.le_succ _, Nat.succ_le_succ hj⟩
          (.inr (Nat.lt_succ_self _)) (hgives.bind (.pure _ _))
    | true =>
      cases hc : f2.cmp (s.j + 1) with
      | false =>
        obtain ⟨j, hskips, hgives⟩ := ff2_gives f1 (Nat.le_succ_of_le hj')
        simp only [hskips.ffUntil1]
        exact turns_of_move hs hi hj hs ⟨Nat.le_succ _, Nat.succ_le_succ hi⟩
          ⟨Nat.le_of_succ_le hskips.le, hskips.bound⟩
          (.inl (Nat.lt_succ_self _)) (hgives.bind (.pure _ _))
      | true =>
        exact turns_of_move hs hi hj hs ⟨Nat.le_succ _, Nat.succ_le_succ hi⟩
          ⟨Nat.le_succ _, Nat.succ_le_succ hj⟩ (.inl (Nat.lt_succ_self _)) (.pure _ _)
  · rw [if_neg hstart, if_neg hstart]
    exact hchange

theorem printBody_turns (hm : 1 ≤ f1.len) (hn : 1 ≤ f2.len) (hs : s.stop = false)
    (hin : CursorsWithin f1 f2 s) :
    Turns f1 f2 s (Index.printBody f1 f2 option s) (printBody f1 f2 option s) := by
  rw [Index.printBody, printBody]
  by_cases hboth : s.i > f1.len ∧ s.j > f2.len
  · rw [if_pos hboth, if_pos hboth]
    exact turns_of_stop hs hin rfl rfl rfl
  rw [if_neg hboth, if_neg hboth]
  by_cases hi : s.i > f1.len
  · rw [if_pos hi, if_pos hi]
    exact turns_of_stop hs hin rfl rfl rfl
  rw [if_neg hi, if_neg hi]
  by_cases hj : s.j > f2.len
  · rw [if_pos hj, if_pos hj]
    exact turns_of_stop hs hin rfl rfl rfl
  rw [if_neg hj, if_neg hj]
  rw [Nat.not_lt] at hi hj
  refine turns_of_reads hi hj ?_
  cases ho : f1.cmp s.i with
  | false =>
    cases hc : f2.cmp s.j with
    | false => exact printNeither_turns hm hn hs hi hj ho
    | true =>
      obtain ⟨i, hskips, hgives⟩ := ff1_gives f2 (Nat.le_succ_of_le hi)
      simp only [hskips.ffUntil1]
      exact turns_of_move hs hi hj hs ⟨hskips.le, hskips.bound⟩ ⟨Nat.le_refl _, hin.j⟩
        (.inl (hskips.lt hi ho)) (hgives.bind (.pure _ _))
  | true =>
    cases hc : f2.cmp s.j with
    | false =>
      obtain ⟨j, hskips, hgives⟩ := ff2_gives f1 (Nat.le_succ_of_le hj)
      simp only [hskips.ffUntil1]
      exact turns_of_move hs hi hj hs ⟨Nat.le_refl _, hin.i⟩ ⟨hskips.le, hskips.bound⟩
        (.inr (hskips.lt hj hc)) (hgives.bind (.pure _ _))
    | true =>
      exact turns_of_move hs hi hj hs ⟨Nat.le_succ _, Nat.succ_le_succ hi⟩
        ⟨Nat.le_succ _, Nat.succ_le_succ hj⟩ (.inl (Nat.lt_succ_self _)) (.pure _ _)

end Pass

/-! ## The loop -/

section Run

variable {f1 f2 : Side} (option : Nat) (hm : 1 ≤ f1.len) (hn : 1 ≤ f2.len)
include hm hn

/-- No cursor gets further than to the row behind the last. -/
theorem printFileDiff_cursors {s : Print}
    (h : Visits (fun s : Print => !s.stop) (Index.printBody f1 f2 option) ⟨0, 0, false, []⟩ s) :
    CursorsWithin f1 f2 s := by
  refine visits_invariant ⟨Nat.zero_le _, Nat.zero_le _⟩ (fun s s' hin hmore hbody => ?_) h
  obtain ⟨s'', hbody', -, hin', -⟩ := printBody_turns hm hn (by simpa using hmore) hin
  rw [hbody] at hbody'
  cases hbody'
  exact hin'

/-- The loop ends and reads within the arrays, whatever the marks are. -/
theorem printFileDiff_readsWithin {fuel : Nat} (hfuel : f1.len + f2.len + 3 ≤ fuel) :
    ∃ hunks reads, Index.printFileDiff fuel f1 f2 option = some hunks ∧
      printFileDiff fuel f1 f2 option = some (hunks, reads) ∧
      ∀ r ∈ reads, r.Within f1.len f2.len := by
  have hstart : CursorsWithin f1 f2 ⟨0, 0, false, []⟩ := ⟨Nat.zero_le _, Nat.zero_le _⟩
  have hahead : ahead f1 f2 ⟨0, 0, false, []⟩ ≤ fuel := by
    simp only [ahead, Bool.false_eq_true, if_false]
    omega
  have hstep : ∀ n s, n = ahead f1 f2 s ∧ CursorsWithin f1 f2 s → (!s.stop) = true →
      ∃ s' m, Index.printBody f1 f2 option s = some s' ∧ m < n ∧
        (m = ahead f1 f2 s' ∧ CursorsWithin f1 f2 s') := by
    intro n s h hmore
    obtain ⟨s', hbody, -, hin, hlt⟩ := printBody_turns hm hn (by simpa using hmore) h.2
    exact ⟨s', _, hbody, by rw [h.1]; exact hlt, rfl, hin⟩
  have hnotes : ∀ s, CursorsWithin f1 f2 s → (!s.stop) = true →
      ∃ s', Index.printBody f1 f2 option s = some s' ∧ CursorsWithin f1 f2 s' ∧
        Gives (MarkRead.Within f1.len f2.len) (printBody f1 f2 option s) s' := by
    intro s hin hmore
    obtain ⟨s', hbody, hgives, hin', -⟩ := printBody_turns hm hn (by simpa using hmore) hin
    exact ⟨s', hbody, hin', hgives⟩
  obtain ⟨e, n, hrun, -, -⟩ := whileLoop_of_measure hstep _ _ ⟨rfl, hstart⟩ hahead
  obtain ⟨reads, hnoted, hwithin⟩ := whileLoop_noted hnotes hstart (List.forall_mem_nil _) hrun
  refine ⟨e.out, reads, ?_, ?_, hwithin⟩
  · rw [Index.printFileDiff, hrun, Option.map_some]
  · rw [printFileDiff, hnoted, Option.map_some]

end Run

/-- Rows of which the second is common, against a row that is not. -/
theorem printFileDiff_readsWithin_unpaired :
    let f1 : Side := ⟨fun _ => [], 2, fun k => k = 2⟩
    let f2 : Side := ⟨fun _ => [], 1, fun _ => false⟩
    ∃ hunks reads, Index.printFileDiff 6 f1 f2 0 = some hunks ∧
      printFileDiff 6 f1 f2 0 = some (hunks, reads) ∧ ∀ r ∈ reads, r.Within 2 1 :=
  printFileDiff_readsWithin 0 (Nat.le_succ 1) (Nat.le_refl 1) (Nat.le_refl 6)

end PrintReads
end Index
end SsuComputer
