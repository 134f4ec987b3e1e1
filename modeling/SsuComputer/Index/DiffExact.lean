import Mathlib.Algebra.Ring.Nat
import SsuComputer.Index.Printed

/-!
# SsuComputer.Index.DiffExact

When the hunks that `diff_file` prints are an edit script of its two files.

* `Texts.startsApart` — both files have lines before the first aligned pair; the change printed there
  names line 0.
* `Texts.lostLines` — the lines that the script loses: the common line behind a deletion between two
  pairs, and those of changes that are not printed because of the blank lines at their ends.
* `Texts.extraLines` — the lines that changes which are not printed fail to take away.
* `patch_printed` — what the script makes of the first file.
-/

namespace SsuComputer
namespace Index

/-! ## Where the printed script goes wrong -/

namespace Texts

def gaps (t : Texts) : List Gap := gapsFrom t.m t.n 0 0 t.alignment

/-- How many pairs of blank lines `print_change` leaves out at the ends of a gap. -/
def trims (t : Texts) (g : Gap) : Nat :=
  (if t.blank1 (g.o1 + 1) && t.blank2 (g.n1 + 1) then 1 else 0) +
    if t.blank1 g.o2 && t.blank2 g.n2 then 1 else 0

/-- A change of which nothing is left to print. -/
def Dropped (t : Texts) (g : Gap) : Prop :=
  (g.old ≠ 0 ∧ g.new ≠ 0) ∧ (g.old ≤ t.trims g ∨ g.new ≤ t.trims g)

instance (t : Texts) (g : Gap) : Decidable (t.Dropped g) := inferInstanceAs (Decidable (_ ∧ _))

def lost (t : Texts) (g : Gap) : Nat :=
  if g.old ≠ 0 ∧ g.new = 0 then if g.last then 0 else 1
  else if t.Dropped g then g.new - g.old
  else 0

def extra (t : Texts) (g : Gap) : Nat := if t.Dropped g then g.old - g.new else 0

def startsApart (t : Texts) : Prop := ∃ g ∈ t.gaps.head?, g.old ≠ 0 ∧ g.new ≠ 0

def lostLines (t : Texts) : Nat := (t.gaps.tail.map t.lost).sum

def extraLines (t : Texts) : Nat := (t.gaps.tail.map t.extra).sum

end Texts

/-- The hunks are a normal-format edit script from `o` to `n`. -/
structure NormalDiff (o n : List CString) (hs : List (Hunk CString)) : Prop where
  inside : ∀ h ∈ hs, h.Inside o n
  patches : patch o 0 hs = some n
  equal : o = n → hs = []

/-! ## The rows of a file -/

theorem load_str {rows : List CString} {k : Nat} (h : k < rows.length) :
    (Side.load rows).str (k + 1) = rows[k] := by simp [Side.load, h]

theorem load_blank_zero (rows : List CString) : (Side.load rows).blank 0 = false := by
  simp [Side.blank, Side.load]

theorem rowsFrom_load (rows : List CString) (a : Nat) {b : Nat} (hb : b ≤ rows.length) :
    rowsFrom (Side.load rows) 0 (a + 1) b = slice rows a b := by
  rw [rowsFrom, if_neg (by decide), Nat.add_sub_add_right]
  refine List.ext_getElem ?_ fun k hk hk' => ?_
  · simp only [slice, List.length_map, List.length_range', List.length_drop, List.length_take]
    omega
  · simp only [List.length_map, List.length_range'] at hk
    simp only [slice, List.getElem_map, List.getElem_range', List.getElem_drop, List.getElem_take]
    rw [← load_str (by omega : a + k < rows.length)]
    congr 1
    omega

theorem blank_row {rows : List CString} (hrows : ∀ l ∈ rows, BlankOnly l) {k : Nat}
    (hk : k < rows.length) (h : (Side.load rows).blank (k + 1) = true) : rows[k] = ['\n'] := by
  rw [Side.blank, load_str hk, decide_eq_true_eq] at h
  exact hrows _ (List.getElem_mem hk) h

section Patch

variable {o n : List CString} (h1 : ∀ l ∈ o, BlankOnly l) (h2 : ∀ l ∈ n, BlankOnly l)

theorem same_rows {i j : Nat} (hi : i < o.length) (hj : j < n.length)
    (hs : (Texts.ofRows 0 o n h1 h2).same (i + 1) (j + 1) = true) : o[i] = n[j] := by
  have hsame : sameString 0 ((Side.load o).str (i + 1)) ((Side.load n).str (j + 1)) = true := hs
  rw [load_str hi, load_str hj] at hsame
  simpa [sameString] using hsame

theorem blank_rows_eq {i j : Nat} (hi : i < o.length) (hj : j < n.length)
    (hblank : ((Texts.ofRows 0 o n h1 h2).blank1 (i + 1) &&
      (Texts.ofRows 0 o n h1 h2).blank2 (j + 1)) = true) : o[i] = n[j] := by
  rw [Bool.and_eq_true] at hblank
  rw [blank_row h1 hi hblank.1, blank_row h2 hj hblank.2]

/-- The lines that the printed hunks put in the place of a gap. -/
def gapText (o n : List CString) (t : Texts) (g : Gap) : List CString :=
  if t.Dropped g then slice o g.o1 g.o2 else slice n g.n1 g.n2

/-- A change, with `lead` and `trail` equal lines left out at its ends. -/
theorem patch_trimmed {o1 o2 n1 n2 lead trail : Nat} (ho : o1 + lead + 1 ≤ o2 - trail)
    (hn : n1 + lead + 1 ≤ n2 - trail) (hom : o2 ≤ o.length)
    (hlead : slice o o1 (o1 + lead) = slice n n1 (n1 + lead))
    (htrail : slice o (o2 - trail) o2 = slice n (n2 - trail) n2) {hs : List (Hunk CString)}
    {rest : List CString} (hrest : patch o o2 hs = some rest) :
    patch o o1 (⟨.change, o1 + lead + 1, o2 - trail, n1 + lead + 1, n2 - trail,
      slice o (o1 + lead) (o2 - trail), slice n (n1 + lead) (n2 - trail)⟩ :: hs) =
        some (slice n n1 n2 ++ rest) := by
  have happlies : (Hunk.mk .change (o1 + lead + 1) (o2 - trail) (n1 + lead + 1) (n2 - trail)
      (slice o (o1 + lead) (o2 - trail)) (slice n (n1 + lead) (n2 - trail))).Applies o o1 :=
    ⟨fun _ => Nat.succ_pos _, Nat.le_add_right _ _, Nat.le_of_succ_le ho, by simp only; omega, rfl⟩
  rw [patch_cons happlies (Scripts.patch_earlier hrest (Nat.sub_le _ _))]
  simp only [Hunk.oFrom, Nat.add_sub_cancel, Option.some.injEq]
  rw [hlead, htrail, List.append_assoc, ← List.append_assoc (slice n (n1 + lead) _),
    slice_append n (by omega) (Nat.sub_le _ _), ← List.append_assoc,
    slice_append n (Nat.le_add_right _ _) (by omega)]

/-- A change between two files is printed without its blank ends, or not at all. -/
theorem patch_change {g : Gap} (hg : g.Within o.length n.length) (hold : g.old ≠ 0)
    (hnew : g.new ≠ 0) {hs : List (Hunk CString)} {rest : List CString}
    (hrest : patch o g.o2 hs = some rest) :
    patch o g.o1 (printChange (Side.load o) (Side.load n) 0 (g.o1 + 1) g.o2 (g.n1 + 1) g.n2 ++ hs) =
        some (gapText o n (Texts.ofRows 0 o n h1 h2) g ++ rest) ∧
      ∀ h ∈ printChange (Side.load o) (Side.load n) 0 (g.o1 + 1) g.o2 (g.n1 + 1) g.n2,
        h.Inside o n := by
  obtain ⟨o1, o2, n1, n2, last⟩ := g
  obtain ⟨⟨ho12, hom⟩, hn12, hnn⟩ := hg
  simp only [Gap.old, Gap.new] at hold hnew ho12 hom hn12 hnn hrest ⊢
  obtain ⟨p, rfl⟩ : ∃ p, o2 = p + 1 := ⟨o2 - 1, by omega⟩
  obtain ⟨q, rfl⟩ : ∃ q, n2 = q + 1 := ⟨n2 - 1, by omega⟩
  let t := Texts.ofRows 0 o n h1 h2
  let lead := if t.blank1 (o1 + 1) && t.blank2 (n1 + 1) then 1 else 0
  let trail := if t.blank1 (p + 1) && t.blank2 (q + 1) then 1 else 0
  have hlead : slice o o1 (o1 + lead) = slice n n1 (n1 + lead) := by
    by_cases hblank : (t.blank1 (o1 + 1) && t.blank2 (n1 + 1)) = true
    · have heq := blank_rows_eq h1 h2 (by omega : o1 < o.length) (by omega : n1 < n.length) hblank
      rw [show lead = 1 from if_pos hblank, slice_succ o (by omega), slice_succ n (by omega), heq]
    · rw [show lead = 0 from if_neg hblank, Nat.add_zero, Nat.add_zero, slice_self, slice_self]
  have htrail : slice o (p + 1 - trail) (p + 1) = slice n (q + 1 - trail) (q + 1) := by
    by_cases hblank : (t.blank1 (p + 1) && t.blank2 (q + 1)) = true
    · have heq := blank_rows_eq h1 h2 (by omega : p < o.length) (by omega : q < n.length) hblank
      rw [show trail = 1 from if_pos hblank, Nat.add_sub_cancel, Nat.add_sub_cancel,
        slice_succ o (by omega), slice_succ n (by omega), heq]
    · rw [show trail = 0 from if_neg hblank, Nat.sub_zero, Nat.sub_zero, slice_self, slice_self]
  have hprint : printChange (Side.load o) (Side.load n) 0 (o1 + 1) (p + 1) (n1 + 1) (q + 1) =
      if o1 + 1 + lead > p + 1 - trail ∨ n1 + 1 + lead > q + 1 - trail then []
      else [⟨.change, o1 + 1 + lead, p + 1 - trail, n1 + 1 + lead, q + 1 - trail,
        rowsFrom (Side.load o) 0 (o1 + 1 + lead) (p + 1 - trail),
        rowsFrom (Side.load n) 0 (n1 + 1 + lead) (q + 1 - trail)⟩] := rfl
  have hdropped : t.Dropped ⟨o1, p + 1, n1, q + 1, last⟩ ↔
      (p + 1 - o1 ≠ 0 ∧ q + 1 - n1 ≠ 0) ∧
        (p + 1 - o1 ≤ lead + trail ∨ q + 1 - n1 ≤ lead + trail) := Iff.rfl
  rw [hprint]
  split
  · rename_i hnone
    have hd : t.Dropped ⟨o1, p + 1, n1, q + 1, last⟩ := hdropped.mpr ⟨⟨hold, hnew⟩, by omega⟩
    rw [gapText, if_pos hd, List.nil_append, Scripts.patch_earlier hrest ho12]
    exact ⟨rfl, fun _ h => by cases h⟩
  · rename_i hprinted
    have hd : ¬t.Dropped ⟨o1, p + 1, n1, q + 1, last⟩ := fun hd => by
      rw [hdropped] at hd
      omega
    simp only [Nat.add_right_comm _ 1 lead] at hprinted ⊢
    rw [gapText, if_neg hd, rowsFrom_load o _ (by omega), rowsFrom_load n _ (by omega),
      List.singleton_append]
    refine ⟨patch_trimmed (by omega) (by omega) hom hlead htrail hrest, fun h hh => ?_⟩
    rw [List.mem_singleton.mp hh]
    exact ⟨fun _ => Nat.succ_pos _, ⟨by simp only; omega, by simp only; omega⟩,
      fun _ => Nat.succ_pos _, ⟨by simp only; omega, by simp only; omega⟩⟩

/-- A gap, unless lines of the first file alone lie between two pairs. -/
theorem patch_gap {g : Gap} (hg : g.Within o.length n.length)
    (hlast : g.old ≠ 0 → g.new = 0 → g.last = true) {hs : List (Hunk CString)} {rest : List CString}
    (hrest : patch o g.o2 hs = some rest) :
    patch o g.o1 (gapHunks (Side.load o) (Side.load n) 0 g ++ hs) =
        some (gapText o n (Texts.ofRows 0 o n h1 h2) g ++ rest) ∧
      ∀ h ∈ gapHunks (Side.load o) (Side.load n) 0 g, h.Inside o n := by
  by_cases hold : g.old = 0
  · have hd : ¬(Texts.ofRows 0 o n h1 h2).Dropped g := fun h => h.1.1 hold
    have ho : g.o2 = g.o1 := Nat.le_antisymm (Nat.le_of_sub_eq_zero hold) hg.old.1
    rw [ho] at hrest
    by_cases hnew : g.new = 0
    · have hn : g.n2 = g.n1 := Nat.le_antisymm (Nat.le_of_sub_eq_zero hnew) hg.new.1
      rw [gapHunks, if_pos hold, if_pos hnew, gapText, if_neg hd, hn, slice_self]
      exact ⟨hrest, fun _ h => by cases h⟩
    · have hlt : g.n1 < g.n2 := Nat.lt_of_sub_ne_zero hnew
      have hle : g.o1 ≤ o.length := ho ▸ hg.old.2
      rw [gapHunks, if_pos hold, if_neg hnew, gapText, if_neg hd, printAppend,
        rowsFrom_load n _ hg.new.2]
      refine ⟨?_, fun h hh => ?_⟩
      · have happlies : (Hunk.mk .append g.o1 g.o1 (g.n1 + 1) g.n2 [] (slice n g.n1 g.n2)).Applies o
            g.o1 :=
          ⟨fun h => absurd rfl h, Nat.le_refl _, Nat.le_refl _, hle, (slice_self o g.o1).symm⟩
        rw [List.singleton_append, patch_cons happlies hrest, Hunk.oFrom, slice_self, List.nil_append]
      · rw [List.mem_singleton.mp hh]
        exact ⟨fun h => absurd rfl h, ⟨Nat.le_refl _, hle⟩, fun _ => Nat.succ_pos _, hlt, hg.new.2⟩
  · have hlt : g.o1 < g.o2 := Nat.lt_of_sub_ne_zero hold
    by_cases hnew : g.new = 0
    · have hd : ¬(Texts.ofRows 0 o n h1 h2).Dropped g := fun h => h.1.2 hnew
      have hn : g.n2 = g.n1 := Nat.le_antisymm (Nat.le_of_sub_eq_zero hnew) hg.new.1
      rw [gapHunks, if_neg hold, if_pos hnew, hlast hold hnew, if_pos rfl, gapText, if_neg hd, hn,
        slice_self, printDelete, rowsFrom_load o _ hg.old.2]
      refine ⟨?_, fun h hh => ?_⟩
      · have happlies : (Hunk.mk .delete (g.o1 + 1) g.o2 g.n1 g.n1 (slice o g.o1 g.o2) []).Applies o
            g.o1 :=
          ⟨fun _ => Nat.succ_pos _, Nat.le_refl _, hg.old.1, hg.old.2, rfl⟩
        rw [List.singleton_append, patch_cons happlies hrest, Hunk.oFrom, Nat.add_sub_cancel,
          slice_self, List.nil_append]
      · rw [List.mem_singleton.mp hh]
        exact ⟨fun _ => Nat.succ_pos _, ⟨hlt, hg.old.2⟩, fun h => absurd rfl h, Nat.le_refl _,
          hn ▸ hg.new.2⟩
    · rw [gapHunks, if_neg hold, if_neg hnew]
      exact patch_change h1 h2 hg hold hnew hrest

/-- The lines of a gap's text: as many as the second file has there, up to the defects. -/
theorem length_gapText {t : Texts} {g : Gap} (hg : g.Within o.length n.length)
    (hlast : g.old ≠ 0 → g.new = 0 → g.last = true) :
    (gapText o n t g).length + t.lost g = g.new + t.extra g := by
  have hslice (xs : List CString) {a b : Nat} (hb : b ≤ xs.length) : (slice xs a b).length = b - a := by
    rw [slice, List.length_drop, List.length_take, Nat.min_eq_left hb]
  rw [gapText, Texts.lost, Texts.extra]
  by_cases hd : t.Dropped g
  · rw [if_pos hd, if_pos hd, if_pos hd, if_neg fun h => hd.1.2 h.2, hslice o hg.old.2]
    change g.old + (g.new - g.old) = g.new + (g.old - g.new)
    omega
  · rw [if_neg hd, if_neg hd, if_neg hd, hslice n hg.new.2]
    split
    · rename_i hdel
      rw [if_pos (hlast hdel.1 hdel.2)]
      rfl
    · rfl

/-- A dropped change that loses no line and keeps none too many changes nothing. -/
theorem gapText_eq {g : Gap} (hg : g.Within o.length n.length)
    (hlost : (Texts.ofRows 0 o n h1 h2).lost g = 0) (hextra : (Texts.ofRows 0 o n h1 h2).extra g = 0) :
    gapText o n (Texts.ofRows 0 o n h1 h2) g = slice n g.n1 g.n2 := by
  rw [gapText]
  split
  · rename_i hd
    obtain ⟨o1, o2, n1, n2, last⟩ := g
    obtain ⟨⟨ho12, hom⟩, hn12, hnn⟩ := hg
    have hlost' : n2 - n1 - (o2 - o1) = 0 := by
      rwa [Texts.lost, if_neg fun h => hd.1.2 h.2, if_pos hd] at hlost
    have hextra' : o2 - o1 - (n2 - n1) = 0 := by rwa [Texts.extra, if_pos hd] at hextra
    obtain ⟨⟨hold, hnew⟩, htrims⟩ := hd
    simp only [Gap.old, Gap.new, Texts.trims] at hold hnew htrims ho12 hom hn12 hnn ⊢
    have hline {i j : Nat} (hi : i < o.length) (hj : j < n.length)
        (hblank : ((Texts.ofRows 0 o n h1 h2).blank1 (i + 1) &&
          (Texts.ofRows 0 o n h1 h2).blank2 (j + 1)) = true) :
        slice o i (i + 1) = slice n j (j + 1) := by
      rw [slice_succ o hi, slice_succ n hj, blank_rows_eq h1 h2 hi hj hblank]
    -- one or two lines, all of them blank
    by_cases hone : o2 = o1 + 1
    · obtain rfl : n2 = n1 + 1 := by omega
      subst hone
      refine hline (by omega) (by omega) ?_
      by_contra hblank
      rw [if_neg hblank] at htrims
      omega
    · by_cases hfirst : ((Texts.ofRows 0 o n h1 h2).blank1 (o1 + 1) &&
          (Texts.ofRows 0 o n h1 h2).blank2 (n1 + 1)) = true
      · by_cases hsecond : ((Texts.ofRows 0 o n h1 h2).blank1 o2 &&
            (Texts.ofRows 0 o n h1 h2).blank2 n2) = true
        · rw [if_pos hfirst, if_pos hsecond] at htrims
          obtain rfl : o2 = o1 + 1 + 1 := by omega
          obtain rfl : n2 = n1 + 1 + 1 := by omega
          rw [← slice_append o (Nat.le_succ o1) (Nat.le_succ (o1 + 1)),
            ← slice_append n (Nat.le_succ n1) (Nat.le_succ (n1 + 1)),
            hline (by omega) (by omega) hfirst, hline (by omega) (by omega) hsecond]
        · rw [if_pos hfirst, if_neg hsecond] at htrims
          omega
      · rw [if_neg hfirst] at htrims
        split at htrims <;> omega
  · rfl

/-- A deletion between two pairs takes the common line behind it away. -/
theorem patch_deletion {i a j : Nat} (hi : i < a + 1) (ha : a + 1 ≤ o.length) (hb : j + 1 ≤ n.length)
    (hmid : (Gap.mk i a j j false).old ≠ 0 ∧ (Gap.mk i a j j false).new = 0)
    {hunks : List (Hunk CString)} {r : List CString} (hr : patch o (a + 1) hunks = some r) :
    patch o i (gapHunks (Side.load o) (Side.load n) 0 ⟨i, a, j, j, false⟩ ++ hunks) = some r ∧
      (Texts.ofRows 0 o n h1 h2).lost ⟨i, a, j, j, false⟩ = 1 ∧
      (Texts.ofRows 0 o n h1 h2).extra ⟨i, a, j, j, false⟩ = 0 ∧
      ∀ h ∈ gapHunks (Side.load o) (Side.load n) 0 ⟨i, a, j, j, false⟩, h.Inside o n := by
  have hhunk : gapHunks (Side.load o) (Side.load n) 0 ⟨i, a, j, j, false⟩ =
      [⟨.delete, i + 1, a + 1, j, j, slice o i (a + 1), []⟩] := by
    rw [gapHunks, if_neg hmid.1, if_pos hmid.2, ← rowsFrom_load o i ha]
    rfl
  have happlies : (Hunk.mk .delete (i + 1) (a + 1) j j (slice o i (a + 1)) []).Applies o i :=
    ⟨fun _ => Nat.succ_pos _, Nat.le_refl _, Nat.le_of_lt hi, ha, rfl⟩
  rw [hhunk]
  refine ⟨?_, ?_, if_neg fun h => h.1.2 hmid.2, fun h hh => ?_⟩
  · rw [List.singleton_append, patch_cons happlies hr, Hunk.oFrom, Nat.add_sub_cancel, slice_self]
    rfl
  · rw [Texts.lost, if_pos hmid]
    rfl
  · rw [List.mem_singleton.mp hh]
    exact ⟨fun _ => Nat.succ_pos _, ⟨hi, ha⟩, fun h => absurd rfl h, Nat.le_refl _,
      Nat.le_of_succ_le hb⟩

/-- What the printed hunks make of the first file behind line `i`, with the pairs `ps` ahead. -/
theorem patch_rest {i j : Nat} {ps : List (Nat × Nat)}
    (hps : Aligns (Texts.ofRows 0 o n h1 h2).same o.length n.length i j ps) :
    (∃ r, patch o i ((gapsFrom o.length n.length i j ps).flatMap
        (gapHunks (Side.load o) (Side.load n) 0)) = some r ∧
      r.length + ((gapsFrom o.length n.length i j ps).map (Texts.ofRows 0 o n h1 h2).lost).sum =
        n.length - j +
          ((gapsFrom o.length n.length i j ps).map (Texts.ofRows 0 o n h1 h2).extra).sum ∧
      (((gapsFrom o.length n.length i j ps).map (Texts.ofRows 0 o n h1 h2).lost).sum = 0 →
        ((gapsFrom o.length n.length i j ps).map (Texts.ofRows 0 o n h1 h2).extra).sum = 0 →
          r = n.drop j)) ∧
    ∀ h ∈ (gapsFrom o.length n.length i j ps).flatMap (gapHunks (Side.load o) (Side.load n) 0),
      h.Inside o n := by
  induction ps generalizing i j with
  | nil =>
    obtain ⟨hi, hj⟩ := hps.le
    have hg : (Gap.mk i o.length j n.length true).Within o.length n.length :=
      ⟨⟨hi, Nat.le_refl _⟩, hj, Nat.le_refl _⟩
    have hend : patch o (Gap.mk i o.length j n.length true).o2 [] = some [] := by simp [patch]
    obtain ⟨hpatch, hinside⟩ := patch_gap h1 h2 hg (fun _ _ => rfl) hend
    have hlen := length_gapText (t := Texts.ofRows 0 o n h1 h2) hg fun _ _ => rfl
    simp only [gapsFrom, List.flatMap_singleton, List.map_singleton, List.sum_singleton]
    rw [List.append_nil, List.append_nil] at hpatch
    refine ⟨⟨_, hpatch, hlen, fun hlost hextra => ?_⟩, hinside⟩
    rw [gapText_eq h1 h2 hg hlost hextra, slice, List.take_length]
  | cons p ps ih =>
    obtain ⟨a, b⟩ := p
    cases hps with
    | cons hi hj ha hb hs hrest =>
      obtain ⟨⟨r, hr, hlen, heq⟩, hinside⟩ := ih hrest
      obtain ⟨a, rfl⟩ : ∃ k, a = k + 1 := ⟨a - 1, by omega⟩
      obtain ⟨b, rfl⟩ : ∃ k, b = k + 1 := ⟨b - 1, by omega⟩
      simp only [gapsFrom, List.flatMap_cons, List.map_cons, List.sum_cons, Nat.add_sub_cancel]
      by_cases hmid : (Gap.mk i a j b false).old ≠ 0 ∧ (Gap.mk i a j b false).new = 0
      · have hb' : b - j = 0 := hmid.2
        obtain rfl : j = b := by omega
        obtain ⟨hpatch, hlost, hextra, hgap⟩ := patch_deletion h1 h2 hi ha hb hmid hr
        rw [hlost, hextra]
        refine ⟨⟨r, hpatch, by omega, fun h => by omega⟩, fun h hh => ?_⟩
        rcases List.mem_append.mp hh with hh | hh
        · exact hgap h hh
        · exact hinside h hh
      · have hg : (Gap.mk i a j b false).Within o.length n.length :=
          ⟨⟨Nat.le_of_lt_succ hi, Nat.le_of_succ_le ha⟩, Nat.le_of_lt_succ hj, Nat.le_of_succ_le hb⟩
        have hlast : (Gap.mk i a j b false).old ≠ 0 → (Gap.mk i a j b false).new = 0 →
            (Gap.mk i a j b false).last = true := fun hold hnew => absurd ⟨hold, hnew⟩ hmid
        have hpair := Scripts.patch_earlier hr (Nat.le_succ a)
        obtain ⟨hpatch, hgap⟩ := patch_gap h1 h2 hg hlast hpair
        have hglen := length_gapText (t := Texts.ofRows 0 o n h1 h2) hg hlast
        have hone : (slice o a (a + 1)).length = 1 := by rw [slice_succ o ha]; rfl
        refine ⟨⟨_, hpatch, ?_, fun hlost hextra => ?_⟩, fun h hh => ?_⟩
        · rw [List.length_append, List.length_append, hone]
          simp only [Gap.new] at hglen
          omega
        · obtain ⟨hlost, hlosts⟩ : _ ∧ _ := Nat.add_eq_zero_iff.mp hlost
          obtain ⟨hextra, hextras⟩ : _ ∧ _ := Nat.add_eq_zero_iff.mp hextra
          rw [gapText_eq h1 h2 hg hlost hextra, heq hlosts hextras, slice_succ o ha,
            same_rows h1 h2 ha hb hs, ← slice_succ n hb, slice_append_drop n (Nat.le_succ b),
            slice_append_drop n (Nat.le_of_lt_succ hj)]
        · rcases List.mem_append.mp hh with hh | hh
          · exact hgap h hh
          · exact hinside h hh

/-- A first gap on one side is printed like a last one. -/
theorem firstHunks_eq {f1 f2 : Side} {option o2 n2 : Nat} {last : Bool} (h : o2 = 0 ∨ n2 = 0) :
    firstHunks f1 f2 option ⟨0, o2, 0, n2, last⟩ = gapHunks f1 f2 option ⟨0, o2, 0, n2, true⟩ := by
  by_cases hold : o2 = 0
  · subst hold
    rfl
  · have hnew : n2 = 0 := h.resolve_left hold
    simp [firstHunks, gapHunks, Gap.old, Gap.new, hold, hnew]

/-- A first gap on both sides is printed as a change of line 0. -/
theorem firstHunks_apart {g : Gap} (hold : g.old ≠ 0) (hnew : g.new ≠ 0) :
    ∃ h ∈ firstHunks (Side.load o) (Side.load n) 0 g, ¬h.Inside o n := by
  rw [firstHunks, if_neg hold, if_neg hnew, printChange]
  simp only [load_blank_zero, Bool.false_and, Bool.false_eq_true, if_false, Nat.add_zero]
  rw [if_neg (by omega)]
  exact ⟨_, List.mem_singleton_self _, fun h => absurd (h.first (by simp)) (Nat.not_succ_le_self 0)⟩

/-- What the script makes of the first file: the second one, up to the lines lost and kept. -/
theorem patch_printed {ps : List (Nat × Nat)} {gaps : List Gap}
    (hgaps : gaps = gapsFrom o.length n.length 0 0 ps)
    (hps : Aligns (Texts.ofRows 0 o n h1 h2).same o.length n.length 0 0 ps)
    (hstart : ¬∃ g ∈ gaps.head?, g.old ≠ 0 ∧ g.new ≠ 0) :
    (∃ r, patch o 0 (printedGaps (Side.load o) (Side.load n) 0 gaps) = some r ∧
      r.length + (gaps.tail.map (Texts.ofRows 0 o n h1 h2).lost).sum =
        n.length + (gaps.tail.map (Texts.ofRows 0 o n h1 h2).extra).sum ∧
      ((gaps.tail.map (Texts.ofRows 0 o n h1 h2).lost).sum = 0 →
        (gaps.tail.map (Texts.ofRows 0 o n h1 h2).extra).sum = 0 → r = n)) ∧
    ∀ h ∈ printedGaps (Side.load o) (Side.load n) 0 gaps, h.Inside o n := by
  have hside {o2 n2 : Nat} (h : ¬(o2 ≠ 0 ∧ n2 ≠ 0)) :
      (o2 = 0 ∨ n2 = 0) ∧ ¬(Texts.ofRows 0 o n h1 h2).Dropped ⟨0, o2, 0, n2, true⟩ :=
    ⟨by omega, fun hd => h hd.1⟩
  subst hgaps
  cases ps with
  | nil =>
    simp only [gapsFrom, List.head?_cons, Option.mem_def, Option.some.injEq, exists_eq_left',
      Gap.old, Gap.new, Nat.sub_zero] at hstart
    obtain ⟨hone, hd⟩ := hside hstart
    have hg : (Gap.mk 0 o.length 0 n.length true).Within o.length n.length :=
      ⟨⟨Nat.zero_le _, Nat.le_refl _⟩, Nat.zero_le _, Nat.le_refl _⟩
    have hend : patch o (Gap.mk 0 o.length 0 n.length true).o2 [] = some [] := by simp [patch]
    obtain ⟨hpatch, hinside⟩ := patch_gap h1 h2 hg (fun _ _ => rfl) hend
    simp only [gapsFrom, printedGaps, List.flatMap_nil, List.append_nil, firstHunks_eq hone,
      List.tail_cons, List.map_nil, List.sum_nil, Nat.add_zero]
    rw [List.append_nil, List.append_nil, gapText, if_neg hd] at hpatch
    have hall : slice n 0 n.length = n := by simp [slice]
    rw [hall] at hpatch
    exact ⟨⟨n, hpatch, rfl, fun _ _ => rfl⟩, hinside⟩
  | cons p ps =>
    obtain ⟨a, b⟩ := p
    cases hps with
    | cons hi hj ha hb hs hrest =>
      obtain ⟨⟨r, hr, hlen, heq⟩, hinside⟩ := patch_rest h1 h2 hrest
      obtain ⟨a, rfl⟩ : ∃ k, a = k + 1 := ⟨a - 1, by omega⟩
      obtain ⟨b, rfl⟩ : ∃ k, b = k + 1 := ⟨b - 1, by omega⟩
      simp only [gapsFrom, List.head?_cons, Option.mem_def, Option.some.injEq, exists_eq_left',
        Gap.old, Gap.new, Nat.sub_zero, Nat.add_sub_cancel] at hstart
      obtain ⟨hone, hd⟩ := hside hstart
      have hg : (Gap.mk 0 a 0 b true).Within o.length n.length :=
        ⟨⟨Nat.zero_le _, Nat.le_of_succ_le ha⟩, Nat.zero_le _, Nat.le_of_succ_le hb⟩
      have hpair := Scripts.patch_earlier hr (Nat.le_succ a)
      obtain ⟨hpatch, hgap⟩ := patch_gap h1 h2 hg (fun _ _ => rfl) hpair
      rw [gapText, if_neg hd] at hpatch
      simp only [gapsFrom, printedGaps, List.tail_cons, Nat.add_sub_cancel, firstHunks_eq hone]
      refine ⟨⟨_, hpatch, ?_, fun hlost hextra => ?_⟩, fun h hh => ?_⟩
      · have hslice : (slice n 0 b).length = b := by
          rw [slice, List.length_drop, List.length_take, Nat.min_eq_left (Nat.le_of_succ_le hb),
            Nat.sub_zero]
        have hline : (slice o a (a + 1)).length = 1 := by rw [slice_succ o ha]; rfl
        rw [List.length_append, List.length_append, hslice, hline]
        omega
      · rw [heq hlost hextra, slice_succ o ha, same_rows h1 h2 ha hb hs, ← slice_succ n hb,
          slice_append_drop n (Nat.le_succ b), slice_append_drop n (Nat.zero_le b), List.drop_zero]
      · rcases List.mem_append.mp hh with hh | hh
        · exact hgap h hh
        · exact hinside h hh

end Patch

/-! ## Equal files -/

/-- The walk of two equal texts is at line `i` of both, with the pairs `ps` behind: only blank lines
are passed over, and no two in a row. -/
structure DiagonalInv (t : Texts) (i : Nat) (ps : List (Nat × Nat)) : Prop where
  pairs : ∀ p ∈ ps, p.1 = p.2
  near : ∀ k, i < k → k < t.m → leftIn ps k = true ∨ leftIn ps (k + 1) = true
  filled : ∀ k, i < k → k ≤ t.m → t.blank1 k = false → leftIn ps k = true

namespace DiagonalInv

variable {t : Texts} {i : Nat} {ps : List (Nat × Nat)}

theorem enter (hblank : t.blank1 = t.blank2) (h : DiagonalInv t (i + 1) ps) :
    DiagonalInv t i (t.enter (i + 1) (i + 1) ps) := by
  have hentered : DiagonalInv t i ((i + 1, i + 1) :: ps) := by
    refine ⟨fun p hp => ?_, fun k hk hkm => ?_, fun k hk hkm hkb => ?_⟩
    · rcases List.mem_cons.mp hp with rfl | hp
      · rfl
      · exact h.pairs p hp
    · by_cases hki : k = i + 1
      · simp [hki]
      · rcases h.near k (by omega) hkm with hl | hl <;> simp [hl]
    · by_cases hki : k = i + 1
      · simp [hki]
      · simp [h.filled k (by omega) hkm hkb]
  rw [Texts.enter]
  split
  · exact hentered
  · rename_i hpass
    simp only [Bool.or_eq_true, Bool.not_eq_true', not_or, Bool.not_eq_false, Bool.not_eq_true] at hpass
    obtain ⟨hb, -⟩ := hpass
    rw [Texts.passOver]
    split
    · rename_i hnext
      refine ⟨fun p hp => ?_, fun k hk hkm => ?_, fun k hk hkm hkb => ?_⟩
      · rcases List.mem_cons.mp hp with rfl | hp
        · rfl
        · exact h.pairs p hp
      · by_cases hki : k = i + 1
        · simp [hki]
        · rcases h.near k (by omega) hkm with hl | hl <;> simp [hl]
      · by_cases hki : k = i + 1
        · rw [hki, hb] at hkb; cases hkb
        · simp [h.filled k (by omega) hkm hkb]
    · rename_i hnext
      refine ⟨h.pairs, fun k hk hkm => ?_, fun k hk hkm hkb => ?_⟩
      · by_cases hki : k = i + 1
        · -- the line behind is entered, or it is not blank
          rw [hki] at hkm ⊢
          right
          by_cases hhead : ps.head? = some (i + 1 + 1, i + 1 + 1)
          · obtain ⟨qs, rfl⟩ := List.head?_eq_some_iff.mp hhead
            simp
          · refine h.filled _ (Nat.lt_succ_self _) hkm ?_
            rw [← Bool.not_eq_true]
            intro hb'
            rw [← hblank] at hnext
            simp [hb', hhead] at hnext
        · exact h.near k (by omega) hkm
      · by_cases hki : k = i + 1
        · rw [hki, hb] at hkb; cases hkb
        · exact h.filled k (by omega) hkm hkb

theorem align (hblank : t.blank1 = t.blank2) (hsame : ∀ k < t.m, t.same (k + 1) (k + 1) = true)
    (hi : i ≤ t.m) (h : DiagonalInv t i ps) : DiagonalInv t 0 (t.align i i ps) := by
  induction i generalizing ps with
  | zero => rw [Texts.align]; exact h
  | succ i ih =>
    have hcorner : lcs t.same (i + 1) (i + 1) = i + 1 := lcs_diagonal fun k hk => hsame k (by omega)
    have hup := (@lcs_le t.same i (i + 1)).1
    have hleft := (@lcs_le t.same (i + 1) i).2
    rw [Texts.align, if_neg (by omega), if_neg (by omega)]
    exact ih (by omega) (h.enter hblank)

end DiagonalInv

/-- The gaps of two equal texts are single blank lines. -/
theorem gaps_diagonal {t : Texts} {i : Nat} {ps : List (Nat × Nat)}
    (hps : Aligns t.same t.m t.m i i ps) (h : DiagonalInv t i ps) :
    ∀ g ∈ gapsFrom t.m t.m i i ps, (g.o1 = g.n1 ∧ g.o2 = g.n2) ∧
      (g.old = 0 ∨ g.old = 1 ∧ t.blank1 (g.o1 + 1) = true) := by
  have hgap {i e : Nat} {qs : List (Nat × Nat)} (hfree : ∀ k, i < k → k ≤ e → leftIn qs k = false)
      (he : e ≤ t.m) (hd : DiagonalInv t i qs) :
      e - i = 0 ∨ e - i = 1 ∧ t.blank1 (i + 1) = true := by
    by_cases h0 : e ≤ i
    · exact .inl (by omega)
    · by_cases h1 : e = i + 1
      · refine .inr ⟨by omega, ?_⟩
        by_contra hb
        have hin := hd.filled (i + 1) (Nat.lt_succ_self i) (by omega) (by simpa using hb)
        rw [hfree (i + 1) (Nat.lt_succ_self i) (by omega)] at hin
        cases hin
      · rcases hd.near (i + 1) (Nat.lt_succ_self i) (by omega) with hin | hin
        · rw [hfree (i + 1) (Nat.lt_succ_self i) (by omega)] at hin; cases hin
        · rw [hfree (i + 1 + 1) (by omega) (by omega)] at hin; cases hin
  induction ps generalizing i with
  | nil =>
    intro g hg
    rw [gapsFrom, List.mem_singleton] at hg
    rw [hg]
    exact ⟨⟨rfl, rfl⟩, hgap (fun _ _ _ => rfl) (Nat.le_refl _) h⟩
  | cons p ps ih =>
    obtain ⟨a, b⟩ := p
    obtain rfl : a = b := h.pairs (a, b) List.mem_cons_self
    cases hps with
    | cons hi hj ha hb hs hrest =>
      intro g hg
      rw [gapsFrom] at hg
      rcases List.mem_cons.mp hg with rfl | hg
      · refine ⟨⟨rfl, rfl⟩, hgap (i := i) (e := a - 1) (fun k hk hka => ?_) (by omega) h⟩
        rw [leftIn_cons, hrest.leftIn_of_le (by omega), Bool.or_false, decide_eq_false_iff_not]
        omega
      · have hbehind {k : Nat} (hk : a < k) : leftIn ((a, a) :: ps) k = leftIn ps k := by
          rw [leftIn_cons, decide_eq_false (Nat.ne_of_lt hk), Bool.false_or]
        refine ih hrest ⟨fun p hp => h.pairs p (List.mem_cons_of_mem _ hp), fun k hk hkm => ?_,
          fun k hk hkm hkb => ?_⟩ g hg
        · have hnear := h.near k (by omega) hkm
          rwa [hbehind hk, hbehind (by omega)] at hnear
        · have hfilled := h.filled k (by omega) hkm hkb
          rwa [hbehind hk] at hfilled

theorem printedGaps_diagonal {o : List CString} {gaps : List Gap}
    (hsmall : ∀ g ∈ gaps, (g.o1 = g.n1 ∧ g.o2 = g.n2) ∧
      (g.old = 0 ∨ g.old = 1 ∧ (Side.load o).blank (g.o1 + 1) = true))
    (hstart : ¬∃ g ∈ gaps.head?, g.old ≠ 0 ∧ g.new ≠ 0) :
    printedGaps (Side.load o) (Side.load o) 0 gaps = [] := by
  have hnew {g : Gap} (hg : g ∈ gaps) : g.new = g.old := by
    rw [Gap.new, Gap.old, (hsmall g hg).1.1, (hsmall g hg).1.2]
  have hrest {g : Gap} (hg : g ∈ gaps) : gapHunks (Side.load o) (Side.load o) 0 g = [] := by
    obtain ⟨⟨hs, he⟩, hold⟩ := hsmall g hg
    rw [gapHunks, hnew hg]
    rcases hold with h0 | ⟨h1, hb⟩
    · rw [if_pos h0, if_pos h0]
    · have hlead : (if (Side.load o).blank (g.o1 + 1) && (Side.load o).blank (g.n1 + 1) then 1 else 0) =
          1 := by rw [← hs, hb]; rfl
      rw [if_neg (by omega), if_neg (by omega), printChange, hlead, if_pos]
      rw [Gap.old] at h1
      omega
  cases gaps with
  | nil => rfl
  | cons g gs =>
    have hg : g ∈ g :: gs := List.mem_cons_self
    have h0 : g.old = 0 := by
      by_contra h0
      exact hstart ⟨g, rfl, h0, by rwa [hnew hg]⟩
    rw [printedGaps, firstHunks, if_pos h0, if_pos (by rw [hnew hg, h0]), List.nil_append,
      List.flatMap_eq_nil_iff]
    exact fun g' hg' => hrest (List.mem_cons_of_mem _ hg')

/-! ## The whole -/

section Whole

variable {o n : List CString} (h1 : ∀ l ∈ o, BlankOnly l) (h2 : ∀ l ∈ n, BlankOnly l)

theorem normalDiff_of_exact (hstart : ¬(Texts.ofRows 0 o n h1 h2).startsApart)
    (hlost : (Texts.ofRows 0 o n h1 h2).lostLines = 0)
    (hextra : (Texts.ofRows 0 o n h1 h2).extraLines = 0) :
    NormalDiff o n
      (printedGaps (Side.load o) (Side.load n) 0 (Texts.ofRows 0 o n h1 h2).gaps) := by
  have haligns := alignment_aligns (Texts.ofRows 0 o n h1 h2)
  obtain ⟨⟨r, hr, -, heq⟩, hinside⟩ := patch_printed h1 h2 rfl haligns hstart
  refine ⟨hinside, hr.trans (congrArg some (heq hlost hextra)), fun hsame => ?_⟩
  subst hsame
  have hinit : DiagonalInv (Texts.ofRows 0 o o h1 h2) o.length [] :=
    ⟨fun _ h => (by cases h), fun k hk hkm => absurd hk (Nat.lt_asymm hkm),
      fun k hk hkm => absurd hkm (Nat.not_le_of_lt hk)⟩
  have hdiagonal := hinit.align rfl (fun k _ => sameString_self 0 _) (Nat.le_refl _)
  exact printedGaps_diagonal (gaps_diagonal haligns hdiagonal) hstart

theorem lost_eq_extra (hdiff : NormalDiff o n
      (printedGaps (Side.load o) (Side.load n) 0 (Texts.ofRows 0 o n h1 h2).gaps)) :
    ¬(Texts.ofRows 0 o n h1 h2).startsApart ∧
      (Texts.ofRows 0 o n h1 h2).lostLines = (Texts.ofRows 0 o n h1 h2).extraLines := by
  have hstart : ¬(Texts.ofRows 0 o n h1 h2).startsApart := by
    rintro ⟨g, hg, hold, hnew⟩
    obtain ⟨gs, hgs⟩ := List.head?_eq_some_iff.mp hg
    obtain ⟨h, hh, hout⟩ := firstHunks_apart (o := o) (n := n) hold hnew
    refine hout (hdiff.inside h ?_)
    rw [hgs, printedGaps]
    exact List.mem_append_left _ hh
  obtain ⟨⟨r, hr, hlen, -⟩, -⟩ := patch_printed h1 h2 rfl
    (alignment_aligns (Texts.ofRows 0 o n h1 h2)) hstart
  obtain rfl : r = n := Option.some.inj (hr.symm.trans hdiff.patches)
  exact ⟨hstart, Nat.add_left_cancel hlen⟩

end Whole

/-- The two files as `get_strings` gives them. -/
def Texts.ofContents (content1 content2 : List Char) : Texts :=
  Texts.ofRows 0 (getStrings content1) (getStrings content2) (getStrings_blankOnly content1)
    (getStrings_blankOnly content2)

theorem diffFile_hunks (content1 content2 : List Char) (below : Nat → Nat) {fuel : Nat}
    (hfuel : 2 * (getStrings content1).length + (getStrings content2).length + 4 ≤ fuel) :
    diffFile fuel below 0 content1 content2 = some ⟨printedGaps (Side.load (getStrings content1))
      (Side.load (getStrings content2)) 0 (Texts.ofContents content1 content2).gaps, false, false⟩ := by
  have hm : 1 ≤ (getStrings content1).length := List.length_pos_of_ne_nil (getStrings_ne_nil content1)
  have hn : 1 ≤ (getStrings content2).length := List.length_pos_of_ne_nil (getStrings_ne_nil content2)
  have hsides := ofRows_onSides 0 (getStrings content1) (getStrings content2)
    (getStrings_blankOnly content1) (getStrings_blankOnly content2)
  have hfuel' : (Texts.ofContents content1 content2).m + (Texts.ofContents content1 content2).n + 1 ≤
      fuel := by
    simp only [Texts.ofContents, Texts.ofRows]
    omega
  have htrace := traceback_eq hsides rfl rfl below hfuel'
  have hprint : printFileDiff fuel ((Side.load (getStrings content1)).left _)
      ((Side.load (getStrings content2)).right _) 0 = _ :=
    printFileDiff_eq (alignment_aligns (Texts.ofContents content1 content2)) hm hn
      (by simp only [Side.load]; omega)
  have hrun : diffFile fuel below 0 content1 content2 =
      (printFileDiff fuel
        ((Side.load (getStrings content1)).left (Texts.ofContents content1 content2).alignment)
        ((Side.load (getStrings content2)).right (Texts.ofContents content1 content2).alignment) 0).bind
        fun hunks => some ⟨hunks, false, false⟩ := by
    rw [diffFile]
    exact congrArg (fun x => Option.bind x _) htrace
  rw [hrun, hprint]
  rfl

/-- The printed hunks are an edit script when nothing is lost, kept or named outside of the files,
and only when the lines lost are as many as those kept. -/
theorem diffFile_edit_script (content1 content2 : List Char) (below : Nat → Nat) (fuel : Nat)
    (hfuel : 2 * (getStrings content1).length + (getStrings content2).length + 4 ≤ fuel) :
    ∃ r, diffFile fuel below 0 content1 content2 = some r ∧
      (¬(Texts.ofContents content1 content2).startsApart →
        (Texts.ofContents content1 content2).lostLines = 0 →
          (Texts.ofContents content1 content2).extraLines = 0 →
            NormalDiff (getStrings content1) (getStrings content2) r.hunks) ∧
      (NormalDiff (getStrings content1) (getStrings content2) r.hunks →
        ¬(Texts.ofContents content1 content2).startsApart ∧
          (Texts.ofContents content1 content2).lostLines =
            (Texts.ofContents content1 content2).extraLines) := by
  refine ⟨_, diffFile_hunks content1 content2 below hfuel, fun hstart hlost hextra => ?_,
    fun hdiff => ?_⟩
  · exact normalDiff_of_exact _ _ hstart hlost hextra
  · exact lost_eq_extra _ _ hdiff

/-- The lines `a`, `b`, `c` and `a`, `x`, `c`. -/
def changedLine : Texts := .ofContents ['a', '\n', 'b', '\n', 'c'] ['a', '\n', 'x', '\n', 'c']

theorem changedLine_gaps :
    changedLine.gaps = [⟨0, 0, 0, 0, false⟩, ⟨1, 2, 1, 2, false⟩, ⟨3, 3, 3, 3, true⟩] := by
  have hlcs : lcs changedLine.same 1 1 = 1 ∧ lcs changedLine.same 1 2 = 1 ∧
      lcs changedLine.same 2 2 = 1 ∧ lcs changedLine.same 2 3 = 1 ∧ lcs changedLine.same 3 2 = 1 ∧
      lcs changedLine.same 3 3 = 2 := by
    simp +decide [lcs_succ]
  obtain ⟨h11, h12, h22, h23, h32, h33⟩ := hlcs
  have hthird : changedLine.align 3 3 [] = changedLine.align 2 2 [(3, 3)] := by
    rw [Texts.align, h33, h23, h32]
    rfl
  have hsecond : changedLine.align 2 2 [(3, 3)] = changedLine.align 1 1 [(3, 3)] := by
    rw [Texts.align, h22, h12, if_pos rfl, Texts.align, h12, h11, lcs_zero_left]
    rfl
  have hfirst : changedLine.align 1 1 [(3, 3)] = [(1, 1), (3, 3)] := by
    rw [Texts.align, h11, lcs_zero_left, lcs_zero_right, if_neg Nat.one_ne_zero,
      if_neg Nat.one_ne_zero, Texts.align]
    rfl
  have halignment : changedLine.alignment = [(1, 1), (3, 3)] :=
    hthird.trans (hsecond.trans hfirst)
  rw [Texts.gaps, halignment]
  rfl

/-- The second of three lines is another one: `2c2` is printed, which makes the second file. -/
theorem diffFile_edit_script_changed_line :
    ∃ r, diffFile 20 (fun _ => 0) 0 ['a', '\n', 'b', '\n', 'c'] ['a', '\n', 'x', '\n', 'c'] = some r ∧
      r.hunks = [⟨.change, 2, 2, 2, 2, [['b', '\n']], [['x', '\n']]⟩] ∧
      NormalDiff (getStrings ['a', '\n', 'b', '\n', 'c']) (getStrings ['a', '\n', 'x', '\n', 'c'])
        r.hunks := by
  obtain ⟨r, hr, henough, -⟩ := diffFile_edit_script ['a', '\n', 'b', '\n', 'c']
    ['a', '\n', 'x', '\n', 'c'] (fun _ => 0) 20 (by decide)
  have hrun : (diffFile 20 (fun _ => 0) 0 ['a', '\n', 'b', '\n', 'c']
      ['a', '\n', 'x', '\n', 'c']).map Report.hunks =
        some [⟨.change, 2, 2, 2, 2, [['b', '\n']], [['x', '\n']]⟩] := by decide
  have hstart : ¬changedLine.startsApart := by
    rw [Texts.startsApart, changedLine_gaps]
    decide
  have hlost : changedLine.lostLines = 0 := by
    rw [Texts.lostLines, changedLine_gaps]
    decide
  have hextra : changedLine.extraLines = 0 := by
    rw [Texts.extraLines, changedLine_gaps]
    decide
  refine ⟨r, hr, ?_, henough hstart hlost hextra⟩
  rw [hr] at hrun
  exact Option.some_inj.mp hrun

/-- For the lines `a`, `b`, `c` and `a`, `c` the command `2,3d1` is printed. -/
theorem diffFile_deletes_common_line :
    ∃ r, diffFile 20 (fun _ => 0) 0 ['a', '\n', 'b', '\n', 'c'] ['a', '\n', 'c'] = some r ∧
      r.hunks = [⟨.delete, 2, 3, 1, 1, [['b', '\n'], ['c']], []⟩] ∧
      ¬NormalDiff (getStrings ['a', '\n', 'b', '\n', 'c']) (getStrings ['a', '\n', 'c']) r.hunks := by
  have hrun : (diffFile 20 (fun _ => 0) 0 ['a', '\n', 'b', '\n', 'c'] ['a', '\n', 'c']).map
      Report.hunks = some [⟨.delete, 2, 3, 1, 1, [['b', '\n'], ['c']], []⟩] := by decide
  obtain ⟨r, hr, hhunks⟩ := Option.map_eq_some_iff.mp hrun
  refine ⟨r, hr, hhunks, fun h => ?_⟩
  have hpatches := h.patches
  rw [hhunks] at hpatches
  exact absurd hpatches (by decide)

end Index
end SsuComputer
