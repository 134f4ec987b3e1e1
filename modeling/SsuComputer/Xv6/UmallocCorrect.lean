import SsuComputer.Xv6.Umalloc
import Mathlib.Algebra.BigOperators.Group.List.Basic
import Mathlib.Data.List.Pairwise

/-!
# SsuComputer.Xv6.UmallocCorrect

The list of free blocks, and `free` on it.

* `FreeList` — the list: circular from `base`, in the order of the addresses, and with a gap behind
  each block, so that no two free blocks touch.
* `findPlace_eq` — the loop of `free` ends at the block in front of the freed one.
* `joinUpper_upper`, `joinLower_behind`, `joinLower_touch` — what the two joins make of the list.
* `free_freed` — `free` as a whole: the list again, with as many units more as the block has.
-/

namespace SsuComputer
namespace Xv6

/-- The blocks of `n` units at `a` and of `m` units at `b` do not overlap. -/
def Apart (a n b m : Nat) : Prop := a + 8 * n ≤ b ∨ b + 8 * m ≤ a

theorem Apart.join {a n k b m : Nat} (hlow : Apart a n b m) (hhigh : Apart (a + 8 * n) k b m)
    (hm : 0 < m) : Apart a (n + k) b m := by
  unfold Apart at *
  omega

namespace Heap

structure FreeList (h : Heap) (xs : List Nat) : Prop where
  cycle : Cycle h.ptr h.base xs
  low : h.base < h.brk
  empty : h.size h.base = 0
  gaps : (h.base :: xs).Pairwise fun x y => x + 8 * h.size x < y
  pos : ∀ x ∈ xs, 0 < h.size x
  freep : h.freep ∈ h.base :: xs
  below : ∀ x ∈ xs, x + 8 * h.size x ≤ h.brk

/-- The block at `bp` may join the list. -/
structure Loose (h : Heap) (xs : List Nat) (bp : Nat) : Prop where
  above : h.base < bp
  pos : 0 < h.size bp
  below : bp + 8 * h.size bp ≤ h.brk
  apart : ∀ x ∈ xs, Apart x (h.size x) bp (h.size bp)

section Place

variable {h : Heap} {xs l r : List Nat} {p bp : Nat}

theorem FreeList.base_lt (hf : h.FreeList xs) {x : Nat} (hx : x ∈ xs) : h.base < x := by
  have := (List.pairwise_cons.mp hf.gaps).1 x hx
  omega

theorem FreeList.sorted (hf : h.FreeList xs) : (h.base :: xs).Pairwise (· < ·) :=
  hf.gaps.imp fun hlt => by omega

theorem Loose.not_mem (hl : h.Loose xs bp) : bp ∉ h.base :: xs := by
  intro hmem
  rcases List.mem_cons.mp hmem with rfl | hmem
  · exact Nat.lt_irrefl _ hl.above
  · have := hl.apart bp hmem
    have := hl.pos
    unfold Apart at *
    omega

/-- A sorted list is cut before the first element above `bp`. -/
theorem exists_cut {a : Nat} {ys : List Nat} (hs : (a :: ys).Pairwise (· < ·)) (ha : a < bp)
    (hbp : bp ∉ a :: ys) : ∃ l p r, a :: ys = l ++ p :: r ∧ p < bp ∧ ∀ y ∈ r, bp < y := by
  induction ys generalizing a with
  | nil => exact ⟨[], a, [], rfl, ha, nofun⟩
  | cons y ys ih =>
    obtain ⟨hay, hys⟩ := List.pairwise_cons.mp hs
    by_cases hy : bp < y
    · refine ⟨[], a, y :: ys, rfl, ha, fun z hz => ?_⟩
      rcases List.mem_cons.mp hz with rfl | hz
      · exact hy
      · exact Nat.lt_trans hy ((List.pairwise_cons.mp hys).1 z hz)
    · have hyb : y < bp := by
        have : bp ≠ y := by rintro rfl; exact hbp (by simp)
        omega
      obtain ⟨l, p, r, hcut, hp, hr⟩ := ih hys hyb fun hmem => hbp (List.mem_cons_of_mem _ hmem)
      exact ⟨a :: l, p, r, by rw [hcut]; rfl, hp, hr⟩

theorem cut_tail {a : Nat} (hcut : a :: xs = l ++ p :: r) :
    ∃ ls, a :: ls = l ++ [p] ∧ xs = ls ++ r := by
  cases l with
  | nil =>
    obtain ⟨rfl, rfl⟩ : a = p ∧ xs = r := by simpa using hcut
    exact ⟨[], rfl, rfl⟩
  | cons b l =>
    obtain ⟨rfl, rfl⟩ : a = b ∧ xs = l ++ p :: r := by simpa using hcut
    exact ⟨l ++ [p], rfl, by simp⟩

/-- Where the link of a node of the list leads. -/
theorem FreeList.link (hf : h.FreeList xs) (hcut : h.base :: xs = l ++ p :: r) :
    h.ptr p = r.headD h.base := by
  cases r with
  | nil => exact hf.cycle.next_last hcut
  | cons y r => exact hf.cycle.next_eq hcut

theorem closes_cut (hf : h.FreeList xs)
    (hcut : h.base :: xs = l ++ p :: r) (hp : p < bp) (hr : ∀ y ∈ r, bp < y) :
    h.closes bp p = true := by
  have hlink := hf.link hcut
  cases r with
  | nil =>
    rw [List.headD_nil] at hlink
    have hle : h.base ≤ p := by
      cases l with
      | nil => exact Nat.le_of_eq (List.cons.inj hcut).1
      | cons a l =>
        obtain ⟨-, htail⟩ := List.cons.inj hcut
        exact Nat.le_of_lt (hf.base_lt (x := p) (by rw [htail]; simp))
    simp [closes, hlink, hp, hle]
  | cons y r =>
    rw [List.headD_cons] at hlink
    simp [closes, hlink, hp, hr y (by simp)]

/-- Only one node ends the loop. -/
theorem closes_unique (hf : h.FreeList xs) (hbp : h.base < bp)
    (hcut : h.base :: xs = l ++ p :: r) (hp : p < bp) (hr : ∀ y ∈ r, bp < y) {q : Nat}
    (hq : q ∈ h.base :: xs) (hc : h.closes bp q = true) : q = p := by
  obtain ⟨l', r', hcut'⟩ := List.append_of_mem hq
  have hlink := hf.link hcut'
  have hs := hf.sorted
  have hpmem : p ∈ l' ++ q :: r' := by rw [← hcut', hcut]; simp
  have hqr : q ∉ r → q ≤ p := by
    intro hqr
    rw [hcut] at hq hs
    rcases List.mem_append.mp hq with hql | hqp
    · exact Nat.le_of_lt ((List.pairwise_append.mp hs).2.2 q hql p (by simp))
    · rcases List.mem_cons.mp hqp with rfl | hqp
      · exact Nat.le_refl _
      · exact absurd hqp hqr
  have hle : q < bp → q ≤ p := fun hlt => hqr fun hmem => by
    have := hr q hmem
    omega
  rw [hcut'] at hs
  rcases r' with _ | ⟨y, r'⟩
  · -- `q` is the last node
    rw [List.headD_nil] at hlink
    have hlast : p ≤ q := by
      rcases List.mem_append.mp hpmem with hpl | hpq
      · exact Nat.le_of_lt ((List.pairwise_append.mp hs).2.2 p hpl q (by simp))
      · simp at hpq
        exact Nat.le_of_eq hpq
    have hlt : q < bp := by
      simp only [closes, hlink, Bool.or_eq_true, Bool.and_eq_true, decide_eq_true_eq] at hc
      omega
    have := hle hlt
    omega
  · rw [List.headD_cons] at hlink
    have hqy : q < y := (List.pairwise_cons.mp (List.pairwise_append.mp hs).2.1).1 y (by simp)
    have hb : q < bp ∧ bp < y := by
      simp only [closes, hlink, Bool.or_eq_true, Bool.and_eq_true, decide_eq_true_eq] at hc
      omega
    have hqp := hle hb.1
    rcases List.mem_append.mp hpmem with hpl | hpq
    · have := (List.pairwise_append.mp hs).2.2 p hpl q (by simp)
      omega
    · rcases List.mem_cons.mp hpq with rfl | hpq
      · rfl
      · rcases List.mem_cons.mp hpq with rfl | hpq
        · omega
        · have := (List.pairwise_cons.mp (List.pairwise_cons.mp
            (List.pairwise_append.mp hs).2.1).2).1 p hpq
          omega

/-- The loop of `free` ends at the block in front of the freed one. -/
theorem findPlace_eq (hf : h.FreeList xs) (hbp : h.base < bp)
    (hcut : h.base :: xs = l ++ p :: r) (hp : p < bp) (hr : ∀ y ∈ r, bp < y) {fuel : Nat}
    (hfuel : xs.length < fuel) : h.findPlace fuel bp = some p := by
  obtain ⟨ys, hpath, hperm⟩ := hf.cycle.rotate hf.freep
  have hpmem : p ∈ h.freep :: ys := hperm.mem_iff.mpr (by rw [hcut]; simp)
  have hclosed := closes_cut hf hcut hp hr
  obtain ⟨q, hq⟩ : ∃ q, (h.freep :: ys).find? (h.closes bp) = some q := by
    cases hfind : (h.freep :: ys).find? (h.closes bp) with
    | some q => exact ⟨q, rfl⟩
    | none =>
      rw [List.find?_eq_none] at hfind
      exact absurd hclosed (hfind p hpmem)
  have hqmem := hperm.mem_iff.mp (List.mem_of_find?_eq_some hq)
  have hqp := closes_unique hf hbp hcut hp hr hqmem (List.find?_some hq)
  subst hqp
  refine whileLoop_path hpath hq ?_
  rw [hperm.length_eq, List.length_cons]
  exact hfuel

end Place

section Join

variable {h h₁ : Heap} {xs ls l r : List Nat} {p bp : Nat}

/-- What `joinUpper` leaves, to be linked behind `p`: the block at `bp`, perhaps grown, and the
rest of the list behind it. -/
structure Upper (h h₁ : Heap) (ls r s : List Nat) (p bp : Nat) : Prop where
  cycle : Cycle (Function.update h₁.ptr p bp) h.base (ls ++ bp :: s)
  gaps : (bp :: s).Pairwise fun x y => x + 8 * h₁.size x < y
  sub : ∀ y ∈ s, y ∈ r
  size : ∀ x, x ≠ bp → h₁.size x = h.size x
  sum : h₁.size bp + (s.map h.size).sum = h.size bp + (r.map h.size).sum
  grows : h.size bp ≤ h₁.size bp
  below : bp + 8 * h₁.size bp ≤ h.brk
  apart : ∀ a n, 0 < n → Apart bp (h.size bp) a n → (∀ y ∈ r, Apart y (h.size y) a n) →
    Apart bp (h₁.size bp) a n
  base : h₁.base = h.base
  brk : h₁.brk = h.brk

/-- The freed block ends at or before the blocks behind it. -/
theorem Loose.le (hf : h.FreeList (ls ++ r)) (hl : h.Loose (ls ++ r) bp) (hr : ∀ y ∈ r, bp < y) :
    ∀ y ∈ r, bp + 8 * h.size bp ≤ y := by
  intro y hy
  have hpos := hf.pos y (by simp [hy])
  have hapart := hl.apart y (by simp [hy])
  have hlt := hr y hy
  unfold Apart at hapart
  omega

theorem FreeList.gaps_behind (hf : h.FreeList (ls ++ r)) :
    r.Pairwise fun x y => x + 8 * h.size x < y := by
  have hgaps := hf.gaps
  rw [← List.cons_append, List.pairwise_append] at hgaps
  exact hgaps.2.1

/-- The freed block does not touch the block behind. -/
theorem joinUpper_behind (hf : h.FreeList (ls ++ r)) (hl : h.Loose (ls ++ r) bp)
    (hcut : h.base :: ls = l ++ [p]) (hr : ∀ y ∈ r, bp < y) (hlink : h.ptr p = r.headD h.base)
    (htouch : bp + 8 * h.size bp ≠ h.ptr p) : Upper h (h.joinUpper bp p) ls r r p bp := by
  have hlinked := hf.cycle.link hcut hl.not_mem
  have hgaps : (bp :: r).Pairwise fun x y => x + 8 * h.size x < y := by
    refine List.pairwise_cons.mpr ⟨fun y hy => ?_, hf.gaps_behind⟩
    cases r with
    | nil => cases hy
    | cons q s =>
      rw [hlink, List.headD_cons] at htouch
      have hle := hl.le hf hr q List.mem_cons_self
      rcases List.mem_cons.mp hy with rfl | hy
      · omega
      · have := (List.pairwise_cons.mp hf.gaps_behind).1 y hy
        omega
  rw [joinUpper, if_neg htouch]
  exact ⟨hlinked, hgaps, fun y hy => hy, fun x hx => rfl, rfl, Nat.le_refl _, hl.below,
    fun a n hn hap _ => hap, rfl, rfl⟩

/-- The block behind touches the freed one and is taken in. -/
theorem joinUpper_touch {q : Nat} {s : List Nat} (hf : h.FreeList (ls ++ q :: s))
    (hl : h.Loose (ls ++ q :: s) bp) (hcut : h.base :: ls = l ++ [p]) (hp : p < bp) (hq : bp < q)
    (hlink : h.ptr p = q) (htouch : bp + 8 * h.size bp = h.ptr p) :
    Upper h (h.joinUpper bp p) ls (q :: s) s p bp := by
  have hlinked := hf.cycle.link hcut hl.not_mem
  obtain ⟨hqs, hs⟩ := List.pairwise_cons.mp hf.gaps_behind
  rw [joinUpper, if_pos htouch]
  rw [hlink] at htouch
  refine ⟨?_, ?_, fun y hy => List.mem_cons_of_mem q hy, ?_, ?_, ?_, ?_, ?_, rfl, rfl⟩
  · have hqbp : q ≠ bp := Nat.ne_of_gt hq
    have hqp : q ≠ p := Nat.ne_of_gt (Nat.lt_trans hp hq)
    have hpbp : p ≠ bp := Nat.ne_of_lt hp
    rw [List.append_cons] at hlinked
    have hunlinked := hlinked.unlink (l := h.base :: ls) (p := bp) rfl
    rw [Function.update_of_ne hqp, Function.update_of_ne hqbp, Function.update_comm hpbp,
      Function.update_idem] at hunlinked
    rw [List.append_cons, hlink]
    exact hunlinked
  · refine List.pairwise_cons.mpr ⟨fun y hy => ?_, hs.imp_of_mem fun {x y} hx hy hxy => ?_⟩
    · have := hqs y hy
      simp only [Function.update_self, hlink]
      omega
    · have hxbp : x ≠ bp := by
        rintro rfl
        exact hl.not_mem (by simp [hx])
      simpa only [Function.update_of_ne hxbp] using hxy
  · intro x hx
    exact Function.update_of_ne hx _ _
  · simp only [Function.update_self, hlink, List.map_cons, List.sum_cons]
    omega
  · simp only [Function.update_self]
    omega
  · have := hf.below q (by simp)
    simp only [Function.update_self, hlink]
    omega
  · intro a n hn hap hrap
    simp only [Function.update_self, hlink]
    refine Apart.join hap ?_ hn
    rw [htouch]
    exact hrap q (by simp)

theorem joinUpper_upper (hf : h.FreeList (ls ++ r)) (hl : h.Loose (ls ++ r) bp)
    (hcut : h.base :: ls = l ++ [p]) (hp : p < bp) (hr : ∀ y ∈ r, bp < y) :
    ∃ s, Upper h (h.joinUpper bp p) ls r s p bp := by
  have hlink : h.ptr p = r.headD h.base :=
    hf.link (l := l) (by rw [← List.cons_append, hcut, List.append_assoc]; rfl)
  by_cases htouch : bp + 8 * h.size bp = h.ptr p
  · cases r with
    | nil =>
      have := hl.above
      rw [hlink, List.headD_nil] at htouch
      omega
    | cons q s =>
      exact ⟨s, joinUpper_touch hf hl hcut hp (hr q List.mem_cons_self) hlink htouch⟩
  · exact ⟨r, joinUpper_behind hf hl hcut hr hlink htouch⟩

/-- The list after a call of `free` on the block at `bp`. -/
structure Freed (h h' : Heap) (xs ys : List Nat) (bp : Nat) : Prop where
  list : h'.FreeList ys
  sum : (ys.map h'.size).sum = (xs.map h.size).sum + h.size bp
  apart : ∀ a n, 0 < n → Apart bp (h.size bp) a n → (∀ x ∈ xs, Apart x (h.size x) a n) →
    ∀ y ∈ ys, Apart y (h'.size y) a n
  size : ∀ x, x ≠ bp → x ∉ h.base :: xs → h'.size x = h.size x
  room : ∃ y ∈ ys, h.size bp ≤ h'.size y
  base : h'.base = h.base
  brk : h'.brk = h.brk

/-- The block in front ends at or before the freed one. -/
theorem Loose.ge (hf : h.FreeList (ls ++ r)) (hl : h.Loose (ls ++ r) bp)
    (hcut : h.base :: ls = l ++ [p]) (hp : p < bp) : p + 8 * h.size p ≤ bp := by
  have hmem : p ∈ h.base :: ls := by rw [hcut]; simp
  rcases List.mem_cons.mp hmem with rfl | hmem
  · rw [hf.empty]
    exact Nat.le_of_lt hp
  · have hapart := hl.apart p (by simp [hmem])
    have := hl.pos
    unfold Apart at hapart
    omega

/-- The blocks up to `p`, with the gaps between them and to those behind. -/
theorem FreeList.gaps_cut (hf : h.FreeList (ls ++ r)) (hcut : h.base :: ls = l ++ [p]) :
    l.Pairwise (fun x y => x + 8 * h.size x < y) ∧ (∀ x ∈ l, x + 8 * h.size x < p) ∧
      ∀ x ∈ l ++ [p], ∀ y ∈ r, x + 8 * h.size x < y := by
  have hgaps := hf.gaps
  rw [← List.cons_append, hcut, List.pairwise_append] at hgaps
  obtain ⟨hlp, -, hcross⟩ := hgaps
  obtain ⟨hll, -, hlast⟩ := List.pairwise_append.mp hlp
  exact ⟨hll, fun x hx => hlast x hx p (by simp), hcross⟩

theorem Upper.size_ls {s : List Nat} (hu : Upper h h₁ ls r s p bp) (hl : h.Loose (ls ++ r) bp)
    {x : Nat} (hx : x ∈ h.base :: ls) : h₁.size x = h.size x := by
  refine hu.size x ?_
  rintro rfl
  exact hl.not_mem (List.cons_append ▸ List.mem_append_left r hx)

theorem Upper.size_s {s : List Nat} (hu : Upper h h₁ ls r s p bp) (hr : ∀ y ∈ r, bp < y)
    {x : Nat} (hx : x ∈ s) : h₁.size x = h.size x :=
  hu.size x (Nat.ne_of_gt (hr x (hu.sub x hx)))

/-- The block `q` of `h'` holds the freed one, between the blocks `m` and `s` left as they were. -/
structure Joined (h h' : Heap) (ls r m s : List Nat) (q bp : Nat) : Prop where
  front : ∀ x ∈ h.base :: m, h'.size x = h.size x
  behind : ∀ x ∈ s, h'.size x = h.size x
  subFront : ∀ x ∈ m, x ∈ ls
  subBehind : ∀ x ∈ s, x ∈ r
  grows : h.size bp ≤ h'.size q
  below : q + 8 * h'.size q ≤ h.brk
  apart : ∀ a n, 0 < n → Apart bp (h.size bp) a n → (∀ x ∈ ls ++ r, Apart x (h.size x) a n) →
    Apart q (h'.size q) a n
  sum : (m.map h.size).sum + h'.size q + (s.map h.size).sum =
    ((ls ++ r).map h.size).sum + h.size bp
  base : h'.base = h.base
  brk : h'.brk = h.brk

namespace Joined

variable {h' : Heap} {m s : List Nat} {q : Nat}

/-- What holds of the blocks before and of `q` holds of the new list. -/
theorem forall_mem (hj : Joined h h' ls r m s q bp) {P : Nat → Nat → Prop}
    (hold : ∀ x ∈ ls ++ r, P x (h.size x)) (hq : P q (h'.size q)) :
    ∀ x ∈ m ++ q :: s, P x (h'.size x) := by
  intro x hx
  rcases List.mem_append.mp hx with hx | hx
  · rw [hj.front x (List.mem_cons_of_mem _ hx)]
    exact hold x (List.mem_append_left _ (hj.subFront x hx))
  · rcases List.mem_cons.mp hx with rfl | hx
    · exact hq
    · rw [hj.behind x hx]
      exact hold x (List.mem_append_right _ (hj.subBehind x hx))

theorem gaps (hj : Joined h h' ls r m s q bp)
    (hm : (h.base :: m).Pairwise fun x y => x + 8 * h.size x < y)
    (hq : (q :: s).Pairwise fun x y => x + 8 * h'.size x < y)
    (hcross : ∀ x ∈ h.base :: m, ∀ y ∈ q :: s, x + 8 * h.size x < y) :
    (h.base :: (m ++ q :: s)).Pairwise fun x y => x + 8 * h'.size x < y := by
  rw [← List.cons_append, List.pairwise_append]
  refine ⟨hm.imp_of_mem fun hx _ hxy => ?_, hq, fun x hx y hy => ?_⟩
  · rwa [hj.front _ hx]
  · rw [hj.front x hx]
    exact hcross x hx y hy

theorem freed (hj : Joined h h' ls r m s q bp) (hf : h.FreeList (ls ++ r))
    (hl : h.Loose (ls ++ r) bp) (hcycle : Cycle h'.ptr h.base (m ++ q :: s))
    (hgaps : (h.base :: (m ++ q :: s)).Pairwise fun x y => x + 8 * h'.size x < y)
    (hfreep : h'.freep ∈ h.base :: (m ++ q :: s))
    (hsize : ∀ x, x ≠ bp → x ∉ h.base :: (ls ++ r) → h'.size x = h.size x) :
    Freed h h' (ls ++ r) (m ++ q :: s) bp := by
  have hempty : h'.size h'.base = 0 := by
    rw [hj.base, hj.front _ List.mem_cons_self, hf.empty]
  have hbelow : ∀ x ∈ m ++ q :: s, x + 8 * h'.size x ≤ h'.brk := by
    rw [hj.brk]
    exact hj.forall_mem (P := fun x n => x + 8 * n ≤ h.brk) hf.below hj.below
  have hpos : ∀ x ∈ m ++ q :: s, 0 < h'.size x :=
    hj.forall_mem (P := fun _ n => 0 < n) hf.pos (Nat.lt_of_lt_of_le hl.pos hj.grows)
  refine ⟨⟨?_, ?_, hempty, ?_, hpos, ?_, hbelow⟩, ?_, ?_, hsize, ⟨q, by simp, hj.grows⟩, hj.base,
    hj.brk⟩
  · rw [hj.base]
    exact hcycle
  · rw [hj.base, hj.brk]
    exact hf.low
  · rw [hj.base]
    exact hgaps
  · rw [hj.base]
    exact hfreep
  · have := hj.sum
    rw [List.map_append, List.map_cons, List.sum_append, List.sum_cons,
      List.map_congr_left fun x hx => hj.front x (List.mem_cons_of_mem _ hx),
      List.map_congr_left hj.behind]
    omega
  · intro a n hn hap hx
    exact hj.forall_mem (P := fun y k => Apart y k a n) hx (hj.apart a n hn hap hx)

end Joined

/-- The freed block does not touch the block in front. -/
theorem joinLower_behind {s : List Nat} (hf : h.FreeList (ls ++ r)) (hl : h.Loose (ls ++ r) bp)
    (hcut : h.base :: ls = l ++ [p]) (hp : p < bp) (hr : ∀ y ∈ r, bp < y)
    (hu : Upper h h₁ ls r s p bp) (htouch : p + 8 * h₁.size p ≠ bp) :
    Freed h { h₁.joinLower bp p with freep := p } (ls ++ r) (ls ++ bp :: s) bp := by
  obtain ⟨hlgaps, hlast, hcross⟩ := hf.gaps_cut hcut
  have hge := hl.ge hf hcut hp
  have hpmem : p ∈ h.base :: ls := by rw [hcut]; simp
  rw [joinLower, if_neg htouch]
  rw [hu.size_ls hl hpmem] at htouch
  have hjoined : Joined h { h₁ with ptr := Function.update h₁.ptr p bp, freep := p } ls r ls s bp
      bp := by
    refine ⟨fun x hx => hu.size_ls hl hx, fun x hx => hu.size_s hr hx, fun x hx => hx, hu.sub,
      hu.grows, hu.below, fun a n hn hap hx => ?_, ?_, hu.base, hu.brk⟩
    · exact hu.apart a n hn hap fun z hz => hx z (List.mem_append_right _ hz)
    · have := hu.sum
      rw [List.map_append, List.sum_append]
      change (ls.map h.size).sum + h₁.size bp + (s.map h.size).sum = _
      omega
  refine hjoined.freed hf hl hu.cycle (hjoined.gaps ?_ hu.gaps fun x hx y hy => ?_) ?_
    fun x hx _ => hu.size x hx
  · rw [hcut, List.pairwise_append]
    exact ⟨hlgaps, List.pairwise_singleton _ _, by simpa using hlast⟩
  · rw [hcut] at hx
    rcases List.mem_cons.mp hy with rfl | hy
    · rcases List.mem_append.mp hx with hx | hx
      · have := hlast x hx
        omega
      · rw [List.mem_singleton.mp hx]
        omega
    · exact hcross x hx y (hu.sub y hy)
  · rw [← List.cons_append, hcut]
    simp

/-- A block in front that touches the freed one is no head: the head has no size. -/
theorem base_lt_of_touch (hf : h.FreeList (ls ++ r)) (hl : h.Loose (ls ++ r) bp)
    (hcut : h.base :: ls = l ++ [p]) (htouch : p + 8 * h.size p = bp) : h.base < p := by
  have hpmem : p ∈ h.base :: ls := by rw [hcut]; simp
  rcases List.mem_cons.mp hpmem with rfl | hmem
  · have := hl.above
    rw [hf.empty] at htouch
    omega
  · exact hf.base_lt (by simp [hmem])

/-- The list up to `p`, which is not the head. -/
theorem cut_last {a : Nat} (hcut : a :: ls = l ++ [p]) (ha : a ≠ p) :
    ∃ m, ls = m ++ [p] ∧ l = a :: m := by
  cases l with
  | nil => exact absurd (List.cons.inj hcut).1 ha
  | cons b m =>
    obtain ⟨rfl, hls⟩ := List.cons.inj hcut
    exact ⟨m, hls, rfl⟩

/-- The freed block touches the block in front and is taken in. -/
theorem joinLower_touch {s : List Nat} (hf : h.FreeList (ls ++ r)) (hl : h.Loose (ls ++ r) bp)
    (hcut : h.base :: ls = l ++ [p]) (hp : p < bp) (hr : ∀ y ∈ r, bp < y)
    (hu : Upper h h₁ ls r s p bp) (htouch : p + 8 * h₁.size p = bp) :
    Freed h { h₁.joinLower bp p with freep := p } (ls ++ r) (ls ++ s) bp := by
  obtain ⟨hlgaps, hlast, hcross⟩ := hf.gaps_cut hcut
  have hsbp : ∀ y ∈ s, bp < y := fun y hy => hr y (hu.sub y hy)
  have hpsize : h₁.size p = h.size p := hu.size_ls hl (by rw [hcut]; simp)
  rw [joinLower, if_pos htouch]
  rw [hpsize] at htouch
  have hbase := base_lt_of_touch hf hl hcut htouch
  obtain ⟨m, rfl, rfl⟩ := cut_last hcut (Nat.ne_of_lt hbase)
  have hcycle := hu.cycle.unlink hcut
  rw [Function.update_idem, Function.update_of_ne (Nat.ne_of_gt hp)] at hcycle
  have hother (x : Nat) (hxbp : x ≠ bp) (hxp : x ≠ p) :
      Function.update h₁.size p (h₁.size p + h₁.size bp) x = h.size x := by
    rw [Function.update_of_ne hxp, hu.size x hxbp]
  have hgrown : Function.update h₁.size p (h₁.size p + h₁.size bp) p = h.size p + h₁.size bp := by
    rw [Function.update_self, hpsize]
  generalize Function.update h₁.size p (h₁.size p + h₁.size bp) = size' at hother hgrown ⊢
  let h' : Heap :=
    { h₁ with size := size', ptr := Function.update h₁.ptr p (h₁.ptr bp), freep := p }
  have hjoined : Joined h h' (m ++ [p]) r m s p bp := by
    refine ⟨fun x hx => hother x ?_ ?_, fun x hx => hother x ?_ ?_, by simp +contextual, hu.sub, ?_,
      ?_, fun a n hn hap hx => ?_, ?_, hu.base, hu.brk⟩
    · have := hlast x hx
      omega
    · have := hlast x hx
      omega
    · have := hsbp x hx
      omega
    · have := hsbp x hx
      omega
    · have := hu.grows
      change h.size bp ≤ size' p
      omega
    · have := hu.below
      change p + 8 * size' p ≤ h.brk
      omega
    · change Apart p (size' p) a n
      rw [hgrown]
      refine (hx p (by simp)).join ?_ hn
      rw [htouch]
      exact hu.apart a n hn hap fun z hz => hx z (by simp [hz])
    · have := hu.sum
      change (m.map h.size).sum + size' p + (s.map h.size).sum = _
      simp only [List.map_append, List.map_cons, List.map_nil, List.sum_append, List.sum_cons,
        List.sum_nil, hgrown]
      omega
  have hgaps : (p :: s).Pairwise fun x y => x + 8 * size' x < y := by
    obtain ⟨hbp, hs⟩ := List.pairwise_cons.mp hu.gaps
    refine List.pairwise_cons.mpr ⟨fun y hy => ?_, hs.imp_of_mem fun hx _ hxy => ?_⟩
    · have := hbp y hy
      omega
    · rw [hu.size_s hr hx] at hxy
      have hbehind : size' _ = _ := hjoined.behind _ hx
      rwa [hbehind]
  have hfreep : p ∈ h.base :: (m ++ p :: s) := by simp
  rw [← List.append_cons m p s]
  refine hjoined.freed hf hl ?_ (hjoined.gaps hlgaps hgaps fun x hx y hy => ?_) hfreep
    fun x hx hmem => hother x hx ?_
  · rw [List.append_cons]
    exact hcycle
  · rcases List.mem_cons.mp hy with rfl | hy
    · exact hlast x hx
    · exact hcross x (List.mem_append_left _ hx) y (hu.sub y hy)
  · rintro rfl
    exact hmem (by simp)

/-- `free` puts the block into the list, whatever it touches. -/
theorem free_freed (hf : h.FreeList xs) (hl : h.Loose xs bp) {fuel : Nat}
    (hfuel : xs.length < fuel) :
    ∃ h' ys, h.free fuel (bp + 8) = some h' ∧ Freed h h' xs ys bp := by
  obtain ⟨l, p, r, hcut, hp, hr⟩ := exists_cut hf.sorted hl.above hl.not_mem
  have hplace := findPlace_eq hf hl.above hcut hp hr hfuel
  obtain ⟨ls, hls, rfl⟩ := cut_tail hcut
  obtain ⟨s, hu⟩ := joinUpper_upper hf hl hls hp hr
  rw [free, Nat.add_sub_cancel, hplace]
  by_cases htouch : p + 8 * (h.joinUpper bp p).size p = bp
  · exact ⟨_, _, rfl, joinLower_touch hf hl hls hp hr hu htouch⟩
  · exact ⟨_, _, rfl, joinLower_behind hf hl hls hp hr hu htouch⟩

end Join

end Heap

end Xv6
end SsuComputer
