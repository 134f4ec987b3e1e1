import SsuComputer.Xv6.UmallocCorrect
import SsuComputer.Lib.Refinement

/-!
# SsuComputer.Xv6.UmallocSafe

`malloc` on the list of free blocks, and whole runs of a program.

* `take_taken`, `morecore_grown`, `malloc_spec` — what a call leaves: perhaps more memory, and the
  list without the block that was given.
* `Held`, `Inv`, `step_inv` — the list, the blocks handed out and the units counted.
* `umalloc_safe` — no two blocks overlap, and every unit that `morecore` got is in exactly one
  block, free or handed out.
* `umalloc_returns` — both loops end, and when `malloc` gives null.
-/

namespace SsuComputer
namespace Xv6

namespace Heap

variable {h h' h₁ : Heap} {xs ys zs l r : List Nat} {p q prevp a n limit : Nat}

/-- The list after the block of `n` units at `a` was given. -/
structure Taken (h h' : Heap) (xs ys : List Nat) (a n : Nat) : Prop where
  list : h'.FreeList ys
  sum : (ys.map h'.size).sum + n = (xs.map h.size).sum
  units : h'.size a = n
  above : h.base < a
  below : a + 8 * n ≤ h.brk
  own : ∀ y ∈ ys, Apart y (h'.size y) a n
  others : ∀ b m, 0 < m → (∀ x ∈ xs, Apart x (h.size x) b m) →
    Apart a n b m ∧ ∀ y ∈ ys, Apart y (h'.size y) b m
  size : ∀ x, x ∉ h.base :: xs → x ≠ a → h'.size x = h.size x
  base : h'.base = h.base
  brk : h'.brk = h.brk

theorem FreeList.apart (hf : h.FreeList (l ++ p :: r)) {x : Nat} (hx : x ∈ l ++ r) :
    Apart x (h.size x) p (h.size p) := by
  have hgaps := (List.pairwise_cons.mp hf.gaps).2
  rw [List.pairwise_append, List.pairwise_cons] at hgaps
  obtain ⟨-, ⟨hpr, -⟩, hlp⟩ := hgaps
  unfold Apart
  rcases List.mem_append.mp hx with hx | hx
  · have := hlp x hx p (by simp)
    omega
  · have := hpr x hx
    omega

/-- The header of a block apart from the free ones is none of theirs. -/
theorem FreeList.not_header (hf : h.FreeList xs) (hb : h.base < p) (hn : 0 < n)
    (hap : ∀ x ∈ xs, Apart x (h.size x) p n) : p ∉ h.base :: xs := by
  intro hmem
  rcases List.mem_cons.mp hmem with rfl | hmem
  · exact Nat.lt_irrefl _ hb
  · have := hap p hmem
    have := hf.pos p hmem
    unfold Apart at *
    omega

/-- The whole block is given. -/
theorem take_whole {ls s : List Nat} (hf : h.FreeList (ls ++ p :: s))
    (hls : h.base :: ls = l ++ [prevp]) :
    Taken h { h with ptr := Function.update h.ptr prevp (h.ptr p), freep := prevp }
      (ls ++ p :: s) (ls ++ s) p (h.size p) := by
  have hsub : (ls ++ s).Sublist (ls ++ p :: s) := by simp
  refine ⟨⟨hf.cycle.unlink hls, hf.low, hf.empty, hf.gaps.sublist (hsub.cons_cons _),
    fun x hx => hf.pos x (hsub.mem hx), ?_, fun x hx => hf.below x (hsub.mem hx)⟩, ?_, rfl,
    hf.base_lt (by simp), hf.below p (by simp), fun y hy => hf.apart hy, ?_, fun x _ _ => rfl,
    rfl, rfl⟩
  · change prevp ∈ h.base :: (ls ++ s)
    rw [← List.cons_append, hls]
    simp
  · simp only [List.map_append, List.map_cons, List.sum_append, List.sum_cons]
    omega
  · intro b m _ hx
    exact ⟨hx p (by simp), fun y hy => hx y (hsub.mem hy)⟩

/-- The sizes after `n` units were cut off the end of the block `p`; `q` is their header. -/
structure Shrunk (h : Heap) (size' : Nat → Nat) (ls s : List Nat) (p q n : Nat) : Prop where
  place : p + 8 * (h.size p - n) = q
  cut : size' q = n
  own : size' p = h.size p - n
  base : size' h.base = h.size h.base
  rest : ∀ x ∈ ls ++ s, size' x = h.size x
  other : ∀ x, x ≠ p → x ≠ q → size' x = h.size x

theorem FreeList.shrunk {ls s : List Nat} (hf : h.FreeList (ls ++ p :: s)) (hn : 0 < n)
    (hlt : n < h.size p) : Shrunk h (Function.update (Function.update h.size p (h.size p - n))
      (p + 8 * (h.size p - n)) n) ls s p (p + 8 * (h.size p - n)) n := by
  have hbp := hf.base_lt (x := p) (by simp)
  have hother (x : Nat) (hxp : x ≠ p) (hxq : x ≠ p + 8 * (h.size p - n)) :
      Function.update (Function.update h.size p (h.size p - n)) (p + 8 * (h.size p - n)) n x =
        h.size x := by
    rw [Function.update_of_ne hxq, Function.update_of_ne hxp]
  refine ⟨rfl, Function.update_self .., ?_, ?_, fun x hx => ?_, hother⟩
  · rw [Function.update_of_ne (by omega), Function.update_self]
  · exact hother _ (by omega) (by omega)
  · have hap := hf.apart hx
    have hpos := hf.pos x (List.perm_middle.mem_iff.mpr (List.mem_cons_of_mem p hx))
    unfold Apart at hap
    exact hother x (by omega) (by omega)

namespace Shrunk

variable {size' : Nat → Nat} {ls s : List Nat}

theorem le (hk : Shrunk h size' ls s p q n) {x : Nat} (hx : x ∈ ls ++ p :: s) :
    size' x ≤ h.size x := by
  rcases List.mem_cons.mp (List.perm_middle.mem_iff.mp hx) with rfl | hx
  · rw [hk.own]
    exact Nat.sub_le _ _
  · exact Nat.le_of_eq (hk.rest x hx)

theorem pos (hk : Shrunk h size' ls s p q n) (hf : h.FreeList (ls ++ p :: s)) (hlt : n < h.size p)
    {x : Nat} (hx : x ∈ ls ++ p :: s) : 0 < size' x := by
  rcases List.mem_cons.mp (List.perm_middle.mem_iff.mp hx) with rfl | hx'
  · rw [hk.own]
    omega
  · rw [hk.rest x hx']
    exact hf.pos x hx

/-- It is the same list, with one block smaller. -/
theorem list (hk : Shrunk h size' ls s p q n) (hf : h.FreeList (ls ++ p :: s))
    (hlt : n < h.size p) (hprev : prevp ∈ h.base :: (ls ++ p :: s)) :
    FreeList { h with size := size', freep := prevp } (ls ++ p :: s) := by
  refine ⟨hf.cycle, hf.low, hk.base.trans hf.empty, hf.gaps.imp_of_mem fun {x y} hx _ hxy => ?_,
    fun x hx => hk.pos hf hlt hx, hprev, fun x hx => ?_⟩
  · change x + 8 * size' x < y
    rcases List.mem_cons.mp hx with rfl | hx
    · rw [hk.base]
      exact hxy
    · have := hk.le hx
      omega
  · have := hk.le hx
    have := hf.below x hx
    change x + 8 * size' x ≤ h.brk
    omega

theorem sum (hk : Shrunk h size' ls s p q n) (hlt : n < h.size p) :
    ((ls ++ p :: s).map size').sum + n = ((ls ++ p :: s).map h.size).sum := by
  have hls : ls.map size' = ls.map h.size :=
    List.map_congr_left fun x hx => hk.rest x (List.mem_append_left s hx)
  have hs : s.map size' = s.map h.size :=
    List.map_congr_left fun x hx => hk.rest x (List.mem_append_right ls hx)
  simp only [List.map_append, List.map_cons, List.sum_append, List.sum_cons, hls, hs, hk.own]
  omega

theorem apart (hk : Shrunk h size' ls s p q n) (hf : h.FreeList (ls ++ p :: s)) (hlt : n < h.size p)
    {y : Nat} (hy : y ∈ ls ++ p :: s) : Apart y (size' y) q n := by
  have hplace := hk.place
  rcases List.mem_cons.mp (List.perm_middle.mem_iff.mp hy) with rfl | hy
  · rw [hk.own]
    exact .inl (by omega)
  · have hap := hf.apart hy
    rw [hk.rest y hy]
    unfold Apart at *
    omega

end Shrunk

/-- The end of the block is given. -/
theorem take_end {ls s : List Nat} (hf : h.FreeList (ls ++ p :: s))
    (hprev : prevp ∈ h.base :: (ls ++ p :: s)) (hn : 0 < n) (hlt : n < h.size p) :
    Taken h
      { h with
        size := Function.update (Function.update h.size p (h.size p - n))
          (p + 8 * (h.size p - n)) n
        freep := prevp }
      (ls ++ p :: s) (ls ++ p :: s) (p + 8 * (h.size p - n)) n := by
  have hk := hf.shrunk hn hlt
  have hbp := hf.base_lt (x := p) (by simp)
  have hend := hf.below p (by simp)
  generalize Function.update (Function.update h.size p (h.size p - n)) _ n = size' at hk ⊢
  obtain ⟨q, hplace⟩ : ∃ q, p + 8 * (h.size p - n) = q := ⟨_, rfl⟩
  rw [hplace] at hk ⊢
  refine ⟨hk.list hf hlt hprev, hk.sum hlt, hk.cut, by omega, ?_, fun y hy => hk.apart hf hlt hy,
    fun b m hm hx => ⟨?_, fun y hy => ?_⟩, fun x hx hxq => ?_, rfl, rfl⟩
  · omega
  · have hap := hx p (by simp)
    unfold Apart at *
    omega
  · have hap := hx y hy
    have := hk.le hy
    change Apart y (size' y) b m
    unfold Apart at *
    omega
  · exact hk.other x (fun hxp => hx (by simp [hxp])) hxq

theorem take_taken (hf : h.FreeList xs) (hprev : prevp ∈ h.base :: xs) (hlink : h.ptr prevp = p)
    (hp : p ∈ xs) (hn : 0 < n) (hle : n ≤ h.size p) :
    ∃ ys, Taken h (h.take prevp p n).1 xs ys (h.take prevp p n).2 n := by
  obtain ⟨l, r, hcut⟩ := List.append_of_mem hprev
  obtain ⟨s, rfl⟩ : ∃ s, r = p :: s := by
    have hhead := hf.link hcut
    rw [hlink] at hhead
    cases r with
    | nil => exact absurd hhead (Nat.ne_of_gt (hf.base_lt hp))
    | cons q s => exact ⟨s, by rw [hhead]; rfl⟩
  obtain ⟨ls, hls, rfl⟩ := cut_tail hcut
  by_cases heq : h.size p = n
  · rw [take, if_pos heq, ← heq]
    exact ⟨_, take_whole hf hls⟩
  · rw [take, if_neg heq]
    exact ⟨_, take_end hf hprev hn (by omega)⟩

/-- The list with `g` units of memory more. -/
structure Grown (h h' : Heap) (xs ys : List Nat) (g : Nat) : Prop where
  list : h'.FreeList ys
  sum : (ys.map h'.size).sum = (xs.map h.size).sum + g
  others : ∀ b m, 0 < m → b + 8 * m ≤ h.brk → (∀ x ∈ xs, Apart x (h.size x) b m) →
    ∀ y ∈ ys, Apart y (h'.size y) b m
  size : ∀ x, x < h.brk → x ∉ h.base :: xs → h'.size x = h.size x
  base : h'.base = h.base
  brk : h'.brk = h.brk + 8 * g

theorem Grown.refl (hf : h.FreeList xs) : Grown h h xs xs 0 :=
  ⟨hf, rfl, fun _ _ _ _ hx => hx, fun _ _ _ => rfl, rfl, rfl⟩

/-- The units that `morecore` asks for. -/
def atLeast (nu : Nat) : Nat := if nu < 4096 then 4096 else nu

theorem morecore_none (h₀ : h.sbrk limit (atLeast n * 8) = none) {fuel : Nat} :
    morecore fuel limit h n = some none := by
  unfold atLeast at h₀
  simp only [morecore, h₀]

theorem morecore_some {hp : Nat} (h₀ : h.sbrk limit (atLeast n * 8) = some (hp, h'))
    {fuel : Nat} :
    morecore fuel limit h n =
      (free fuel { h' with size := Function.update h'.size hp (atLeast n) } (hp + 8)).map some := by
  unfold atLeast at h₀ ⊢
  simp only [morecore, h₀]

theorem sbrk_of_lt (hn : n < 2 ^ 31) :
    h.sbrk limit n =
      if h.brk + n ≤ limit then some (h.brk, { h with brk := h.brk + n }) else none := by
  rw [sbrk, Nat.mod_eq_of_lt (by omega), if_pos hn]

theorem FreeList.lt_brk (hf : h.FreeList xs) {x : Nat} (hx : x ∈ h.base :: xs) : x < h.brk := by
  rcases List.mem_cons.mp hx with rfl | hx
  · exact hf.low
  · have := hf.pos x hx
    have := hf.below x hx
    omega

/-- Only the headers on the list matter. -/
theorem FreeList.congr (hf : h.FreeList xs) (hb : h'.base = h.base) (hp : h'.freep = h.freep)
    (hbrk : h.brk ≤ h'.brk) (hptr : ∀ x ∈ h.base :: xs, h'.ptr x = h.ptr x)
    (hsize : ∀ x ∈ h.base :: xs, h'.size x = h.size x) : h'.FreeList xs := by
  refine ⟨?_, ?_, ?_, ?_, ?_, ?_, ?_⟩
  · rw [hb]
    refine ⟨?_, hf.cycle.nodup⟩
    rw [hptr _ (by simp)]
    exact hf.cycle.path.congr fun x hx => hptr x (by simp [hx])
  · rw [hb]
    exact Nat.lt_of_lt_of_le hf.low hbrk
  · rw [hb, hsize _ (by simp), hf.empty]
  · rw [hb]
    exact hf.gaps.imp_of_mem fun hx _ hxy => by rwa [hsize _ hx]
  · intro x hx
    rw [hsize x (by simp [hx])]
    exact hf.pos x hx
  · rw [hp, hb]
    exact hf.freep
  · intro x hx
    rw [hsize x (by simp [hx])]
    exact Nat.le_trans (hf.below x hx) hbrk

/-- The new memory is a block of its own at first. -/
theorem FreeList.extend (hf : h.FreeList xs) (m : Nat) :
    FreeList { h with brk := h.brk + 8 * m, size := Function.update h.size h.brk m } xs :=
  hf.congr rfl rfl (Nat.le_add_right _ _) (fun _ _ => rfl) fun _ hx =>
    Function.update_of_ne (Nat.ne_of_lt (hf.lt_brk hx)) _ _

theorem morecore_grown (hf : h.FreeList xs) (hn : 8 * n < 2 ^ 31) {fuel : Nat}
    (hfuel : xs.length < fuel) (hlimit : h.brk + 8 * atLeast n ≤ limit) :
    ∃ h' ys, morecore fuel limit h n = some (some h') ∧ Grown h h' xs ys (atLeast n) ∧
      ∃ y ∈ ys, n ≤ h'.size y := by
  have hge : n ≤ atLeast n ∧ 0 < atLeast n ∧ atLeast n * 8 < 2 ^ 31 := by
    unfold atLeast
    split <;> omega
  have hsize : ∀ x ∈ h.base :: xs,
      Function.update h.size h.brk (atLeast n) x = h.size x := fun x hx =>
    Function.update_of_ne (Nat.ne_of_lt (hf.lt_brk hx)) _ _
  have hself : Function.update h.size h.brk (atLeast n) h.brk = atLeast n :=
    Function.update_self ..
  have hloose : Loose { h with
      brk := h.brk + 8 * atLeast n
      size := Function.update h.size h.brk (atLeast n) } xs h.brk := by
    refine ⟨hf.low, ?_, ?_, fun x hx => .inl ?_⟩
    · change 0 < Function.update h.size h.brk (atLeast n) h.brk
      rw [hself]
      exact hge.2.1
    · change h.brk + 8 * Function.update h.size h.brk (atLeast n) h.brk ≤ h.brk + 8 * atLeast n
      rw [hself]
    · change x + 8 * Function.update h.size h.brk (atLeast n) x ≤ h.brk
      rw [hsize x (by simp [hx])]
      exact hf.below x hx
  obtain ⟨h', ys, hfree, hfreed⟩ := free_freed (hf.extend (atLeast n)) hloose hfuel
  refine ⟨h', ys, ?_, ⟨hfreed.list, ?_, ?_, ?_, hfreed.base, hfreed.brk⟩, ?_⟩
  · have hsbrk : h.sbrk limit (atLeast n * 8) =
        some (h.brk, { h with brk := h.brk + 8 * atLeast n }) := by
      rw [sbrk_of_lt hge.2.2, Nat.mul_comm, if_pos hlimit]
    rw [morecore_some hsbrk]
    exact congrArg (Option.map some) hfree
  · rw [hfreed.sum]
    change (xs.map (Function.update h.size h.brk (atLeast n))).sum +
      Function.update h.size h.brk (atLeast n) h.brk = _
    rw [hself]
    refine congrArg (fun l => List.sum l + _) (List.map_congr_left fun x hx => ?_)
    exact hsize x (by simp [hx])
  · intro b m hm hb hx
    refine hfreed.apart b m hm (.inr hb) fun x hxs => ?_
    change Apart x (Function.update h.size h.brk (atLeast n) x) b m
    rw [hsize x (by simp [hxs])]
    exact hx x hxs
  · intro x hx hmem
    rw [hfreed.size x (Nat.ne_of_lt hx) hmem]
    exact Function.update_of_ne (Nat.ne_of_lt hx) _ _
  · obtain ⟨y, hy, hle⟩ := hfreed.room
    exact ⟨y, hy, Nat.le_trans hge.1 (hself ▸ hle)⟩

theorem morecore_refused (hn : 8 * n < 2 ^ 31) (hlimit : ¬ h.brk + 8 * atLeast n ≤ limit)
    (fuel : Nat) : morecore fuel limit h n = some none := by
  have hge : atLeast n * 8 < 2 ^ 31 := by
    unfold atLeast
    split <;> omega
  refine morecore_none ?_
  rw [sbrk_of_lt hge, Nat.mul_comm, if_neg hlimit]

/-! ## The loop -/

/-- The first block on the way that is large enough is taken. -/
theorem mallocLoop_take (limit : Nat) (hpath : Path h.ptr p zs q) (hlink : h.ptr prevp = p)
    (hsmall : ∀ z ∈ zs, ¬ n ≤ h.size z ∧ z ≠ h.freep)
    (hq : n ≤ h.size q) {fuel : Nat} (hfuel : zs.length < fuel) :
    ∃ pq ∈ prevp :: zs, h.ptr pq = q ∧
      mallocLoop limit n fuel h prevp p = some ((h.take pq q n).1, some (h.take pq q n).2) := by
  induction zs generalizing p prevp fuel with
  | nil =>
    obtain rfl : p = q := hpath
    obtain ⟨more, rfl⟩ : ∃ more, fuel = more + 1 := ⟨fuel - 1, by omega⟩
    exact ⟨prevp, by simp, hlink, by rw [mallocLoop, if_pos hq]⟩
  | cons z zs ih =>
    obtain ⟨rfl, hpath⟩ := hpath
    obtain ⟨more, rfl⟩ : ∃ more, fuel = more + 1 := ⟨fuel - 1, by omega⟩
    obtain ⟨hno, hne⟩ := hsmall p (by simp)
    obtain ⟨pq, hpq, hptr, hloop⟩ := ih hpath (Eq.refl (h.ptr p))
      (fun z hz => hsmall z (by simp [hz])) (by simpa using hfuel)
    refine ⟨pq, List.mem_cons_of_mem _ hpq, hptr, ?_⟩
    rw [mallocLoop, if_neg hno, if_neg hne, hloop]

/-- No block on the way round is large enough. -/
theorem mallocLoop_round (hpath : Path h.ptr p zs h.freep)
    (hsmall : ∀ z ∈ zs, ¬ n ≤ h.size z ∧ z ≠ h.freep) (hlast : ¬ n ≤ h.size h.freep)
    (fuel : Nat) :
    mallocLoop limit n (zs.length + (fuel + 1)) h prevp p =
      match morecore fuel limit h n with
      | none => none
      | some none => some (h, none)
      | some (some h) => mallocLoop limit n fuel h h.freep (h.ptr h.freep) := by
  induction zs generalizing p prevp with
  | nil =>
    obtain rfl : p = h.freep := hpath
    rw [List.length_nil, Nat.zero_add, mallocLoop, if_neg hlast]
    exact if_pos rfl
  | cons z zs ih =>
    obtain ⟨rfl, hpath⟩ := hpath
    obtain ⟨hno, hne⟩ := hsmall p (by simp)
    rw [List.length_cons, Nat.add_right_comm, mallocLoop, if_neg hno, if_neg hne]
    exact ih hpath fun z hz => hsmall z (by simp [hz])

theorem findPlace_more {bp fuel fuel' : Nat} (hrun : h.findPlace fuel bp = some p)
    (hle : fuel ≤ fuel') : h.findPlace fuel' bp = some p := whileLoop_more hrun hle

theorem free_more {ap fuel fuel' : Nat} (hrun : h.free fuel ap = some h') (hle : fuel ≤ fuel') :
    h.free fuel' ap = some h' := by
  obtain ⟨p, hplace, rfl⟩ := Option.map_eq_some_iff.mp hrun
  rw [free, findPlace_more hplace hle]
  rfl

theorem morecore_more {fuel fuel' : Nat} {o : Option Heap}
    (hrun : morecore fuel limit h n = some o) (hle : fuel ≤ fuel') :
    morecore fuel' limit h n = some o := by
  unfold morecore at hrun ⊢
  simp only at hrun ⊢
  split at hrun
  · exact hrun
  · obtain ⟨h₁, hfree, rfl⟩ := Option.map_eq_some_iff.mp hrun
    rw [free_more hfree hle]
    rfl

theorem mallocLoop_more {fuel fuel' : Nat} {o : Heap × Option Nat}
    (hrun : mallocLoop limit n fuel h prevp p = some o) (hle : fuel ≤ fuel') :
    mallocLoop limit n fuel' h prevp p = some o := by
  induction fuel generalizing h prevp p fuel' with
  | zero => cases hrun
  | succ fuel ih =>
    obtain ⟨more, rfl⟩ : ∃ more, fuel' = more + 1 := ⟨fuel' - 1, by omega⟩
    rw [mallocLoop] at hrun ⊢
    split
    next hbig => rwa [if_pos hbig] at hrun
    next hbig =>
      rw [if_neg hbig] at hrun
      split
      next hround =>
        rw [if_pos hround] at hrun
        cases hm : morecore fuel limit h n with
        | none =>
          rw [hm] at hrun
          cases hrun
        | some o =>
          rw [hm] at hrun
          rw [morecore_more hm (by omega)]
          cases o with
          | none => exact hrun
          | some h₁ => exact ih hrun (by omega)
      next hround =>
        rw [if_neg hround] at hrun
        exact ih hrun (by omega)

/-- The nodes from `freep` on, once round. -/
theorem FreeList.round (hf : h.FreeList xs) :
    ∃ ys, Path h.ptr (h.ptr h.freep) ys h.freep ∧ (h.freep :: ys).Perm (h.base :: xs) ∧
      h.freep ∉ ys := by
  obtain ⟨ys, hpath, hperm⟩ := hf.cycle.rotate hf.freep
  have hnd : (h.freep :: ys).Nodup := hperm.nodup_iff.mpr hf.cycle.nodup
  exact ⟨ys, hpath.2, hperm, (List.nodup_cons.mp hnd).1⟩

theorem loop_found (limit : Nat) (hf : h.FreeList xs) (hn : 0 < n) (hbig : ∃ x ∈ xs, n ≤ h.size x) :
    ∃ fuel h' a ys, mallocLoop limit n fuel h h.freep (h.ptr h.freep) = some (h', some a) ∧
      Taken h h' xs ys a n := by
  obtain ⟨ys, hpath, hperm, hfree⟩ := hf.round
  have hround : Path h.ptr (h.ptr h.freep) (ys ++ [h.freep]) (h.ptr h.freep) :=
    Path.append.mpr ⟨hpath, rfl⟩
  have hmem : ∀ x, x ∈ ys ++ [h.freep] ↔ x ∈ h.base :: xs := fun x => by
    rw [← hperm.mem_iff]
    simp [or_comm]
  obtain ⟨x, hx, hxn⟩ := hbig
  obtain ⟨q, hq⟩ : ∃ q, (ys ++ [h.freep]).find? (fun z => decide (n ≤ h.size z)) = some q := by
    cases hfind : (ys ++ [h.freep]).find? (fun z => decide (n ≤ h.size z)) with
    | some q => exact ⟨q, rfl⟩
    | none =>
      rw [List.find?_eq_none] at hfind
      exact absurd (decide_eq_true hxn) (hfind x ((hmem x).mpr (by simp [hx])))
  obtain ⟨hqn, zs, rest, hcut, hzs⟩ := List.find?_eq_some_iff_append.mp hq
  have hqn : n ≤ h.size q := of_decide_eq_true hqn
  have hsmall : ∀ z ∈ zs, ¬ n ≤ h.size z ∧ z ≠ h.freep := by
    intro z hz
    refine ⟨by simpa using hzs z hz, ?_⟩
    -- `freep` is the last node of the round
    rintro rfl
    have hys := congrArg List.dropLast hcut
    rw [List.dropLast_concat, List.dropLast_append_of_ne_nil (List.cons_ne_nil _ _)] at hys
    exact hfree (by rw [hys]; simp [hz])
  have hqmem : q ∈ h.base :: xs := (hmem q).mp (by rw [hcut]; simp)
  have hqxs : q ∈ xs := by
    rcases List.mem_cons.mp hqmem with rfl | hqxs
    · have := hf.empty
      omega
    · exact hqxs
  rw [hcut, Path.append] at hround
  obtain ⟨pq, hpq, hptr, hloop⟩ := mallocLoop_take limit hround.1 rfl hsmall hqn
    (Nat.lt_succ_self zs.length)
  have hpqmem : pq ∈ h.base :: xs := by
    rcases List.mem_cons.mp hpq with rfl | hpq
    · exact hf.freep
    · exact (hmem pq).mp (by rw [hcut]; simp [hpq])
  obtain ⟨ys, htaken⟩ := take_taken hf hpqmem hptr hqxs hn hqn
  exact ⟨_, _, _, ys, hloop, htaken⟩

theorem loop_small (limit : Nat) (hf : h.FreeList xs) (hn : 0 < n) (hno : ¬ ∃ x ∈ xs, n ≤ h.size x) :
    ∃ k, ∀ fuel, mallocLoop limit n (k + (fuel + 1)) h h.freep (h.ptr h.freep) =
      match morecore fuel limit h n with
      | none => none
      | some none => some (h, none)
      | some (some h) => mallocLoop limit n fuel h h.freep (h.ptr h.freep) := by
  obtain ⟨ys, hpath, hperm, hfree⟩ := hf.round
  have hsmall : ∀ z ∈ h.freep :: ys, ¬ n ≤ h.size z := by
    intro z hz hzn
    rcases List.mem_cons.mp (hperm.mem_iff.mp hz) with rfl | hz
    · have := hf.empty
      omega
    · exact hno ⟨z, hz, hzn⟩
  exact ⟨ys.length, mallocLoop_round hpath
    (fun z hz => ⟨hsmall z (by simp [hz]), fun heq => hfree (heq ▸ hz)⟩) (hsmall _ (by simp))⟩

/-- The whole loop. -/
theorem loop_spec (limit : Nat) (hf : h.FreeList xs) (hn : 0 < n) (hn' : 8 * n < 2 ^ 31) :
    (((∃ x ∈ xs, n ≤ h.size x) ∨ h.brk + 8 * atLeast n ≤ limit) ∧
      ∃ fuel h' a g h₁ zs ys,
        mallocLoop limit n fuel h h.freep (h.ptr h.freep) = some (h', some a) ∧
          Grown h h₁ xs zs g ∧ Taken h₁ h' zs ys a n) ∨
    (¬ ((∃ x ∈ xs, n ≤ h.size x) ∨ h.brk + 8 * atLeast n ≤ limit) ∧
      ∃ fuel, mallocLoop limit n fuel h h.freep (h.ptr h.freep) = some (h, none)) := by
  by_cases hbig : ∃ x ∈ xs, n ≤ h.size x
  · obtain ⟨fuel, h', a, ys, hloop, htaken⟩ := loop_found limit hf hn hbig
    exact .inl ⟨.inl hbig, fuel, h', a, 0, h, xs, ys, hloop, Grown.refl hf, htaken⟩
  · obtain ⟨k, hround⟩ := loop_small limit hf hn hbig
    by_cases hlimit : h.brk + 8 * atLeast n ≤ limit
    · obtain ⟨h₁, zs, hmore, hgrown, hroom⟩ :=
        morecore_grown hf hn' (Nat.lt_succ_self xs.length) hlimit
      obtain ⟨fuel, h', a, ys, hloop, htaken⟩ := loop_found limit hgrown.list hn hroom
      refine .inl ⟨.inr hlimit, k + (max fuel (xs.length + 1) + 1), h', a, atLeast n, h₁, zs, ys,
        ?_, hgrown, htaken⟩
      rw [hround, morecore_more hmore (Nat.le_max_right _ _)]
      exact mallocLoop_more hloop (Nat.le_max_left _ _)
    · refine .inr ⟨fun h => h.elim hbig hlimit, k + (0 + 1), ?_⟩
      rw [hround, morecore_refused hn' hlimit]

end Heap

namespace Arena

open Heap

/-- `malloc` was called, and `xs` are the free blocks. -/
structure Held (a : Arena) (xs : List Nat) : Prop where
  list : a.heap.FreeList xs
  apart : a.used.Pairwise fun u v => Apart u.1 u.2 v.1 v.2
  free : ∀ u ∈ a.used, ∀ x ∈ xs, Apart x (a.heap.size x) u.1 u.2
  above : ∀ u ∈ a.used, a.heap.base < u.1
  below : ∀ u ∈ a.used, u.1 + 8 * u.2 ≤ a.heap.brk
  units : ∀ u ∈ a.used, 0 < u.2 ∧ a.heap.size u.1 = u.2
  count : (xs.map a.heap.size).sum + (a.used.map Prod.snd).sum = a.grown

structure Fresh (a : Arena) : Prop where
  freep : a.heap.freep = 0
  low : a.heap.base < a.heap.brk
  used : a.used = []
  grown : a.grown = 0

def Inv (a : Arena) : Prop := 0 < a.heap.base ∧ (a.Fresh ∨ ∃ xs, a.Held xs)

variable {a a' : Arena} {h : Heap} {xs : List Nat}

@[simp] theorem init_base : h.init.base = h.base := by
  unfold Heap.init
  split <;> rfl

@[simp] theorem init_brk : h.init.brk = h.brk := by
  unfold Heap.init
  split <;> rfl

/-- The static header alone is a list. -/
theorem Fresh.held (hf : a.Fresh) : Held { a with heap := a.heap.init } [] := by
  rw [Heap.init, if_pos hf.freep]
  refine ⟨⟨⟨?_, List.nodup_singleton _⟩, hf.low, ?_, List.pairwise_singleton _ _, nofun, by simp,
    nofun⟩, ?_, ?_, ?_, ?_, ?_, ?_⟩
  · exact Function.update_self ..
  · exact Function.update_self ..
  all_goals simp [hf.used, hf.grown]

theorem Held.init (hh : a.Held xs) (hb : 0 < a.heap.base) : a.heap.init = a.heap := by
  have hne : a.heap.freep ≠ 0 := by
    rcases List.mem_cons.mp hh.list.freep with heq | hmem
    · omega
    · have := hh.list.base_lt hmem
      omega
  rw [Heap.init, if_neg hne]

theorem Inv.init (hi : a.Inv) :
    ∃ xs, Held { a with heap := a.heap.init } xs := by
  obtain ⟨hb, hf | ⟨xs, hh⟩⟩ := hi
  · exact ⟨[], hf.held⟩
  · rw [hh.init hb]
    exact ⟨xs, hh⟩

theorem Held.header (hh : a.Held xs) {u : Nat × Nat} (hu : u ∈ a.used) :
    u.1 < a.heap.brk ∧ u.1 ∉ a.heap.base :: xs := by
  have hpos := (hh.units u hu).1
  have hbelow := hh.below u hu
  exact ⟨by omega, hh.list.not_header (hh.above u hu) hpos (hh.free u hu)⟩

/-- `malloc` gives a block. -/
theorem Held.give (hh : a.Held xs) {h₁ h' : Heap} {zs ys : List Nat} {g p n : Nat}
    (hg : Grown a.heap h₁ xs zs g) (ht : Taken h₁ h' zs ys p n) (hn : 0 < n) :
    Held ⟨h', (p, n) :: a.used, a.grown + g⟩ ys := by
  have hfree : ∀ u ∈ a.used, ∀ z ∈ zs, Apart z (h₁.size z) u.1 u.2 := fun u hu =>
    hg.others u.1 u.2 (hh.units u hu).1 (hh.below u hu) (hh.free u hu)
  have hsplit : ∀ u ∈ a.used, Apart p n u.1 u.2 ∧ ∀ y ∈ ys, Apart y (h'.size y) u.1 u.2 :=
    fun u hu => ht.others u.1 u.2 (hh.units u hu).1 (hfree u hu)
  refine ⟨ht.list, List.pairwise_cons.mpr ⟨fun u hu => (hsplit u hu).1, hh.apart⟩, ?_, ?_, ?_, ?_,
    ?_⟩
  · intro u hu
    rcases List.mem_cons.mp hu with rfl | hu
    · exact ht.own
    · exact (hsplit u hu).2
  · intro u hu
    change h'.base < u.1
    rw [ht.base]
    rcases List.mem_cons.mp hu with rfl | hu
    · exact ht.above
    · rw [hg.base]
      exact hh.above u hu
  · intro u hu
    change u.1 + 8 * u.2 ≤ h'.brk
    rw [ht.brk]
    rcases List.mem_cons.mp hu with rfl | hu
    · exact ht.below
    · have := hh.below u hu
      rw [hg.brk]
      omega
  · intro u hu
    rcases List.mem_cons.mp hu with rfl | hu
    · exact ⟨hn, ht.units⟩
    · obtain ⟨hpos, hsize⟩ := hh.units u hu
      obtain ⟨hlow, hmem⟩ := hh.header hu
      refine ⟨hpos, ?_⟩
      change h'.size u.1 = u.2
      rw [ht.size u.1 ?_ ?_, hg.size u.1 hlow hmem, hsize]
      · refine hg.list.not_header ?_ hpos (hfree u hu)
        rw [hg.base]
        exact hh.above u hu
      · have hap := (hsplit u hu).1
        unfold Apart at hap
        omega
  · have := hh.count
    have := hg.sum
    have := ht.sum
    simp only [List.map_cons, List.sum_cons]
    omega

/-- `free` takes a block back. -/
theorem Held.release (hh : a.Held xs) {l r : List (Nat × Nat)} {bp n : Nat}
    (hu : a.used = l ++ (bp, n) :: r) {h' : Heap} {ys : List Nat}
    (hf : Freed a.heap h' xs ys bp) : Held ⟨h', l ++ r, a.grown⟩ ys := by
  have hbp : (bp, n) ∈ a.used := by rw [hu]; simp
  have hsub : (l ++ r).Sublist a.used := by rw [hu]; simp
  obtain ⟨hn, hsize⟩ := hh.units _ hbp
  have hapart : ∀ u ∈ l ++ r, Apart bp n u.1 u.2 := by
    have hpair := hh.apart
    rw [hu, List.pairwise_append, List.pairwise_cons] at hpair
    intro u hmem
    rcases List.mem_append.mp hmem with hmem | hmem
    · exact (hpair.2.2 u hmem (bp, n) (by simp)).symm
    · exact hpair.2.1.1 u hmem
  refine ⟨hf.list, hh.apart.sublist hsub, ?_, ?_, ?_, ?_, ?_⟩
  · intro u hmem
    refine hf.apart u.1 u.2 (hh.units u (hsub.mem hmem)).1 ?_ (hh.free u (hsub.mem hmem))
    rw [hsize]
    exact hapart u hmem
  · intro u hmem
    change h'.base < u.1
    rw [hf.base]
    exact hh.above u (hsub.mem hmem)
  · intro u hmem
    change u.1 + 8 * u.2 ≤ h'.brk
    rw [hf.brk]
    exact hh.below u (hsub.mem hmem)
  · intro u hmem
    obtain ⟨hpos, hunits⟩ := hh.units u (hsub.mem hmem)
    refine ⟨hpos, ?_⟩
    change h'.size u.1 = u.2
    rw [hf.size u.1 ?_ (hh.header (hsub.mem hmem)).2, hunits]
    have hap := hapart u hmem
    unfold Apart at hap
    omega
  · have hcount := hh.count
    have hsum := hf.sum
    rw [hsize] at hsum
    simp only [hu, List.map_append, List.map_cons, List.sum_append, List.sum_cons] at hcount ⊢
    omega

theorem Held.loose (hh : a.Held xs) {u : Nat × Nat} (hu : u ∈ a.used) :
    Loose a.heap xs u.1 := by
  obtain ⟨hpos, hsize⟩ := hh.units u hu
  refine ⟨hh.above u hu, by rwa [hsize], ?_, ?_⟩ <;> rw [hsize]
  · exact hh.below u hu
  · exact hh.free u hu

/-- What a call of `malloc` in a good state returns. -/
theorem malloc_spec (hi : a.Inv) (nbytes : Nat) (hn : 8 * nunits nbytes < 2 ^ 31)
    (limit : Nat) : ∃ xs, Held { a with heap := a.heap.init } xs ∧
      ((((∃ x ∈ xs, nunits nbytes ≤ a.heap.init.size x) ∨
            a.heap.brk + 8 * atLeast (nunits nbytes) ≤ limit) ∧
          ∃ fuel h p ys g, a.heap.malloc fuel limit nbytes = some (h, some (p + 8)) ∧
            h.base = a.heap.base ∧ h.brk = a.heap.brk + 8 * g ∧
            Held ⟨h, (p, nunits nbytes) :: a.used, a.grown + g⟩ ys) ∨
        (¬ ((∃ x ∈ xs, nunits nbytes ≤ a.heap.init.size x) ∨
            a.heap.brk + 8 * atLeast (nunits nbytes) ≤ limit) ∧
          ∃ fuel, a.heap.malloc fuel limit nbytes = some (a.heap.init, none))) := by
  obtain ⟨xs, hh⟩ := hi.init
  have hpos : 0 < nunits nbytes := Nat.succ_pos _
  refine ⟨xs, hh, ?_⟩
  have hloop := loop_spec limit hh.list hpos hn
  simp only [init_brk] at hloop
  rcases hloop with ⟨hroom, fuel, h, p, g, h₁, zs, ys, hloop, hg, ht⟩ | ⟨hroom, fuel, hloop⟩
  · refine .inl ⟨hroom, fuel, h, p, ys, g, ?_, ?_, ?_, hh.give hg ht hpos⟩
    · rw [malloc]
      simp only [hloop, Option.map_some]
    · rw [ht.base, hg.base, init_base]
    · rw [ht.brk, hg.brk, init_brk]
  · refine .inr ⟨hroom, fuel, ?_⟩
    rw [malloc]
    simp only [hloop, Option.map_some, Option.map_none]

theorem malloc_unique {fuel fuel' limit nbytes : Nat} {o o' : Heap × Option Nat}
    (h₁ : h.malloc fuel limit nbytes = some o) (h₂ : h.malloc fuel' limit nbytes = some o') :
    o = o' := by
  obtain ⟨r, hr, rfl⟩ := Option.map_eq_some_iff.mp h₁
  obtain ⟨r', hr', rfl⟩ := Option.map_eq_some_iff.mp h₂
  have hm := mallocLoop_more hr (Nat.le_max_left fuel fuel')
  rw [mallocLoop_more hr' (Nat.le_max_right fuel fuel')] at hm
  rw [Option.some.inj hm]

instance : Std.Symm fun u v : Nat × Nat => Apart u.1 u.2 v.1 v.2 := ⟨fun _ _ => Or.symm⟩

/-- The program itself takes memory: the list ends further below the break. -/
theorem Held.sbrk (hh : a.Held xs) (n : Nat) :
    Held { a with heap := { a.heap with brk := a.heap.brk + n } } xs := by
  refine ⟨?_, hh.apart, hh.free, hh.above, ?_, hh.units, hh.count⟩
  · exact hh.list.congr rfl rfl (Nat.le_add_right _ _) (fun _ _ => rfl) fun _ _ => rfl
  · exact fun u hu => Nat.le_trans (hh.below u hu) (Nat.le_add_right _ _)

/-- The program writes into its blocks: no header is inside of one. -/
theorem Held.write (hh : a.Held xs) {ptr size : Nat → Nat}
    (hw : ∀ x, (∀ u ∈ a.used, ¬ (u.1 < x ∧ x < u.1 + 8 * u.2)) →
      ptr x = a.heap.ptr x ∧ size x = a.heap.size x) :
    Held { a with heap := { a.heap with ptr := ptr, size := size } } xs := by
  have hlist : ∀ x ∈ a.heap.base :: xs, ptr x = a.heap.ptr x ∧ size x = a.heap.size x := by
    refine fun x hx => hw x fun u hu => ?_
    rcases List.mem_cons.mp hx with rfl | hx
    · have := hh.above u hu
      omega
    · have hap := hh.free u hu x hx
      have := hh.list.pos x hx
      unfold Apart at hap
      omega
  have hheader : ∀ u ∈ a.used, size u.1 = a.heap.size u.1 := by
    refine fun u hu => (hw u.1 fun v hv => ?_).2
    by_cases huv : u = v
    · rw [huv]
      omega
    · have hap := hh.apart.forall hu hv huv
      have := (hh.units u hu).1
      unfold Apart at hap
      omega
  refine ⟨?_, hh.apart, ?_, hh.above, hh.below, ?_, ?_⟩
  · exact hh.list.congr rfl rfl (Nat.le_refl _) (fun x hx => (hlist x hx).1) fun x hx =>
      (hlist x hx).2
  · intro u hu x hx
    change Apart x (size x) u.1 u.2
    rw [(hlist x (by simp [hx])).2]
    exact hh.free u hu x hx
  · intro u hu
    refine ⟨(hh.units u hu).1, ?_⟩
    change size u.1 = u.2
    rw [hheader u hu, (hh.units u hu).2]
  · rw [← hh.count]
    refine congrArg (fun l => List.sum l + _) (List.map_congr_left fun x hx => ?_)
    exact (hlist x (by simp [hx])).2

theorem step_inv (hi : a.Inv) (hs : Step a a') : a'.Inv := by
  cases hs with
  | malloc fuel limit nbytes hn hm =>
    obtain ⟨xs, -, ⟨-, fuel', h', p, ys, g, hm', hb, hbrk, hh⟩ | ⟨-, fuel', hm'⟩⟩ :=
      malloc_spec hi nbytes hn limit
    · have heq := malloc_unique hm hm'
      obtain ⟨rfl, hap⟩ := Prod.mk.inj heq
      obtain rfl := Option.some.inj hap
      refine ⟨by rw [hb]; exact hi.1, .inr ⟨ys, ?_⟩⟩
      rw [hbrk, Nat.add_sub_cancel, Nat.add_sub_cancel_left, Nat.mul_div_cancel_left g (by decide)]
      exact hh
    · cases (Prod.mk.inj (malloc_unique hm hm')).2
  | fail fuel limit nbytes hn hm =>
    obtain ⟨xs, hh, ⟨-, fuel', h', p, ys, g, hm', hb, hbrk, -⟩ | ⟨-, fuel', hm'⟩⟩ :=
      malloc_spec hi nbytes hn limit
    · cases (Prod.mk.inj (malloc_unique hm hm')).2
    · obtain rfl := (Prod.mk.inj (malloc_unique hm hm')).1
      exact ⟨by simpa using hi.1, .inr ⟨xs, hh⟩⟩
  | @free h l r bp n fuel hu hf =>
    obtain ⟨hb, hfresh | ⟨xs, hh⟩⟩ := hi
    · rw [hfresh.used] at hu
      simp at hu
    · have hbp : (bp, n) ∈ a.used := by rw [hu]; simp
      obtain ⟨h', ys, hfree, hfreed⟩ :=
        free_freed hh.list (hh.loose hbp) (Nat.lt_succ_self xs.length)
      have hm := free_more hf (Nat.le_max_left _ (xs.length + 1))
      rw [free_more hfree (Nat.le_max_right _ _)] at hm
      obtain rfl := Option.some.inj hm
      exact ⟨by simpa [hfreed.base] using hb, .inr ⟨ys, hh.release hu hfreed⟩⟩
  | sbrk n =>
    obtain ⟨hb, hfresh | ⟨xs, hh⟩⟩ := hi
    · exact ⟨hb, .inl ⟨hfresh.freep, Nat.lt_of_lt_of_le hfresh.low (Nat.le_add_right _ _),
        hfresh.used, hfresh.grown⟩⟩
    · exact ⟨hb, .inr ⟨xs, hh.sbrk n⟩⟩
  | write ptr size hw =>
    obtain ⟨hb, hfresh | ⟨xs, hh⟩⟩ := hi
    · exact ⟨hb, .inl ⟨hfresh.freep, hfresh.low, hfresh.used, hfresh.grown⟩⟩
    · exact ⟨hb, .inr ⟨xs, hh.write hw⟩⟩

theorem start_inv (base brk : Nat) (ptr size : Nat → Nat) (hb : 0 < base) (hlt : base < brk) :
    (start base brk ptr size).Inv := ⟨hb, .inl ⟨rfl, hlt, rfl, rfl⟩⟩

theorem run_inv (base brk : Nat) (ptr size : Nat → Nat) (hb : 0 < base) (hlt : base < brk)
    (hr : Relation.ReflTransGen Step (start base brk ptr size) a) : a.Inv :=
  runs_invariant (I := Inv) (fun _ _ hi hs => step_inv hi hs) (start_inv base brk ptr size hb hlt) hr

/-- The block behind `ap` after a call for `nbytes`: its header counts its units, it lies in the
memory apart from the blocks in `used`, and it has room unless the sum that rounds up overflows. -/
structure Room (h : Heap) (used : List (Nat × Nat)) (nbytes ap : Nat) : Prop where
  header : 8 ≤ ap ∧ h.size (ap - 8) = nunits nbytes
  within : ap + 8 * (h.size (ap - 8) - 1) ≤ h.brk
  apart : ∀ u ∈ used, Apart (ap - 8) (nunits nbytes) u.1 u.2
  enough : nbytes + 7 < 2 ^ 32 → nbytes ≤ 8 * (h.size (ap - 8) - 1)

/-- A block just given. -/
theorem Held.room {used : List (Nat × Nat)} {p nbytes grown : Nat} {ys : List Nat}
    (hh : Held ⟨h, (p, nunits nbytes) :: used, grown⟩ ys) : Room h used nbytes (p + 8) := by
  obtain ⟨hpos, hsize⟩ := hh.units (p, nunits nbytes) (by simp)
  have hbelow : p + 8 * nunits nbytes ≤ h.brk := hh.below (p, nunits nbytes) (by simp)
  have hsize : h.size (p + 8 - 8) = nunits nbytes := hsize
  refine ⟨⟨Nat.le_add_left 8 p, hsize⟩, ?_, (List.pairwise_cons.mp hh.apart).1, fun hlt => ?_⟩
  · rw [hsize]
    omega
  · rw [hsize]
    unfold nunits
    omega

end Arena

end Xv6
end SsuComputer
