import SsuComputer.Xv6.Fs

/-!
# SsuComputer.Xv6.FsBlocks

Who owns which block.

A `Slot` is a place that can hold a block number: one of the 13 in an inode or one of the 128 in its
indirect block. `Good`: no two slots hold the same block, each block held lies behind the bitmap,
and the bitmap marks exactly these and the blocks in front. `balloc` finds a block that nobody
holds (`balloc_spec`), so filling an empty slot keeps `Good` (`Good.fill`).
-/

namespace SsuComputer
namespace Xv6

/-- The blocks in front of the data: boot block, super block, log, inodes and bitmap. -/
def nmeta (sb : Superblock) : Nat := sb.bmapstart + (sb.size / BPB + 1)

structure Layout (sb : Superblock) : Prop where
  inodes : sb.inodestart + (sb.ninodes / IPB + 1) ≤ sb.bmapstart
  size : sb.size < 2 ^ 32

inductive Slot
  | addr (i k : Nat)
  | entry (i j : Nat)
deriving DecidableEq

namespace Slot

def Valid (sb : Superblock) : Slot → Prop
  | addr i k => i < sb.ninodes ∧ k < 13
  | entry i j => i < sb.ninodes ∧ j < NINDIRECT

def inode : Slot → Nat
  | addr i _ => i
  | entry i _ => i

end Slot

def ref (d : Dev) (ino : Nat → Inode) : Slot → Nat
  | .addr i k => (ino i).addrs k
  | .entry i j =>
    if (ino i).addrs NDIRECT = 0 then 0 else getLE 4 (d.block ((ino i).addrs NDIRECT)) (4 * j)

structure Good (sb : Superblock) (d : Dev) (ino : Nat → Inode) : Prop where
  inj : ∀ s t, s.Valid sb → t.Valid sb → ref d ino s = ref d ino t → ref d ino s ≠ 0 → s = t
  data : ∀ s, s.Valid sb → ref d ino s ≠ 0 → nmeta sb ≤ ref d ino s ∧ ref d ino s < sb.size
  marked : ∀ b, b < sb.size →
    (bitOf sb d b = true ↔ b < nmeta sb ∨ ∃ s, s.Valid sb ∧ ref d ino s = b)

variable {sb : Superblock} {d d' : Dev} {ino ino' : Nat → Inode} {b i k j : Nat}

theorem nmeta_pos (sb : Superblock) : 0 < nmeta sb := Nat.succ_pos _

theorem BBLOCK_lt (h : b < sb.size) : BBLOCK sb b < nmeta sb := by
  have := Nat.div_le_div_right (c := BPB) (Nat.le_of_lt h)
  unfold BBLOCK nmeta
  omega

theorem IBLOCK_lt (hl : Layout sb) (h : i < sb.ninodes) : IBLOCK sb i < sb.bmapstart := by
  have := Nat.div_le_div_right (c := IPB) (Nat.le_of_lt h)
  have := hl.inodes
  unfold IBLOCK
  omega

theorem IBLOCK_ne_BBLOCK (hl : Layout sb) (h : i < sb.ninodes) (b : Nat) :
    IBLOCK sb i ≠ BBLOCK sb b :=
  Nat.ne_of_lt (Nat.lt_of_lt_of_le (IBLOCK_lt hl h) (Nat.le_add_left _ _))

theorem IBLOCK_lt_nmeta (hl : Layout sb) (h : i < sb.ninodes) : IBLOCK sb i < nmeta sb :=
  Nat.lt_of_lt_of_le (IBLOCK_lt hl h) (Nat.le_add_right _ _)

/-! ## The bitmap -/

theorem Dev.log_write_self (b : Nat) (data : Nat → Nat) : (d.log_write b data).block b = data :=
  Function.update_self ..

theorem Dev.log_write_of_ne {x : Nat} (h : x ≠ b) (data : Nat → Nat) :
    (d.log_write b data).block x = d.block x :=
  Function.update_of_ne h _ _

theorem bitOf_congr {x : Nat} (h : d'.block (BBLOCK sb x) = d.block (BBLOCK sb x)) :
    bitOf sb d' x = bitOf sb d x := by
  rw [bitOf, bitOf, h]

theorem firstFree_spec (h : firstFree sb d = some b) : b < sb.size ∧ bitOf sb d b = false := by
  obtain ⟨k, -, hk⟩ := List.exists_of_findSome?_eq_some h
  obtain ⟨bi, hbi, hb⟩ := List.exists_of_findSome?_eq_some hk
  have hlt := List.mem_range.mp hbi
  split at hb
  next hcond =>
    obtain rfl := Option.some.inj hb
    have hdiv : (k * BPB + bi) / BPB = k := by
      rw [Nat.mul_comm, Nat.mul_add_div (by decide), Nat.div_eq_of_lt hlt, Nat.add_zero]
    have hmod : (k * BPB + bi) % BPB = bi := by
      rw [Nat.mul_comm, Nat.mul_add_mod, Nat.mod_eq_of_lt hlt]
    refine ⟨hcond.1, ?_⟩
    have hbit := hcond.2
    rw [BBLOCK, Nat.mul_div_cancel k (by decide)] at hbit
    rw [bitOf, BBLOCK, hdiv, hmod, hbit]
  next => cases hb

/-- `balloc` gives up only when every block is marked. -/
theorem firstFree_none (h : firstFree sb d = none) : ∀ b, b < sb.size → bitOf sb d b = true := by
  intro b hb
  have hk : b / BPB < (sb.size + (BPB - 1)) / BPB := by
    simp only [BPB]
    omega
  have hrow := List.findSome?_eq_none_iff.mp h (b / BPB) (List.mem_range.mpr hk)
  have hbit := List.findSome?_eq_none_iff.mp hrow (b % BPB)
    (List.mem_range.mpr (Nat.mod_lt _ (by decide)))
  rw [Nat.mul_comm, Nat.div_add_mod] at hbit
  split at hbit
  next => cases hbit
  next hcond =>
    rw [BBLOCK, Nat.mul_div_cancel_left _ (by decide)] at hcond
    rw [bitOf, BBLOCK]
    exact eq_true_of_ne_false fun hno => hcond ⟨hb, hno⟩

theorem balloc_free (h : balloc sb d = some (b, d')) : b < sb.size ∧ bitOf sb d b = false := by
  obtain ⟨c, hc, heq⟩ := Option.map_eq_some_iff.mp h
  obtain ⟨rfl, -⟩ := Prod.mk.inj heq
  exact firstFree_spec hc

theorem balloc_logged (h : balloc sb d = some (b, d')) :
    d'.logged = insert b (insert (BBLOCK sb b) d.logged) := by
  obtain ⟨c, -, heq⟩ := Option.map_eq_some_iff.mp h
  obtain ⟨rfl, rfl⟩ := Prod.mk.inj heq
  rfl

/-- What `balloc` leaves: one bit more, the block zero, and nothing else changed. -/
theorem balloc_spec (h : balloc sb d = some (b, d')) (hb : nmeta sb ≤ b) :
    d'.block b = (fun _ => 0) ∧
      (∀ x, x ≠ b → (∀ c, c < sb.size → x ≠ BBLOCK sb c) → d'.block x = d.block x) ∧
      ∀ x, x < sb.size → bitOf sb d' x = (decide (b = x) || bitOf sb d x) := by
  obtain ⟨c, hc, heq⟩ := Option.map_eq_some_iff.mp h
  obtain ⟨rfl, rfl⟩ := Prod.mk.inj heq
  obtain ⟨hlt, hbit⟩ := firstFree_spec hc
  refine ⟨Dev.log_write_self .., fun x hx hno => ?_, fun x hx => ?_⟩
  · rw [bzero, Dev.log_write_of_ne hx, Dev.log_write_of_ne (hno c hlt)]
  · have hxc : BBLOCK sb x ≠ c := by
      have := BBLOCK_lt hx
      omega
    rw [bitOf, bzero, Dev.log_write_of_ne hxc]
    by_cases hbl : BBLOCK sb x = BBLOCK sb c
    · rw [hbl, Dev.log_write_self, bitAt_setBit, bitOf, hbl]
      congr 1
      unfold BBLOCK at hbl
      have hdiv : x / BPB = c / BPB := Nat.add_right_cancel hbl
      refine decide_eq_decide.mpr ⟨fun hmod => ?_, fun hxc => by rw [hxc]⟩
      rw [← Nat.div_add_mod c BPB, ← Nat.div_add_mod x BPB, hdiv, hmod]
    · rw [Dev.log_write_of_ne hbl, bitOf, decide_eq_false (by rintro rfl; exact hbl rfl),
        Bool.false_or]

theorem bfree_spec (h : bfree sb d b = some d') :
    bitOf sb d b = true ∧ (∀ x, x ≠ BBLOCK sb b → d'.block x = d.block x) ∧
      ∀ x, x < sb.size → bitOf sb d' x = (decide (b ≠ x) && bitOf sb d x) := by
  unfold bfree at h
  simp only at h
  split at h
  next hbit =>
    obtain rfl := Option.some.inj h
    refine ⟨hbit, fun x hx => Dev.log_write_of_ne hx _, fun x hx => ?_⟩
    by_cases hbl : BBLOCK sb x = BBLOCK sb b
    · rw [bitOf, hbl, Dev.log_write_self, bitAt_clearBit, bitOf, hbl]
      congr 1
      have hdiv : x / BPB = b / BPB := Nat.add_right_cancel hbl
      refine decide_eq_decide.mpr (not_congr ⟨fun hmod => ?_, fun hxc => by rw [hxc]⟩)
      rw [← Nat.div_add_mod b BPB, ← Nat.div_add_mod x BPB, hdiv, hmod]
    · rw [bitOf, Dev.log_write_of_ne hbl, bitOf, decide_eq_true (by rintro rfl; exact hbl rfl),
        Bool.true_and]
  next => cases h

/-! ## Owners -/

theorem Good.fresh (hg : Good sb d ino) (hb : b < sb.size) (hbit : bitOf sb d b = false) :
    nmeta sb ≤ b ∧ ∀ s, s.Valid sb → ref d ino s ≠ b := by
  have hno : ¬ (b < nmeta sb ∨ ∃ s, s.Valid sb ∧ ref d ino s = b) := fun h => by
    rw [(hg.marked b hb).mpr h] at hbit
    cases hbit
  exact ⟨Nat.le_of_not_lt fun h => hno (.inl h), fun s hs h => hno (.inr ⟨s, hs, h⟩)⟩

/-- An empty slot takes a free block. -/
theorem Good.fill (hg : Good sb d ino) {s : Slot} (hs : s.Valid sb) (hempty : ref d ino s = 0)
    (hb : b < sb.size) (hbit : bitOf sb d b = false) (hslot : ref d' ino' s = b)
    (hother : ∀ t, t.Valid sb → t ≠ s → ref d' ino' t = ref d ino t)
    (hbits : ∀ x, x < sb.size → bitOf sb d' x = (decide (b = x) || bitOf sb d x)) :
    Good sb d' ino' := by
  obtain ⟨hlow, hfresh⟩ := hg.fresh hb hbit
  refine ⟨fun t u ht hu heq hne => ?_, fun t ht hne => ?_, fun x hx => ?_⟩
  · by_cases hts : t = s
    · by_cases hus : u = s
      · rw [hts, hus]
      · rw [hts, hslot, hother u hu hus] at heq
        exact absurd heq.symm (hfresh u hu)
    · by_cases hus : u = s
      · rw [hus, hslot, hother t ht hts] at heq
        exact absurd heq (hfresh t ht)
      · rw [hother t ht hts, hother u hu hus] at heq
        rw [hother t ht hts] at hne
        exact hg.inj t u ht hu heq hne
  · by_cases hts : t = s
    · rw [hts, hslot]
      exact ⟨hlow, hb⟩
    · rw [hother t ht hts] at hne ⊢
      exact hg.data t ht hne
  · rw [hbits x hx, Bool.or_eq_true, decide_eq_true_eq, hg.marked x hx]
    constructor
    · rintro (rfl | hx | ⟨t, ht, rfl⟩)
      · exact .inr ⟨s, hs, hslot⟩
      · exact .inl hx
      · by_cases hts : t = s
        · rw [hts, hempty]
          exact .inl (nmeta_pos sb)
        · exact .inr ⟨t, ht, hother t ht hts⟩
    · rintro (hx | ⟨t, ht, rfl⟩)
      · exact .inr (.inl hx)
      · by_cases hts : t = s
        · rw [hts, hslot]
          exact .inl rfl
        · exact .inr (.inr ⟨t, ht, (hother t ht hts).symm⟩)

/-- What filling the slot `s` leaves. -/
structure Filled (sb : Superblock) (d d' : Dev) (ino ino' : Nat → Inode) (s : Slot) (b : Nat) :
    Prop where
  good : Good sb d' ino'
  slot : ref d' ino' s = b
  pos : b ≠ 0
  other : ∀ t, t.Valid sb → t ≠ s → ref d' ino' t = ref d ino t
  keep : ref d ino s ≠ 0 → d' = d ∧ ino' = ino
  data : ∀ t, t.Valid sb → (∀ i, t ≠ .addr i NDIRECT) → ref d ino t ≠ 0 →
    d'.block (ref d ino t) = d.block (ref d ino t)
  low : ∀ x, x < sb.bmapstart → d'.block x = d.block x
  logged : ∀ x ∈ d'.logged, x ∈ d.logged ∨ (∃ c, c < sb.size ∧ x = BBLOCK sb c) ∨ x = b ∨
    (x ≠ 0 ∧ x = ref d' ino' (.addr s.inode NDIRECT))

theorem Good.not_bitmap (hg : Good sb d ino) {s : Slot} (hs : s.Valid sb) (hne : ref d ino s ≠ 0)
    {c : Nat} (hc : c < sb.size) : ref d ino s ≠ BBLOCK sb c := by
  have := (hg.data s hs hne).1
  have := BBLOCK_lt hc
  omega

theorem low_not_bitmap {x : Nat} (hx : x < sb.bmapstart) (c : Nat) : x ≠ BBLOCK sb c :=
  Nat.ne_of_lt (Nat.lt_of_lt_of_le hx (Nat.le_add_left _ _))

theorem ref_entry_congr (haddr : (ino' i).addrs NDIRECT = (ino i).addrs NDIRECT)
    (hblock : (ino i).addrs NDIRECT ≠ 0 →
      d'.block ((ino i).addrs NDIRECT) = d.block ((ino i).addrs NDIRECT)) (j : Nat) :
    ref d' ino' (.entry i j) = ref d ino (.entry i j) := by
  simp only [ref, haddr]
  split
  · rfl
  next hne => rw [hblock hne]

theorem Filled.refl (hg : Good sb d ino) {s : Slot} (hne : ref d ino s ≠ 0) :
    Filled sb d d ino ino s (ref d ino s) :=
  ⟨hg, rfl, hne, fun _ _ _ => rfl, fun _ => ⟨rfl, rfl⟩, fun _ _ _ _ => rfl, fun _ _ => rfl,
    fun _ hx => .inl hx⟩

/-- `balloc` with the store of the block number, which may change an indirect block. -/
theorem balloc_filled (hg : Good sb d ino) {s : Slot} (hs : s.Valid sb)
    (hempty : ref d ino s = 0) {e : Dev} (h : balloc sb d = some (b, e))
    (hslot : ref d' ino' s = b) (hother : ∀ t, t.Valid sb → t ≠ s → ref d' ino' t = ref d ino t)
    (hblock : ∀ x, d'.block x = e.block x ∨
      ∃ i, i < sb.ninodes ∧ x = ref d ino (.addr i NDIRECT) ∧ x ≠ 0)
    (hlogged : ∀ x ∈ d'.logged, x ∈ e.logged ∨
      (x ≠ 0 ∧ x = ref d' ino' (.addr s.inode NDIRECT))) :
    Filled sb d d' ino ino' s b := by
  obtain ⟨hlt, hbit⟩ := balloc_free h
  obtain ⟨hlow, hfresh⟩ := hg.fresh hlt hbit
  obtain ⟨-, hsame, hbits⟩ := balloc_spec h hlow
  have hind : ∀ {i}, i < sb.ninodes → (Slot.addr i NDIRECT).Valid sb := fun hi => ⟨hi, by decide⟩
  refine ⟨hg.fill hs hempty hlt hbit hslot hother fun x hx => ?_, hslot, ?_, hother,
    fun hne => absurd hempty hne, fun t ht hdata hne => ?_, fun x hx => ?_, fun x hx => ?_⟩
  · rw [← hbits x hx]
    rcases hblock (BBLOCK sb x) with heq | ⟨i, hi, heq, hne⟩
    · exact bitOf_congr heq
    · rw [heq] at hne
      exact absurd heq.symm (hg.not_bitmap (hind hi) hne hx)
  · have := nmeta_pos sb
    omega
  · rcases hblock (ref d ino t) with heq | ⟨i, hi, heq, -⟩
    · rw [heq]
      exact hsame _ (hfresh t ht) fun c hc => hg.not_bitmap ht hne hc
    · exact absurd (hg.inj t _ ht (hind hi) heq hne) (hdata i)
  · have hmeta : x < nmeta sb := Nat.lt_of_lt_of_le hx (Nat.le_add_right _ _)
    rcases hblock x with heq | ⟨i, hi, heq, hne⟩
    · rw [heq]
      exact hsame x (by omega) fun c _ => low_not_bitmap hx c
    · rw [heq] at hne
      have := (hg.data _ (hind hi) hne).1
      omega
  · rcases hlogged x hx with hx | hx
    · rw [balloc_logged h, Finset.mem_insert, Finset.mem_insert] at hx
      rcases hx with rfl | rfl | hx
      · exact .inr (.inr (.inl rfl))
      · exact .inr (.inl ⟨b, hlt, rfl⟩)
      · exact .inl hx
    · exact .inr (.inr (.inr hx))

theorem fillAddr_filled (hg : Good sb d ino) (hi : i < sb.ninodes) (hk : k < 13) {ip' : Inode}
    (h : fillAddr sb d (ino i) k = some (b, d', ip')) :
    Filled sb d d' ino (Function.update ino i ip') (.addr i k) b ∧
      ip' = { ino i with addrs := Function.update (ino i).addrs k b } := by
  have hs : (Slot.addr i k).Valid sb := ⟨hi, hk⟩
  unfold fillAddr at h
  split at h
  next hempty =>
    obtain ⟨⟨c, dc⟩, halloc, heq⟩ := Option.map_eq_some_iff.mp h
    simp only [Prod.mk.injEq] at heq
    obtain ⟨rfl, rfl, rfl⟩ := heq
    obtain ⟨hlt, hbit⟩ := balloc_free halloc
    obtain ⟨hlow, hfresh⟩ := hg.fresh hlt hbit
    obtain ⟨hzero, hsame, -⟩ := balloc_spec halloc hlow
    refine ⟨balloc_filled hg hs hempty halloc ?_ ?_ (fun _ => .inl rfl) fun _ => .inl, rfl⟩
    · simp [ref]
    · intro t ht hts
      cases t with
      | addr n m =>
        by_cases hn : n = i
        · subst hn
          have hm : m ≠ k := by rintro rfl; exact hts rfl
          simp [ref, hm]
        · simp [ref, hn]
      | entry n j =>
        have hvalid : (Slot.addr n NDIRECT).Valid sb := ⟨ht.1, by decide⟩
        have hindirect : (ino n).addrs NDIRECT ≠ 0 →
            dc.block ((ino n).addrs NDIRECT) = d.block ((ino n).addrs NDIRECT) := fun hne =>
          hsame _ (hfresh _ hvalid) fun c hc => hg.not_bitmap hvalid hne hc
        by_cases hn : n = i ∧ k = NDIRECT
        · -- the fresh indirect block holds no numbers
          obtain ⟨rfl, rfl⟩ := hn
          have hc : c ≠ 0 := by
            have := nmeta_pos sb
            omega
          simp [ref, hempty, hc, hzero, getLE_zero]
        · refine ref_entry_congr ?_ hindirect j
          by_cases hni : n = i
          · subst hni
            have hk : NDIRECT ≠ k := fun hk => hn ⟨rfl, hk.symm⟩
            simp [hk]
          · simp [hni]
  next hfull =>
    obtain ⟨rfl, heq⟩ := Prod.mk.inj (Option.some.inj h)
    obtain ⟨rfl, rfl⟩ := Prod.mk.inj heq
    rw [Function.update_eq_self, Function.update_eq_self]
    exact ⟨Filled.refl (s := .addr i k) hg hfull, rfl⟩

theorem fillEntry_filled (hl : Layout sb) (hg : Good sb d ino) (hi : i < sb.ninodes)
    (hj : j < NINDIRECT) (hne : (ino i).addrs NDIRECT ≠ 0)
    (h : fillEntry sb d ((ino i).addrs NDIRECT) j = some (b, d')) :
    Filled sb d d' ino ino (.entry i j) b := by
  have hs : (Slot.entry i j).Valid sb := ⟨hi, hj⟩
  have hind : (Slot.addr i NDIRECT).Valid sb := ⟨hi, by decide⟩
  have hrefs : ref d ino (.entry i j) = getLE 4 (d.block ((ino i).addrs NDIRECT)) (4 * j) := by
    simp [ref, hne]
  unfold fillEntry at h
  simp only at h
  split at h
  next hempty =>
    obtain ⟨⟨c, dc⟩, halloc, heq⟩ := Option.map_eq_some_iff.mp h
    simp only [Prod.mk.injEq] at heq
    obtain ⟨rfl, rfl⟩ := heq
    obtain ⟨hlt, hbit⟩ := balloc_free halloc
    obtain ⟨hlow, hfresh⟩ := hg.fresh hlt hbit
    obtain ⟨-, hsame, -⟩ := balloc_spec halloc hlow
    refine balloc_filled hg hs (by rw [hrefs, hempty]) halloc ?_ ?_ (fun x => ?_) fun x hx => ?_
    · have hc : c < 256 ^ 4 := Nat.lt_trans hlt hl.size
      simp only [ref, if_neg hne, Dev.log_write_self, getLE_blit hc]
    · intro t ht hts
      cases t with
      | addr n m => rfl
      | entry n m =>
        have hvalid : (Slot.addr n NDIRECT).Valid sb := ⟨ht.1, by decide⟩
        have hindirect : (ino n).addrs NDIRECT ≠ 0 →
            dc.block ((ino n).addrs NDIRECT) = d.block ((ino n).addrs NDIRECT) := fun hne =>
          hsame _ (hfresh _ hvalid) fun c hc => hg.not_bitmap hvalid hne hc
        by_cases hni : n = i
        · subst hni
          have hm : m ≠ j := by rintro rfl; exact hts rfl
          simp only [ref, if_neg hne, Dev.log_write_self]
          rw [getLE_blit_of_disjoint (by rw [length_bytesLE]; omega), hindirect hne]
        · refine ref_entry_congr rfl (fun hn => ?_) m
          rw [Dev.log_write_of_ne, hindirect hn]
          intro heq
          exact hni (Slot.addr.inj (hg.inj _ _ hvalid hind heq hn)).1
    · by_cases hx : x = (ino i).addrs NDIRECT
      · exact .inr ⟨i, hi, hx, hx ▸ hne⟩
      · exact .inl (Dev.log_write_of_ne hx _)
    · rcases Finset.mem_insert.mp hx with rfl | hx
      · exact .inr ⟨hne, rfl⟩
      · exact .inl hx
  next hfull =>
    obtain ⟨rfl, rfl⟩ := Prod.mk.inj (Option.some.inj h)
    rw [← hrefs] at hfull ⊢
    exact Filled.refl hg hfull

theorem Filled.grow {s : Slot} (hf : Filled sb d d' ino ino' s b) {t : Slot} (ht : t.Valid sb)
    (hne : ref d ino t ≠ 0) : ref d' ino' t = ref d ino t := by
  by_cases hts : t = s
  · subst hts
    obtain ⟨rfl, rfl⟩ := hf.keep hne
    rfl
  · exact hf.other t ht hts

/-! ## `bmap` -/

/-- The slot of the block `bn` of a file. -/
def blockOf (i bn : Nat) : Slot :=
  if bn < NDIRECT then .addr i bn else .entry i (bn - NDIRECT)

theorem blockOf_valid {bn : Nat} (hi : i < sb.ninodes) (hbn : bn < MAXFILE) :
    (blockOf i bn).Valid sb := by
  unfold MAXFILE at hbn
  unfold blockOf
  split
  next h => exact ⟨hi, Nat.lt_of_lt_of_le h (by decide)⟩
  next h => exact ⟨hi, by omega⟩

theorem blockOf_ne {bn n : Nat} : blockOf i bn ≠ .addr n NDIRECT := by
  unfold blockOf
  split
  next h =>
    intro heq
    exact Nat.ne_of_lt h (Slot.addr.inj heq).2
  next => exact nofun

theorem blockOf_inj {n bn bm : Nat} (h : blockOf i bn = blockOf n bm) : i = n ∧ bn = bm := by
  unfold blockOf at h
  split at h <;> split at h
  · exact Slot.addr.inj h
  · cases h
  · cases h
  · obtain ⟨rfl, h⟩ := Slot.entry.inj h
    exact ⟨rfl, by omega⟩

theorem blockOf_inode {bn : Nat} : (blockOf i bn).inode = i := by
  unfold blockOf
  split <;> rfl

/-- What `bmap` leaves, for the block `bn` of the inode `i`. -/
structure Mapped (sb : Superblock) (d d' : Dev) (ino ino' : Nat → Inode) (i bn b : Nat) :
    Prop where
  good : Good sb d' ino'
  slot : ref d' ino' (blockOf i bn) = b
  pos : b ≠ 0
  others : ∀ n, n ≠ i → ino' n = ino n
  self : ino' i = { ino i with addrs := (ino' i).addrs }
  last : ∀ k, 13 ≤ k → (ino' i).addrs k = (ino i).addrs k
  grow : ∀ t, t.Valid sb → ref d ino t ≠ 0 → ref d' ino' t = ref d ino t
  keep : ref d ino (blockOf i bn) ≠ 0 → d' = d ∧ ino' = ino
  data : ∀ t, t.Valid sb → (∀ i, t ≠ .addr i NDIRECT) → ref d ino t ≠ 0 →
    d'.block (ref d ino t) = d.block (ref d ino t)
  low : ∀ x, x < sb.bmapstart → d'.block x = d.block x
  logged : ∀ x ∈ d'.logged, x ∈ d.logged ∨ (∃ c, c < sb.size ∧ x = BBLOCK sb c) ∨ x = b ∨
    (x ≠ 0 ∧ x = ref d' ino' (.addr i NDIRECT))

theorem bmap_mapped (hl : Layout sb) (hg : Good sb d ino) (hi : i < sb.ninodes) {bn : Nat}
    {ip' : Inode} (h : bmap sb d (ino i) bn = some (b, d', ip')) :
    bn < MAXFILE ∧ Mapped sb d d' ino (Function.update ino i ip') i bn b := by
  unfold bmap at h
  split at h
  next hbn =>
    obtain ⟨hf, hip⟩ := fillAddr_filled hg hi (Nat.lt_trans hbn (by decide)) h
    have hslot : blockOf i bn = .addr i bn := if_pos hbn
    refine ⟨Nat.lt_of_lt_of_le hbn (Nat.le_add_right _ _), hf.good, ?_, hf.pos,
      fun n hn => Function.update_of_ne hn _ _, ?_, fun k hk => ?_, fun t ht hne => hf.grow ht hne,
      ?_, hf.data, hf.low, ?_⟩
    · rw [hslot, hf.slot]
    · simp [hip]
    · have hk : k ≠ bn := Nat.ne_of_gt (Nat.lt_of_lt_of_le hbn (by unfold NDIRECT; omega))
      simp [hip, hk]
    · rw [hslot]
      exact hf.keep
    · exact hf.logged
  next hbn =>
    split at h
    next hbj =>
      obtain ⟨⟨a, d₁, ip₁⟩, h₁, h⟩ := Option.bind_eq_some_iff.mp h
      obtain ⟨⟨c, d₂⟩, h₂, heq⟩ := Option.map_eq_some_iff.mp h
      simp only [Prod.mk.injEq] at heq h₂
      obtain ⟨rfl, rfl, rfl⟩ := heq
      obtain ⟨hf₁, hip⟩ := fillAddr_filled hg hi (by decide) h₁
      have hslot : blockOf i bn = .entry i (bn - NDIRECT) := if_neg hbn
      have ha : (Function.update ino i ip₁ i).addrs NDIRECT = a := hf₁.slot
      rw [← ha] at h₂
      have hf₂ := fillEntry_filled hl hf₁.good hi hbj (by rw [ha]; exact hf₁.pos) h₂
      have hind : (Slot.addr i NDIRECT).Valid sb := ⟨hi, by decide⟩
      refine ⟨by unfold MAXFILE; omega, hf₂.good, ?_, hf₂.pos,
        fun n hn => Function.update_of_ne hn _ _, ?_, fun k hk => ?_, fun t ht hne => ?_,
        fun hne => ?_, fun t ht hdata hne => ?_, fun x hx => ?_, fun x hx => ?_⟩
      · rw [hslot, hf₂.slot]
      · simp [hip]
      · have hk : k ≠ NDIRECT := by unfold NDIRECT; omega
        simp [hip, hk]
      · rw [← hf₁.grow ht hne]
        exact hf₂.grow ht (by rw [hf₁.grow ht hne]; exact hne)
      · rw [hslot] at hne
        have hi12 : ref d ino (.addr i NDIRECT) ≠ 0 := fun h0 => by
          change (ino i).addrs NDIRECT = 0 at h0
          simp [ref, h0] at hne
        obtain ⟨rfl, hino⟩ := hf₁.keep hi12
        rw [hino] at hf₂ ⊢
        exact hf₂.keep hne
      · have hgrow := hf₁.grow ht hne
        have hdata₂ := hf₂.data t ht hdata (by rw [hgrow]; exact hne)
        rw [hgrow] at hdata₂
        rw [hdata₂, hf₁.data t ht hdata hne]
      · rw [hf₂.low x hx, hf₁.low x hx]
      · rcases hf₂.logged x hx with hx | hx | hx | hx
        · rcases hf₁.logged x hx with hx | hx | hx | hx
          · exact .inl hx
          · exact .inr (.inl hx)
          · exact .inr (.inr (.inr ⟨hx ▸ hf₁.pos, hx.trans ha.symm⟩))
          · exact .inr (.inr (.inr hx))
        · exact .inr (.inl hx)
        · exact .inr (.inr (.inl hx))
        · exact .inr (.inr (.inr hx))
    next => cases h

end Xv6
end SsuComputer
