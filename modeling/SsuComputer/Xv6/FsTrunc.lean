import SsuComputer.Xv6.FsRuns
import Mathlib.Data.List.Nodup

/-!
# SsuComputer.Xv6.FsTrunc

`itrunc` never panics, gives all blocks of the file back, and leaves the other files.
-/

namespace SsuComputer
namespace Xv6

variable {sb : Superblock} {d d' d₁ : Dev} {ino ino' ino₁ : Nat → Inode} {i n b : Nat}

theorem freeAll_append (bs cs : List Nat) :
    freeAll sb d (bs ++ cs) = (freeAll sb d bs).bind fun d => freeAll sb d cs := by
  induction bs generalizing d with
  | nil => rfl
  | cons b bs ih =>
    rw [List.cons_append, freeAll, freeAll]
    split
    · exact ih
    · cases h : bfree sb d b with
      | none => rfl
      | some d' => exact ih

theorem freeAll_zero {bs : List Nat} (h : ∀ b ∈ bs, b = 0) : freeAll sb d bs = some d := by
  induction bs with
  | nil => rfl
  | cons b bs ih =>
    rw [freeAll, if_pos (h b (by simp))]
    exact ih fun c hc => h c (by simp [hc])

theorem bfree_some (h : bitOf sb d b = true) : ∃ d', bfree sb d b = some d' :=
  ⟨_, if_pos h⟩

/-- Freeing marked blocks, none of them twice. -/
theorem freeAll_spec (sb : Superblock) (d : Dev) {bs : List Nat} (hnd : (bs.filter (· ≠ 0)).Nodup)
    (hbs : ∀ b ∈ bs, b ≠ 0 → b < sb.size ∧ bitOf sb d b = true) :
    ∃ d', freeAll sb d bs = some d' ∧
      (∀ x, (∀ c, c < sb.size → x ≠ BBLOCK sb c) → d'.block x = d.block x) ∧
      ∀ x, x < sb.size → (bitOf sb d' x = true ↔ bitOf sb d x = true ∧ (x = 0 ∨ x ∉ bs)) := by
  induction bs generalizing d with
  | nil => exact ⟨d, rfl, fun _ _ => rfl, fun _ _ => by simp⟩
  | cons b bs ih =>
    rw [freeAll]
    by_cases hb : b = 0
    · rw [if_pos hb]
      rw [List.filter_cons_of_neg (by simp [hb])] at hnd
      obtain ⟨d', hd', hblock, hbits⟩ := ih d hnd fun c hc => hbs c (by simp [hc])
      refine ⟨d', hd', hblock, fun x hx => ?_⟩
      rw [hbits x hx]
      by_cases hx0 : x = 0
      · simp [hx0]
      · simp [hx0, hb]
    · rw [if_neg hb]
      rw [List.filter_cons_of_pos (by simp [hb]), List.nodup_cons] at hnd
      obtain ⟨hlt, hbit⟩ := hbs b (by simp) hb
      obtain ⟨d₁, hd₁⟩ := bfree_some hbit
      obtain ⟨-, hblock₁, hbits₁⟩ := bfree_spec hd₁
      have hnot : b ∉ bs := fun hmem => hnd.1 (List.mem_filter.mpr ⟨hmem, by simp [hb]⟩)
      obtain ⟨d', hd', hblock, hbits⟩ := ih d₁ hnd.2 fun c hc hne => by
        obtain ⟨hc', hcbit⟩ := hbs c (by simp [hc]) hne
        refine ⟨hc', ?_⟩
        have hbc : b ≠ c := fun heq => hnot (heq ▸ hc)
        rw [hbits₁ c hc', hcbit]
        simp [hbc]
      refine ⟨d', by rw [hd₁, Option.bind_some, hd'], fun x hx => ?_, fun x hx => ?_⟩
      · rw [hblock x hx, hblock₁ x (hx b hlt)]
      · rw [hbits x hx, hbits₁ x hx, Bool.and_eq_true, decide_eq_true_eq, List.mem_cons]
        by_cases hxb : x = b
        · simp [hxb, hb]
        · simp [hxb, Ne.symm hxb]

/-! ## The slots of an inode -/

def slotsOf (i : Nat) : List Slot :=
  (List.range NDIRECT).map (.addr i) ++
    ((List.range NINDIRECT).map (.entry i) ++ [.addr i NDIRECT])

theorem mem_slotsOf (hi : i < sb.ninodes) {t : Slot} :
    t ∈ slotsOf i ↔ t.inode = i ∧ t.Valid sb := by
  cases t with
  | addr n k =>
    simp only [slotsOf, List.mem_append, List.mem_map, List.mem_range, Slot.addr.injEq,
      List.mem_singleton, reduceCtorEq, and_false, exists_false, false_or, Slot.inode, Slot.Valid,
      NDIRECT]
    constructor
    · rintro (⟨m, hm, rfl, rfl⟩ | ⟨rfl, rfl⟩)
      · exact ⟨rfl, hi, by omega⟩
      · exact ⟨rfl, hi, by omega⟩
    · rintro ⟨rfl, -, hk⟩
      by_cases hlt : k < 12
      · exact .inl ⟨k, hlt, rfl, rfl⟩
      · exact .inr ⟨rfl, by omega⟩
  | entry n j =>
    simp only [slotsOf, List.mem_append, List.mem_map, List.mem_range, Slot.entry.injEq,
      List.mem_singleton, reduceCtorEq, and_false, exists_false, or_false, false_or, Slot.inode,
      Slot.Valid]
    constructor
    · rintro ⟨m, hm, rfl, rfl⟩
      exact ⟨rfl, hi, hm⟩
    · rintro ⟨rfl, -, hj⟩
      exact ⟨j, hj, rfl, rfl⟩

theorem slotsOf_nodup (i : Nat) : (slotsOf i).Nodup := by
  refine List.nodup_append.mpr ⟨List.nodup_range.map fun _ _ h => (Slot.addr.inj h).2,
    List.nodup_append.mpr ⟨List.nodup_range.map fun _ _ h => (Slot.entry.inj h).2,
      List.nodup_singleton _, ?_⟩, ?_⟩
  · intro a ha c hc
    obtain ⟨j, -, rfl⟩ := List.mem_map.mp ha
    rw [List.mem_singleton.mp hc]
    exact nofun
  · intro a ha c hc heq
    obtain ⟨k, hk, rfl⟩ := List.mem_map.mp ha
    rw [← heq] at hc
    rcases List.mem_append.mp hc with hc | hc
    · obtain ⟨j, -, h⟩ := List.mem_map.mp hc
      cases h
    · have hk := List.mem_range.mp hk
      have := (Slot.addr.inj (List.mem_singleton.mp hc)).2
      omega

theorem freeAll_block {bs : List Nat} (h : freeAll sb d bs = some d') {x : Nat}
    (hx : ∀ b ∈ bs, b ≠ 0 → x ≠ BBLOCK sb b) : d'.block x = d.block x := by
  induction bs generalizing d with
  | nil => rw [← Option.some.inj h]
  | cons b bs ih =>
    rw [freeAll] at h
    split at h
    next => exact ih h fun c hc => hx c (by simp [hc])
    next hb =>
      obtain ⟨d₁, hd₁, h⟩ := Option.bind_eq_some_iff.mp h
      rw [ih h fun c hc => hx c (by simp [hc]), (bfree_spec hd₁).2.1 x (hx b (by simp) hb)]

/-- `itrunc` frees what the slots of the inode hold. -/
theorem itrunc_eq (h : FsInv sb d ino) (hi : i < sb.ninodes) :
    itrunc sb d i (ino i) = (freeAll sb d ((slotsOf i).map (ref d ino))).map fun d =>
      (iupdate sb d i { ino i with addrs := fun _ => 0, size := 0 },
        { ino i with addrs := fun _ => 0, size := 0 }) := by
  have hdirect : (List.range NDIRECT).map (ino i).addrs =
      ((List.range NDIRECT).map (Slot.addr i)).map (ref d ino) := by
    rw [List.map_map]
    rfl
  have hind : (Slot.addr i NDIRECT).Valid sb := ⟨hi, by decide⟩
  rw [itrunc, slotsOf, List.map_append, freeAll_append, hdirect]
  cases hd₁ : freeAll sb d (((List.range NDIRECT).map (Slot.addr i)).map (ref d ino)) with
  | none => rfl
  | some d₁ =>
    rw [Option.bind_some, Option.bind_some]
    refine congrArg (Option.map _) ?_
    by_cases h0 : (ino i).addrs NDIRECT = 0
    · rw [if_pos h0, freeAll_zero]
      intro b hb
      obtain ⟨t, ht, rfl⟩ := List.mem_map.mp hb
      rcases List.mem_append.mp ht with ht | ht
      · obtain ⟨j, -, rfl⟩ := List.mem_map.mp ht
        exact if_pos h0
      · rw [List.mem_singleton.mp ht]
        exact h0
    · -- the indirect block is no block of the bitmap
      have hblock : d₁.block ((ino i).addrs NDIRECT) = d.block ((ino i).addrs NDIRECT) := by
        refine freeAll_block hd₁ fun b hb hne => ?_
        obtain ⟨t, ht, rfl⟩ := List.mem_map.mp hb
        have htv := ((mem_slotsOf hi).mp (List.mem_append_left _ ht)).2
        exact h.good.not_bitmap hind h0 (h.good.data t htv hne).2
      have hentries : entries d₁ ((ino i).addrs NDIRECT) =
          ((List.range NINDIRECT).map (Slot.entry i)).map (ref d ino) := by
        rw [List.map_map]
        refine List.map_congr_left fun j _ => ?_
        rw [hblock, Function.comp, ref, if_neg h0]
      rw [if_neg h0, hentries, List.map_append, freeAll_append]
      refine Option.bind_congr fun d₂ _ => ?_
      rw [List.map_singleton, freeAll]
      change _ = if (ino i).addrs NDIRECT = 0 then _ else _
      rw [if_neg h0]
      exact (Option.bind_fun_some _).symm

/-! ## The file without its blocks -/

/-- What the slots of the inode held is free, and the inode is empty. -/
structure Emptied (sb : Superblock) (d d₁ : Dev) (ino ino' : Nat → Inode) (i : Nat) : Prop where
  same : ino' i = { ino i with addrs := fun _ => 0, size := 0 }
  other : ∀ n, n ≠ i → ino' n = ino n
  block : ∀ x, (∀ c, c < sb.size → x ≠ BBLOCK sb c) → d₁.block x = d.block x
  bits : ∀ x, x < sb.size → (bitOf sb d₁ x = true ↔ bitOf sb d x = true ∧
    (x = 0 ∨ ¬∃ t, t.Valid sb ∧ t.inode = i ∧ ref d ino t = x))

/-- The slots hold marked blocks, none of them twice, so that all of them are freed. -/
theorem freeAll_slots (h : FsInv sb d ino) (hi : i < sb.ninodes) :
    ∃ d₁, freeAll sb d ((slotsOf i).map (ref d ino)) = some d₁ ∧ Emptied sb d d₁ ino
      (Function.update ino i { ino i with addrs := fun _ => 0, size := 0 }) i := by
  have hnd : (((slotsOf i).map (ref d ino)).filter (· ≠ 0)).Nodup := by
    rw [List.filter_map]
    refine List.Nodup.map_on (fun s hs t ht heq => ?_) ((slotsOf_nodup i).filter _)
    obtain ⟨hs, hne⟩ := List.mem_filter.mp hs
    exact h.good.inj s t ((mem_slotsOf hi).mp hs).2
      ((mem_slotsOf hi).mp (List.mem_filter.mp ht).1).2 heq (by simpa using hne)
  obtain ⟨d₁, hfree, hblock, hbits⟩ := freeAll_spec sb d hnd fun b hb hne => by
    obtain ⟨t, ht, rfl⟩ := List.mem_map.mp hb
    have htv := ((mem_slotsOf hi).mp ht).2
    have hlt := (h.good.data t htv hne).2
    exact ⟨hlt, (h.good.marked _ hlt).mpr (.inr ⟨t, htv, rfl⟩)⟩
  have hmem (x : Nat) : x ∈ (slotsOf i).map (ref d ino) ↔
      ∃ t, t.Valid sb ∧ t.inode = i ∧ ref d ino t = x := by
    rw [List.mem_map]
    refine exists_congr fun t => ?_
    rw [mem_slotsOf hi, and_comm (a := t.inode = i), and_assoc]
  refine ⟨d₁, hfree, ⟨Function.update_self .., fun n hn => Function.update_of_ne hn .., hblock,
    fun x hx => ?_⟩⟩
  rw [hbits x hx, hmem]

namespace Emptied

theorem refs (he : Emptied sb d d₁ ino ino' i) (h : FsInv sb d ino) {t : Slot} (ht : t.Valid sb) :
    ref d₁ ino' t = if t.inode = i then 0 else ref d ino t := by
  by_cases hti : t.inode = i
  · rw [if_pos hti]
    cases t <;> (simp only [Slot.inode] at hti; simp [ref, hti, he.same])
  · rw [if_neg hti]
    cases t with
    | addr n k => simp [ref, he.other n hti]
    | entry n j =>
      refine ref_entry_congr (by rw [he.other n hti]) (fun hne => he.block _ fun c hc => ?_) j
      exact h.good.not_bitmap (s := .addr n NDIRECT) ⟨ht.1, by decide⟩ hne hc

/-- A slot that still holds a block held it before, and is one of another inode. -/
theorem old (he : Emptied sb d d₁ ino ino' i) (h : FsInv sb d ino) {t : Slot} (ht : t.Valid sb)
    (hne : ref d₁ ino' t ≠ 0) : t.inode ≠ i ∧ ref d₁ ino' t = ref d ino t := by
  rw [he.refs h ht] at hne ⊢
  by_cases hti : t.inode = i
  · rw [if_pos hti] at hne
    exact absurd rfl hne
  · exact ⟨hti, if_neg hti⟩

theorem marked (he : Emptied sb d d₁ ino ino' i) (h : FsInv sb d ino) {x : Nat} (hx : x < sb.size) :
    bitOf sb d₁ x = true ↔ x < nmeta sb ∨ ∃ s, s.Valid sb ∧ ref d₁ ino' s = x := by
  rw [he.bits x hx, h.good.marked x hx]
  constructor
  · rintro ⟨hx | ⟨t, ht, rfl⟩, hfree⟩
    · exact .inl hx
    · rcases hfree with h0 | hno
      · exact .inl (h0 ▸ nmeta_pos sb)
      · refine .inr ⟨t, ht, ?_⟩
        rw [he.refs h ht, if_neg fun hti => hno ⟨t, ht, hti, rfl⟩]
  · rintro (hx | ⟨t, ht, rfl⟩)
    · refine ⟨.inl hx, ?_⟩
      by_cases h0 : x = 0
      · exact .inl h0
      · refine .inr ?_
        rintro ⟨t, ht, -, rfl⟩
        have := (h.good.data t ht h0).1
        omega
    · by_cases h0 : ref d₁ ino' t = 0
      · rw [h0]
        exact ⟨.inl (nmeta_pos sb), .inl rfl⟩
      · obtain ⟨hti, ht'⟩ := he.old h ht h0
        rw [ht'] at h0 ⊢
        refine ⟨.inr ⟨t, ht, rfl⟩, .inr ?_⟩
        rintro ⟨s, hs, hsi, heq⟩
        exact hti (h.good.inj s t hs ht heq (heq ▸ h0) ▸ hsi)

theorem good (he : Emptied sb d d₁ ino ino' i) (h : FsInv sb d ino) : Good sb d₁ ino' := by
  refine ⟨fun s t hs ht heq hne => ?_, fun s hs hne => ?_, fun x hx => he.marked h hx⟩
  · obtain ⟨-, hs'⟩ := he.old h hs hne
    obtain ⟨-, ht'⟩ := he.old h ht (heq ▸ hne)
    rw [hs'] at heq hne
    exact h.good.inj s t hs ht (heq.trans ht') hne
  · obtain ⟨-, hs'⟩ := he.old h hs hne
    rw [hs'] at hne ⊢
    exact h.good.data s hs hne

theorem keep (he : Emptied sb d d₁ ino ino' i) (h : FsInv sb d ino) {n bn : Nat} (hni : n ≠ i)
    (hn : n < sb.ninodes) (hbn : bn < MAXFILE) :
    ref d₁ ino' (blockOf n bn) = ref d ino (blockOf n bn) := by
  rw [he.refs h (blockOf_valid hn hbn), if_neg (by rw [blockOf_inode]; exact hni)]

/-- The empty inode is written to its block. -/
theorem synced (he : Emptied sb d d₁ ino ino' i) (hl : Layout sb) (h : FsInv sb d ino)
    (hi : i < sb.ninodes) {n : Nat} (hn : n < sb.ninodes) :
    readDinode sb (iupdate sb d₁ i (ino' i)) n = ino' n := by
  by_cases hni : n = i
  · subst hni
    have hrange := h.inRange hl (he.good h) hn (by rw [he.same]; exact Nat.two_pow_pos 32)
      (by rw [he.same]) fun k hk => by
        rw [h.last hn hk, he.same]
    exact readDinode_iupdate hrange
  · have hlow (x : Nat) (hx : x < sb.bmapstart) : d₁.block x = d.block x :=
      he.block x fun c _ => low_not_bitmap hx c
    rw [readDinode_iupdate_of_ne hni, readDinode_low hl hn hlow, h.synced n hn, he.other n hni]

theorem inv (he : Emptied sb d d₁ ino ino' i) (hl : Layout sb) (h : FsInv sb d ino)
    (hi : i < sb.ninodes) : FsInv sb (iupdate sb d₁ i (ino' i)) ino' := by
  have hg := he.good h
  refine ⟨hg.iupdate hl hi _, fun n o hn ho => ?_, fun n hn => he.synced hl h hi hn,
    fun n hn h0 => ?_⟩
  · have hni : n ≠ i := by
      rintro rfl
      rw [he.same] at ho
      exact absurd ho (Nat.not_lt_zero o)
    rw [he.other n hni] at ho
    obtain ⟨hbn, hne⟩ := h.full n o hn ho
    refine ⟨hbn, ?_⟩
    rw [ref_iupdate hl hg hi (blockOf_valid hn hbn), he.keep h hni hn hbn]
    exact hne
  · by_cases hni : n = i
    · subst hni
      rw [he.same]
      exact ⟨rfl, fun _ => rfl⟩
    · rw [he.other n hni] at h0 ⊢
      exact h.free n hn h0

theorem content_other (he : Emptied sb d d₁ ino ino' i) (hl : Layout sb) (h : FsInv sb d ino)
    (hi : i < sb.ninodes) {n : Nat} (hn : n < sb.ninodes) (hni : n ≠ i) :
    content (iupdate sb d₁ i (ino' i)) ino' n = content d ino n := by
  refine content_congr (by rw [he.other n hni]) fun o ho => ?_
  obtain ⟨hbn, hne⟩ := h.full n o hn ho
  have href := he.keep h hni hn hbn
  rw [byteAt_iupdate hl (he.good h) hi hn hbn (by rw [href]; exact hne), byteAt, byteAt, href,
    he.block _ fun c hc => h.good.not_bitmap (blockOf_valid hn hbn) hne hc]

theorem freed (he : Emptied sb d d₁ ino ino' i) (hl : Layout sb) (h : FsInv sb d ino)
    (hi : i < sb.ninodes) {t : Slot} (ht : t.Valid sb) (hti : t.inode = i) (hne : ref d ino t ≠ 0) :
    bitOf sb (iupdate sb d₁ i (ino' i)) (ref d ino t) = false := by
  have hbit : bitOf sb (iupdate sb d₁ i (ino' i)) (ref d ino t) = bitOf sb d₁ (ref d ino t) :=
    bitOf_congr (Dev.log_write_of_ne (IBLOCK_ne_BBLOCK hl hi _).symm _)
  rw [hbit]
  refine eq_false_of_ne_true fun hmarked => ?_
  rcases ((he.bits _ (h.good.data t ht hne).2).mp hmarked).2 with h0 | hno
  · exact hne h0
  · exact hno ⟨t, ht, hti, rfl⟩

end Emptied

/-- `itrunc` empties the file; its blocks are free afterwards. -/
theorem itrunc_spec (hl : Layout sb) (h : FsInv sb d ino) (hi : i < sb.ninodes) :
    ∃ d', itrunc sb d i (ino i) = some (d', { ino i with addrs := fun _ => 0, size := 0 }) ∧
      FsInv sb d' (Function.update ino i { ino i with addrs := fun _ => 0, size := 0 }) ∧
      (∀ n, n < sb.ninodes → n ≠ i →
        content d' (Function.update ino i { ino i with addrs := fun _ => 0, size := 0 }) n =
          content d ino n) ∧
      ∀ t, t.Valid sb → t.inode = i → ref d ino t ≠ 0 → bitOf sb d' (ref d ino t) = false := by
  obtain ⟨d₁, hfree, he⟩ := freeAll_slots h hi
  have hinv := he.inv hl h hi
  have hcontent := fun n hn hni => he.content_other hl h hi (n := n) hn hni
  have hfreed := fun t ht hti hne => he.freed hl h hi (t := t) ht hti hne
  rw [he.same] at hinv hcontent hfreed
  refine ⟨_, ?_, hinv, hcontent, hfreed⟩
  rw [itrunc_eq h hi, hfree, Option.map_some]

end Xv6
end SsuComputer
