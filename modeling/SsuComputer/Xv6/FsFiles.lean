import SsuComputer.Xv6.FsBlocks
import Mathlib.Data.List.GetD

/-!
# SsuComputer.Xv6.FsFiles

Files over blocks: what `writei` and `readi` do to the bytes of all files, and which blocks a
transaction logs.
-/

namespace SsuComputer
namespace Xv6

variable {sb : Superblock} {d d' d₁ d₂ : Dev} {ino ino' ino₁ : Nat → Inode} {b i n o off m : Nat}
  {src : List Nat}

/-- The byte at the place `o` of a file. -/
def byteAt (d : Dev) (ino : Nat → Inode) (i o : Nat) : Nat :=
  d.block (ref d ino (blockOf i (o / BSIZE))) (o % BSIZE)

/-- What a loop of `writei` leaves that wrote `src` at `off`. -/
structure Written (sb : Superblock) (d d' : Dev) (ino ino' : Nat → Inode) (i off : Nat)
    (src : List Nat) : Prop where
  good : Good sb d' ino'
  others : ∀ n, n ≠ i → ino' n = ino n
  self : ino' i = { ino i with addrs := (ino' i).addrs }
  last : ∀ k, 13 ≤ k → (ino' i).addrs k = (ino i).addrs k
  grow : ∀ t, t.Valid sb → ref d ino t ≠ 0 → ref d' ino' t = ref d ino t
  filled : ∀ o, off ≤ o → o < off + src.length →
    o / BSIZE < MAXFILE ∧ ref d' ino' (blockOf i (o / BSIZE)) ≠ 0
  bytes : ∀ o, off ≤ o → o < off + src.length → byteAt d' ino' i o = src.getD (o - off) 0
  frame : ∀ n o, n < sb.ninodes → o / BSIZE < MAXFILE → ref d ino (blockOf n (o / BSIZE)) ≠ 0 →
    (n ≠ i ∨ o < off ∨ off + src.length ≤ o) → byteAt d' ino' n o = byteAt d ino n o
  keep : (∀ o, off ≤ o → o < off + src.length → ref d ino (blockOf i (o / BSIZE)) ≠ 0) →
    ino' = ino
  low : ∀ x, x < sb.bmapstart → d'.block x = d.block x
  logged : ∀ x ∈ d'.logged, x ∈ d.logged ∨ (∃ c, c < sb.size ∧ x = BBLOCK sb c) ∨
    (x ≠ 0 ∧ x = ref d' ino' (.addr i NDIRECT)) ∨
    ∃ o, off ≤ o ∧ o < off + src.length ∧ x = ref d' ino' (blockOf i (o / BSIZE))

theorem Written.refl (hg : Good sb d ino) : Written sb d d ino ino i off [] :=
  ⟨hg, fun _ _ => rfl, rfl, fun _ _ => rfl, fun _ _ _ => rfl, fun o h h' => absurd h (by simpa using h'),
    fun o h h' => absurd h (by simpa using h'), fun _ _ _ _ _ _ => rfl, fun _ => rfl,
    fun _ _ => rfl, fun _ => .inl⟩

/-- One write after the other. -/
theorem Written.trans {xs ys : List Nat} {mid : Nat} (hi : i < sb.ninodes)
    (h₁ : Written sb d d₁ ino ino₁ i off xs) (hmid : mid = off + xs.length)
    (h₂ : Written sb d₁ d' ino₁ ino' i mid ys) :
    Written sb d d' ino ino' i off (xs ++ ys) := by
  subst hmid
  have hgrow : ∀ t, t.Valid sb → ref d ino t ≠ 0 → ref d' ino' t = ref d ino t := fun t ht hne => by
    rw [← h₁.grow t ht hne]
    exact h₂.grow t ht (by rw [h₁.grow t ht hne]; exact hne)
  -- what the first write stored stays
  have hfirst : ∀ o, off ≤ o → o < off + xs.length → o / BSIZE < MAXFILE ∧
      ref d' ino' (blockOf i (o / BSIZE)) = ref d₁ ino₁ (blockOf i (o / BSIZE)) ∧
      ref d₁ ino₁ (blockOf i (o / BSIZE)) ≠ 0 := fun o ho hlt => by
    obtain ⟨hbn, hne⟩ := h₁.filled o ho hlt
    exact ⟨hbn, h₂.grow _ (blockOf_valid hi hbn) hne, hne⟩
  refine ⟨h₂.good, fun n hn => by rw [h₂.others n hn, h₁.others n hn], ?_,
    fun k hk => by rw [h₂.last k hk, h₁.last k hk], hgrow, fun o ho hlt => ?_, fun o ho hlt => ?_, fun n o hn hbn hne hout => ?_, fun hall => ?_,
    fun x hx => by rw [h₂.low x hx, h₁.low x hx], fun x hx => ?_⟩
  · refine h₂.self.trans ?_
    rw [h₁.self]
  · rw [List.length_append] at hlt
    by_cases hxs : o < off + xs.length
    · obtain ⟨hbn, heq, hne⟩ := hfirst o ho hxs
      exact ⟨hbn, by rw [heq]; exact hne⟩
    · exact h₂.filled o (by omega) (by omega)
  · rw [List.length_append] at hlt
    by_cases hxs : o < off + xs.length
    · obtain ⟨hbn, -, hne⟩ := hfirst o ho hxs
      rw [h₂.frame i o hi hbn hne (.inr (.inl hxs)), h₁.bytes o ho hxs, List.getD_append _ _ _ _
        (by omega)]
    · rw [h₂.bytes o (by omega) (by omega), List.getD_append_right _ _ _ _ (by omega)]
      congr 1
      omega
  · rw [List.length_append] at hout
    have hne₁ := h₁.grow _ (blockOf_valid hn hbn) hne
    rw [h₂.frame n o hn hbn (by rw [hne₁]; exact hne) (by omega), h₁.frame n o hn hbn hne (by omega)]
  · have hino₁ : ino₁ = ino := h₁.keep fun o ho hlt => hall o ho (by simp; omega)
    refine (h₂.keep fun o ho hlt => ?_).trans hino₁
    have hne := hall o (by omega) (by simp; omega)
    have hbn := (h₂.filled o ho hlt).1
    rw [h₁.grow _ (blockOf_valid hi hbn) hne]
    exact hne
  · rcases h₂.logged x hx with hx | hx | hx | ⟨o, ho, hlt, hx⟩
    · rcases h₁.logged x hx with hx | hx | ⟨hne, hx⟩ | ⟨o, ho, hlt, hx⟩
      · exact .inl hx
      · exact .inr (.inl hx)
      · refine .inr (.inr (.inl ⟨hne, ?_⟩))
        exact hx.trans (h₂.grow (.addr i NDIRECT) ⟨hi, by decide⟩ (hx ▸ hne)).symm
      · obtain ⟨-, heq, -⟩ := hfirst o ho hlt
        exact .inr (.inr (.inr ⟨o, ho, by simp; omega, by rw [heq, hx]⟩))
    · exact .inr (.inl hx)
    · exact .inr (.inr (.inl hx))
    · exact .inr (.inr (.inr ⟨o, by omega, by simp; omega, hx⟩))

theorem Good.congr (hg : Good sb d ino)
    (hrefs : ∀ t, t.Valid sb → ref d' ino' t = ref d ino t)
    (hbits : ∀ x, x < sb.size → bitOf sb d' x = bitOf sb d x) : Good sb d' ino' := by
  refine ⟨fun s t hs ht heq hne => ?_, fun s hs hne => ?_, fun x hx => ?_⟩
  · rw [hrefs s hs, hrefs t ht] at heq
    rw [hrefs s hs] at hne
    exact hg.inj s t hs ht heq hne
  · rw [hrefs s hs] at hne ⊢
    exact hg.data s hs hne
  · rw [hbits x hx, hg.marked x hx]
    refine or_congr_right (exists_congr fun s => and_congr_right fun hs => ?_)
    rw [hrefs s hs]

/-- A store into a block of a file leaves all block numbers. -/
theorem ref_log_write (hg : Good sb d ino) {s t : Slot} (hs : s.Valid sb) (ht : t.Valid sb)
    (hdata : ∀ i, s ≠ .addr i NDIRECT) (hb : ref d ino s = b) (hne : b ≠ 0) (data : Nat → Nat) :
    ref (d.log_write b data) ino t = ref d ino t := by
  cases t with
  | addr => rfl
  | entry n j =>
    have hind : (Slot.addr n NDIRECT).Valid sb := ⟨ht.1, by decide⟩
    refine ref_entry_congr rfl (fun _ => Dev.log_write_of_ne (fun heq => ?_) _) j
    exact hdata n (hg.inj s _ hs hind (hb.trans heq.symm) (hb.symm ▸ hne))

/-- One turn of the loop of `writei`. -/
theorem chunk_wrote (hl : Layout sb) (hg : Good sb d ino) (hi : i < sb.ninodes)
    {ip' : Inode} (hmap : bmap sb d (ino i) (off / BSIZE) = some (b, d₁, ip'))
    (hpos : 0 < src.length) (hfit : off % BSIZE + src.length ≤ BSIZE) :
    Written sb d (d₁.log_write b (blit (d₁.block b) (off % BSIZE) src)) ino
      (Function.update ino i ip') i off src := by
  obtain ⟨hbn, hm⟩ := bmap_mapped hl hg hi hmap
  generalize Function.update ino i ip' = ino₁ at hm ⊢
  have hs : (blockOf i (off / BSIZE)).Valid sb := blockOf_valid hi hbn
  have hslot : ref d₁ ino₁ (blockOf i (off / BSIZE)) ≠ 0 := by
    rw [hm.slot]
    exact hm.pos
  obtain ⟨hlow, -⟩ := hm.good.data _ hs hslot
  rw [hm.slot] at hlow
  have hrefs : ∀ t, t.Valid sb → ref (d₁.log_write b (blit (d₁.block b) (off % BSIZE) src)) ino₁ t =
      ref d₁ ino₁ t := fun t ht =>
    ref_log_write hm.good hs ht (fun _ => blockOf_ne) hm.slot hm.pos _
  have hin : ∀ o, off ≤ o → o < off + src.length →
      o / BSIZE = off / BSIZE ∧ o % BSIZE = off % BSIZE + (o - off) := fun o ho hlt => by
    simp only [BSIZE] at *
    omega
  refine ⟨hm.good.congr hrefs fun x hx => ?_, hm.others, hm.self, hm.last,
    fun t ht hne => ?_,
    fun o ho hlt => ?_, fun o ho hlt => ?_, fun n o hn hbo hne hout => ?_, fun hall => ?_,
    fun x hx => ?_, fun x hx => ?_⟩
  · exact bitOf_congr (Dev.log_write_of_ne (hm.slot ▸ (hm.good.not_bitmap hs hslot hx).symm) _)
  · rw [hrefs t ht, hm.grow t ht hne]
  · rw [(hin o ho hlt).1, hrefs _ hs]
    exact ⟨hbn, hslot⟩
  · obtain ⟨hdiv, hmod⟩ := hin o ho hlt
    rw [byteAt, hdiv, hrefs _ hs, hm.slot, Dev.log_write_self, hmod, blit_add (by omega)]
  · have ht : (blockOf n (o / BSIZE)).Valid sb := blockOf_valid hn hbo
    have hgrow := hm.grow _ ht hne
    have hdata := hm.data _ ht (fun _ => blockOf_ne) hne
    rw [byteAt, byteAt, hrefs _ ht, hgrow]
    by_cases hb : ref d ino (blockOf n (o / BSIZE)) = b
    · have heq := hm.good.inj _ _ ht hs (by rw [hgrow, hb, hm.slot]) (by rw [hgrow]; exact hne)
      obtain ⟨rfl, hdiv⟩ := blockOf_inj heq
      have hplace : o % BSIZE < off % BSIZE ∨ off % BSIZE + src.length ≤ o % BSIZE := by
        simp only [BSIZE] at *
        omega
      rw [hb, Dev.log_write_self, blit_of_not_mem hplace, ← hb, hdata]
    · rw [Dev.log_write_of_ne hb, hdata]
  · exact (hm.keep (hall off (Nat.le_refl _) (by omega))).2
  · have hmeta : x < nmeta sb := Nat.lt_of_lt_of_le hx (Nat.le_add_right _ _)
    rw [Dev.log_write_of_ne (by omega), hm.low x hx]
  · have hblock : b = ref (d₁.log_write b (blit (d₁.block b) (off % BSIZE) src)) ino₁
        (blockOf i (off / BSIZE)) := by rw [hrefs _ hs, hm.slot]
    rcases Finset.mem_insert.mp hx with rfl | hx
    · exact .inr (.inr (.inr ⟨off, Nat.le_refl _, by omega, hblock⟩))
    · rcases hm.logged x hx with hx | hx | rfl | hx
      · exact .inl hx
      · exact .inr (.inl hx)
      · exact .inr (.inr (.inr ⟨off, Nat.le_refl _, by omega, hblock⟩))
      · exact .inr (.inr (.inl hx))

theorem writeLoop_wrote {d d' : Dev} {ino : Nat → Inode} {off off' : Nat} {src : List Nat}
    {ip' : Inode} (hl : Layout sb) (hg : Good sb d ino) (hi : i < sb.ninodes)
    (h : writeLoop sb d (ino i) off src = some (d', ip', off')) :
    off' = off + src.length ∧ Written sb d d' ino (Function.update ino i ip') i off src := by
  rw [writeLoop] at h
  split at h
  next hnil =>
    obtain rfl : src = [] := List.length_eq_zero_iff.mp hnil
    obtain ⟨rfl, heq⟩ := Prod.mk.inj (Option.some.inj h)
    obtain ⟨rfl, rfl⟩ := Prod.mk.inj heq
    rw [Function.update_eq_self]
    exact ⟨rfl, Written.refl hg⟩
  next hne =>
    obtain ⟨⟨b, d₁, ip₁⟩, hmap, h⟩ := Option.bind_eq_some_iff.mp h
    obtain ⟨m, hm⟩ : ∃ m, min src.length (BSIZE - off % BSIZE) = m := ⟨_, rfl⟩
    have hlt : off % BSIZE < BSIZE := Nat.mod_lt _ (by decide)
    simp only [hm] at h
    have hlen : (src.take m).length = m := by
      rw [List.length_take]
      omega
    have hpos : 0 < (src.take m).length := by omega
    have hfit : off % BSIZE + (src.take m).length ≤ BSIZE := by omega
    have hw₁ := chunk_wrote hl hg hi hmap hpos hfit
    have hself : ip₁ = Function.update ino i ip₁ i := by rw [Function.update_self]
    rw [hself] at h
    obtain ⟨hoff, hw₂⟩ := writeLoop_wrote hl hw₁.good hi h
    have hw := hw₁.trans hi (by rw [hlen]) hw₂
    rw [List.take_append_drop, Function.update_idem] at hw
    refine ⟨?_, hw⟩
    rw [hoff, List.length_drop]
    omega
termination_by src.length
decreasing_by
  rw [List.length_drop]
  omega

end Xv6
end SsuComputer
