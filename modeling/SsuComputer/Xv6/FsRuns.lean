import SsuComputer.Xv6.FsFiles
import SsuComputer.Xv6.FsDinode
import SsuComputer.Lib.Refinement

/-!
# SsuComputer.Xv6.FsRuns

The file system over whole runs.
-/

namespace SsuComputer
namespace Xv6

variable {sb : Superblock} {d d' d₁ : Dev} {ino ino' ino₁ : Nat → Inode} {i n o off : Nat}
  {src : List Nat} {ip' : Inode}

/-- The bytes of a file. -/
def content (d : Dev) (ino : Nat → Inode) (i : Nat) : List Nat :=
  (List.range (ino i).size).map (byteAt d ino i)

/-- `src` in place of what is at `off`. -/
def splice (old : List Nat) (off : Nat) (src : List Nat) : List Nat :=
  old.take off ++ src ++ old.drop (off + src.length)

structure FsInv (sb : Superblock) (d : Dev) (ino : Nat → Inode) : Prop where
  good : Good sb d ino
  full : ∀ i o, i < sb.ninodes → o < (ino i).size →
    o / BSIZE < MAXFILE ∧ ref d ino (blockOf i (o / BSIZE)) ≠ 0
  synced : ∀ i, i < sb.ninodes → readDinode sb d i = ino i
  free : ∀ i, i < sb.ninodes → (ino i).type = 0 → (ino i).size = 0 ∧ ∀ k, (ino i).addrs k = 0

theorem getElem?_content (o : Nat) :
    (content d ino i)[o]? = if o < (ino i).size then some (byteAt d ino i o) else none := by
  unfold content
  split
  next h => simp [h]
  next h => simp; omega

theorem length_content : (content d ino i).length = (ino i).size := by simp [content]

theorem getElem?_splice {old : List Nat} (hoff : off ≤ old.length) (o : Nat) :
    (splice old off src)[o]? =
      if off ≤ o ∧ o < off + src.length then src[o - off]? else old[o]? := by
  have htake : (old.take off).length = off := by
    rw [List.length_take]
    omega
  unfold splice
  split
  next h =>
    rw [List.getElem?_append_left (by rw [List.length_append, htake]; omega),
      List.getElem?_append_right (by omega), htake]
  next h =>
    by_cases ho : o < off
    · rw [List.getElem?_append_left (by rw [List.length_append, htake]; omega),
        List.getElem?_append_left (by omega), List.getElem?_take_of_lt ho]
    · rw [List.getElem?_append_right (by rw [List.length_append, htake]; omega),
        List.getElem?_drop, List.length_append, htake]
      congr 1
      omega

/-! ## `iupdate` -/

theorem ref_iupdate (hl : Layout sb) (hg : Good sb d ino) (hi : i < sb.ninodes) {ip : Inode}
    {t : Slot} (ht : t.Valid sb) : ref (iupdate sb d i ip) ino t = ref d ino t := by
  cases t with
  | addr => rfl
  | entry n j =>
    refine ref_entry_congr rfl (fun hne => Dev.log_write_of_ne ?_ _) j
    exact Nat.ne_of_gt (Nat.lt_of_lt_of_le (IBLOCK_lt_nmeta hl hi)
      (hg.data (.addr n NDIRECT) ⟨ht.1, by decide⟩ hne).1)

theorem Good.iupdate (hl : Layout sb) (hg : Good sb d ino) (hi : i < sb.ninodes) (ip : Inode) :
    Good sb (iupdate sb d i ip) ino :=
  hg.congr (fun _ ht => ref_iupdate hl hg hi ht) fun x _ =>
    bitOf_congr (Dev.log_write_of_ne (IBLOCK_ne_BBLOCK hl hi x).symm _)

theorem byteAt_iupdate (hl : Layout sb) (hg : Good sb d ino) (hi : i < sb.ninodes) {ip : Inode}
    (hn : n < sb.ninodes) (hbn : o / BSIZE < MAXFILE)
    (hne : ref d ino (blockOf n (o / BSIZE)) ≠ 0) :
    byteAt (Xv6.iupdate sb d i ip) ino n o = byteAt d ino n o := by
  have hs := blockOf_valid hn hbn
  rw [byteAt, ref_iupdate hl hg hi hs, byteAt]
  exact congrFun (Dev.log_write_of_ne (Nat.ne_of_gt
    (Nat.lt_of_lt_of_le (IBLOCK_lt_nmeta hl hi) (hg.data _ hs hne).1)) _) _

/-- Only the numbers of the blocks matter for the owners. -/
theorem ref_congr (h : ∀ n, (ino' n).addrs = (ino n).addrs) (t : Slot) :
    ref d ino' t = ref d ino t := by
  cases t <;> simp [ref, h]

theorem Good.congr_addrs (hg : Good sb d ino) (h : ∀ n, (ino' n).addrs = (ino n).addrs) :
    Good sb d ino' :=
  hg.congr (fun t _ => ref_congr h t) fun _ _ => rfl

theorem FsInv.last (h : FsInv sb d ino) (hi : i < sb.ninodes) {k : Nat} (hk : 13 ≤ k) :
    (ino i).addrs k = 0 := by
  have := (readDinode_inRange sb d i).last k hk
  rwa [h.synced i hi] at this

theorem FsInv.inRange (hl : Layout sb) (h : FsInv sb d ino) (hg : Good sb d' ino')
    (hi : i < sb.ninodes) (hsize : (ino' i).size < 2 ^ 32)
    (hself : ino' i = { ino i with addrs := (ino' i).addrs, size := (ino' i).size })
    (hlast : ∀ k, 13 ≤ k → (ino' i).addrs k = (ino i).addrs k) : (ino' i).InRange := by
  have hold := readDinode_inRange sb d i
  rw [h.synced i hi] at hold
  refine ⟨?_, ?_, ?_, ?_, hsize, fun k => ?_, fun k hk => by rw [hlast k hk, h.last hi hk]⟩
  · rw [hself]
    exact hold.type
  · rw [hself]
    exact hold.major
  · rw [hself]
    exact hold.minor
  · rw [hself]
    exact hold.nlink
  · by_cases hk : k < 13
    · by_cases h0 : (ino' i).addrs k = 0
      · rw [h0]
        decide
      · have := (hg.data (.addr i k) ⟨hi, hk⟩ h0).2
        exact Nat.lt_trans this hl.size
    · rw [hlast k (by omega), h.last hi (by omega)]
      decide

theorem readDinode_low (hl : Layout sb) (hi : i < sb.ninodes)
    (h : ∀ x, x < sb.bmapstart → d'.block x = d.block x) :
    readDinode sb d' i = readDinode sb d i :=
  readDinode_congr fun _ _ _ => by rw [h _ (IBLOCK_lt hl hi)]

/-! ## `writei` -/

/-- The bytes of all files, before and after. -/
structure Stored (sb : Superblock) (d d' : Dev) (ino ino' : Nat → Inode) (i off : Nat)
    (src : List Nat) : Prop where
  inv : FsInv sb d' ino'
  written : content d' ino' i = splice (content d ino i) off src
  others : ∀ n, n < sb.ninodes → n ≠ i → content d' ino' n = content d ino n
  type : (ino' i).type = (ino i).type

theorem content_congr (hsize : (ino' n).size = (ino n).size)
    (h : ∀ o, o < (ino n).size → byteAt d' ino' n o = byteAt d ino n o) :
    content d' ino' n = content d ino n := by
  unfold content
  rw [hsize]
  exact List.map_congr_left fun o ho => h o (List.mem_range.mp ho)

/-- Writing within the file. -/
theorem Written.stored_within (hl : Layout sb) (h : FsInv sb d ino) (hi : i < sb.ninodes)
    (hw : Written sb d d' ino ino' i off src) (hle : off + src.length ≤ (ino i).size) :
    Stored sb d d' ino ino' i off src := by
  obtain rfl : ino' = ino := hw.keep fun o _ ho => (h.full i o hi (by omega)).2
  refine ⟨⟨hw.good, fun n o hn ho => ?_, fun n hn => ?_, h.free⟩, ?_, fun n hn hne => ?_, rfl⟩
  · obtain ⟨hbn, hne⟩ := h.full n o hn ho
    exact ⟨hbn, by rw [hw.grow _ (blockOf_valid hn hbn) hne]; exact hne⟩
  · rw [readDinode_low hl hn hw.low, h.synced n hn]
  · refine List.ext_getElem? fun o => ?_
    rw [getElem?_content, getElem?_splice (by rw [length_content]; omega), getElem?_content]
    by_cases hin : off ≤ o ∧ o < off + src.length
    · rw [if_pos (by omega), if_pos hin, hw.bytes o hin.1 hin.2, List.getD_eq_getElem?_getD,
        List.getElem?_eq_getElem (by omega), Option.getD_some]
    · rw [if_neg hin]
      split
      next ho =>
        obtain ⟨hbn, hne⟩ := h.full i o hi ho
        rw [hw.frame i o hi hbn hne (.inr (by omega))]
      next => rfl
  · refine content_congr rfl fun o ho => ?_
    obtain ⟨hbn, hne'⟩ := h.full n o hn ho
    exact hw.frame n o hn hbn hne' (.inl hne)

/-- Writing over the end. -/
theorem Written.stored_grow (hl : Layout sb) (h : FsInv sb d ino) (hi : i < sb.ninodes)
    (hw : Written sb d d₁ ino ino₁ i off src) (hoff : off ≤ (ino i).size)
    (hgt : (ino i).size < off + src.length) (hmax : off + src.length < 2 ^ 32)
    (htype : (ino i).type ≠ 0) :
    Stored sb d (iupdate sb d₁ i { ino₁ i with size := off + src.length }) ino
      (Function.update ino₁ i { ino₁ i with size := off + src.length }) i off src := by
  obtain ⟨ip, hip⟩ : ∃ ip, { ino₁ i with size := off + src.length } = ip := ⟨_, rfl⟩
  obtain ⟨ino₂, hino₂⟩ : ∃ ino₂, Function.update ino₁ i ip = ino₂ := ⟨_, rfl⟩
  have hsame : ino₂ i = ip := by rw [← hino₂, Function.update_self]
  have hother : ∀ n, n ≠ i → ino₂ n = ino n := fun n hn => by
    rw [← hino₂, Function.update_of_ne hn, hw.others n hn]
  have haddrs : ∀ n, (ino₂ n).addrs = (ino₁ n).addrs := fun n => by
    by_cases hn : n = i
    · rw [hn, hsame, ← hip]
    · rw [hother n hn, hw.others n hn]
  have hself : ino₂ i = { ino i with addrs := (ino₂ i).addrs, size := (ino₂ i).size } := by
    rw [haddrs i, hsame, ← hip, hw.self]
  have hsize : (ino₂ i).size = off + src.length := by rw [hsame, ← hip]
  have hg : Good sb d₁ ino₂ := hw.good.congr_addrs haddrs
  have hbytes : ∀ n o, byteAt d₁ ino₂ n o = byteAt d₁ ino₁ n o := fun n o => by
    rw [byteAt, byteAt, ref_congr haddrs]
  -- every place below the new size has a block
  have hfull : ∀ n o, n < sb.ninodes → o < (ino₂ n).size →
      o / BSIZE < MAXFILE ∧ ref d₁ ino₂ (blockOf n (o / BSIZE)) ≠ 0 := fun n o hn ho => by
    rw [ref_congr haddrs]
    by_cases hni : n = i
    · subst hni
      rw [hsize] at ho
      by_cases hlt : off ≤ o
      · exact hw.filled o hlt ho
      · obtain ⟨hbn, hne⟩ := h.full n o hn (by omega)
        exact ⟨hbn, by rw [hw.grow _ (blockOf_valid hn hbn) hne]; exact hne⟩
    · rw [hother n hni] at ho
      obtain ⟨hbn, hne⟩ := h.full n o hn ho
      exact ⟨hbn, by rw [hw.grow _ (blockOf_valid hn hbn) hne]; exact hne⟩
  have hdisk : ∀ n o, n < sb.ninodes → o < (ino₂ n).size →
      byteAt (iupdate sb d₁ i ip) ino₂ n o = byteAt d₁ ino₁ n o := fun n o hn ho => by
    obtain ⟨hbn, hne⟩ := hfull n o hn ho
    rw [byteAt_iupdate hl hg hi hn hbn hne, hbytes]
  rw [hip, hino₂]
  refine ⟨⟨hg.iupdate hl hi ip, fun n o hn ho => ?_, fun n hn => ?_, fun n hn h0 => ?_⟩, ?_,
    fun n hn hne => ?_, by rw [hself]⟩
  · obtain ⟨hbn, hne⟩ := hfull n o hn ho
    exact ⟨hbn, by rw [ref_iupdate hl hg hi (blockOf_valid hn hbn)]; exact hne⟩
  · by_cases hni : n = i
    · subst hni
      have hrange := h.inRange hl hg hn (by rw [hsize]; exact hmax) hself fun k hk => by
        rw [haddrs, hw.last k hk]
      rw [hsame] at hrange ⊢
      exact readDinode_iupdate hrange
    · rw [readDinode_iupdate_of_ne hni, readDinode_low hl hn hw.low, h.synced n hn, hother n hni]
  · by_cases hni : n = i
    · subst hni
      rw [hself] at h0
      exact absurd h0 htype
    · rw [hother n hni] at h0 ⊢
      exact h.free n hn h0
  · refine List.ext_getElem? fun o => ?_
    rw [getElem?_content, getElem?_splice (by rw [length_content]; exact hoff), getElem?_content,
      hsize]
    by_cases hin : off ≤ o ∧ o < off + src.length
    · rw [if_pos hin.2, if_pos hin, hdisk i o hi (by omega), hw.bytes o hin.1 hin.2,
        List.getD_eq_getElem?_getD, List.getElem?_eq_getElem (by omega), Option.getD_some]
    · rw [if_neg hin]
      by_cases ho : o < off
      · obtain ⟨hbn, hne⟩ := h.full i o hi (by omega)
        rw [if_pos (by omega), if_pos (by omega), hdisk i o hi (by omega),
          hw.frame i o hi hbn hne (.inr (.inl ho))]
      · rw [if_neg (by omega), if_neg (by omega)]
  · have hsz : (ino₂ n).size = (ino n).size := by rw [hother n hne]
    refine content_congr hsz fun o ho => ?_
    obtain ⟨hbn, hne'⟩ := h.full n o hn ho
    rw [hdisk n o hn (by rw [hsz]; exact ho), hw.frame n o hn hbn hne' (.inl hne)]

/-- What `writei` logs besides what was logged before: bitmap blocks, the block of the inode, the
indirect block and the blocks written. -/
def Logs (sb : Superblock) (d d' : Dev) (ino' : Nat → Inode) (i off len : Nat) : Prop :=
  ∀ x ∈ d'.logged, x ∈ d.logged ∨ (∃ c, c < sb.size ∧ x = BBLOCK sb c) ∨ x = IBLOCK sb i ∨
    x = ref d' ino' (.addr i NDIRECT) ∨
    ∃ o, off ≤ o ∧ o < off + len ∧ x = ref d' ino' (blockOf i (o / BSIZE))

/-- `writei` either refuses and changes nothing, or stores all of `src`. -/
theorem writei_spec (hl : Layout sb) (h : FsInv sb d ino) (hi : i < sb.ninodes)
    (htype : (ino i).type ≠ 0) (hoff : off < 2 ^ 32) (hn : src.length < 2 ^ 32) {r : Option Nat}
    (hw : writei sb d i (ino i) off src = some (r, d', ip')) :
    (r = none ∧ d' = d ∧ ip' = ino i ∧
        ((ino i).size < off ∨ MAXFILE * BSIZE < off + src.length)) ∨
      (r = some src.length ∧ off ≤ (ino i).size ∧ off + src.length ≤ MAXFILE * BSIZE ∧
        Stored sb d d' ino (Function.update ino i ip') i off src ∧
        Logs sb d d' (Function.update ino i ip') i off src.length) := by
  have hmod : ¬ (off + src.length) % 2 ^ 32 < off → (off + src.length) % 2 ^ 32 = off + src.length :=
    fun hno => by omega
  have hbig : MAXFILE * BSIZE < 2 ^ 31 := by decide
  unfold writei at hw
  simp only at hw
  split at hw
  next hcond =>
    obtain ⟨rfl, heq⟩ := Prod.mk.inj (Option.some.inj hw)
    obtain ⟨rfl, rfl⟩ := Prod.mk.inj heq
    exact .inl ⟨rfl, rfl, rfl, by omega⟩
  next hcond =>
    rw [not_or] at hcond
    rw [hmod hcond.2] at hw
    split at hw
    next hmax =>
      obtain ⟨rfl, heq⟩ := Prod.mk.inj (Option.some.inj hw)
      obtain ⟨rfl, rfl⟩ := Prod.mk.inj heq
      exact .inl ⟨rfl, rfl, rfl, .inr hmax⟩
    next hmax =>
      obtain ⟨⟨d₁, ip₁, off'⟩, hloop, heq⟩ := Option.map_eq_some_iff.mp hw
      obtain ⟨rfl, hwrote⟩ := writeLoop_wrote hl h.good hi hloop
      simp only at heq
      split at heq
      next hgrow =>
        simp only [Prod.mk.injEq] at heq
        obtain ⟨rfl, rfl, rfl⟩ := heq
        have hstored := hwrote.stored_grow hl h hi (by omega) hgrow.2 (by omega) htype
        have hself : Function.update ino i ip₁ i = ip₁ := Function.update_self ..
        rw [Function.update_idem, hself] at hstored
        refine .inr ⟨rfl, by omega, by omega, hstored, fun x hx => ?_⟩
        have hg : Good sb d₁ (Function.update ino i { ip₁ with size := off + src.length }) :=
          hwrote.good.congr_addrs fun n => by
            by_cases hni : n = i
            · subst hni
              simp
            · simp [hni]
        have hrefs : ∀ t, t.Valid sb →
            ref (iupdate sb d₁ i { ip₁ with size := off + src.length })
              (Function.update ino i { ip₁ with size := off + src.length }) t =
            ref d₁ (Function.update ino i ip₁) t := fun t ht => by
          rw [ref_iupdate hl hg hi ht]
          refine ref_congr (fun n => ?_) t
          by_cases hni : n = i
          · subst hni
            simp
          · simp [hni]
        rcases Finset.mem_insert.mp hx with rfl | hx
        · exact .inr (.inr (.inl rfl))
        · rcases hwrote.logged x hx with hx | hx | ⟨-, hx⟩ | ⟨o, ho, hlt, hx⟩
          · exact .inl hx
          · exact .inr (.inl hx)
          · exact .inr (.inr (.inr (.inl (hx.trans
              (hrefs (.addr i NDIRECT) ⟨hi, by decide⟩).symm))))
          · refine .inr (.inr (.inr (.inr ⟨o, ho, hlt, ?_⟩)))
            rw [hrefs _ (blockOf_valid hi (hwrote.filled o ho hlt).1), hx]
      next hgrow =>
        simp only [Prod.mk.injEq] at heq
        obtain ⟨rfl, rfl, rfl⟩ := heq
        have hle : off + src.length ≤ (ino i).size := by omega
        refine .inr ⟨rfl, by omega, by omega, hwrote.stored_within hl h hi hle, fun x hx => ?_⟩
        rcases hwrote.logged x hx with hx | hx | ⟨-, hx⟩ | hx
        · exact .inl hx
        · exact .inr (.inl hx)
        · exact .inr (.inr (.inr (.inl hx)))
        · exact .inr (.inr (.inr (.inr hx)))

/-! ## `readi` -/

/-- Where the file has a block, `bmap` only looks it up. -/
theorem bmap_full {bn : Nat} (hbn : bn < MAXFILE) (hne : ref d ino (blockOf i bn) ≠ 0) :
    bmap sb d (ino i) bn = some (ref d ino (blockOf i bn), d, ino i) := by
  unfold bmap
  by_cases hd : bn < NDIRECT
  · rw [blockOf, if_pos hd] at hne ⊢
    rw [if_pos hd, fillAddr]
    exact if_neg hne
  · have hs : blockOf i bn = .entry i (bn - NDIRECT) := if_neg hd
    rw [hs] at hne ⊢
    have hj : bn - NDIRECT < NINDIRECT := by
      unfold MAXFILE at hbn
      omega
    have hind : (ino i).addrs NDIRECT ≠ 0 := fun h0 => hne (by simp [ref, h0])
    have href : ref d ino (.entry i (bn - NDIRECT)) =
        getLE 4 (d.block ((ino i).addrs NDIRECT)) (4 * (bn - NDIRECT)) := if_neg hind
    rw [href] at hne ⊢
    rw [if_neg hd, if_pos hj, fillAddr, if_neg hind, Option.bind_some, fillEntry]
    simp only [if_neg hne, Option.map_some]

theorem readLoop_full (h : FsInv sb d ino) (hi : i < sb.ninodes) (off n : Nat)
    (hle : off + n ≤ (ino i).size) :
    readLoop sb d (ino i) off n =
      some ((List.range n).map fun j => byteAt d ino i (off + j), d, ino i) := by
  rw [readLoop]
  split
  next h0 =>
    subst h0
    rfl
  next h0 =>
    obtain ⟨hbn, hne⟩ := h.full i off hi (by omega)
    obtain ⟨m, hm⟩ : ∃ m, min n (BSIZE - off % BSIZE) = m := ⟨_, rfl⟩
    have hlt : off % BSIZE < BSIZE := Nat.mod_lt _ (by decide)
    rw [bmap_full hbn hne, Option.bind_some]
    simp only [hm]
    rw [readLoop_full h hi (off + m) (n - m) (by omega), Option.map_some]
    have hchunk : load (d.block (ref d ino (blockOf i (off / BSIZE)))) (off % BSIZE) m =
        (List.range m).map fun j => byteAt d ino i (off + j) := by
      refine List.map_congr_left fun j hj => ?_
      have hj := List.mem_range.mp hj
      have hplace : (off + j) / BSIZE = off / BSIZE ∧ (off + j) % BSIZE = off % BSIZE + j := by
        simp only [BSIZE] at *
        omega
      rw [byteAt, hplace.1, hplace.2]
    have hsplit : List.range n = List.range m ++ (List.range (n - m)).map (m + ·) := by
      rw [← List.range_add]
      congr 1
      omega
    rw [hchunk, hsplit, List.map_append, List.map_map]
    refine congrArg (fun l => some (_ ++ l, _)) (List.map_congr_left fun j _ => ?_)
    simp [Nat.add_assoc]
termination_by n
decreasing_by
  omega

/-- `readi` gives the bytes of the file and changes nothing. -/
theorem readi_spec (h : FsInv sb d ino) (hi : i < sb.ninodes) (hoff : off < 2 ^ 32)
    (hn : n < 2 ^ 32) :
    readi sb d (ino i) off n =
      some (if off ≤ (ino i).size ∧ off + n < 2 ^ 32 then
        some (((content d ino i).drop off).take n) else none, d, ino i) := by
  have hlist : ∀ m, off + m ≤ (ino i).size → (m = n ∨ off + m = (ino i).size ∧ m ≤ n) →
      (List.range m).map (fun j => byteAt d ino i (off + j)) =
        ((content d ino i).drop off).take n := fun m hm hmn => by
    refine List.ext_getElem? fun j => ?_
    rw [List.getElem?_take, List.getElem?_drop, getElem?_content, List.getElem?_map]
    by_cases hj : j < m
    · rw [List.getElem?_range hj, if_pos (by omega), if_pos (by omega)]
      rfl
    · rw [List.getElem?_eq_none (by simp; omega), Option.map_none]
      split
      · rw [if_neg (by omega)]
      · rfl
  unfold readi
  by_cases hc : off ≤ (ino i).size ∧ off + n < 2 ^ 32
  · have hmod : (off + n) % 2 ^ 32 = off + n := Nat.mod_eq_of_lt hc.2
    rw [if_neg (by omega), if_pos hc, hmod]
    simp only
    split
    next hgt =>
      rw [readLoop_full h hi off _ (by omega), Option.map_some,
        hlist _ (by omega) (.inr (by omega))]
    next hle =>
      rw [readLoop_full h hi off _ (by omega), Option.map_some, hlist n (by omega) (.inl rfl)]
  · rw [if_pos (by omega), if_neg hc]

end Xv6
end SsuComputer
