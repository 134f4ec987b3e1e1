import SsuComputer.Xv6.FsTrunc
import SsuComputer.Xv6.Log
import Mathlib.Data.Finset.Card

/-!
# SsuComputer.Xv6.FsStore

The file system over whole runs.

`Step` is an operation on a locked inode, or an entry of the inode cache that is recycled, or the
end of a transaction. `files` is what the files should hold.

* `fs_files` — a read gives what was written, and no inode in the cache differs from the disk.
* `fs_blocks` — the bitmap marks exactly the blocks in front of the data and those that a file
  holds, each of them held once; `itrunc` never panics.
* `filewrite_fits` — a piece that `filewrite` writes in one transaction logs at most seven blocks.
-/

namespace SsuComputer
namespace Xv6

def T_DEV : Nat := 3

structure FsSys where
  d : Dev
  cache : Nat → Option Inode
  files : Nat → List Nat

namespace FsSys

/-- The copy after `ilock`. -/
def inode (sb : Superblock) (s : FsSys) (i : Nat) : Inode :=
  (s.cache i).getD (readDinode sb s.d i)

inductive Step (sb : Superblock) : FsSys → FsSys → Prop
  | write {s : FsSys} {r : Option Nat} {d : Dev} {ip : Inode} (i off : Nat) (src : List Nat)
    (hi : i < sb.ninodes) (hoff : off < 2 ^ 32) (hn : src.length < 2 ^ 32)
    (ht : (s.inode sb i).type ≠ 0) (hdev : (s.inode sb i).type ≠ T_DEV)
    (hw : writei sb s.d i (s.inode sb i) off src = some (r, d, ip)) :
    Step sb s ⟨d, Function.update s.cache i (some ip), match r with
      | none => s.files
      | some _ => Function.update s.files i (splice (s.files i) off src)⟩
  | read {s : FsSys} {r : Option (List Nat)} {d : Dev} {ip : Inode} (i off n : Nat)
    (hi : i < sb.ninodes) (hoff : off < 2 ^ 32) (hn : n < 2 ^ 32)
    (ht : (s.inode sb i).type ≠ 0) (hdev : (s.inode sb i).type ≠ T_DEV)
    (hr : readi sb s.d (s.inode sb i) off n = some (r, d, ip)) :
    Step sb s { s with d := d, cache := Function.update s.cache i (some ip) }
  | link {s : FsSys} (i nlink : Nat) (hi : i < sb.ninodes) (hn : nlink < 2 ^ 16)
    (ht : (s.inode sb i).type ≠ 0) :
    Step sb s { s with
      d := iupdate sb s.d i { s.inode sb i with nlink := nlink }
      cache := Function.update s.cache i (some { s.inode sb i with nlink := nlink }) }
  /-- `iput`, where no link and no other reference is left. -/
  | put {s : FsSys} {d : Dev} {ip : Inode} (i : Nat) (hi : i < sb.ninodes)
    (ht : itrunc sb s.d i (s.inode sb i) = some (d, ip)) :
    Step sb s ⟨iupdate sb d i { ip with type := 0 }, Function.update s.cache i none,
      Function.update s.files i []⟩
  | alloc {s : FsSys} {d : Dev} {i : Nat} (type : Nat) (h0 : type ≠ 0) (hlt : type < 2 ^ 16)
    (ha : ialloc sb s.d type = some (i, d)) : Step sb s { s with d := d }
  | evict {s : FsSys} (i : Nat) : Step sb s { s with cache := Function.update s.cache i none }
  | commit {s : FsSys} : Step sb s { s with d := { s.d with logged := ∅ } }

structure Inv (sb : Superblock) (s : FsSys) (ino : Nat → Inode) : Prop where
  fs : FsInv sb s.d ino
  cache : ∀ i ip, i < sb.ninodes → s.cache i = some ip → ip = ino i ∧ ip.type ≠ 0
  files : ∀ i, i < sb.ninodes → content s.d ino i = s.files i

variable {sb : Superblock} {s s' : FsSys} {ino : Nat → Inode} {i : Nat} {ip : Inode} {d : Dev}

theorem Inv.inode_eq (h : s.Inv sb ino) (hi : i < sb.ninodes) : s.inode sb i = ino i := by
  unfold inode
  cases hc : s.cache i with
  | none => exact h.fs.synced i hi
  | some ip => exact (h.cache i ip hi hc).1

/-- A change of the fields that say nothing of the blocks. -/
theorem iupdate_inv (hl : Layout sb) (h : FsInv sb d ino) (hi : i < sb.ninodes) (ip : Inode)
    (hip : ip.InRange) (haddrs : ip.addrs = (ino i).addrs) (hsize : ip.size = (ino i).size)
    (hfree : ip.type = 0 → ip.size = 0 ∧ ∀ k, ip.addrs k = 0) :
    FsInv sb (iupdate sb d i ip) (Function.update ino i ip) ∧
      ∀ n, n < sb.ninodes →
        content (iupdate sb d i ip) (Function.update ino i ip) n = content d ino n := by
  obtain ⟨ino', hino'⟩ : ∃ ino', Function.update ino i ip = ino' := ⟨_, rfl⟩
  rw [hino']
  have hsame : ino' i = ip := by rw [← hino', Function.update_self]
  have hother : ∀ n, n ≠ i → ino' n = ino n := fun n hn => by
    rw [← hino', Function.update_of_ne hn]
  have haddrs' : ∀ n, (ino' n).addrs = (ino n).addrs := fun n => by
    by_cases hn : n = i
    · rw [hn, hsame, haddrs]
    · rw [hother n hn]
  have hsize' : ∀ n, (ino' n).size = (ino n).size := fun n => by
    by_cases hn : n = i
    · rw [hn, hsame, hsize]
    · rw [hother n hn]
  have hg : Good sb d ino' := h.good.congr_addrs haddrs'
  have hfull : ∀ n o, n < sb.ninodes → o < (ino' n).size →
      o / BSIZE < MAXFILE ∧ ref d ino' (blockOf n (o / BSIZE)) ≠ 0 := fun n o hn ho => by
    rw [ref_congr haddrs']
    exact h.full n o hn (by rw [← hsize' n]; exact ho)
  refine ⟨⟨hg.iupdate hl hi ip, fun n o hn ho => ?_, fun n hn => ?_, fun n hn h0 => ?_⟩,
    fun n hn => content_congr (hsize' n) fun o ho => ?_⟩
  · obtain ⟨hbn, hne⟩ := hfull n o hn ho
    exact ⟨hbn, by rw [ref_iupdate hl hg hi (blockOf_valid hn hbn)]; exact hne⟩
  · by_cases hni : n = i
    · subst hni
      rw [hsame]
      exact readDinode_iupdate hip
    · rw [readDinode_iupdate_of_ne hni, h.synced n hn, hother n hni]
  · by_cases hni : n = i
    · subst hni
      rw [hsame] at h0 ⊢
      exact hfree h0
    · rw [hother n hni] at h0 ⊢
      exact h.free n hn h0
  · obtain ⟨hbn, hne⟩ := hfull n o hn (by rw [hsize' n]; exact ho)
    rw [byteAt_iupdate hl hg hi hn hbn hne, byteAt, byteAt, ref_congr haddrs']

theorem ino_inRange (h : FsInv sb d ino) (hi : i < sb.ninodes) : (ino i).InRange := by
  rw [← h.synced i hi]
  exact readDinode_inRange sb d i

/-- A step that puts the inode `i` to `ip`. -/
theorem Inv.cache_update (h : s.Inv sb ino) (ht : ip.type ≠ 0) :
    ∀ n jp, n < sb.ninodes → Function.update s.cache i (some ip) n = some jp →
      jp = Function.update ino i ip n ∧ jp.type ≠ 0 := by
  intro n jp hn hc
  by_cases hni : n = i
  · subst hni
    rw [Function.update_self] at hc ⊢
    obtain rfl := Option.some.inj hc
    exact ⟨rfl, ht⟩
  · rw [Function.update_of_ne hni] at hc ⊢
    exact h.cache n jp hn hc

/-- A step that takes the inode `i` out of the cache. -/
theorem Inv.cache_none (h : s.Inv sb ino) (ip : Inode) :
    ∀ n jp, n < sb.ninodes → Function.update s.cache i none n = some jp →
      jp = Function.update ino i ip n ∧ jp.type ≠ 0 := by
  intro n jp hn hc
  by_cases hni : n = i
  · subst hni
    simp at hc
  · rw [Function.update_of_ne hni] at hc ⊢
    exact h.cache n jp hn hc

/-- The inode was read into the cache, or was there. -/
theorem Inv.cached (h : s.Inv sb ino) (ht : (ino i).type ≠ 0) :
    Inv sb { s with cache := Function.update s.cache i (some (ino i)) } ino := by
  have hcache := h.cache_update (i := i) ht
  rw [Function.update_eq_self] at hcache
  exact ⟨h.fs, hcache, h.files⟩

theorem Inv.evict (h : s.Inv sb ino) (i : Nat) :
    Inv sb { s with cache := Function.update s.cache i none } ino := by
  have hcache := h.cache_none (i := i) (ino i)
  rw [Function.update_eq_self] at hcache
  exact ⟨h.fs, hcache, h.files⟩

theorem Inv.write {r : Option Nat} {off : Nat} {src : List Nat} (hl : Layout sb) (h : s.Inv sb ino)
    (hi : i < sb.ninodes) (ht : (ino i).type ≠ 0) (hoff : off < 2 ^ 32) (hn : src.length < 2 ^ 32)
    (hw : writei sb s.d i (ino i) off src = some (r, d, ip)) :
    ∃ ino', Inv sb ⟨d, Function.update s.cache i (some ip), match r with
      | none => s.files
      | some _ => Function.update s.files i (splice (s.files i) off src)⟩ ino' := by
  rcases writei_spec hl h.fs hi ht hoff hn hw with ⟨rfl, rfl, rfl, -⟩ | ⟨rfl, -, -, hst, -⟩
  · exact ⟨ino, h.cached ht⟩
  · have htype : ip.type ≠ 0 := by
      have := hst.type
      rw [Function.update_self] at this
      rw [this]
      exact ht
    refine ⟨_, hst.inv, h.cache_update htype, fun n hn => ?_⟩
    by_cases hni : n = i
    · subst hni
      simp only [Function.update_self]
      rw [hst.written, h.files n hn]
    · simp only [Function.update_of_ne hni]
      rw [hst.others n hn hni, h.files n hn]

theorem Inv.link (hl : Layout sb) (h : s.Inv sb ino) {nlink : Nat} (hi : i < sb.ninodes)
    (hn : nlink < 2 ^ 16) (ht : (ino i).type ≠ 0) :
    ∃ ino', Inv sb { s with
      d := iupdate sb s.d i { ino i with nlink := nlink }
      cache := Function.update s.cache i (some { ino i with nlink := nlink }) } ino' := by
  have hrange := ino_inRange h.fs hi
  obtain ⟨hinv, hcontent⟩ := iupdate_inv hl h.fs hi { ino i with nlink := nlink }
    ⟨hrange.type, hrange.major, hrange.minor, hn, hrange.size, hrange.addrs, hrange.last⟩ rfl rfl
    fun h0 => absurd h0 ht
  exact ⟨_, hinv, h.cache_update ht, fun n hn => (hcontent n hn).trans (h.files n hn)⟩

/-- The file is emptied and the inode is free. -/
theorem Inv.put (hl : Layout sb) (h : s.Inv sb ino) (hi : i < sb.ninodes)
    (ht : itrunc sb s.d i (ino i) = some (d, ip)) :
    ∃ ino', Inv sb ⟨iupdate sb d i { ip with type := 0 }, Function.update s.cache i none,
      Function.update s.files i []⟩ ino' := by
  obtain ⟨d', htr, hinv, hothers, -⟩ := itrunc_spec hl h.fs hi
  rw [ht] at htr
  obtain ⟨rfl, rfl⟩ := Prod.mk.inj (Option.some.inj htr)
  have hrange := ino_inRange hinv hi
  rw [Function.update_self] at hrange
  obtain ⟨hinv', hcontent⟩ := iupdate_inv hl hinv hi
    { ino i with addrs := fun _ => 0, size := 0, type := 0 }
    ⟨Nat.two_pow_pos 16, hrange.major, hrange.minor, hrange.nlink, hrange.size, hrange.addrs,
      hrange.last⟩ (by rw [Function.update_self]) (by rw [Function.update_self])
    fun _ => ⟨rfl, fun _ => rfl⟩
  rw [Function.update_idem] at hinv' hcontent
  refine ⟨_, hinv', h.cache_none _, fun n hn => (hcontent n hn).trans ?_⟩
  by_cases hni : n = i
  · subst hni
    simp [content]
  · simp only [Function.update_of_ne hni]
    rw [hothers n hn hni, h.files n hn]

/-- `ialloc` finds a free inode. -/
theorem ialloc_free {type : Nat} (h : FsInv sb d ino) {d' : Dev}
    (ha : ialloc sb d type = some (i, d')) :
    i < sb.ninodes ∧ (ino i).type = 0 ∧ d' = iupdate sb d i ⟨type, 0, 0, 0, 0, fun _ => 0⟩ := by
  obtain ⟨inum, hfind, heq⟩ := Option.map_eq_some_iff.mp ha
  obtain ⟨rfl, rfl⟩ := Prod.mk.inj heq
  have hi : inum < sb.ninodes := by
    have := List.mem_range'_1.mp (List.mem_of_find?_eq_some hfind)
    omega
  refine ⟨hi, ?_, rfl⟩
  have hfree := List.find?_some hfind
  rw [h.synced inum hi] at hfree
  exact of_decide_eq_true hfree

theorem Inv.alloc (hl : Layout sb) (h : s.Inv sb ino) {type : Nat} (hlt : type < 2 ^ 16)
    (ha : ialloc sb s.d type = some (i, d)) : ∃ ino', Inv sb { s with d := d } ino' := by
  obtain ⟨hi, htype, rfl⟩ := ialloc_free h.fs ha
  obtain ⟨hsize, haddrs⟩ := h.fs.free i hi htype
  obtain ⟨hinv, hcontent⟩ := iupdate_inv hl h.fs hi ⟨type, 0, 0, 0, 0, fun _ => 0⟩
    ⟨hlt, Nat.two_pow_pos 16, Nat.two_pow_pos 16, Nat.two_pow_pos 16, Nat.two_pow_pos 32,
      fun _ => Nat.two_pow_pos 32, fun _ _ => rfl⟩ (funext fun k => (haddrs k).symm) hsize.symm
    fun _ => ⟨rfl, fun _ => rfl⟩
  refine ⟨_, hinv, fun n jp hn hc => ?_, fun n hn => (hcontent n hn).trans (h.files n hn)⟩
  have hold := h.cache n jp hn hc
  by_cases hni : n = i
  · -- a free inode is not in the cache
    subst hni
    exact absurd (hold.1 ▸ htype) hold.2
  · rw [Function.update_of_ne hni]
    exact hold

theorem Inv.commit (h : s.Inv sb ino) : Inv sb { s with d := { s.d with logged := ∅ } } ino :=
  ⟨⟨⟨h.fs.good.inj, h.fs.good.data, h.fs.good.marked⟩, h.fs.full, h.fs.synced, h.fs.free⟩, h.cache,
    h.files⟩

theorem step_inv (hl : Layout sb) (h : s.Inv sb ino) (hs : Step sb s s') :
    ∃ ino', s'.Inv sb ino' := by
  cases hs with
  | @write r d ip i off src hi hoff hn ht hdev hw =>
    rw [h.inode_eq hi] at ht hw
    have hwrite := h.write hl hi ht hoff hn hw
    cases r with
    | none => exact hwrite
    | some k => exact hwrite
  | read i off n hi hoff hn ht hdev hr =>
    rw [h.inode_eq hi] at ht hr
    rw [readi_spec h.fs hi hoff hn] at hr
    obtain ⟨-, heq⟩ := Prod.mk.inj (Option.some.inj hr)
    obtain ⟨rfl, rfl⟩ := Prod.mk.inj heq
    exact ⟨ino, h.cached ht⟩
  | link i nlink hi hn ht =>
    rw [h.inode_eq hi] at ht ⊢
    exact h.link hl hi hn ht
  | put i hi ht =>
    rw [h.inode_eq hi] at ht
    exact h.put hl hi ht
  | alloc type h0 hlt ha => exact h.alloc hl hlt ha
  | evict i => exact ⟨ino, h.evict i⟩
  | commit => exact ⟨ino, h.commit⟩

/-- A disk on which no file is open yet. -/
def start (d : Dev) (ino : Nat → Inode) : FsSys := ⟨d, fun _ => none, content d ino⟩

theorem run_inv (hl : Layout sb) (h : FsInv sb d ino)
    (hr : Relation.ReflTransGen (Step sb) (start d ino) s) : ∃ ino', s.Inv sb ino' :=
  runs_invariant (I := fun s : FsSys => ∃ ino', s.Inv sb ino')
    (fun _ _ hi hs => hi.elim fun _ hi => step_inv hl hi hs)
    ⟨ino, h, fun _ _ _ hc => (by cases hc), fun _ _ => rfl⟩ hr

/-! ## A small disk -/

/-- 100 blocks with 8 inodes. -/
def smallSb : Superblock := ⟨100, 8, 2, 4⟩

/-- One file, number 1, which is empty. -/
def smallDev : Dev :=
  ⟨fun b x => if b = 4 then if x = 0 then 31 else 0 else if b = 2 ∧ x = 64 then 2 else 0, ∅⟩

theorem smallSb_layout : Layout smallSb := ⟨by decide, by decide⟩

theorem small_addrs (k : Nat) (hi : i < 8) : (readDinode smallSb smallDev i).addrs k = 0 := by
  change (if k < 13 then _ else 0) = 0
  split
  · refine getLE_zero fun x hx hlt => ?_
    have hb : IBLOCK smallSb i = 2 := by
      simp only [IBLOCK, IPB, smallSb]
      omega
    have hx64 : x ≠ 64 := by
      simp only [dip, IPB] at hx hlt
      omega
    simp [smallDev, hb, hx64]
  · rfl

theorem small_inv : FsInv smallSb smallDev (readDinode smallSb smallDev) := by
  have hrefs : ∀ t, t.Valid smallSb → ref smallDev (readDinode smallSb smallDev) t = 0 := by
    intro t ht
    cases t with
    | addr n k => exact small_addrs k ht.1
    | entry n j => exact if_pos (small_addrs NDIRECT ht.1)
  have hbits : ∀ b, b < 100 → (bitOf smallSb smallDev b = true ↔ b < 5) := by decide
  have hsize : ∀ n, n < 8 → (readDinode smallSb smallDev n).size = 0 := by decide
  refine ⟨⟨fun s t hs ht heq hne => absurd (hrefs s hs) hne, fun s hs hne => absurd (hrefs s hs) hne,
    fun b hb => ?_⟩, fun n o hn ho => ?_, fun n hn => rfl, fun n hn _ => ⟨hsize n hn, fun k =>
      small_addrs k hn⟩⟩
  · rw [hbits b hb]
    refine (or_iff_left_of_imp ?_).symm
    rintro ⟨t, ht, rfl⟩
    rw [hrefs t ht]
    decide
  · rw [hsize n hn] at ho
    exact absurd ho (Nat.not_lt_zero o)

theorem writeLoop_short {off : Nat} {src : List Nat} (hne : src.length ≠ 0)
    (hfit : off % BSIZE + src.length ≤ BSIZE) :
    writeLoop sb d ip off src = (bmap sb d ip (off / BSIZE)).map fun r =>
      (r.2.1.log_write r.1 (blit (r.2.1.block r.1) (off % BSIZE) src), r.2.2, off + src.length) := by
  have hmin : min src.length (BSIZE - off % BSIZE) = src.length := by omega
  rw [writeLoop, if_neg hne, hmin]
  simp only [List.take_length, List.drop_length]
  cases bmap sb d ip (off / BSIZE) with
  | none => rfl
  | some r =>
    rw [Option.bind_some, Option.map_some, writeLoop, if_pos List.length_nil]

/-- There is room for a first block. -/
theorem small_write : ∃ d ip, writei smallSb smallDev 1 (readDinode smallSb smallDev 1) 0
    [7, 8, 9] = some (some 3, d, ip) := by
  have hempty : (readDinode smallSb smallDev 1).size = 0 := by decide
  have haddr : (readDinode smallSb smallDev 1).addrs (0 / BSIZE) = 0 :=
    small_addrs _ (by decide)
  obtain ⟨b, hb⟩ : ∃ b, firstFree smallSb smallDev = some b := by
    cases hfree : firstFree smallSb smallDev with
    | some b => exact ⟨b, rfl⟩
    | none =>
      have := firstFree_none hfree 50 (by decide)
      exact absurd this (by decide)
  have halloc : ∃ r, balloc smallSb smallDev = some r := by
    rw [balloc, hb]
    exact ⟨_, rfl⟩
  obtain ⟨r, hr⟩ := halloc
  have hmap : ∃ q, bmap smallSb smallDev (readDinode smallSb smallDev 1) (0 / BSIZE) = some q := by
    rw [bmap, if_pos (by decide), fillAddr, if_pos haddr, hr]
    exact ⟨_, rfl⟩
  obtain ⟨q, hq⟩ := hmap
  rw [writei, hempty, writeLoop_short (by decide) (by decide), hq]
  exact ⟨_, _, rfl⟩

/-- The small disk after that write. -/
theorem small_run : ∃ s, Relation.ReflTransGen (Step smallSb)
      (start smallDev (readDinode smallSb smallDev)) s ∧
    s.files 1 = [7, 8, 9] ∧ (s.inode smallSb 1).type = 2 := by
  obtain ⟨d, ip, hw⟩ := small_write
  have hrun := Relation.ReflTransGen.single (Step.write
    (s := start smallDev (readDinode smallSb smallDev)) 1 0 [7, 8, 9] (by decide) (by decide)
    (by decide) (by decide) (by decide) hw)
  refine ⟨_, hrun, rfl, ?_⟩
  rcases writei_spec smallSb_layout small_inv (by decide) (by decide) (by decide) (by decide) hw with
    ⟨hno, -⟩ | ⟨-, -, -, hst, -⟩
  · cases hno
  · have htype := hst.type
    rw [Function.update_self] at htype
    exact htype.trans (by decide)

/-- In every run a read gives the bytes of the file, and a cached inode is the one on disk. -/
theorem fs_files (hl : Layout sb) (h : FsInv sb d ino)
    (hr : Relation.ReflTransGen (Step sb) (start d ino) s) :
    (∀ i off n, i < sb.ninodes → (s.inode sb i).type ≠ T_DEV → off < 2 ^ 32 → n < 2 ^ 32 →
      readi sb s.d (s.inode sb i) off n =
        some (if off ≤ (s.files i).length ∧ off + n < 2 ^ 32 then
          some (((s.files i).drop off).take n) else none, s.d, s.inode sb i)) ∧
      ∀ i ip, i < sb.ninodes → s.cache i = some ip → readDinode sb s.d i = ip := by
  obtain ⟨ino', hinv⟩ := run_inv hl h hr
  refine ⟨fun i off n hi _ hoff hn => ?_, fun i ip hi hc => ?_⟩
  · rw [hinv.inode_eq hi, readi_spec hinv.fs hi hoff hn, ← hinv.files i hi, length_content]
  · rw [hinv.fs.synced i hi, (hinv.cache i ip hi hc).1]

theorem fs_files_small : ∃ s, Relation.ReflTransGen (Step smallSb)
      (start smallDev (readDinode smallSb smallDev)) s ∧
    readi smallSb s.d (s.inode smallSb 1) 1 5 = some (some [8, 9], s.d, s.inode smallSb 1) := by
  obtain ⟨s, hrun, hfiles, htype⟩ := small_run
  refine ⟨s, hrun, ?_⟩
  have hread := (fs_files smallSb_layout small_inv hrun).1 1 1 5 (by decide)
    (by rw [htype]; decide) (by decide) (by decide)
  rw [hread, hfiles]
  rfl

/-- In every run each marked block behind the bitmap is held by one slot, and `itrunc` gives those
of a file back. -/
theorem fs_blocks (hl : Layout sb) (h : FsInv sb d ino)
    (hr : Relation.ReflTransGen (Step sb) (start d ino) s) :
    (∀ b, nmeta sb ≤ b → b < sb.size →
      (bitOf sb s.d b = true ↔ ∃ t, t.Valid sb ∧ ref s.d (s.inode sb) t = b ∧
        ∀ u, u.Valid sb → ref s.d (s.inode sb) u = b → u = t)) ∧
      ∀ i, i < sb.ninodes → ∃ d' ip, itrunc sb s.d i (s.inode sb i) = some (d', ip) ∧
        ∀ t, t.Valid sb → t.inode = i → ref s.d (s.inode sb) t ≠ 0 →
          bitOf sb d' (ref s.d (s.inode sb) t) = false := by
  obtain ⟨ino', hinv⟩ := run_inv hl h hr
  have hrefs : ∀ t, t.Valid sb → ref s.d (s.inode sb) t = ref s.d ino' t := fun t ht => by
    cases t with
    | addr n k =>
      change (s.inode sb n).addrs k = (ino' n).addrs k
      rw [hinv.inode_eq ht.1]
    | entry n j => exact ref_entry_congr (by rw [hinv.inode_eq ht.1]) (fun _ => rfl) j
  refine ⟨fun b hlow hb => ?_, fun i hi => ?_⟩
  · have hpos := nmeta_pos sb
    rw [hinv.fs.good.marked b hb]
    constructor
    · rintro (hlt | ⟨t, ht, rfl⟩)
      · omega
      · refine ⟨t, ht, hrefs t ht, fun u hu heq => ?_⟩
        rw [hrefs u hu] at heq
        exact hinv.fs.good.inj u t hu ht heq (by omega)
    · rintro ⟨t, ht, heq, -⟩
      exact .inr ⟨t, ht, by rw [← hrefs t ht, heq]⟩
  · obtain ⟨d', htr, -, -, hfree⟩ := itrunc_spec hl hinv.fs hi
    refine ⟨d', _, by rw [hinv.inode_eq hi, htr], fun t ht hti hne => ?_⟩
    rw [hrefs t ht] at hne ⊢
    exact hfree t ht hti hne

/-- The block of the file is marked, and free again after `itrunc`. -/
theorem fs_blocks_small : ∃ s b d' ip, Relation.ReflTransGen (Step smallSb)
      (start smallDev (readDinode smallSb smallDev)) s ∧
    b ≠ 0 ∧ (s.inode smallSb 1).addrs 0 = b ∧ bitOf smallSb s.d b = true ∧
    itrunc smallSb s.d 1 (s.inode smallSb 1) = some (d', ip) ∧ bitOf smallSb d' b = false := by
  obtain ⟨s, hrun, hfiles, -⟩ := small_run
  obtain ⟨ino', hinv⟩ := run_inv smallSb_layout small_inv hrun
  have hsize : (ino' 1).size = 3 := by
    rw [← length_content, hinv.files 1 (by decide), hfiles]
    rfl
  have hslot : Slot.Valid smallSb (.addr 1 0) := ⟨by decide, by decide⟩
  have hne : ref s.d ino' (.addr 1 0) ≠ 0 := (hinv.fs.full 1 0 (by decide) (by omega)).2
  have hsame : ref s.d (s.inode smallSb) (.addr 1 0) = ref s.d ino' (.addr 1 0) :=
    congrArg (fun ip => ip.addrs 0) (hinv.inode_eq (by decide))
  obtain ⟨d', ip, htrunc, hfree⟩ := (fs_blocks smallSb_layout small_inv hrun).2 1 (by decide)
  refine ⟨s, _, d', ip, hrun, hne, hsame, ?_, htrunc, ?_⟩
  · exact (hinv.fs.good.marked _ (hinv.fs.good.data _ hslot hne).2).mpr (.inr ⟨_, hslot, rfl⟩)
  · rw [← hsame] at hne ⊢
    exact hfree _ hslot rfl hne

/-- The bytes that `filewrite` writes in one transaction. -/
def filewriteMax : Nat := ((MAXOPBLOCKS - 1 - 1 - 2) / 2) * 512

/-- With one block of bitmap, a piece of `filewrite` adds at most seven blocks to the log. -/
theorem filewrite_fits (hl : Layout sb) (hsize : sb.size ≤ BPB) (h : FsInv sb d ino)
    (hr : Relation.ReflTransGen (Step sb) (start d ino) s)
    (hi : i < sb.ninodes) (ht : (s.inode sb i).type ≠ 0) {off : Nat} (hoff : off < 2 ^ 32)
    {src : List Nat} (hn : src.length ≤ filewriteMax) {r : Option Nat} {d' : Dev}
    (hw : writei sb s.d i (s.inode sb i) off src = some (r, d', ip)) :
    (d'.logged \ s.d.logged).card ≤ 7 ∧ 7 < MAXOPBLOCKS - 1 := by
  refine ⟨?_, by decide⟩
  obtain ⟨ino', hinv⟩ := run_inv hl h hr
  rw [hinv.inode_eq hi] at ht hw
  have hmax : filewriteMax = 1536 := rfl
  rcases writei_spec hl hinv.fs hi ht hoff (by omega) hw with ⟨-, rfl, -⟩ | ⟨-, -, -, -, hlogs⟩
  · simp
  · obtain ⟨blocks, hblocks⟩ : ∃ blocks : Finset Nat, (Finset.range 4).image (fun k =>
        ref d' (Function.update ino' i ip) (blockOf i (off / BSIZE + k))) = blocks := ⟨_, rfl⟩
    have hcard : blocks.card ≤ 4 := by
      rw [← hblocks]
      exact Finset.card_image_le
    have hsub : d'.logged \ s.d.logged ⊆ insert sb.bmapstart (insert (IBLOCK sb i)
        (insert (ref d' (Function.update ino' i ip) (.addr i NDIRECT)) blocks)) := by
      intro x hx
      obtain ⟨hx, hnew⟩ := Finset.mem_sdiff.mp hx
      simp only [Finset.mem_insert]
      rcases hlogs x hx with hx | ⟨c, hc, rfl⟩ | hx | hx | ⟨o, ho, hlt, rfl⟩
      · exact absurd hx hnew
      · left
        rw [BBLOCK, Nat.div_eq_of_lt (Nat.lt_of_lt_of_le hc hsize), Nat.zero_add]
      · exact .inr (.inl hx)
      · exact .inr (.inr (.inl hx))
      · refine .inr (.inr (.inr ?_))
        rw [← hblocks]
        refine Finset.mem_image.mpr ⟨o / BSIZE - off / BSIZE, ?_, ?_⟩
        · rw [Finset.mem_range]
          simp only [BSIZE]
          omega
        · congr 2
          simp only [BSIZE]
          omega
    have h₁ := Finset.card_le_card hsub
    have h₂ := Finset.card_insert_le sb.bmapstart (insert (IBLOCK sb i)
        (insert (ref d' (Function.update ino' i ip) (.addr i NDIRECT)) blocks))
    have h₃ := Finset.card_insert_le (IBLOCK sb i)
        (insert (ref d' (Function.update ino' i ip) (.addr i NDIRECT)) blocks)
    have h₄ := Finset.card_insert_le (ref d' (Function.update ino' i ip) (.addr i NDIRECT)) blocks
    omega

theorem filewrite_fits_small : ∃ d ip, writei smallSb smallDev 1
    (readDinode smallSb smallDev 1) 0 [7, 8, 9] = some (some 3, d, ip) ∧ d.logged.card ≤ 7 := by
  obtain ⟨d, ip, hw⟩ := small_write
  have hfits := (filewrite_fits (s := start smallDev (readDinode smallSb smallDev))
    smallSb_layout (by decide) small_inv .refl (i := 1) (by decide) (by decide)
    (by decide) (by decide) hw).1
  have hempty : (start smallDev (readDinode smallSb smallDev)).d.logged = ∅ := rfl
  rw [hempty, Finset.sdiff_empty] at hfits
  exact ⟨d, ip, hw, hfits⟩

end FsSys

end Xv6
end SsuComputer
