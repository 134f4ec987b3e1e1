import SsuComputer.Xv6.BioCorrect
import SsuComputer.Xv6.LogCrash

/-!
# SsuComputer.Xv6.BioLog

The buffer cache provides the cache that the log is modelled over.

* `Cache` — a disk and a map from blocks to buffers, with the operations on them: a clean buffer
  may be dropped only while it agrees with the disk, and what is written back is what is cached.
* `does_op` — a step of the buffer cache is one such operation on the same block, or none.
* `sys_does_ops` — the steps of the log are made of the same operations.
* `bio_provides` — both for runs.
-/

namespace SsuComputer
namespace Xv6

open Relation

structure Cache where
  disk : Nat → Block
  buf : Nat → Option Buf

namespace Cache

inductive Op
  | fetch (n : Nat)
  | evict (n : Nat)
  | change (n : Nat) (v : Block)
  | bwrite (n : Nat)
  | log_write (n : Nat)

def put (c : Cache) (n : Nat) (buf : Option Buf) : Cache :=
  { c with buf := Function.update c.buf n buf }

def apply (c : Cache) : Op → Cache
  | .fetch n => c.put n (some ⟨c.disk n, false⟩)
  | .evict n => c.put n none
  | .change n v => c.put n ((c.buf n).map fun buf => { buf with data := v })
  | .bwrite n =>
    { c.put n ((c.buf n).map fun buf => { buf with dirty := false }) with
      disk := Function.update c.disk n ((c.buf n).elim (c.disk n) Buf.data) }
  | .log_write n => c.put n ((c.buf n).map fun buf => { buf with dirty := true })

/-- Nothing that was changed is dropped, and nothing is fetched over it. -/
def Allowed (c : Cache) : Op → Prop
  | .fetch n => c.buf n = none
  | .evict n => c.buf n = some ⟨c.disk n, false⟩
  | .change n _ => c.buf n ≠ none
  | .bwrite n => c.buf n ≠ none
  | .log_write n => c.buf n ≠ none

def empty (disk : Nat → Block) : Cache := ⟨disk, fun _ => none⟩

/-- The operations may be done one after the other, and make `c'` of `c`. -/
def Runs (c : Cache) (ops : List Op) (c' : Cache) : Prop :=
  Run.Guarded apply Allowed c ops ∧ c' = Run.exec apply c ops

theorem Runs.refl (c : Cache) : c.Runs [] c := ⟨trivial, rfl⟩

theorem Runs.single {c : Cache} {op : Op} (h : c.Allowed op) : c.Runs [op] (c.apply op) :=
  ⟨⟨h, trivial⟩, rfl⟩

theorem Runs.append {c c' c'' : Cache} {ops ops' : List Op} (h : c.Runs ops c')
    (h' : c'.Runs ops' c'') : c.Runs (ops ++ ops') c'' := by
  obtain ⟨hok, rfl⟩ := h
  obtain ⟨hok', rfl⟩ := h'
  exact ⟨(Run.guarded_append c ops ops').mpr ⟨hok, hok'⟩, (Run.exec_append c ops ops').symm⟩

end Cache

namespace Bio

def caches (h : BufHdr) (n : Nat) : Bool := h.valid && h.blockno == n

def cacheOf (s : Bio) (n : Nat) : Option Buf :=
  ((List.range NBUF).find? fun b => caches (s.buf b) n).map fun b =>
    ⟨(s.buf b).data, (s.buf b).dirty⟩

/-- The list of buffers as a map. -/
def toCache (s : Bio) : Cache := ⟨s.disk, s.cacheOf⟩

/-- The operation that a step amounts to. -/
def Event.op : Event → Option Cache.Op
  | .bget _ _ (some n) => some (.evict n)
  | .bread n true => some (.fetch n)
  | .change n v => some (.change n v)
  | .bwrite n => some (.bwrite n)
  | .log_write n => some (.log_write n)
  | .bget _ _ none | .bread _ false | .releasesleep _ | .brelse _ => none

section Steps

variable {V V' : Nat → Block} {s s' : Bio} {b : Nat} {hs : Multiset Handle}

theorem caches_unique (h : s.Inv V) {c n : Nat} (hb : b < NBUF) (hc : c < NBUF)
    (hcb : caches (s.buf b) n = true) (hcc : caches (s.buf c) n = true) : c = b := by
  simp only [caches, Bool.and_eq_true, beq_iff_eq] at hcb hcc
  by_contra hne
  have hdevb := (h.bufs b hb).device hcb.1
  have hdevc := (h.bufs c hc).device hcc.1
  have := (h.unique c b hc hb hne (hdevc.trans hdevb.symm) (hcc.2.trans hcb.2.symm)).1
  omega

theorem cacheOf_some (h : s.Inv V) (hb : b < NBUF) (hv : (s.buf b).valid = true) :
    s.cacheOf (s.buf b).blockno = some ⟨(s.buf b).data, (s.buf b).dirty⟩ := by
  have hself : caches (s.buf b) (s.buf b).blockno = true := by simp [caches, hv]
  unfold cacheOf
  cases hf : (List.range NBUF).find? fun c => caches (s.buf c) (s.buf b).blockno with
  | none =>
    rw [List.find?_eq_none] at hf
    exact absurd hself (hf b (List.mem_range.mpr hb))
  | some c =>
    have hc : c < NBUF := List.mem_range.mp (List.mem_of_find?_eq_some hf)
    rw [caches_unique h hb hc hself (by simpa using List.find?_some hf)]
    rfl

theorem cacheOf_none {n : Nat} (h : ∀ b, b < NBUF → caches (s.buf b) n = false) :
    s.cacheOf n = none := by
  have hf : (List.range NBUF).find? (fun c => caches (s.buf c) n) = none := by
    rw [List.find?_eq_none]
    intro c hc
    rw [h c (List.mem_range.mp hc)]
    simp
  rw [cacheOf, hf]
  rfl

/-- A step on the buffer `b` matters for the blocks that it cached or caches only. -/
theorem cacheOf_congr {n : Nat} (hbuf : ∀ c, c ≠ b → s'.buf c = s.buf c)
    (hold : caches (s.buf b) n = true → s'.buf b = { s.buf b with
      refcnt := (s'.buf b).refcnt, locked := (s'.buf b).locked })
    (hnew : caches (s'.buf b) n = true → caches (s.buf b) n = true) :
    s'.cacheOf n = s.cacheOf n := by
  have hentry : ∀ c, caches (s'.buf c) n = caches (s.buf c) n ∧ (caches (s.buf c) n = true →
      (s'.buf c).data = (s.buf c).data ∧ (s'.buf c).dirty = (s.buf c).dirty) := by
    intro c
    by_cases hc : c = b
    · subst hc
      cases hcb : caches (s.buf c) n with
      | true =>
        rw [hold hcb]
        exact ⟨hcb, fun _ => ⟨rfl, rfl⟩⟩
      | false => exact ⟨eq_false_of_ne_true fun ht => by simp [hnew ht] at hcb, nofun⟩
    · rw [hbuf c hc]
      exact ⟨rfl, fun _ => ⟨rfl, rfl⟩⟩
  have hpred : (fun c => caches (s'.buf c) n) = fun c => caches (s.buf c) n :=
    funext fun c => (hentry c).1
  unfold cacheOf
  rw [hpred]
  cases hf : (List.range NBUF).find? fun c => caches (s.buf c) n with
  | none => rfl
  | some c =>
    obtain ⟨hdata, hdirty⟩ := (hentry c).2 (by simpa using List.find?_some hf)
    simp [hdata, hdirty]

/-- Reference counts and locks are not part of what the cache holds. -/
theorem toCache_quiet (hdisk : s'.disk = s.disk) (hbuf : ∀ c, c ≠ b → s'.buf c = s.buf c)
    (hb : s'.buf b = { s.buf b with
      refcnt := (s'.buf b).refcnt, locked := (s'.buf b).locked }) : s'.toCache = s.toCache := by
  have hcache : s'.cacheOf = s.cacheOf :=
    funext fun n => cacheOf_congr hbuf (fun _ => hb) (by rw [hb]; exact id)
  rw [toCache, toCache, hdisk, hcache]

/-- A step on the buffer of one block changes what is cached of that block. -/
theorem cacheOf_own (hinv' : s'.Inv V') (hb : b < NBUF) (hbuf : ∀ c, c ≠ b → s'.buf c = s.buf c)
    (hkey : (s'.buf b).blockno = (s.buf b).blockno) (hv : (s'.buf b).valid = true) :
    s'.cacheOf = Function.update s.cacheOf (s.buf b).blockno
      (some ⟨(s'.buf b).data, (s'.buf b).dirty⟩) := by
  funext n
  by_cases hnb : n = (s.buf b).blockno
  · rw [hnb, Function.update_self, ← hkey, cacheOf_some hinv' hb hv]
  · have hcaches : ∀ hd : BufHdr, hd.blockno = (s.buf b).blockno → caches hd n ≠ true := by
      intro hd hblock ht
      simp only [caches, Bool.and_eq_true, beq_iff_eq] at ht
      exact hnb (ht.2.symm.trans hblock)
    rw [Function.update_of_ne hnb]
    exact cacheOf_congr hbuf (fun ht => absurd ht (hcaches _ rfl)) fun ht =>
      absurd ht (hcaches _ hkey)

theorem Inv.holding (h : s.Inv V) {c : Bool} (hh : s.handles = ⟨b, .holding c⟩ ::ₘ hs) :
    b < NBUF ∧ (s.buf b).valid = true := ⟨(h.handle hh).1, (h.holder hh).2.2.1⟩

/-- Recycling a buffer that holds a block is an eviction: nobody has changed the block since it was
last written. -/
theorem toCache_recycle (hinv : s.Inv V) (hs : Multiset Handle) {dev blockno : Nat} (hb : b < NBUF)
    (hv : (s.buf b).valid = true) (hrefs : (s.buf b).refcnt = 0)
    (hclean : (s.buf b).dirty = false) :
    s.toCache.Allowed (.evict (s.buf b).blockno) ∧
      toCache { s.set b { s.buf b with
          dev, blockno, valid := false, dirty := false, refcnt := 1 } with handles := hs } =
        s.toCache.apply (.evict (s.buf b).blockno) := by
  have hok := hinv.bufs b hb
  have hfree : ⟨b, .holding true⟩ ∉ s.handles := fun hmem => by
    have huses := hok.refs.symm.trans hrefs
    rw [Multiset.countP_eq_zero] at huses
    exact huses _ hmem (by simp [uses])
  refine ⟨?_, congrArg (Cache.mk s.disk) ?_⟩
  · change s.cacheOf _ = some ⟨s.disk _, false⟩
    rw [cacheOf_some hinv hb hv, hok.clean hv hclean hfree, hclean]
  funext n
  change _ = Function.update s.cacheOf (s.buf b).blockno none n
  by_cases hnb : n = (s.buf b).blockno
  · subst hnb
    rw [Function.update_self]
    refine cacheOf_none fun c hc => eq_false_of_ne_true fun ht => ?_
    by_cases hcb : c = b
    · rw [hcb] at ht
      simp [caches] at ht
    · have hcc : caches (s.buf c) (s.buf b).blockno = true := by
        rw [← set_buf_of_ne s hcb]
        exact ht
      exact hcb (caches_unique hinv hb hc (by simp [caches, hv]) hcc)
  · rw [Function.update_of_ne hnb]
    refine cacheOf_congr (b := b) (fun c hc => set_buf_of_ne s hc _) (fun ht => ?_) fun ht => ?_
    · simp [caches, Ne.symm hnb] at ht
    · simp [caches] at ht

/-- A buffer without data was not cached before it is recycled. -/
theorem toCache_reuse (hs : Multiset Handle) {dev blockno : Nat} (hv : (s.buf b).valid = false) :
    toCache { s.set b { s.buf b with
        dev, blockno, valid := false, dirty := false, refcnt := 1 } with handles := hs } =
      s.toCache := by
  refine congrArg (Cache.mk s.disk) (funext fun n => ?_)
  exact cacheOf_congr (b := b) (fun c hc => set_buf_of_ne s hc _)
    (fun ht => by simp [caches, hv] at ht) fun ht => by simp [caches] at ht

/-- A `bread` that goes to the disk is a fetch. -/
theorem toCache_load (hinv : s.Inv V) (hh : s.handles = ⟨b, .waiting⟩ ::ₘ hs)
    (hfree : (s.buf b).locked = false) (hr : s.bread b = .ok s') (hv : (s.buf b).valid = false) :
    s.toCache.Allowed (.fetch (s.buf b).blockno) ∧
      toCache { s' with handles := ⟨b, .holding false⟩ ::ₘ hs } =
        s.toCache.apply (.fetch (s.buf b).blockno) := by
  obtain ⟨hb, hok⟩ := hinv.handle hh
  have hinv' := hinv.bread hh hfree hr
  have hclean : (s.buf b).dirty = false := eq_false_of_ne_true fun hd => by
    simp [hok.dirty hd] at hv
  unfold Bio.bread at hr
  simp only [set_buf_self, hv, Bool.false_eq_true, if_false] at hr
  obtain ⟨-, hdev, ⟨hdirty, -⟩ | ⟨-, -, rfl⟩⟩ := iderw_spec hr
  · simp [hclean] at hdirty
  · simp only [set_buf_self] at hdev
    refine ⟨cacheOf_none fun c hc => eq_false_of_ne_true fun ht => ?_,
      congrArg (Cache.mk s.disk) ((cacheOf_own (s := s) hinv' hb (fun c hc => ?_) ?_ ?_).trans ?_)⟩
    · simp only [caches, Bool.and_eq_true, beq_iff_eq] at ht
      have hcb : c ≠ b := fun hcb => by simp [hcb, hv] at ht
      have hdevc := (hinv.bufs c hc).device ht.1
      have := (hinv.unique c b hc hb hcb (hdevc.trans hdev.symm) ht.2).1
      omega
    · change ((s.set b _).set b _).buf c = s.buf c
      rw [set_buf_of_ne _ hc, set_buf_of_ne s hc]
    · simp
    · simp
    · simp only [set_buf_self, hclean]
      rfl

/-- What a holder does to the data or to the mark of its buffer. -/
theorem toCache_holder (hinv : s.Inv V) {c : Bool} (hh : s.handles = ⟨b, .holding c⟩ ::ₘ hs) :
    s.toCache.buf (s.buf b).blockno = some ⟨(s.buf b).data, (s.buf b).dirty⟩ := by
  obtain ⟨hb, hv⟩ := hinv.holding hh
  exact cacheOf_some hinv hb hv

/-- Each step of the buffer cache is the operation that its event names, or leaves the map alone. -/
theorem does_op {xs : List Nat} {e : Event} (hinv : s.Inv V) (hl : s.Listed xs)
    (hs : Does s e s') : s.toCache.Runs e.op.toList s'.toCache := by
  cases hs with
  | bget hb =>
    obtain ⟨hbN, ⟨hout, -, -, rfl⟩ | ⟨hout, -, -, hrefs, hclean, rfl⟩⟩ := bget_spec hl hb <;>
      rw [hout]
    · exact ⟨trivial, toCache_quiet rfl (fun c hc => set_buf_of_ne s hc _) (by simp)⟩
    · split
      · rename_i hv
        obtain ⟨hok, hrec⟩ := toCache_recycle hinv (⟨_, .waiting⟩ ::ₘ s.handles) hbN hv hrefs hclean
        exact ⟨⟨hok, trivial⟩, hrec⟩
      · rename_i hv
        exact ⟨trivial, toCache_reuse _ (eq_false_of_ne_true hv)⟩
  | @bread s1 b hs hh hfree hr =>
    cases hv : (s.buf b).valid with
    | false =>
      obtain ⟨hok, hload⟩ := toCache_load hinv hh hfree hr hv
      exact ⟨⟨hok, trivial⟩, hload⟩
    | true =>
      unfold Bio.bread at hr
      simp only [set_buf_self, hv, if_true] at hr
      cases hr
      exact ⟨trivial, toCache_quiet rfl (fun c hc => set_buf_of_ne s hc _) (by simp [hv])⟩
  | @change b c hs v hh =>
    obtain ⟨hb, hv⟩ := hinv.holding hh
    have hbuf := toCache_holder hinv hh
    refine ⟨⟨by rw [Cache.Allowed, hbuf]; simp, trivial⟩, congrArg (Cache.mk s.disk) ?_⟩
    refine (cacheOf_own (s := s) (hinv.change v hh) hb (fun c hc => set_buf_of_ne s hc _) (by simp)
      (by simpa using hv)).trans ?_
    simp only [hbuf, set_buf_self, Option.map_some]
    rfl
  | @bwrite s1 b c hs hh hw =>
    obtain ⟨hb, hv⟩ := hinv.holding hh
    have hbuf := toCache_holder hinv hh
    have hinv' := hinv.bwrite hh hw
    refine ⟨⟨by rw [Cache.Allowed, hbuf]; simp, trivial⟩, ?_⟩
    obtain ⟨-, -, ⟨-, rfl⟩ | ⟨hdirty, -, -⟩⟩ := iderw_spec hw
    · have hcache := cacheOf_own (s := s) hinv' hb (fun c hc => by
        change ((s.set b _).set b _).buf c = s.buf c
        rw [set_buf_of_ne _ hc, set_buf_of_ne s hc]) (by simp) (by simp)
      rw [toCache, hcache]
      change _ = s.toCache.apply (.bwrite (s.buf b).blockno)
      simp only [set_buf_self, Cache.apply, hbuf, Option.map_some, Option.elim_some]
      rfl
    · simp at hdirty
  | @log_write b c hs hh =>
    obtain ⟨hb, hv⟩ := hinv.holding hh
    have hbuf := toCache_holder hinv hh
    refine ⟨⟨by rw [Cache.Allowed, hbuf]; simp, trivial⟩, congrArg (Cache.mk s.disk) ?_⟩
    refine (cacheOf_own (s := s) (hinv.log_write hh) hb (fun c hc => set_buf_of_ne s hc _) (by simp)
      (by simpa using hv)).trans ?_
    simp only [hbuf, set_buf_self, Option.map_some]
    rfl
  | @releasesleep b hs hh =>
    refine ⟨trivial, toCache_quiet (b := b) rfl (fun c hc => set_buf_of_ne s hc _) ?_⟩
    simp [Bio.releasesleep]
  | @brelse b hs hh =>
    refine ⟨trivial, toCache_quiet (b := b) (brelse_rest s b).1 (fun c hc => ?_) ?_⟩
    · change (s.brelse b).buf c = s.buf c
      rw [brelse_buf, if_neg hc]
    · change (s.brelse b).buf b = _
      simp [brelse_buf]

end Steps

end Bio

/-! ## The operations of the log -/

namespace Sys

def toCache (s : Sys) : Cache := ⟨s.disk, s.cache⟩

/-- `bread` goes to the disk for a block that is not cached. -/
def reads (s : Sys) (n : Nat) : List Cache.Op :=
  match s.cache n with
  | some _ => []
  | none => [.fetch n]

/-- The copy of a round: `m` is read before `n`. -/
def copies (s : Sys) (m n dst : Nat) (v : Block) : List Cache.Op :=
  s.reads m ++ (s.bread m).reads n ++ [.change dst v, .bwrite dst]

/-- The operations that a step is made of. -/
def Event.ops (s : Sys) : Event → List Cache.Op
  | .log_write _ b v => [.change b v, .log_write b]
  | .fetch b => s.reads b
  | .evict b => [.evict b]
  | .advance (.writeLog tail) =>
    let dst := s.log.start + tail + 1
    let src := s.log.lh.getD tail 0
    if tail < s.log.lh.length then s.copies dst src dst (s.view src) else []
  | .advance (.install tail) =>
    let src := s.log.start + tail + 1
    let dst := s.log.lh.getD tail 0
    if tail < s.log.lh.length then s.copies src dst dst (s.view src) else []
  | .advance .readHead => s.reads s.log.start
  | .advance .writeHead | .advance .clear =>
    s.reads s.log.start ++ [.change s.log.start (writeHeader s.log.lh (s.view s.log.start)),
      .bwrite s.log.start]
  | .begin_op _ | .end_op _ | .advance _ | .crash => []

section Operations

variable (s : Sys) (m n : Nat)

theorem bread_cached : (s.bread n).cache n ≠ none := by
  unfold bread
  cases hc : s.cache n <;> simp [hc]

theorem bread_keeps {s : Sys} {n : Nat} (h : s.cache n ≠ none) : (s.bread m).cache n ≠ none := by
  unfold bread
  cases hc : s.cache m with
  | some buf => exact h
  | none =>
    by_cases hnm : n = m
    · simp [hnm]
    · simpa [hnm] using h

theorem bread_runs : s.toCache.Runs (s.reads n) (s.bread n).toCache := by
  unfold reads bread
  cases hc : s.cache n with
  | some buf => exact .refl _
  | none =>
    have hok : s.toCache.Allowed (.fetch n) := hc
    exact .single hok

theorem bwrite_runs {s : Sys} {n : Nat} (h : s.cache n ≠ none) (v : Block) :
    s.toCache.Runs [.change n v, .bwrite n] (s.bwrite n v).toCache := by
  obtain ⟨buf, hbuf⟩ := Option.ne_none_iff_exists'.mp h
  refine ⟨⟨h, ?_, trivial⟩, ?_⟩
  · simp [Cache.Allowed, Cache.apply, Cache.put, toCache, hbuf]
  · simp [Run.exec, Cache.apply, Cache.put, toCache, bwrite, hbuf]

theorem copies_runs {dst : Nat} (hdst : dst = m ∨ dst = n) (v : Block) :
    s.toCache.Runs (s.copies m n dst v) (((s.bread m).bread n).bwrite dst v).toCache := by
  refine ((bread_runs s m).append (bread_runs _ n)).append (bwrite_runs ?_ v)
  rcases hdst with rfl | rfl
  · exact bread_keeps _ (bread_cached s _)
  · exact bread_cached _ _

theorem write_log_runs (tail : Nat) : s.toCache.Runs
    (s.copies (s.log.start + tail + 1) (s.log.lh.getD tail 0) (s.log.start + tail + 1)
      (s.view (s.log.lh.getD tail 0))) (s.write_log tail).toCache := by
  have hround : s.write_log tail = ((s.bread (s.log.start + tail + 1)).bread
      (s.log.lh.getD tail 0)).bwrite (s.log.start + tail + 1) (s.view (s.log.lh.getD tail 0)) := by
    simp [write_log]
  rw [hround]
  exact copies_runs s _ _ (.inl rfl) _

theorem install_runs (tail : Nat) : s.toCache.Runs
    (s.copies (s.log.start + tail + 1) (s.log.lh.getD tail 0) (s.log.lh.getD tail 0)
      (s.view (s.log.start + tail + 1))) (s.install tail).toCache := by
  have hround : s.install tail = ((s.bread (s.log.start + tail + 1)).bread
      (s.log.lh.getD tail 0)).bwrite (s.log.lh.getD tail 0) (s.view (s.log.start + tail + 1)) := by
    simp [install]
  rw [hround]
  exact copies_runs s _ _ (.inr rfl) _

theorem write_head_runs : s.toCache.Runs
    (s.reads s.log.start ++ [.change s.log.start (writeHeader s.log.lh (s.view s.log.start)),
      .bwrite s.log.start]) s.write_head.toCache := by
  have hwrite := bwrite_runs (bread_cached s s.log.start)
    (writeHeader s.log.lh ((s.bread s.log.start).view s.log.start))
  rw [bread_view] at hwrite
  exact (bread_runs s s.log.start).append (by simpa [write_head] using hwrite)

end Operations

theorem advance_runs {s : Sys} (hne : s.pc ≠ .idle) :
    s.toCache.Runs ((Event.advance s.pc).ops s) s.advance.toCache := by
  cases hpc : s.pc with
  | idle => exact absurd hpc hne
  | commit | done =>
    simp only [advance, hpc]
    exact .refl _
  | writeLog tail =>
    simp only [advance, hpc, Event.ops]
    split
    · exact write_log_runs s tail
    · exact .refl _
  | writeHead | clear =>
    simp only [advance, hpc]
    exact write_head_runs s
  | readHead =>
    simp only [advance, hpc]
    exact bread_runs s s.log.start
  | install tail =>
    simp only [advance, hpc, Event.ops]
    split
    · exact install_runs s tail
    · exact .refl _

/-- A step of the log is made of operations on the cache, in the order of the source. -/
theorem does_runs {s s' : Sys} {e : Event} (h : s.Inv) (hs : Does s e s') (hup : e ≠ .crash) :
    s.toCache.Runs (e.ops s) s'.toCache := by
  cases hs with
  | begin_op | end_op => exact .refl _
  | @log_write p b v buf log hp hb hbuf hw =>
    refine ⟨⟨?_, ?_, trivial⟩, ?_⟩
    · simp [Cache.Allowed, toCache, hbuf]
    · simp [Cache.Allowed, Cache.apply, Cache.put, toCache, hbuf]
    · simp [Event.ops, Run.exec, Cache.apply, Cache.put, toCache, hbuf]
  | advance hne => exact advance_runs hne
  | fetch b => exact bread_runs s b
  | @evict b buf hbuf hclean =>
    have hok : s.toCache.Allowed (.evict b) := by
      change s.cache b = some ⟨s.disk b, false⟩
      rw [hbuf, ← h.coherent b buf hbuf hclean, ← hclean]
    exact .single hok
  | crash => exact absurd rfl hup

end Sys

namespace Bio

theorem binit_toCache (disk : Nat → Block) (disksize : Nat) :
    (binit disk disksize).toCache = .empty disk := by
  have hdisk : (binit disk disksize).disk = disk :=
    (foldl_initBuf disk disksize (le_refl NBUF)).2.2.1
  have hcache : (binit disk disksize).cacheOf = fun _ => none :=
    funext fun n => cacheOf_none fun b _ => by rw [binit_buf]; rfl
  rw [toCache, hdisk, hcache]
  rfl

/-- A good state of the buffer cache, and the map that it stands for. -/
structure Provides (disk : Nat → Block) (s : Bio) (c : Cache) : Prop where
  inv : s.Inv (replay s.changes disk)
  listed : ∃ xs, s.Listed xs
  cache : s.toCache = c

theorem Provides.does {disk : Nat → Block} {s s' : Bio} {c : Cache} {e : Event}
    (h : s.Provides disk c) (hs : Does s e s') :
    Run.Guarded Cache.apply Cache.Allowed c e.op.toList ∧
      s'.Provides disk (Run.exec Cache.apply c e.op.toList) := by
  obtain ⟨hinv, ⟨xs, hl⟩, rfl⟩ := h
  obtain ⟨hok, hcache⟩ := does_op hinv hl hs
  obtain ⟨hinv', hl'⟩ := step_inv hinv hl ⟨e, hs⟩
  exact ⟨hok, hinv', hl', hcache⟩

/-- Whatever its users do, the buffer cache does on each block, step by step, what a map of buffers
over the disk does, a holder sees what is mapped, and the log is made of the same operations. -/
theorem bio_provides (disk : Nat → Block) (disksize start size : Nat) :
    (∀ es s, Trace Does (binit disk disksize) es s →
      (Cache.empty disk).Runs (es.filterMap Event.op) s.toCache ∧
        ∀ b c hs, s.handles = ⟨b, .holding c⟩ ::ₘ hs →
          s.toCache.buf (s.buf b).blockno = some ⟨(s.buf b).data, (s.buf b).dirty⟩) ∧
    (Sys.Loggable start size (Sys.header start disk) →
      ∀ es y, Trace Sys.Does (Sys.boot start size disk) es y →
        ∀ e y', Sys.Does y e y' → e ≠ .crash → y.toCache.Runs (e.ops y) y'.toCache) := by
  refine ⟨fun es s hrun => ?_, fun hdisk es y hrun e y' hs hup => ?_⟩
  · have hstart : (binit disk disksize).Provides disk (.empty disk) :=
      ⟨(run_inv .refl).1, (run_inv .refl).2, binit_toCache disk disksize⟩
    obtain ⟨hok, hinv, -, hcache⟩ := trace_refines (fun _ _ _ _ h hs => h.does hs) hstart hrun
    exact ⟨⟨hok, hcache⟩, fun b c hs hh => toCache_holder hinv hh⟩
  · have hinv : y.Inv := runs_invariant (I := Sys.Inv) (fun _ _ hi hs => hi.step hs) (.boot hdisk)
      hrun.runs
    exact Sys.does_runs hinv hs hup

/-- Block 5 is evicted and fetched again; and the log writes its header. -/
theorem bio_provides_reread :
    (∃ es s, Trace Does (binit (fun _ _ => 7) 1000) es s ∧
      .evict 5 ∈ es.filterMap Event.op ∧
      (Cache.empty fun _ _ => 7).Runs (es.filterMap Event.op) s.toCache ∧
      s.toCache.buf 5 = some ⟨fun _ => 5, (s.buf 1).dirty⟩) ∧
    ∃ es y, Trace Sys.Does (Sys.boot 2 30 fun _ _ => 0) es y ∧
      y.toCache.Runs ((Sys.Event.advance .writeHead).ops y) y.advance.toCache := by
  constructor
  · obtain ⟨es, s, hrun, hout, hheld, hblock, hdata⟩ := reread
    obtain ⟨hruns, hholder⟩ := (bio_provides (fun _ _ => 7) 1000 2 30).1 es s hrun
    have hbuf := hholder 1 false 0 hheld
    rw [hblock, hdata] at hbuf
    exact ⟨es, s, hrun, List.mem_filterMap.mpr ⟨_, hout, rfl⟩, hruns, hbuf⟩
  · obtain ⟨y, es, hrun, -, hpc, -⟩ := Sys.logged_run
    have hdisk : Sys.Loggable 2 30 (Sys.header 2 fun _ _ => 0) :=
      ⟨by simp [Sys.header, readHeader], by simp [Sys.header, readHeader],
        by simp [Sys.header, readHeader]⟩
    exact ⟨es, y, hrun, (bio_provides (fun _ _ => 0) 1000 2 30).2 hdisk es y hrun
      (.advance .writeHead) _ (.round hpc (by decide)) (by simp)⟩

end Bio

end Xv6
end SsuComputer
