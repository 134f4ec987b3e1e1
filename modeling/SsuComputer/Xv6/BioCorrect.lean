import SsuComputer.Xv6.Bio
import SsuComputer.Lib.RedoLog

/-!
# SsuComputer.Xv6.BioCorrect

What the buffer cache keeps over any interleaving of its users.

* `Inv` — one buffer a block, reference counts and sleep locks that match the handles, and data
  that agrees with the changes made so far wherever it may be read from.
* `Listed` — the list holds every buffer once, the unreferenced ones in the order of their release.
* `Visited` — a run that reads and writes a new block in every buffer, for the witnesses.
* `bio_transparent` — a holder sees what was last put into its block by anybody.
* `bio_recycles_lru` — what `bget` recycles is the buffer released longest ago of those that are
  neither referenced nor dirty, and it panics only when there is none.
-/

namespace SsuComputer
namespace Xv6
namespace Bio

open Relation

def holds (b : Nat) (h : Handle) : Bool :=
  h.buf == b && match h.stage with
    | .holding _ => true
    | _ => false

def uses (b : Nat) (h : Handle) : Bool := h.buf == b

/-- One buffer, beside the handles, the disk and the contents `V` that the blocks should have. -/
structure BufOk (h : BufHdr) (hs : Multiset Handle) (b : Nat) (disk V : Nat → Block) : Prop where
  refs : h.refcnt = hs.countP (uses b ·)
  lock : (if h.locked then 1 else 0) = hs.countP (holds b ·)
  held : h.locked = true → h.valid = true
  dirty : h.dirty = true → h.valid = true
  device : h.valid = true → h.dev = 1
  shown : h.valid = true → h.data = V h.blockno
  clean : h.valid = true → h.dirty = false → ⟨b, .holding true⟩ ∉ hs → disk h.blockno = h.data

structure Inv (V : Nat → Block) (s : Bio) : Prop where
  bufs : ∀ b, b < NBUF → BufOk (s.buf b) s.handles b s.disk V
  unique : ∀ b b', b < NBUF → b' < NBUF → b ≠ b' → (s.buf b).dev = (s.buf b').dev →
    (s.buf b).blockno = (s.buf b').blockno → (s.buf b).dev = 0 ∧ (s.buf b).blockno = 0
  backed : ∀ n, (∀ b, b < NBUF → (s.buf b).valid = true → (s.buf b).blockno ≠ n) → s.disk n = V n
  below : ∀ h ∈ s.handles, h.buf < NBUF

theorem BufOk.frame {h : BufHdr} {hs hs' : Multiset Handle} {b : Nat} {disk disk' V V' : Nat → Block}
    (ok : BufOk h hs b disk V) (hrefs : hs'.countP (uses b ·) = hs.countP (uses b ·))
    (hholds : hs'.countP (holds b ·) = hs.countP (holds b ·))
    (hmem : ⟨b, .holding true⟩ ∈ hs → ⟨b, .holding true⟩ ∈ hs')
    (hdisk : h.valid = true → disk' h.blockno = disk h.blockno)
    (hV : h.valid = true → V' h.blockno = V h.blockno) : BufOk h hs' b disk' V' where
  refs := ok.refs.trans hrefs.symm
  lock := ok.lock.trans hholds.symm
  held := ok.held
  dirty := ok.dirty
  device := ok.device
  shown hv := (ok.shown hv).trans (hV hv).symm
  clean hv hd hn := (hdisk hv).trans (ok.clean hv hd fun hmem' => hn (hmem hmem'))

section Handles

variable {b c : Nat} {st st' : Stage} {hs : Multiset Handle}

@[simp] theorem uses_cons : (⟨b, st⟩ ::ₘ hs).countP (uses c ·) =
    hs.countP (uses c ·) + if b = c then 1 else 0 := by
  rw [Multiset.countP_cons]
  simp [uses]

@[simp] theorem holds_waiting : (⟨b, .waiting⟩ ::ₘ hs).countP (holds c ·) =
    hs.countP (holds c ·) := by
  rw [Multiset.countP_cons]
  simp [holds]

@[simp] theorem holds_leaving : (⟨b, .leaving⟩ ::ₘ hs).countP (holds c ·) =
    hs.countP (holds c ·) := by
  rw [Multiset.countP_cons]
  simp [holds]

@[simp] theorem holds_holding {ch : Bool} : (⟨b, .holding ch⟩ ::ₘ hs).countP (holds c ·) =
    hs.countP (holds c ·) + if b = c then 1 else 0 := by
  rw [Multiset.countP_cons]
  simp [holds]

theorem holds_of_ne (h : b ≠ c) :
    (⟨b, st⟩ ::ₘ hs).countP (holds c ·) = hs.countP (holds c ·) := by
  cases st <;> simp [h]

/-- A handle that some handle of the buffer stands beside. -/
theorem not_mem_of_holds (h : hs.countP (holds b ·) = 0) {ch : Bool} :
    (⟨b, .holding ch⟩ : Handle) ∉ hs := by
  intro hmem
  rw [Multiset.countP_eq_zero] at h
  exact h _ hmem (by simp [holds])

end Handles

/-- How a step on the buffer `b` changes the cache: its header, and the handles on `b` only. -/
theorem Inv.touch {V V' : Nat → Block} {s s' : Bio} {b : Nat} {hs : Multiset Handle}
    (h : s.Inv V) (hb : b < NBUF) (hbuf : ∀ c, c ≠ b → s'.buf c = s.buf c)
    (hold : s.handles = hs ∨ ∃ st, s.handles = ⟨b, st⟩ ::ₘ hs)
    (hnew : s'.handles = hs ∨ ∃ st', s'.handles = ⟨b, st'⟩ ::ₘ hs)
    (hdisk : ∀ n, n ≠ (s.buf b).blockno → s'.disk n = s.disk n)
    (hV : ∀ n, n ≠ (s.buf b).blockno → V' n = V n)
    (hown : (s.buf b).dev = 1 ∧ (s'.buf b).valid = true ∨ s'.disk = s.disk ∧ V' = V)
    (hkey : (s'.buf b).dev = (s.buf b).dev ∧ (s'.buf b).blockno = (s.buf b).blockno)
    (hvalid : (s.buf b).valid = true → (s'.buf b).valid = true)
    (hok : BufOk (s'.buf b) s'.handles b s'.disk V') : s'.Inv V' := by
  have hoff : ∀ c, c ≠ b → s'.handles.countP (uses c ·) = s.handles.countP (uses c ·) ∧
      s'.handles.countP (holds c ·) = s.handles.countP (holds c ·) ∧
      (⟨c, .holding true⟩ ∈ s.handles → ⟨c, .holding true⟩ ∈ s'.handles) := by
    intro c hc
    have hne : b ≠ c := fun heq => hc heq.symm
    rcases hold with ho | ⟨st, ho⟩ <;> rcases hnew with hn | ⟨st', hn⟩ <;> rw [ho, hn] <;>
      simp [holds_of_ne hne, hne, hc]
  have hother : ∀ c, c < NBUF → c ≠ b → (s.buf c).valid = true →
      s'.disk (s.buf c).blockno = s.disk (s.buf c).blockno ∧
        V' (s.buf c).blockno = V (s.buf c).blockno := by
    intro c hc hne hv
    rcases hown with ⟨hdev, -⟩ | ⟨hd, hv'⟩
    · have hblock : (s.buf c).blockno ≠ (s.buf b).blockno := by
        intro heq
        have hdevc := (h.bufs c hc).device hv
        have := (h.unique c b hc hb hne (hdevc.trans hdev.symm) heq).1
        omega
      exact ⟨hdisk _ hblock, hV _ hblock⟩
    · rw [hd, hv']
      exact ⟨rfl, rfl⟩
  refine ⟨fun c hc => ?_, fun c c' hc hc' hne => ?_, fun n hn => ?_, fun x hx => ?_⟩
  · by_cases hcb : c = b
    · rw [hcb]
      exact hok
    · obtain ⟨h1, h2, h3⟩ := hoff c hcb
      rw [hbuf c hcb]
      exact (h.bufs c hc).frame h1 h2 h3 (fun hv => (hother c hc hcb hv).1)
        fun hv => (hother c hc hcb hv).2
  · have hdev : ∀ c, (s'.buf c).dev = (s.buf c).dev ∧ (s'.buf c).blockno = (s.buf c).blockno := by
      intro c
      by_cases hcb : c = b
      · rw [hcb]
        exact hkey
      · rw [hbuf c hcb]
        exact ⟨rfl, rfl⟩
    rw [(hdev c).1, (hdev c').1, (hdev c).2, (hdev c').2]
    exact h.unique c c' hc hc' hne
  · have hn' : ∀ c, c < NBUF → (s.buf c).valid = true → (s.buf c).blockno ≠ n := by
      intro c hc hv heq
      by_cases hcb : c = b
      · subst hcb
        exact hn c hc (hvalid hv) (hkey.2.trans heq)
      · exact hn c hc (by rw [hbuf c hcb]; exact hv) (by rw [hbuf c hcb]; exact heq)
    rcases hown with ⟨-, hv⟩ | ⟨hd, hv⟩
    · have hnb : n ≠ (s.buf b).blockno := fun heq => hn b hb hv (hkey.2.trans heq.symm)
      rw [hdisk n hnb, hV n hnb]
      exact h.backed n hn'
    · rw [hd, hv]
      exact h.backed n hn'
  · have hin : x ∈ hs ∨ x.buf = b := by
      rcases hnew with hn | ⟨st', hn⟩
      · exact .inl (hn ▸ hx)
      · rw [hn, Multiset.mem_cons] at hx
        rcases hx with rfl | hx
        · exact .inr rfl
        · exact .inl hx
    rcases hin with hin | hin
    · refine h.below x ?_
      rcases hold with ho | ⟨st, ho⟩
      · rw [ho]
        exact hin
      · rw [ho]
        exact Multiset.mem_cons_of_mem hin
    · rw [hin]
      exact hb

@[simp] theorem set_buf_self (s : Bio) (b : Nat) (h : BufHdr) : (s.set b h).buf b = h :=
  Function.update_self ..

theorem set_buf_of_ne (s : Bio) {b c : Nat} (hne : c ≠ b) (h : BufHdr) :
    (s.set b h).buf c = s.buf c :=
  Function.update_of_ne hne ..

/-- Two things a `iderw` can do; the rest is a panic. -/
theorem iderw_spec {s s' : Bio} {b : Nat} (h : s.iderw b = .ok s') :
    (s.buf b).locked = true ∧ (s.buf b).dev = 1 ∧
      ((s.buf b).dirty = true ∧
          s' = { s.set b { s.buf b with dirty := false, valid := true } with
            disk := Function.update s.disk (s.buf b).blockno (s.buf b).data } ∨
        (s.buf b).dirty = false ∧ (s.buf b).valid = false ∧
          s' = s.set b { s.buf b with data := s.disk (s.buf b).blockno, valid := true }) := by
  unfold iderw at h
  dsimp only at h
  split at h
  · cases h
  · rename_i hlocked
    split at h
    · cases h
    · rename_i hnothing
      split at h
      · cases h
      · rename_i hdev
        split at h
        · cases h
        · split at h
          · rename_i hdirty
            cases h
            exact ⟨by simpa using hlocked, by simpa using hdev, .inl ⟨hdirty, rfl⟩⟩
          · rename_i hdirty
            cases h
            have hdirty : (s.buf b).dirty = false := eq_false_of_ne_true hdirty
            exact ⟨by simpa using hlocked, by simpa using hdev,
              .inr ⟨hdirty, by simpa [hdirty] using hnothing, rfl⟩⟩

section Steps

variable {V : Nat → Block} {s s' : Bio} {b : Nat} {hs : Multiset Handle}

theorem Inv.handle (h : s.Inv V) {st : Stage} (hh : s.handles = ⟨b, st⟩ ::ₘ hs) :
    b < NBUF ∧ BufOk (s.buf b) (⟨b, st⟩ ::ₘ hs) b s.disk V := by
  have hb : b < NBUF := h.below ⟨b, st⟩ (by rw [hh]; exact Multiset.mem_cons_self _ _)
  exact ⟨hb, hh ▸ h.bufs b hb⟩

/-- A holder is alone, and its buffer has the data of its block. -/
theorem Inv.holder (h : s.Inv V) {c : Bool} (hh : s.handles = ⟨b, .holding c⟩ ::ₘ hs) :
    hs.countP (holds b ·) = 0 ∧ (s.buf b).locked = true ∧ (s.buf b).valid = true ∧
      (s.buf b).dev = 1 ∧ (s.buf b).data = V (s.buf b).blockno := by
  obtain ⟨-, hok⟩ := h.handle hh
  have hlock := hok.lock
  rw [holds_holding, if_pos rfl] at hlock
  cases hl : (s.buf b).locked with
  | false => simp [hl] at hlock
  | true =>
    have hv := hok.held hl
    exact ⟨by simpa [hl] using hlock, rfl, hv, hok.device hv, hok.shown hv⟩

theorem Inv.bread (h : s.Inv V) (hh : s.handles = ⟨b, .waiting⟩ ::ₘ hs)
    (hfree : (s.buf b).locked = false) (hr : s.bread b = .ok s') :
    Inv V { s' with handles := ⟨b, .holding false⟩ ::ₘ hs } := by
  obtain ⟨hb, hok⟩ := h.handle hh
  have hnone : hs.countP (holds b ·) = 0 := by
    simpa [hfree] using hok.lock.symm
  have hrefs := hok.refs
  rw [uses_cons] at hrefs
  unfold Bio.bread at hr
  simp only [set_buf_self] at hr
  split at hr
  · rename_i hv
    cases hr
    refine h.touch hb (fun c hc => set_buf_of_ne s hc _) (.inr ⟨_, hh⟩) (.inr ⟨_, rfl⟩) (fun _ _ => rfl)
      (fun _ _ => rfl) (.inr ⟨rfl, rfl⟩) (by simp) (by simp) ?_
    simp only [set_buf_self]
    refine ⟨by simpa using hrefs, by simp [hnone], fun _ => hv, hok.dirty, hok.device, hok.shown,
      fun _ hd _ => hok.clean hv hd ?_⟩
    simpa using not_mem_of_holds hnone
  · rename_i hv
    obtain ⟨-, hdev, ⟨hdirty, -⟩ | ⟨hdirty, -, rfl⟩⟩ := iderw_spec hr
    · exact absurd (hok.dirty (by simpa using hdirty)) hv
    · simp only [set_buf_self] at hdirty hdev
      -- nothing caches the block yet, so the disk has its contents
      have hbacked : s.disk (s.buf b).blockno = V (s.buf b).blockno := by
        refine h.backed _ fun c hc hvc heq => ?_
        have hcb : c ≠ b := fun hcb => hv (hcb ▸ hvc)
        have hdevc := (h.bufs c hc).device hvc
        have := (h.unique c b hc hb hcb (hdevc.trans hdev.symm) heq).1
        omega
      refine h.touch hb (fun c hc => ?_) (.inr ⟨_, hh⟩) (.inr ⟨_, rfl⟩) (fun _ _ => rfl)
        (fun _ _ => rfl) (.inr ⟨rfl, rfl⟩) (by simp) (by simp) ?_
      · rw [← set_buf_of_ne s hc { s.buf b with locked := true }]
        exact set_buf_of_ne _ hc _
      · simp only [set_buf_self]
        exact ⟨by simpa using hrefs, by simp [hnone], fun _ => rfl, fun _ => rfl, fun _ => hdev,
          fun _ => hbacked, fun _ _ _ => rfl⟩

theorem Inv.change (h : s.Inv V) {c : Bool} (v : Block)
    (hh : s.handles = ⟨b, .holding c⟩ ::ₘ hs) :
    Inv (Function.update V (s.buf b).blockno v)
      { s.set b { s.buf b with data := v } with
        handles := ⟨b, .holding true⟩ ::ₘ hs
        changes := s.changes ++ [((s.buf b).blockno, v)] } := by
  obtain ⟨hb, hok⟩ := h.handle hh
  obtain ⟨hnone, hlocked, hv, hdev, -⟩ := h.holder hh
  have hrefs := hok.refs
  rw [uses_cons] at hrefs
  refine h.touch hb (fun c hc => set_buf_of_ne s hc _) (.inr ⟨_, hh⟩) (.inr ⟨_, rfl⟩) (fun _ _ => rfl)
    (fun n hn => Function.update_of_ne hn _ _) (.inl ⟨hdev, ?_⟩) (by simp) (by simp) ?_
  · simpa using hv
  · simp only [set_buf_self]
    refine ⟨by simpa using hrefs, by simp [hnone, hlocked], fun _ => hv, hok.dirty, hok.device,
      fun _ => ?_, fun _ _ hn => absurd (Multiset.mem_cons_self _ _) hn⟩
    rw [Function.update_self]

theorem Inv.bwrite (h : s.Inv V) {c : Bool} (hh : s.handles = ⟨b, .holding c⟩ ::ₘ hs)
    (hw : s.bwrite b = .ok s') : Inv V { s' with handles := ⟨b, .holding false⟩ ::ₘ hs } := by
  obtain ⟨hb, hok⟩ := h.handle hh
  obtain ⟨hnone, hlocked, hv, hdev, hdata⟩ := h.holder hh
  have hrefs := hok.refs
  rw [uses_cons] at hrefs
  obtain ⟨-, -, ⟨-, rfl⟩ | ⟨hdirty, -, -⟩⟩ := iderw_spec hw
  · simp only [set_buf_self]
    refine h.touch hb (fun c hc => ?_) (.inr ⟨_, hh⟩) (.inr ⟨_, rfl⟩)
      (fun n hn => Function.update_of_ne hn _ _) (fun _ _ => rfl) (.inl ⟨hdev, by simp⟩) (by simp)
      (by simp) ?_
    · rw [← set_buf_of_ne s hc { s.buf b with dirty := true }]
      exact set_buf_of_ne _ hc _
    · simp only [set_buf_self]
      refine ⟨by simpa using hrefs, by simp [hnone, hlocked], fun _ => rfl, fun _ => rfl,
        fun _ => hdev, fun _ => hdata, fun _ _ _ => ?_⟩
      exact Function.update_self ..
  · simp at hdirty

theorem Inv.log_write (h : s.Inv V) {c : Bool} (hh : s.handles = ⟨b, .holding c⟩ ::ₘ hs) :
    Inv V { s.set b { s.buf b with dirty := true } with
      handles := ⟨b, .holding false⟩ ::ₘ hs } := by
  obtain ⟨hb, hok⟩ := h.handle hh
  obtain ⟨hnone, hlocked, hv, hdev, hdata⟩ := h.holder hh
  have hrefs := hok.refs
  rw [uses_cons] at hrefs
  refine h.touch hb (fun c hc => set_buf_of_ne s hc _) (.inr ⟨_, hh⟩) (.inr ⟨_, rfl⟩) (fun _ _ => rfl)
    (fun _ _ => rfl) (.inr ⟨rfl, rfl⟩) (by simp) (by simp) ?_
  simp only [set_buf_self]
  exact ⟨by simpa using hrefs, by simp [hnone, hlocked], fun _ => hv, fun _ => hv, hok.device,
    hok.shown, fun _ hd => by simp at hd⟩

theorem Inv.releasesleep (h : s.Inv V) (hh : s.handles = ⟨b, .holding false⟩ ::ₘ hs) :
    Inv V { s.releasesleep b with handles := ⟨b, .leaving⟩ ::ₘ hs } := by
  obtain ⟨hb, hok⟩ := h.handle hh
  obtain ⟨hnone, -, hv, -, -⟩ := h.holder hh
  have hrefs := hok.refs
  rw [uses_cons] at hrefs
  unfold Bio.releasesleep
  refine h.touch hb (fun c hc => set_buf_of_ne s hc _) (.inr ⟨_, hh⟩) (.inr ⟨_, rfl⟩) (fun _ _ => rfl)
    (fun _ _ => rfl) (.inr ⟨rfl, rfl⟩) (by simp) (by simp) ?_
  simp only [set_buf_self]
  refine ⟨by simpa using hrefs, by simp [hnone], nofun, hok.dirty, hok.device, hok.shown,
    fun hv hd hn => hok.clean hv hd ?_⟩
  simpa using hn

theorem brelse_buf (s : Bio) (b c : Nat) : (s.brelse b).buf c =
    if c = b then { s.buf b with refcnt := (s.buf b).refcnt - 1 } else s.buf c := by
  have hbuf : (s.brelse b).buf =
      Function.update s.buf b { s.buf b with refcnt := (s.buf b).refcnt - 1 } := by
    unfold Bio.brelse
    dsimp only
    split <;> rfl
  rw [hbuf, Function.update_apply]

theorem brelse_rest (s : Bio) (b : Nat) : (s.brelse b).disk = s.disk ∧
    (s.brelse b).disksize = s.disksize ∧ (s.brelse b).changes = s.changes := by
  unfold Bio.brelse
  dsimp only
  split <;> exact ⟨rfl, rfl, rfl⟩

theorem Inv.brelse (h : s.Inv V) (hh : s.handles = ⟨b, .leaving⟩ ::ₘ hs) :
    Inv V { s.brelse b with handles := hs } := by
  obtain ⟨hb, hok⟩ := h.handle hh
  obtain ⟨hdisk, -, -⟩ := brelse_rest s b
  have hrefs := hok.refs
  rw [uses_cons, if_pos rfl] at hrefs
  refine h.touch hb (fun c hc => ?_) (.inr ⟨_, hh⟩) (.inl rfl) (fun n _ => congrFun hdisk n)
    (fun _ _ => rfl) (.inr ⟨hdisk, rfl⟩) ?_ ?_ ?_
  · change (s.brelse b).buf c = s.buf c
    rw [brelse_buf, if_neg hc]
  · change ((s.brelse b).buf b).dev = _ ∧ _
    rw [brelse_buf, if_pos rfl]
    exact ⟨rfl, rfl⟩
  · change (s.buf b).valid = true → ((s.brelse b).buf b).valid = true
    rw [brelse_buf, if_pos rfl]
    exact id
  · change BufOk ((s.brelse b).buf b) hs b (s.brelse b).disk V
    rw [brelse_buf, if_pos rfl, hdisk]
    refine ⟨by simp [hrefs], by simpa using hok.lock, hok.held, hok.dirty, hok.device, hok.shown,
      fun hv hd hn => hok.clean hv hd ?_⟩
    simpa using hn

theorem Inv.bget_cached (h : s.Inv V) (hb : b < NBUF) :
    Inv V { s.set b { s.buf b with refcnt := (s.buf b).refcnt + 1 } with
      handles := ⟨b, .waiting⟩ ::ₘ s.handles } := by
  have hok := h.bufs b hb
  refine h.touch hb (fun c hc => set_buf_of_ne s hc _) (.inl rfl) (.inr ⟨_, rfl⟩)
    (fun _ _ => rfl) (fun _ _ => rfl) (.inr ⟨rfl, rfl⟩) (by simp) (by simp) ?_
  simp only [set_buf_self]
  refine ⟨by simp [hok.refs], by simpa using hok.lock, hok.held, hok.dirty, hok.device, hok.shown,
    fun hv hd hn => hok.clean hv hd ?_⟩
  simpa using hn

/-- A recycled buffer was on the disk already. -/
theorem Inv.bget_unused (h : s.Inv V) {dev blockno : Nat} (hb : b < NBUF)
    (hnone : ∀ c, c < NBUF → ¬ ((s.buf c).dev = dev ∧ (s.buf c).blockno = blockno))
    (hrefs : (s.buf b).refcnt = 0) (hclean : (s.buf b).dirty = false) :
    Inv V { s.set b { s.buf b with
        dev, blockno, valid := false, dirty := false, refcnt := 1 } with
      handles := ⟨b, .waiting⟩ ::ₘ s.handles } := by
  have hok := h.bufs b hb
  have huses : s.handles.countP (uses b ·) = 0 := hok.refs.symm.trans hrefs
  have hfree : ∀ st, (⟨b, st⟩ : Handle) ∉ s.handles := by
    intro st hmem
    rw [Multiset.countP_eq_zero] at huses
    exact huses _ hmem (by simp [uses])
  have hholds : s.handles.countP (holds b ·) = 0 := by
    rw [Multiset.countP_eq_zero]
    intro x hx hholds
    obtain ⟨xb, st⟩ := x
    have : xb = b := by
      simp only [holds, Bool.and_eq_true, beq_iff_eq] at hholds
      exact hholds.1
    exact hfree st (this ▸ hx)
  refine ⟨fun c hc => ?_, fun c c' hc hc' hne => ?_, fun n hn => ?_, fun x hx => ?_⟩
  · by_cases hcb : c = b
    · subst hcb
      simp only [set_buf_self]
      refine ⟨by simp [huses], ?_, fun hl => ?_, nofun, nofun, nofun, nofun⟩
      · simpa [hholds] using hok.lock
      · have hlock := hok.lock
        have hl : (s.buf c).locked = true := hl
        simp [hl, hholds] at hlock
    · have hne : b ≠ c := fun heq => hcb heq.symm
      change BufOk ((s.set b _).buf c) _ c s.disk V
      rw [set_buf_of_ne s hcb]
      exact (h.bufs c hc).frame (by simp [hne]) (by simp)
        (Multiset.mem_cons_of_mem) (fun _ => rfl) fun _ => rfl
  · intro hdev hblock
    change ((s.set b _).buf c).dev = ((s.set b _).buf c').dev at hdev
    change ((s.set b _).buf c).blockno = ((s.set b _).buf c').blockno at hblock
    change ((s.set b _).buf c).dev = 0 ∧ ((s.set b _).buf c).blockno = 0
    by_cases hcb : c = b
    · have hcb' : c' ≠ b := fun heq => hne (hcb.trans heq.symm)
      rw [hcb, set_buf_self, set_buf_of_ne s hcb'] at hdev hblock
      exact absurd ⟨hdev.symm, hblock.symm⟩ (hnone c' hc')
    · by_cases hcb' : c' = b
      · rw [hcb', set_buf_self, set_buf_of_ne s hcb] at hdev hblock
        exact absurd ⟨hdev, hblock⟩ (hnone c hc)
      · rw [set_buf_of_ne s hcb, set_buf_of_ne s hcb'] at hdev hblock
        rw [set_buf_of_ne s hcb]
        exact h.unique c c' hc hc' hne hdev hblock
  · change s.disk n = V n
    by_cases hold : (s.buf b).valid = true ∧ (s.buf b).blockno = n
    · obtain ⟨hv, rfl⟩ := hold
      rw [hok.clean hv hclean (hfree _), hok.shown hv]
    · refine h.backed n fun c hc hv heq => ?_
      have hcb : c ≠ b := by
        rintro rfl
        exact hold ⟨hv, heq⟩
      refine hn c hc ?_ ?_
      · change ((s.set b _).buf c).valid = true
        rw [set_buf_of_ne s hcb]
        exact hv
      · change ((s.set b _).buf c).blockno = n
        rw [set_buf_of_ne s hcb]
        exact heq
  · rcases Multiset.mem_cons.mp hx with rfl | hx
    · exact hb
    · exact h.below x hx

end Steps

/-! ## The list -/

/-- `xs` is the list from the most recently used buffer on. -/
structure Listed (s : Bio) (xs : List Nat) : Prop where
  links : Doubly s.next s.prev NBUF xs
  mem : ∀ b, b ∈ xs ↔ b < NBUF
  order : xs.Pairwise fun a b => (s.buf a).refcnt = 0 → (s.buf b).refcnt = 0 →
    s.released b < s.released a
  past : ∀ b, b < NBUF → s.released b < s.clock

section List

variable {s s' : Bio} {b : Nat} {xs : List Nat}

theorem Listed.length (h : s.Listed xs) : xs.length = NBUF := by
  have hnd := (List.nodup_cons.mp h.links.next.nodup).2
  have hperm : xs.Perm (List.range NBUF) :=
    (List.perm_ext_iff_of_nodup hnd List.nodup_range).mpr fun b => by
      rw [h.mem, List.mem_range]
  rw [hperm.length_eq, List.length_range]

theorem Listed.head_not_mem (h : s.Listed xs) : NBUF ∉ xs := fun hmem =>
  Nat.lt_irrefl _ ((h.mem NBUF).mp hmem)

theorem Listed.cached (h : s.Listed xs) (dev blockno : Nat) : s.cached dev blockno =
    xs.find? fun b => (s.buf b).dev == dev && (s.buf b).blockno == blockno :=
  scan_path h.links.next.path h.head_not_mem (by rw [h.length]; exact Nat.lt_succ_self _)

theorem Listed.unused (h : s.Listed xs) : s.unused =
    xs.reverse.find? fun b => (s.buf b).refcnt == 0 && !(s.buf b).dirty :=
  scan_path h.links.prev.path (by simpa using h.head_not_mem)
    (by rw [List.length_reverse, h.length]; exact Nat.lt_succ_self _)

/-- Steps that leave the links alone and give no buffer back. -/
theorem Listed.keep (h : s.Listed xs) (hnext : s'.next = s.next) (hprev : s'.prev = s.prev)
    (hreleased : s'.released = s.released) (hclock : s'.clock = s.clock)
    (hrefs : ∀ b, (s'.buf b).refcnt = 0 → (s.buf b).refcnt = 0) : s'.Listed xs where
  links := by rw [hnext, hprev]; exact h.links
  mem := h.mem
  order := by
    rw [hreleased]
    exact h.order.imp fun himp ha hb => himp (hrefs _ ha) (hrefs _ hb)
  past := by rw [hreleased, hclock]; exact h.past

theorem Listed.initBuf {n : Nat} (hn : n < NBUF)
    (hlinks : Doubly s.next s.prev NBUF (List.range n).reverse) :
    Doubly (s.initBuf n).next (s.initBuf n).prev NBUF (List.range (n + 1)).reverse := by
  rw [List.range_succ, List.reverse_append, List.reverse_singleton]
  refine hlinks.push ?_
  rw [List.mem_cons, List.mem_reverse, List.mem_range]
  omega

theorem foldl_initBuf (disk : Nat → Block) (disksize : Nat) {n : Nat} (hn : n ≤ NBUF) :
    let s := (List.range n).foldl initBuf (blank disk disksize)
    Doubly s.next s.prev NBUF (List.range n).reverse ∧ s.buf = (blank disk disksize).buf ∧
      s.disk = disk ∧ s.handles = 0 ∧ s.changes = [] ∧ s.clock = n ∧
        ∀ b, b < n → s.released b = b := by
  induction n with
  | zero => exact ⟨⟨⟨rfl, by simp⟩, ⟨rfl, by simp⟩⟩, rfl, rfl, rfl, rfl, rfl, nofun⟩
  | succ n ih =>
    obtain ⟨hlinks, hbuf, hdisk, hhandles, hchanges, hclock, hreleased⟩ := ih (by omega)
    rw [List.range_succ, List.foldl_append, List.foldl_cons, List.foldl_nil, ← List.range_succ]
    refine ⟨Listed.initBuf hn hlinks, hbuf, hdisk, hhandles, hchanges, ?_, fun b hb => ?_⟩
    · change _ + 1 = n + 1
      rw [hclock]
    · let t := (List.range n).foldl initBuf (blank disk disksize)
      change Function.update t.released n t.clock b = b
      by_cases hbn : b = n
      · rw [hbn, Function.update_self]
        exact hclock
      · rw [Function.update_of_ne hbn]
        exact hreleased b (by omega)

theorem binit_listed (disk : Nat → Block) (disksize : Nat) :
    (binit disk disksize).Listed (List.range NBUF).reverse := by
  obtain ⟨hlinks, -, -, -, -, hclock, hreleased⟩ :=
    foldl_initBuf disk disksize (le_refl NBUF)
  have hrel : ∀ b, b < NBUF → (binit disk disksize).released b = b := hreleased
  refine ⟨hlinks, fun b => by simp, ?_, fun b hb => ?_⟩
  · rw [List.pairwise_reverse]
    refine List.Pairwise.imp_of_mem ?_ (List.pairwise_lt_range (n := NBUF))
    intro a c ha hc hlt _ _
    rw [hrel a (List.mem_range.mp ha), hrel c (List.mem_range.mp hc)]
    exact hlt
  · rw [hrel b hb]
    exact Nat.lt_of_lt_of_eq hb hclock.symm

theorem binit_inv (disk : Nat → Block) (disksize : Nat) : (binit disk disksize).Inv disk := by
  obtain ⟨-, hbuf, hdisk, hhandles, -⟩ :=
    foldl_initBuf disk disksize (le_refl NBUF)
  have hbuf : (binit disk disksize).buf = (blank disk disksize).buf := hbuf
  have hdisk : (binit disk disksize).disk = disk := hdisk
  have hhandles : (binit disk disksize).handles = 0 := hhandles
  refine ⟨fun b _ => ?_, fun b b' _ _ _ _ _ => ?_, fun n _ => congrFun hdisk n, ?_⟩
  · rw [hbuf, hhandles]
    exact ⟨rfl, rfl, nofun, nofun, nofun, nofun, nofun⟩
  · rw [hbuf]
    exact ⟨rfl, rfl⟩
  · rw [hhandles]
    exact nofun

/-- A buffer whose last reference goes becomes the most recently used one. -/
theorem Listed.release {l r : List Nat} (h : s.Listed (l ++ b :: r))
    (hrefs : (s.buf b).refcnt - 1 = 0) : (s.brelse b).Listed (b :: (l ++ r)) := by
  unfold Bio.brelse
  simp only [set_buf_self, hrefs, if_true]
  have hnd := h.links.next.nodup
  have hbr : b ∉ NBUF :: (l ++ r) := by
    rw [← List.cons_append] at hnd ⊢
    exact (List.nodup_cons.mp (List.nodup_middle.mp hnd)).1
  have hkept : ∀ c, c ∈ l ++ r → c ≠ b := by
    rintro c hc rfl
    exact hbr (by simp [hc])
  refine ⟨h.links.unlink.push hbr, fun c => ?_, List.pairwise_cons.mpr ⟨fun c hc _ _ => ?_, ?_⟩,
    fun c hc => ?_⟩
  · rw [← h.mem]
    simp only [List.mem_cons, List.mem_append]
    tauto
  · have hcN : c < NBUF := (h.mem c).mp (by
      simp only [List.mem_append, List.mem_cons] at hc ⊢
      tauto)
    change Function.update s.released b s.clock c < Function.update s.released b s.clock b
    rw [Function.update_self, Function.update_of_ne (hkept c hc)]
    exact h.past c hcN
  · refine List.Pairwise.imp_of_mem ?_ (h.order.sublist (by simp : (l ++ r).Sublist (l ++ b :: r)))
    intro a c ha hc himp hra hrc
    have hra : ((s.set b _).buf a).refcnt = 0 := hra
    have hrc : ((s.set b _).buf c).refcnt = 0 := hrc
    rw [set_buf_of_ne s (hkept a ha)] at hra
    rw [set_buf_of_ne s (hkept c hc)] at hrc
    change Function.update s.released b s.clock c < Function.update s.released b s.clock a
    rw [Function.update_of_ne (hkept a ha), Function.update_of_ne (hkept c hc)]
    exact himp hra hrc
  · change Function.update s.released b s.clock c < s.clock + 1
    rw [Function.update_apply]
    split
    · exact Nat.lt_succ_self _
    · exact Nat.lt_succ_of_lt (h.past c hc)

theorem Listed.brelse (h : s.Listed xs) (hb : b < NBUF) :
    ∃ ys, (s.brelse b).Listed ys := by
  by_cases hzero : (s.buf b).refcnt - 1 = 0
  · obtain ⟨l, r, rfl⟩ := List.append_of_mem ((h.mem b).mpr hb)
    exact ⟨_, h.release hzero⟩
  · unfold Bio.brelse
    simp only [set_buf_self, hzero, if_false]
    refine ⟨xs, h.keep rfl rfl rfl rfl fun c hc => ?_⟩
    by_cases hcb : c = b
    · rw [hcb, set_buf_self] at hc
      exact absurd hc hzero
    · rwa [set_buf_of_ne s hcb] at hc

theorem set_refs {h : BufHdr} (hr : h.refcnt = 0 → (s.buf b).refcnt = 0) (c : Nat)
    (hc : ((s.set b h).buf c).refcnt = 0) : (s.buf c).refcnt = 0 := by
  by_cases hcb : c = b
  · rw [hcb, set_buf_self] at hc
    rw [hcb]
    exact hr hc
  · rwa [set_buf_of_ne s hcb] at hc

theorem Listed.set (h : s.Listed xs) {hd : BufHdr} (hr : hd.refcnt = 0 → (s.buf b).refcnt = 0) :
    (s.set b hd).Listed xs :=
  h.keep rfl rfl rfl rfl (set_refs hr)

theorem Listed.iderw (h : s.Listed xs) (hi : s.iderw b = .ok s') : s'.Listed xs := by
  obtain ⟨-, -, ⟨-, rfl⟩ | ⟨-, -, rfl⟩⟩ := iderw_spec hi
  · exact h.keep rfl rfl rfl rfl fun c hc => set_refs (b := b) (by simp) c hc
  · exact h.set (by simp)

theorem Listed.bread (h : s.Listed xs) (hr : s.bread b = .ok s') : s'.Listed xs := by
  unfold Bio.bread at hr
  dsimp only at hr
  split at hr
  · cases hr
    exact h.set id
  · exact (h.set (by simp)).iderw hr

theorem Listed.bwrite (h : s.Listed xs) (hw : s.bwrite b = .ok s') : s'.Listed xs :=
  Listed.iderw (h.set (by simp)) hw

end List

/-! ## Runs -/

theorem bget_spec {s s' : Bio} {xs : List Nat} (hl : s.Listed xs) {dev blockno b : Nat}
    (h : s.bget dev blockno = .ok (b, s')) : b < NBUF ∧
      (s.evicted dev blockno = none ∧ (s.buf b).dev = dev ∧ (s.buf b).blockno = blockno ∧
          s' = s.set b { s.buf b with refcnt := (s.buf b).refcnt + 1 } ∨
        (s.evicted dev blockno = if (s.buf b).valid then some (s.buf b).blockno else none) ∧
          (∀ c, c < NBUF → ¬ ((s.buf c).dev = dev ∧ (s.buf c).blockno = blockno)) ∧
          s.unused = some b ∧ (s.buf b).refcnt = 0 ∧ (s.buf b).dirty = false ∧
          s' = s.set b { s.buf b with
            dev, blockno, valid := false, dirty := false, refcnt := 1 }) := by
  unfold evicted
  unfold bget at h
  split at h
  · rename_i c hc
    cases h
    rw [hl.cached] at hc
    have hmem := List.mem_of_find?_eq_some hc
    have hkey := List.find?_some hc
    simp only [Bool.and_eq_true, beq_iff_eq] at hkey
    exact ⟨(hl.mem b).mp hmem, .inl ⟨rfl, hkey.1, hkey.2, rfl⟩⟩
  · rename_i hnone
    split at h
    · rename_i c hc
      cases h
      simp only [hc, Option.bind_some]
      rw [hl.cached, List.find?_eq_none] at hnone
      have hfind := hc
      rw [hl.unused] at hfind
      have hmem := List.mem_of_find?_eq_some hfind
      have hfree := List.find?_some hfind
      simp only [Bool.and_eq_true, beq_iff_eq, Bool.not_eq_true'] at hfree
      refine ⟨(hl.mem b).mp (by simpa using hmem), .inr ⟨trivial, fun c hcN hkey => ?_, trivial,
        hfree.1, hfree.2, trivial⟩⟩
      exact hnone c ((hl.mem c).mpr hcN) (by simp [hkey.1, hkey.2])
    · cases h

theorem step_inv {disk : Nat → Block} {s s' : Bio} {xs : List Nat}
    (h : s.Inv (replay s.changes disk)) (hl : s.Listed xs) (hs : Step s s') :
    s'.Inv (replay s'.changes disk) ∧ ∃ ys, s'.Listed ys := by
  obtain ⟨e, hs⟩ := hs
  cases hs with
  | bget hb =>
    obtain ⟨hbN, ⟨-, -, -, rfl⟩ | ⟨-, hnone, -, hrefs, hclean, rfl⟩⟩ := bget_spec hl hb
    · exact ⟨h.bget_cached hbN, xs, hl.keep rfl rfl rfl rfl fun c hc => set_refs (by simp) c hc⟩
    · exact ⟨h.bget_unused hbN hnone hrefs hclean, xs,
        hl.keep rfl rfl rfl rfl fun c hc => set_refs (by simp) c hc⟩
  | @bread s1 b hs hh hfree hr =>
    have hchanges : s1.changes = s.changes := by
      unfold Bio.bread at hr
      dsimp only at hr
      split at hr
      · cases hr
        rfl
      · obtain ⟨-, -, ⟨-, rfl⟩ | ⟨-, -, rfl⟩⟩ := iderw_spec hr <;> rfl
    refine ⟨?_, xs, (hl.bread hr).keep rfl rfl rfl rfl fun _ => id⟩
    change Inv (replay s1.changes disk) _
    simpa only [hchanges] using h.bread hh hfree hr
  | @change b c hs v hh =>
    refine ⟨?_, xs, hl.keep rfl rfl rfl rfl fun c hc => set_refs (b := b) (by simp) c hc⟩
    change Inv (replay (s.changes ++ [((s.buf b).blockno, v)]) disk) _
    rw [replay_append]
    exact h.change v hh
  | @bwrite s1 b c hs hh hw =>
    have hchanges : s1.changes = s.changes := by
      obtain ⟨-, -, ⟨-, rfl⟩ | ⟨-, -, rfl⟩⟩ := iderw_spec hw <;> rfl
    refine ⟨?_, xs, (hl.bwrite hw).keep rfl rfl rfl rfl fun _ => id⟩
    change Inv (replay s1.changes disk) _
    simpa only [hchanges] using h.bwrite hh hw
  | @log_write b c hs hh =>
    exact ⟨h.log_write hh, xs, hl.keep rfl rfl rfl rfl fun c hc => set_refs (b := b) (by simp) c hc⟩
  | @releasesleep b hs hh =>
    exact ⟨h.releasesleep hh, xs, hl.keep rfl rfl rfl rfl fun c hc => set_refs (b := b) (by simp) c hc⟩
  | @brelse b hs hh =>
    obtain ⟨ys, hys⟩ := hl.brelse (h.handle hh).1
    refine ⟨?_, ys, hys.keep rfl rfl rfl rfl fun _ => id⟩
    change Inv (replay (s.brelse b).changes disk) _
    rw [(brelse_rest s b).2.2]
    exact h.brelse hh

theorem run_inv {disk : Nat → Block} {disksize : Nat} {s : Bio}
    (h : ReflTransGen Step (binit disk disksize) s) :
    s.Inv (replay s.changes disk) ∧ ∃ xs, s.Listed xs := by
  have hstart : (binit disk disksize).changes = [] :=
    (foldl_initBuf disk disksize (le_refl NBUF)).2.2.2.2.1
  refine runs_invariant (I := fun s : Bio => s.Inv (replay s.changes disk) ∧ ∃ xs, s.Listed xs)
    (fun s s' hi hs => ?_) ⟨?_, _, binit_listed disk disksize⟩ h
  · obtain ⟨hinv, xs, hl⟩ := hi
    exact step_inv hinv hl hs
  · rw [hstart]
    exact binit_inv disk disksize

theorem binit_buf (disk : Nat → Block) (disksize b : Nat) :
    (binit disk disksize).buf b = ⟨false, false, 0, 0, 0, false, fun _ => 0⟩ :=
  congrFun (foldl_initBuf disk disksize (le_refl NBUF)).2.1 b

theorem foldl_disksize (bs : List Nat) (s : Bio) : (bs.foldl initBuf s).disksize = s.disksize := by
  induction bs generalizing s with
  | nil => rfl
  | cons b bs ih => exact ih (s.initBuf b)

/-! ## A run that uses every buffer -/

@[simp] theorem set_disk (s : Bio) (b : Nat) (h : BufHdr) : (s.set b h).disk = s.disk := rfl

@[simp] theorem set_disksize (s : Bio) (b : Nat) (h : BufHdr) :
    (s.set b h).disksize = s.disksize := rfl

theorem set_set (s : Bio) (b : Nat) (h h' : BufHdr) : (s.set b h).set b h' = s.set b h' := by
  simp [set]

/-- The buffers that nobody uses, with no handle about. -/
structure Quiet (s : Bio) (xs : List Nat) : Prop where
  listed : s.Listed xs
  handles : s.handles = 0
  unused : ∀ b, (s.buf b).refcnt = 0 ∧ (s.buf b).dirty = false ∧ (s.buf b).locked = false

theorem Quiet.bget {s : Bio} {l : List Nat} {b n : Nat} (h : s.Quiet (l ++ [b]))
    (hnew : ∀ c, c < NBUF → ¬ ((s.buf c).dev = 1 ∧ (s.buf c).blockno = n)) :
    s.bget 1 n = .ok (b, s.set b ⟨false, false, 1, n, 1, false, (s.buf b).data⟩) ∧
      s.evicted 1 n = if (s.buf b).valid then some (s.buf b).blockno else none := by
  have hcached : s.cached 1 n = none := by
    rw [h.listed.cached, List.find?_eq_none]
    intro c hc hkey
    simp only [Bool.and_eq_true, beq_iff_eq] at hkey
    exact hnew c ((h.listed.mem c).mp hc) hkey
  have hunused : s.unused = some b := by
    rw [h.listed.unused, List.reverse_append]
    simp [h.unused b]
  constructor
  · rw [Bio.bget, hcached, hunused]
    simp only [(h.unused b).2.2]
  · rw [evicted, hcached, hunused]
    rfl

/-- A process has read the block `n` into the buffer `b`. -/
def reading (s : Bio) (b n : Nat) : Bio :=
  { s.set b ⟨true, false, 1, n, 1, true, s.disk n⟩ with
    handles := ⟨b, .holding false⟩ ::ₘ s.handles }

theorem Quiet.read {s : Bio} {l : List Nat} {b n : Nat} (h : s.Quiet (l ++ [b]))
    (hnew : ∀ c, c < NBUF → ¬ ((s.buf c).dev = 1 ∧ (s.buf c).blockno = n))
    (hn : n < s.disksize) : Trace Does s
      [.bget 1 n (if (s.buf b).valid then some (s.buf b).blockno else none), .bread n true]
      (s.reading b n) := by
  obtain ⟨hget, hevicted⟩ := h.bget hnew
  let s1 : Bio := { s.set b ⟨false, false, 1, n, 1, false, (s.buf b).data⟩ with
    handles := ⟨b, .waiting⟩ ::ₘ s.handles }
  have h1 : s1.buf b = ⟨false, false, 1, n, 1, false, (s.buf b).data⟩ := set_buf_self ..
  have hbget : Does s (.bget 1 n (if (s.buf b).valid then some (s.buf b).blockno else none)) s1 := by
    have hdoes := Does.bget hget
    rwa [hevicted] at hdoes
  have hread : s1.bread b = .ok (s1.set b ⟨true, false, 1, n, 1, true, s.disk n⟩) := by
    simp only [Bio.bread, h1, set_buf_self, iderw, set_disksize, set_set]
    simp [s1, hn]
  have hdoes := Does.bread (s := s1) (Eq.refl (⟨b, .waiting⟩ ::ₘ s.handles)) (by rw [h1]) hread
  rw [h1] at hdoes
  have hstate : s.set b ⟨true, false, 1, n, 1, true, s.disk n⟩ =
      (s.set b ⟨false, false, 1, n, 1, false, (s.buf b).data⟩).set b
        ⟨true, false, 1, n, 1, true, s.disk n⟩ := (set_set ..).symm
  rw [reading, hstate]
  exact .cons hbget (.single hdoes)

/-- A process reads the block `n`, which is not cached, and writes `v` to it. -/
theorem Quiet.visit {s : Bio} {l : List Nat} {b n : Nat} (h : s.Quiet (l ++ [b]))
    (hnew : ∀ c, c < NBUF → ¬ ((s.buf c).dev = 1 ∧ (s.buf c).blockno = n)) (hn : n < s.disksize)
    (v : Block) : ∃ s', Trace Does s
      [.bget 1 n (if (s.buf b).valid then some (s.buf b).blockno else none), .bread n true,
        .change n v, .bwrite n, .releasesleep n, .brelse n] s' ∧ s'.Quiet (b :: l) ∧
      s'.buf = Function.update s.buf b ⟨true, false, 1, n, 0, false, v⟩ ∧
      s'.disk = Function.update s.disk n v ∧ s'.disksize = s.disksize := by
  let s2 : Bio := s.reading b n
  let s3 : Bio := { s2.set b ⟨true, false, 1, n, 1, true, v⟩ with
    handles := ⟨b, .holding true⟩ ::ₘ s.handles, changes := s.changes ++ [(n, v)] }
  let s4 : Bio := { s3 with
    disk := Function.update s.disk n v, handles := ⟨b, .holding false⟩ ::ₘ s.handles }
  let s5 : Bio := { s4.set b ⟨true, false, 1, n, 1, false, v⟩ with
    handles := ⟨b, .leaving⟩ ::ₘ s.handles }
  have h2 : s2.buf b = ⟨true, false, 1, n, 1, true, s.disk n⟩ := set_buf_self ..
  have h3 : s3.buf b = ⟨true, false, 1, n, 1, true, v⟩ := set_buf_self ..
  have h4 : s4.buf b = ⟨true, false, 1, n, 1, true, v⟩ := h3
  have h5 : s5.buf b = ⟨true, false, 1, n, 1, false, v⟩ := set_buf_self ..
  have hchange : Does s2 (.change n v) s3 := by
    have hheld : s2.handles = ⟨b, .holding false⟩ ::ₘ s.handles := rfl
    have hdoes := Does.change v hheld
    rwa [h2] at hdoes
  have hbwrite : Does s3 (.bwrite n) s4 := by
    have hwrite : s3.bwrite b = .ok { s3.set b ⟨true, false, 1, n, 1, true, v⟩ with
        disk := Function.update s.disk n v } := by
      simp only [Bio.bwrite, h3, set_buf_self, iderw, set_disksize, set_set]
      simp [s3, s2, reading, hn]
    have hsame : s3.set b ⟨true, false, 1, n, 1, true, v⟩ = s3 := by rw [← h3]; simp [set]
    have hdoes := Does.bwrite (s := s3) (Eq.refl (⟨b, .holding true⟩ ::ₘ s.handles)) hwrite
    rwa [h3, hsame] at hdoes
  have hreleasesleep : Does s4 (.releasesleep n) s5 := by
    have hdoes := Does.releasesleep (s := s4) (Eq.refl (⟨b, .holding false⟩ ::ₘ s.handles))
    rwa [Bio.releasesleep, h4] at hdoes
  have hbrelse : Does s5 (.brelse n) { s5.brelse b with handles := s.handles } := by
    have hdoes := Does.brelse (s := s5) (Eq.refl (⟨b, .leaving⟩ ::ₘ s.handles))
    rwa [h5] at hdoes
  have hbuf : (s5.brelse b).buf = Function.update s.buf b ⟨true, false, 1, n, 0, false, v⟩ := by
    funext c
    rw [brelse_buf, h5]
    by_cases hcb : c = b
    · rw [if_pos hcb, hcb, Function.update_self]
      rfl
    · rw [if_neg hcb, Function.update_of_ne hcb]
      simp [s5, s4, s3, s2, reading, set, hcb]
  have hlisted : (s5.brelse b).Listed (b :: l) := by
    have hbefore : s5.Listed (l ++ [b]) :=
      h.listed.keep rfl rfl rfl rfl fun c _ => (h.unused c).1
    have hrelease := hbefore.release (congrArg (fun hd : BufHdr => hd.refcnt - 1) h5)
    rwa [List.append_nil] at hrelease
  obtain ⟨hdisk, hsize, -⟩ := brelse_rest s5 b
  refine ⟨_, (h.read hnew hn).append <| .cons hchange <| .cons hbwrite <| .cons hreleasesleep <|
    .single hbrelse, ⟨hlisted.keep rfl rfl rfl rfl fun _ => id, h.handles, fun c => ?_⟩, hbuf, hdisk,
    hsize⟩
  change ((s5.brelse b).buf c).refcnt = 0 ∧ ((s5.brelse b).buf c).dirty = false ∧
    ((s5.brelse b).buf c).locked = false
  rw [hbuf]
  by_cases hcb : c = b
  · rw [hcb, Function.update_self]
    exact ⟨rfl, rfl, rfl⟩
  · rw [Function.update_of_ne hcb]
    exact h.unused c

/-- The list after the first `k` buffers were used. -/
def rotated (k : Nat) : List Nat := (List.range k).reverse ++ (List.range' k (NBUF - k)).reverse

theorem rotated_last {k : Nat} (hk : k < NBUF) :
    ∃ l, rotated k = l ++ [k] ∧ rotated (k + 1) = k :: l := by
  refine ⟨(List.range k).reverse ++ (List.range' (k + 1) (NBUF - (k + 1))).reverse, ?_, ?_⟩
  · have hsplit : List.range' k (NBUF - k) = k :: List.range' (k + 1) (NBUF - (k + 1)) := by
      rw [show NBUF - k = NBUF - (k + 1) + 1 by omega, List.range'_succ]
    rw [rotated, hsplit, List.reverse_cons, List.append_assoc]
  · rw [rotated, List.range_succ, List.reverse_append]
    rfl

/-- The blocks from 5 on were visited, `k` of them. -/
structure Visited (s : Bio) (k : Nat) : Prop where
  run : ∃ es, Trace Does (binit (fun _ _ => 7) 1000) es s
  quiet : s.Quiet (rotated k)
  buf : ∀ b, s.buf b = if b < k then ⟨true, false, 1, 5 + b, 0, false, fun _ => 5 + b⟩
    else ⟨false, false, 0, 0, 0, false, fun _ => 0⟩
  disk : ∀ b, b < k → s.disk (5 + b) = fun _ => 5 + b
  disksize : s.disksize = 1000

theorem Visited.not_cached {s : Bio} {k n : Nat} (h : s.Visited k) (hn : 5 + k ≤ n) (c : Nat) :
    ¬ ((s.buf c).dev = 1 ∧ (s.buf c).blockno = n) := by
  rw [h.buf c]
  split
  · rintro ⟨-, hblock⟩
    simp only at hblock
    omega
  · rintro ⟨hdev, -⟩
    cases hdev

theorem visited_start : (binit (fun _ _ => 7) 1000).Visited 0 where
  run := ⟨[], .refl⟩
  quiet := by
    refine ⟨?_, (foldl_initBuf (fun _ _ => 7) 1000 (le_refl NBUF)).2.2.2.1, fun b => ?_⟩
    · have hlisted := binit_listed (fun _ _ => 7) 1000
      rwa [List.range_eq_range'] at hlisted
    · rw [binit_buf]
      exact ⟨rfl, rfl, rfl⟩
  buf b := by rw [binit_buf]; rfl
  disk b hb := absurd hb (Nat.not_lt_zero b)
  disksize := foldl_disksize (List.range NBUF) (blank (fun _ _ => 7) 1000)

theorem visited_run {k : Nat} (hk : k ≤ NBUF) : ∃ s, Visited s k := by
  induction k with
  | zero => exact ⟨_, visited_start⟩
  | succ k ih =>
    obtain ⟨s, h⟩ := ih (by omega)
    obtain ⟨l, hl, hl'⟩ := rotated_last hk
    have hNBUF : NBUF = 30 := rfl
    obtain ⟨s', htrace, hquiet, hbuf, hdisk, hsize⟩ := (hl ▸ h.quiet).visit
      (fun c _ => h.not_cached (le_refl _) c) (by rw [h.disksize]; omega) fun _ => 5 + k
    obtain ⟨es, hes⟩ := h.run
    refine ⟨s', ⟨_, hes.append htrace⟩, hl'.symm ▸ hquiet, fun b => ?_, fun b hb => ?_,
      hsize.trans h.disksize⟩
    · rw [hbuf]
      by_cases hbk : b = k
      · rw [hbk, Function.update_self, if_pos (Nat.lt_succ_self k)]
      · rw [Function.update_of_ne hbk, h.buf b]
        congr 1
        exact propext ⟨fun hlt => by omega, fun hlt => by omega⟩
    · rw [hdisk]
      by_cases hbk : b = k
      · rw [hbk, Function.update_self]
      · rw [Function.update_of_ne (by omega)]
        exact h.disk b (by omega)

/-- Block 5 was written and written back, 30 blocks later it lost its buffer, and it is read
again. -/
theorem reread : ∃ es s, Trace Does (binit (fun _ _ => 7) 1000) es s ∧
    Event.bget 1 35 (some 5) ∈ es ∧ s.handles = ⟨1, .holding false⟩ ::ₘ 0 ∧
      (s.buf 1).blockno = 5 ∧ (s.buf 1).data = fun _ => 5 := by
  obtain ⟨s, h⟩ := visited_run (le_refl NBUF)
  obtain ⟨es, hes⟩ := h.run
  obtain ⟨l, hl⟩ : ∃ l, rotated NBUF = (l ++ [1]) ++ [0] :=
    ⟨(List.range' 2 28).reverse, by decide⟩
  have hsize := h.disksize
  obtain ⟨s', htrace, hquiet, hbuf, hdisk, hsize'⟩ := (hl ▸ h.quiet).visit (n := 35)
    (fun c _ => h.not_cached (le_refl _) c) (by rw [hsize]; decide) fun _ => 35
  rw [h.buf 0] at htrace
  have hnew : ∀ c, c < NBUF → ¬ ((s'.buf c).dev = 1 ∧ (s'.buf c).blockno = 5) := by
    rintro c hc ⟨-, hblock⟩
    rw [hbuf] at hblock
    by_cases hc0 : c = 0
    · rw [hc0, Function.update_self] at hblock
      cases hblock
    · rw [Function.update_of_ne hc0, h.buf c, if_pos hc] at hblock
      exact hc0 (by simpa using hblock)
  have hread := Quiet.read (l := 0 :: l) (b := 1) hquiet hnew (by rw [hsize', hsize]; decide)
  refine ⟨_, _, (hes.append htrace).append hread, by simp [NBUF, MAXOPBLOCKS], ?_, ?_, ?_⟩
  · exact congrArg (⟨1, .holding false⟩ ::ₘ ·) hquiet.handles
  · simp [reading]
  · simp only [reading, set_buf_self, hdisk]
    exact h.disk 0 (by decide)

/-! ## The main results -/

/-- Whoever holds a buffer holds it alone, no other buffer caches its block, and its data is what
was last put into the block, or the disk of the beginning. -/
theorem bio_transparent {disk : Nat → Block} {disksize : Nat} {s : Bio}
    (h : ReflTransGen Step (binit disk disksize) s) {b : Nat} {c : Bool} {hs : Multiset Handle}
    (hh : s.handles = ⟨b, .holding c⟩ ::ₘ hs) :
    (s.buf b).dev = 1 ∧ (s.buf b).data = replay s.changes disk (s.buf b).blockno ∧
      (∀ c', ⟨b, .holding c'⟩ ∉ hs) ∧
      ∀ b', b' < NBUF → b' ≠ b →
        ¬ ((s.buf b').dev = (s.buf b).dev ∧ (s.buf b').blockno = (s.buf b).blockno) := by
  obtain ⟨hinv, -⟩ := run_inv h
  obtain ⟨hb, -⟩ := hinv.handle hh
  obtain ⟨hnone, -, -, hdev, hdata⟩ := hinv.holder hh
  refine ⟨hdev, hdata, fun c' => not_mem_of_holds hnone, fun b' hb' hne hkey => ?_⟩
  have := (hinv.unique b' b hb' hb hne hkey.1 hkey.2).1
  omega

theorem bio_transparent_reread : ∃ es s, Trace Does (binit (fun _ _ => 7) 1000) es s ∧
    Event.bget 1 35 (some 5) ∈ es ∧ s.handles = ⟨1, .holding false⟩ ::ₘ 0 ∧
      (s.buf 1).data = (fun _ => 5) ∧ replay s.changes (fun _ _ => 7) 5 = fun _ => 5 := by
  obtain ⟨es, s, hrun, hout, hheld, hblock, hdata⟩ := reread
  obtain ⟨-, htransparent, -⟩ := bio_transparent hrun.runs hheld
  exact ⟨es, s, hrun, hout, hheld, hdata, by rw [← hdata, htransparent, hblock]⟩

theorem bio_recycles_lru {disk : Nat → Block} {disksize : Nat} {s : Bio}
    (h : ReflTransGen Step (binit disk disksize) s) (dev blockno : Nat)
    (hnew : ∀ b, b < NBUF → ¬ ((s.buf b).dev = dev ∧ (s.buf b).blockno = blockno)) :
    (∀ b s', s.bget dev blockno = .ok (b, s') →
      (s.buf b).refcnt = 0 ∧ (s.buf b).dirty = false ∧
        ∀ b', b' < NBUF → b' ≠ b → (s.buf b').refcnt = 0 → (s.buf b').dirty = false →
          s.released b < s.released b') ∧
    (s.bget dev blockno = .error "bget: no buffers" ↔
      ∀ b, b < NBUF → (s.buf b).refcnt ≠ 0 ∨ (s.buf b).dirty = true) := by
  obtain ⟨-, xs, hl⟩ := run_inv h
  refine ⟨fun b s' hb => ?_, ?_⟩
  · obtain ⟨hbN, ⟨-, hdev, hblock, -⟩ | ⟨-, -, hunused, hrefs, hclean, -⟩⟩ := bget_spec hl hb
    · exact absurd ⟨hdev, hblock⟩ (hnew b hbN)
    · refine ⟨hrefs, hclean, fun b' hb' hne hrefs' hclean' => ?_⟩
      rw [hl.unused, List.find?_eq_some_iff_append] at hunused
      obtain ⟨-, l, r, hsplit, hskipped⟩ := hunused
      have hxs : xs = r.reverse ++ b :: l.reverse := by
        have := congrArg List.reverse hsplit
        simpa using this
      have hmem := (hl.mem b').mpr hb'
      have horder := hl.order
      rw [hxs] at hmem horder
      simp only [List.mem_append, List.mem_reverse, List.mem_cons, hne, false_or] at hmem
      rcases hmem with hmem | hmem
      · exact (List.pairwise_append.mp horder).2.2 b' (by simpa using hmem) b (by simp) hrefs' hrefs
      · exact absurd (hskipped b' hmem) (by simp [hrefs', hclean'])
  · have hcached : s.cached dev blockno = none := by
      rw [hl.cached, List.find?_eq_none]
      intro b hb hkey
      simp only [Bool.and_eq_true, beq_iff_eq] at hkey
      exact hnew b ((hl.mem b).mp hb) hkey
    have hiff : s.unused = none ↔
        ∀ b, b < NBUF → (s.buf b).refcnt ≠ 0 ∨ (s.buf b).dirty = true := by
      rw [hl.unused, List.find?_eq_none]
      constructor
      · intro hall b hb
        have := hall b (by simpa using (hl.mem b).mpr hb)
        by_cases hr : (s.buf b).refcnt = 0
        · exact .inr (by simpa [hr] using this)
        · exact .inl hr
      · intro hall b hb
        rcases hall b ((hl.mem b).mp (by simpa using hb)) with hr | hd
        · simp [hr]
        · simp [hd]
    rw [← hiff]
    unfold bget
    rw [hcached]
    cases s.unused <;> simp

/-- All buffers were used, and the one that was released first is taken. -/
theorem bio_recycles_lru_again : ∃ s s' : Bio,
    ReflTransGen Step (binit (fun _ _ => 7) 1000) s ∧ (∀ b, b < NBUF → (s.buf b).valid = true) ∧
      s.bget 1 35 = .ok (0, s') ∧ s.released 0 < s.released 1 := by
  obtain ⟨s, h⟩ := visited_run (le_refl NBUF)
  obtain ⟨es, hes⟩ := h.run
  obtain ⟨l, hl⟩ : ∃ l, rotated NBUF = l ++ [0] := ⟨(List.range' 1 29).reverse, by decide⟩
  have hnew : ∀ c, c < NBUF → ¬ ((s.buf c).dev = 1 ∧ (s.buf c).blockno = 35) := fun c _ =>
    h.not_cached (le_refl _) c
  obtain ⟨hget, -⟩ := (hl ▸ h.quiet).bget hnew
  refine ⟨s, _, hes.runs, fun b hb => by rw [h.buf b, if_pos hb], hget, ?_⟩
  obtain ⟨-, -, hlru⟩ := (bio_recycles_lru hes.runs 1 35 hnew).1 0 _ hget
  exact hlru 1 (by decide) (by decide) (h.quiet.unused 1).1 (h.quiet.unused 1).2.1

end Bio
end Xv6
end SsuComputer
