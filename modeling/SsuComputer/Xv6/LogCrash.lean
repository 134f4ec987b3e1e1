import SsuComputer.Xv6.Log
import SsuComputer.Lib.RedoLog
import Mathlib.Data.Finset.Card

/-!
# SsuComputer.Xv6.LogCrash

The log refines a store with atomic operations: the cache shows what the open operations see, and
what recovery makes of the disk is what the store calls durable, wherever a crash cuts the run.

* `durable` — what the home blocks hold once the header on disk is played.
* `Inv` — the invariant, with one clause for each place of the process that commits or recovers.
* `does_refines` — every step is what `Store` does on its event, if it has one: calls are starts,
  writes and finishes, and the store commits at `write_head`.
* `log_crash_safe` — the same for runs, crashes and restarted recoveries included.
-/

namespace SsuComputer
namespace Xv6

open Relation

@[simp] theorem readHeader_writeHeader (lh : List Nat) (b : Block) :
    readHeader (writeHeader lh b) = lh := by
  refine List.ext_getElem (by simp [readHeader, writeHeader]) ?_
  intro i h1 h2
  simp [readHeader, writeHeader, h2]

@[simp] theorem writeHeader_zero (lh : List Nat) (b : Block) : writeHeader lh b 0 = lh.length := rfl

theorem absorb_eq (lh : List Nat) (b : Nat) : absorb lh b = if b ∈ lh then lh else lh ++ [b] := by
  unfold absorb
  by_cases hb : b ∈ lh
  · have hlt : lh.findIdx (· == b) < lh.length := by
      rw [List.findIdx_lt_length]
      exact ⟨b, hb, by simp⟩
    have hget : lh[lh.findIdx (· == b)] = b := by
      simpa using List.findIdx_getElem (w := hlt)
    rw [if_pos hb]
    simp only [Nat.ne_of_lt hlt, if_false]
    have hset := List.set_getElem_self hlt
    rwa [hget] at hset
  · have heq : lh.findIdx (· == b) = lh.length := by
      rw [List.findIdx_eq_length]
      intro x hx
      simpa using fun h : x = b => hb (h ▸ hx)
    simp [heq, hb]

theorem mem_absorb {lh : List Nat} {b c : Nat} : c ∈ absorb lh b ↔ c = b ∨ c ∈ lh := by
  rw [absorb_eq]
  split
  · rename_i hb
    constructor
    · exact .inr
    · rintro (rfl | h)
      · exact hb
      · exact h
  · simp [or_comm]

theorem absorb_nodup {lh : List Nat} (h : lh.Nodup) (b : Nat) : (absorb lh b).Nodup := by
  rw [absorb_eq]
  split
  · exact h
  · rename_i hb
    exact h.append (by simp) (by simpa using hb)

namespace Sys

/-! ## What the operations do to the disk, to what `bread` returns, and to the dirty buffers -/

def Dirty (s : Sys) (b : Nat) : Prop := ∃ buf, s.cache b = some buf ∧ buf.dirty = true

def Coherent (s : Sys) : Prop :=
  ∀ b buf, s.cache b = some buf → buf.dirty = false → buf.data = s.disk b

section Operations

variable (s : Sys) (b c : Nat) (v : Block)

@[simp] theorem bread_disk : (s.bread b).disk = s.disk := rfl
@[simp] theorem bread_log : (s.bread b).log = s.log := rfl
@[simp] theorem bread_pc : (s.bread b).pc = s.pc := rfl
@[simp] theorem bread_booting : (s.bread b).booting = s.booting := rfl
@[simp] theorem bread_ops : (s.bread b).ops = s.ops := rfl
@[simp] theorem bread_wrote : (s.bread b).wrote = s.wrote := rfl

@[simp] theorem bread_view : (s.bread b).view = s.view := by
  funext c
  unfold bread view
  cases hb : s.cache b with
  | some buf => rfl
  | none =>
    by_cases hc : c = b
    · subst hc; simp [hb]
    · simp [hc]

@[simp] theorem bread_dirty : (s.bread b).Dirty c ↔ s.Dirty c := by
  unfold bread Dirty
  cases hb : s.cache b with
  | some buf => rfl
  | none =>
    by_cases hc : c = b
    · subst hc; simp [hb]
    · simp [hc]

@[simp] theorem bwrite_disk : (s.bwrite b v).disk = Function.update s.disk b v := rfl
@[simp] theorem bwrite_log : (s.bwrite b v).log = s.log := rfl
@[simp] theorem bwrite_pc : (s.bwrite b v).pc = s.pc := rfl
@[simp] theorem bwrite_booting : (s.bwrite b v).booting = s.booting := rfl
@[simp] theorem bwrite_ops : (s.bwrite b v).ops = s.ops := rfl
@[simp] theorem bwrite_wrote : (s.bwrite b v).wrote = s.wrote := rfl

@[simp] theorem bwrite_view : (s.bwrite b v).view = Function.update s.view b v := by
  funext c
  by_cases hc : c = b
  · subst hc; simp [bwrite, view]
  · simp [bwrite, view, hc]

@[simp] theorem bwrite_dirty : (s.bwrite b v).Dirty c ↔ c ≠ b ∧ s.Dirty c := by
  by_cases hc : c = b
  · subst hc; simp [bwrite, Dirty]
  · simp [bwrite, Dirty, hc]

end Operations

theorem Coherent.bread {s : Sys} (h : s.Coherent) (b : Nat) : (s.bread b).Coherent := by
  intro c buf hc hd
  unfold Sys.bread at hc
  cases hb : s.cache b with
  | some buf' => exact h c buf (by simpa [hb] using hc) hd
  | none =>
    by_cases hcb : c = b
    · subst hcb
      simp only [hb, Function.update_self, Option.some.injEq] at hc
      rw [← hc]
      rfl
    · exact h c buf (by simpa [hb, hcb] using hc) hd

theorem Coherent.bwrite {s : Sys} (h : s.Coherent) (b : Nat) (v : Block) :
    (s.bwrite b v).Coherent := by
  intro c buf hc hd
  by_cases hcb : c = b
  · subst hcb
    simp only [Sys.bwrite, Function.update_self, Option.some.injEq] at hc ⊢
    rw [← hc]
  · simp only [Sys.bwrite, Function.update_of_ne hcb] at hc ⊢
    exact h c buf hc hd

theorem Coherent.view_eq {s : Sys} (h : s.Coherent) {b : Nat} (hb : ¬ s.Dirty b) :
    s.view b = s.disk b := by
  unfold view
  split
  · rename_i buf hbuf
    refine h b buf hbuf ?_
    exact eq_false_of_ne_true fun hd => hb ⟨buf, hbuf, hd⟩
  · rfl

/-! ## The disk as recovery reads it -/

def header (start : Nat) (d : Nat → Block) : List Nat := readHeader (d start)

def entries (start : Nat) (d : Nat → Block) : List (Nat × Block) :=
  (header start d).mapIdx fun i b => (b, d (start + i + 1))

def durable (start : Nat) (d : Nat → Block) : Nat → Block := replay (entries start d) d

theorem entries_keys (start : Nat) (d : Nat → Block) :
    (entries start d).map Prod.fst = header start d := by
  refine List.ext_getElem (by simp [entries]) ?_
  intro i h1 h2
  simp [entries]

theorem mem_entries {start : Nat} {d : Nat → Block} {e : Nat × Block} :
    e ∈ entries start d ↔
      ∃ i, ∃ h : i < (header start d).length, e = ((header start d)[i], d (start + i + 1)) := by
  simp only [entries, List.mem_mapIdx, eq_comm]

theorem durable_of_clear {start : Nat} {d : Nat → Block} (h : header start d = []) :
    durable start d = d := by
  simp [durable, entries, h]

theorem durable_of_not_mem {start : Nat} {d : Nat → Block} {b : Nat} (h : b ∉ header start d) :
    durable start d b = d b :=
  replay_of_not_mem (by rwa [entries_keys]) d

theorem durable_of_mem {start : Nat} {d : Nat → Block} {lh : List Nat} (hlh : header start d = lh)
    (hnd : lh.Nodup) {i : Nat} (h : i < lh.length) : durable start d lh[i] = d (start + i + 1) := by
  subst hlh
  exact replay_of_mem (by rwa [entries_keys]) (mem_entries.mpr ⟨i, h, rfl⟩) d

theorem entries_congr {start : Nat} {d d' : Nat → Block} (hh : header start d' = header start d)
    (hlog : ∀ i, i < (header start d).length → d' (start + i + 1) = d (start + i + 1)) :
    entries start d' = entries start d := by
  refine List.ext_getElem (by simp [entries, hh]) ?_
  intro i h1 h2
  have hi : i < (header start d).length := by simpa [entries] using h2
  simp [entries, hh, hlog i hi]

/-! ## The invariant -/

/-- The block numbers of a header: distinct, outside the log, and no more than the log holds. -/
structure Loggable (start size : Nat) (lh : List Nat) : Prop where
  nodup : lh.Nodup
  home : ∀ b ∈ lh, b < start ∨ start + size ≤ b
  fits : lh.length < size

/-- The first `t` logged blocks are in the log on disk. -/
def Logged (s : Sys) (t : Nat) : Prop :=
  ∀ i, i < t → ∀ h : i < s.log.lh.length, s.disk (s.log.start + i + 1) = s.view s.log.lh[i]

/-- The first `t` logged blocks are home on disk. -/
def Installed (s : Sys) (t : Nat) : Prop :=
  ∀ i, i < t → ∀ h : i < s.log.lh.length, s.disk s.log.lh[i] = s.disk (s.log.start + i + 1)

def Phase (s : Sys) : Pc → Prop
  | .idle | .commit => s.booting = false ∧ header s.log.start s.disk = []
  | .writeLog t => s.booting = false ∧ header s.log.start s.disk = [] ∧ t ≤ s.log.lh.length ∧ s.Logged t
  | .writeHead => s.booting = false ∧ header s.log.start s.disk = [] ∧ s.Logged s.log.lh.length
  | .readHead => s.booting = true ∧ s.log.lh = []
  | .install t => header s.log.start s.disk = s.log.lh ∧ t ≤ s.log.lh.length ∧ (∀ b, s.Dirty b → b ∈ s.log.lh.drop t) ∧
      s.Installed t ∧
      (s.booting = false → ∀ b, Home s.log b → s.view b = durable s.log.start s.disk b)
  | .clear => s.log.lh = [] ∧ durable s.log.start s.disk = s.disk
  | .done => header s.log.start s.disk = [] ∧ s.log.lh = []

structure Inv (s : Sys) : Prop where
  coherent : s.Coherent
  memory : Loggable s.log.start s.log.size s.log.lh
  disk : Loggable s.log.start s.log.size (header s.log.start s.disk)
  dirty : ∀ b, s.Dirty b → b ∈ s.log.lh
  outstanding : s.log.outstanding = s.ops.card
  committing : s.booting = false → (s.log.committing = true ↔ s.pc ≠ .idle)
  active : s.ops.Nonempty → s.pc = .idle
  phase : s.Phase s.pc

theorem Inv.home_dirty {s : Sys} (h : s.Inv) {b : Nat} (hb : ¬ Home s.log b) : ¬ s.Dirty b :=
  fun hd => hb (h.memory.home b (h.dirty b hd))

theorem Inv.view_log {s : Sys} (h : s.Inv) {i : Nat} (hi : i + 1 < s.log.size) :
    s.view (s.log.start + i + 1) = s.disk (s.log.start + i + 1) :=
  h.coherent.view_eq (h.home_dirty (by unfold Home; omega))

theorem Inv.view_clean {s : Sys} (h : s.Inv) (hlh : s.log.lh = []) (b : Nat) :
    s.view b = s.disk b := by
  refine h.coherent.view_eq fun hd => ?_
  have := h.dirty b hd
  simp [hlh] at this

theorem Inv.busy {s : Sys} (h : s.Inv) (hpc : s.pc ≠ .idle) {pc : Pc} (hne : pc ≠ .idle) :
    s.booting = false → (s.log.committing = true ↔ pc ≠ .idle) :=
  fun hup => ⟨fun _ => hne, fun _ => (h.committing hup).mpr hpc⟩

theorem Inv.closed {s : Sys} (h : s.Inv) (hpc : s.pc ≠ .idle) {P : Prop} : s.ops.Nonempty → P :=
  fun hops => absurd (h.active hops) hpc

theorem home_ne_log {s : Sys} {b : Nat} (h : Home s.log b) {i : Nat} (hi : i + 1 < s.log.size) :
    b ≠ s.log.start + i + 1 := by
  unfold Home at h; omega

theorem home_ne_start {s : Sys} {b : Nat} (h : Home s.log b) (hs : 0 < s.log.size) :
    b ≠ s.log.start := by
  unfold Home at h; omega

/-! ## One round of `commit` and `recover_from_log` -/

section Rounds

variable {s : Sys} {t : Nat}

theorem write_log_eq (ht : t < s.log.lh.length) :
    (s.write_log t).disk =
        Function.update s.disk (s.log.start + t + 1) (s.view s.log.lh[t]) ∧
      (s.write_log t).view =
        Function.update s.view (s.log.start + t + 1) (s.view s.log.lh[t]) := by
  simp [write_log, ht]

theorem install_eq (ht : t < s.log.lh.length) :
    (s.install t).disk = Function.update s.disk s.log.lh[t] (s.view (s.log.start + t + 1)) ∧
      (s.install t).view =
        Function.update s.view s.log.lh[t] (s.view (s.log.start + t + 1)) := by
  simp [install, ht]

theorem write_head_eq :
    s.write_head.disk =
        Function.update s.disk s.log.start (writeHeader s.log.lh (s.view s.log.start)) ∧
      s.write_head.view =
        Function.update s.view s.log.start (writeHeader s.log.lh (s.view s.log.start)) := by
  simp [write_head]

theorem write_head_hd : header s.log.start s.write_head.disk = s.log.lh := by
  simp [header, write_head_eq.1]

/-- Blocks of the log other than the header do not change it. -/
theorem hd_update {d : Nat → Block} {start b : Nat} (hb : b ≠ start) (v : Block) :
    header start (Function.update d b v) = header start d := by
  rw [header, header, Function.update_of_ne hb.symm]

/-- While the header on disk is empty, the log may be written. -/
theorem Inv.write_log (h : s.Inv) (hpc : s.pc = .writeLog t) (ht : t < s.log.lh.length) :
    Inv { s.write_log t with pc := .writeLog (t + 1) } := by
  obtain ⟨hup, hhd, -, hlogged⟩ : s.Phase (.writeLog t) := hpc ▸ h.phase
  obtain ⟨hdisk, hview⟩ := write_log_eq ht
  have hfits := h.memory.fits
  have hhd' : header s.log.start (s.write_log t).disk = [] := by
    rw [hdisk, hd_update (by omega), hhd]
  refine ⟨(h.coherent.bread _).bread _ |>.bwrite _ _, h.memory, ?_, ?_, h.outstanding, ?_, ?_,
    hup, hhd', ht, ?_⟩
  · have : Loggable s.log.start s.log.size [] := ⟨List.nodup_nil, by simp, by simp; omega⟩
    exact hhd'.symm ▸ this
  · intro b hb
    have hb : (s.write_log t).Dirty b := hb
    simp only [Sys.write_log, bwrite_dirty, bread_dirty] at hb
    exact h.dirty b hb.2
  · exact h.busy (by simp [hpc]) nofun
  · exact h.closed (by simp [hpc])
  · intro i hi hlt
    have hlt : i < s.log.lh.length := hlt
    have hne : s.log.lh[i] ≠ s.log.start + t + 1 :=
      home_ne_log (h.memory.home _ (List.getElem_mem hlt)) (by omega)
    change (s.write_log t).disk (s.log.start + i + 1) = (s.write_log t).view s.log.lh[i]
    rw [hdisk, hview, Function.update_of_ne hne]
    rcases Nat.lt_succ_iff_lt_or_eq.mp hi with hi | rfl
    · rw [Function.update_of_ne (by omega)]
      exact hlogged i hi hlt
    · rw [Function.update_self]

/-- Writing the header makes what the cache shows durable. -/
theorem Inv.write_head (h : s.Inv) (hpc : s.pc = .writeHead) :
    Inv { s.write_head with pc := .install 0 } ∧
      ∀ b, Home s.log b → durable s.log.start s.write_head.disk b = s.view b := by
  obtain ⟨hup, hhd, hlogged⟩ : s.Phase .writeHead := hpc ▸ h.phase
  obtain ⟨hdisk, hview⟩ := write_head_eq (s := s)
  have hfits := h.memory.fits
  have hdurable : ∀ b, Home s.log b → durable s.log.start s.write_head.disk b = s.view b := by
    intro b hb
    by_cases hmem : b ∈ s.log.lh
    · obtain ⟨i, hi, rfl⟩ := List.getElem_of_mem hmem
      rw [durable_of_mem write_head_hd h.memory.nodup hi, hdisk, Function.update_of_ne (by omega),
        hlogged i hi hi]
    · have hclean : ¬ s.Dirty b := fun hd => hmem (h.dirty b hd)
      rw [durable_of_not_mem (by rwa [write_head_hd]), hdisk,
        Function.update_of_ne (home_ne_start hb (by omega)), h.coherent.view_eq hclean]
  have hdirty : ∀ b, s.write_head.Dirty b → s.Dirty b := by
    intro b hb
    simp only [Sys.write_head, bwrite_dirty, bread_dirty] at hb
    exact hb.2
  refine ⟨⟨(h.coherent.bread _).bwrite _ _, h.memory, ?_, fun b hb => h.dirty b (hdirty b hb),
    h.outstanding, ?_, ?_, write_head_hd (s := s), Nat.zero_le _, fun b hb => h.dirty b (hdirty b hb),
    fun i hi => absurd hi (Nat.not_lt_zero i), ?_⟩, hdurable⟩
  · have hhd' := write_head_hd (s := s)
    exact hhd'.symm ▸ h.memory
  · exact h.busy (by simp [hpc]) nofun
  · exact h.closed (by simp [hpc])
  · intro _ b hb
    have hb : Home s.log b := hb
    refine Eq.trans ?_ (hdurable b hb).symm
    change s.write_head.view b = s.view b
    rw [hview, Function.update_of_ne (home_ne_start hb (by omega))]

theorem Inv.read_head (h : s.Inv) (hpc : s.pc = .readHead) :
    Inv { s.read_head with pc := .install 0 } := by
  obtain ⟨hboot, hlh⟩ : s.Phase .readHead := hpc ▸ h.phase
  have hread : s.read_head.log.lh = header s.log.start s.disk := by
    simp [Sys.read_head, header, h.view_clean hlh]
  have hclean : ∀ b, ¬ s.read_head.Dirty b := by
    intro b hb
    have hb : s.Dirty b := (bread_dirty s s.log.start b).mp hb
    simpa [hlh] using h.dirty b hb
  refine ⟨h.coherent.bread _, ?_, h.disk, fun b hb => absurd hb (hclean b), h.outstanding, ?_, ?_,
    hread.symm, Nat.zero_le _, fun b hb => absurd hb (hclean b),
    fun i hi => absurd hi (Nat.not_lt_zero i), ?_⟩
  · exact hread.symm ▸ h.disk
  · intro hb
    have hb : s.booting = false := hb
    simp [hboot] at hb
  · exact h.closed (by simp [hpc])
  · intro hb
    have hb : s.booting = false := hb
    simp [hboot] at hb

/-- Installing a block does not change what recovery makes of the disk. -/
theorem Inv.install (h : s.Inv) (hpc : s.pc = .install t) (ht : t < s.log.lh.length) :
    Inv { s.install t with pc := .install (t + 1) } ∧
      durable s.log.start (s.install t).disk = durable s.log.start s.disk := by
  obtain ⟨hhd, -, hdirty, hinst, hseen⟩ : s.Phase (.install t) := hpc ▸ h.phase
  obtain ⟨hdisk, hview⟩ := install_eq ht
  have hfits := h.memory.fits
  rw [h.view_log (by omega)] at hdisk hview
  have hhome : Home s.log s.log.lh[t] := h.memory.home _ (List.getElem_mem ht)
  have hhd' : header s.log.start (s.install t).disk = s.log.lh := by
    rw [hdisk, hd_update (home_ne_start hhome (by omega)), hhd]
  have hlog : ∀ i, i < s.log.lh.length →
      (s.install t).disk (s.log.start + i + 1) = s.disk (s.log.start + i + 1) := by
    intro i hi
    rw [hdisk, Function.update_of_ne (home_ne_log hhome (by omega)).symm]
  have hsame : durable s.log.start (s.install t).disk = durable s.log.start s.disk := by
    rw [durable, durable, entries_congr (hhd'.trans hhd.symm) (by rw [hhd]; exact hlog), hdisk]
    refine replay_update (by rw [entries_keys]; exact h.disk.nodup) ?_ _
    rw [mem_entries]
    exact ⟨t, by rwa [hhd], by simp [hhd]⟩
  have hdirty' : ∀ b, (s.install t).Dirty b → b ∈ s.log.lh.drop (t + 1) := by
    intro b hb
    simp only [Sys.install, bwrite_dirty, bread_dirty, List.getD_eq_getElem?_getD,
      List.getElem?_eq_getElem ht, Option.getD_some] at hb
    have hmem := hdirty b hb.2
    rw [List.drop_eq_getElem_cons ht, List.mem_cons] at hmem
    exact hmem.resolve_left hb.1
  refine ⟨⟨(h.coherent.bread _).bread _ |>.bwrite _ _, h.memory, ?_,
    fun b hb => List.mem_of_mem_drop (hdirty' b hb), h.outstanding, ?_, ?_, hhd', ht, hdirty', ?_,
    ?_⟩, hsame⟩
  · exact hhd'.symm ▸ h.memory
  · exact h.busy (by simp [hpc]) nofun
  · exact h.closed (by simp [hpc])
  · intro i hi hlt
    have hlt : i < s.log.lh.length := hlt
    change (s.install t).disk s.log.lh[i] = (s.install t).disk (s.log.start + i + 1)
    rw [hlog i hlt, hdisk]
    rcases Nat.lt_succ_iff_lt_or_eq.mp hi with hi | rfl
    · have hne : s.log.lh[i] ≠ s.log.lh[t] := by
        rw [Ne, h.memory.nodup.getElem_inj_iff]
        omega
      rw [Function.update_of_ne hne]
      exact hinst i hi hlt
    · rw [Function.update_self]
  · intro hup b hb
    refine Eq.trans ?_ (congrFun hsame b).symm
    change (s.install t).view b = _
    rw [hview]
    by_cases hbt : b = s.log.lh[t]
    · subst hbt
      rw [Function.update_self, durable_of_mem hhd h.memory.nodup ht]
    · rw [Function.update_of_ne hbt]
      exact hseen hup b hb

/-- Once every block is home, the log on disk changes nothing any more. -/
theorem Inv.forget (h : s.Inv) (hpc : s.pc = .install t) (ht : ¬ t < s.log.lh.length) :
    Inv { s.forget with pc := .clear } := by
  obtain ⟨hhd, hle, hdirty, hinst, -⟩ : s.Phase (.install t) := hpc ▸ h.phase
  have hclean : ∀ b, ¬ s.Dirty b := by
    intro b hb
    have := hdirty b hb
    rw [List.drop_eq_nil_of_le (by omega)] at this
    cases this
  refine ⟨h.coherent, ⟨List.nodup_nil, by simp [Sys.forget], ?_⟩, h.disk,
    fun b hb => absurd hb (hclean b), h.outstanding, ?_, ?_, rfl, ?_⟩
  · have := h.memory.fits
    change ([] : List Nat).length < s.log.size
    simp only [List.length_nil]
    omega
  · exact h.busy (by simp [hpc]) nofun
  · exact h.closed (by simp [hpc])
  · refine replay_eq_self (by rw [entries_keys]; exact h.disk.nodup) ?_
    intro e he
    obtain ⟨i, hi, rfl⟩ := mem_entries.mp he
    have hi' : i < s.log.lh.length := by rwa [← hhd]
    change s.disk (header s.log.start s.disk)[i] = s.disk (s.log.start + i + 1)
    simpa only [hhd] using hinst i (by omega) hi'

theorem Inv.clear (h : s.Inv) (hpc : s.pc = .clear) :
    Inv { s.write_head with pc := .done } ∧
      (∀ b, Home s.log b →
        durable s.log.start s.write_head.disk b = durable s.log.start s.disk b) ∧
      ∀ b, Home s.log b → s.write_head.view b = s.view b := by
  obtain ⟨hlh, hsame⟩ : s.Phase .clear := hpc ▸ h.phase
  obtain ⟨hdisk, hview⟩ := write_head_eq (s := s)
  have hfits := h.memory.fits
  have hhd' : header s.log.start s.write_head.disk = [] := by rw [write_head_hd, hlh]
  have hclean : ∀ b, ¬ s.write_head.Dirty b := by
    intro b hb
    simp only [Sys.write_head, bwrite_dirty, bread_dirty] at hb
    simpa [hlh] using h.dirty b hb.2
  refine ⟨⟨(h.coherent.bread _).bwrite _ _, h.memory, ?_, fun b hb => absurd hb (hclean b),
    h.outstanding, ?_, ?_, hhd', hlh⟩, ?_, ?_⟩
  · exact (hhd'.trans hlh.symm).symm ▸ h.memory
  · exact h.busy (by simp [hpc]) nofun
  · exact h.closed (by simp [hpc])
  · intro b hb
    rw [durable_of_clear hhd', hsame, hdisk, Function.update_of_ne (home_ne_start hb (by omega))]
  · intro b hb
    rw [hview, Function.update_of_ne (home_ne_start hb (by omega))]

theorem Inv.finish (h : s.Inv) (hpc : s.pc = .done) :
    Inv { s with log := { s.log with committing := false }, pc := .idle, booting := false } := by
  obtain ⟨hhd, hlh⟩ : s.Phase .done := hpc ▸ h.phase
  exact ⟨h.coherent, h.memory, h.disk, h.dirty, h.outstanding, fun _ => by simp, fun _ => rfl,
    rfl, hhd⟩

/-- One round: the header write makes the cache durable, the other rounds keep what is durable,
and no round changes what the cache shows of the home blocks. -/
theorem Inv.advance (h : s.Inv) : s.advance.Inv ∧
    (∀ b, Home s.log b → durable s.log.start s.advance.disk b =
      if s.pc = .writeHead then s.view b else durable s.log.start s.disk b) ∧
    (s.booting = false → ∀ b, Home s.log b → s.advance.view b = s.view b) := by
  have hfits := h.memory.fits
  cases hpc : s.pc with
  | idle => simpa [Sys.advance, hpc] using h
  | commit =>
    obtain ⟨hup, hhd⟩ : s.Phase .commit := hpc ▸ h.phase
    have hne : s.pc ≠ .idle := by simp [hpc]
    by_cases hlh : s.log.lh.length > 0
    · simp only [Sys.advance, hpc, if_pos hlh]
      refine ⟨⟨h.coherent, h.memory, h.disk, h.dirty, h.outstanding, h.busy hne nofun,
        h.closed hne, hup, hhd, Nat.zero_le _, ?_⟩, fun _ _ => rfl, fun _ _ _ => rfl⟩
      exact fun i hi => absurd hi (Nat.not_lt_zero i)
    · simp only [Sys.advance, hpc, if_neg hlh]
      refine ⟨⟨h.coherent, h.memory, h.disk, h.dirty, h.outstanding, h.busy hne nofun,
        h.closed hne, hhd, ?_⟩, fun _ _ => rfl, fun _ _ _ => rfl⟩
      exact List.eq_nil_of_length_eq_zero (Nat.eq_zero_of_not_pos hlh)
  | writeLog t =>
    obtain ⟨hup, hhd, hle, hlogged⟩ : s.Phase (.writeLog t) := hpc ▸ h.phase
    by_cases ht : t < s.log.lh.length
    · simp only [Sys.advance, hpc, if_pos ht]
      obtain ⟨hdisk, hview⟩ := write_log_eq ht
      refine ⟨h.write_log hpc ht, fun b hb => ?_, fun _ b hb => ?_⟩
      · rw [if_neg (by simp), durable_of_clear hhd, hdisk, durable_of_clear
          (by rw [hd_update (by omega), hhd]), Function.update_of_ne (home_ne_log hb (by omega))]
      · change (s.write_log t).view b = s.view b
        rw [hview, Function.update_of_ne (home_ne_log hb (by omega))]
    · simp only [Sys.advance, hpc, if_neg ht]
      have hne : s.pc ≠ .idle := by simp [hpc]
      refine ⟨⟨h.coherent, h.memory, h.disk, h.dirty, h.outstanding, h.busy hne nofun,
        h.closed hne, hup, hhd, ?_⟩, fun _ _ => rfl, fun _ _ _ => rfl⟩
      exact fun i hi hlt => hlogged i (Nat.lt_of_lt_of_le hlt (Nat.not_lt.mp ht)) hlt
  | writeHead =>
    simp only [Sys.advance, hpc]
    obtain ⟨hinv, hdurable⟩ := h.write_head hpc
    refine ⟨hinv, fun b hb => by rw [if_pos trivial]; exact hdurable b hb, fun _ b hb => ?_⟩
    change s.write_head.view b = s.view b
    rw [write_head_eq.2, Function.update_of_ne (home_ne_start hb (by omega))]
  | readHead =>
    simp only [Sys.advance, hpc]
    refine ⟨h.read_head hpc, fun b _ => rfl, fun _ b _ => ?_⟩
    exact congrFun (bread_view s s.log.start) b
  | install t =>
    by_cases ht : t < s.log.lh.length
    · simp only [Sys.advance, hpc, if_pos ht]
      obtain ⟨hinv, hdurable⟩ := h.install hpc ht
      obtain ⟨hhd, -, -, -, hseen⟩ : s.Phase (.install t) := hpc ▸ h.phase
      refine ⟨hinv, fun b _ => by simp [hdurable], fun hup b hb => ?_⟩
      change (s.install t).view b = s.view b
      rw [(install_eq ht).2]
      by_cases hbt : b = s.log.lh[t]
      · subst hbt
        rw [Function.update_self, hseen hup _ hb, durable_of_mem hhd h.memory.nodup ht,
          h.view_log (by omega)]
      · rw [Function.update_of_ne hbt]
    · simp only [Sys.advance, hpc, if_neg ht]
      exact ⟨h.forget hpc ht, fun _ _ => rfl, fun _ _ _ => rfl⟩
  | clear =>
    simp only [Sys.advance, hpc]
    obtain ⟨hinv, hdurable, hview⟩ := h.clear hpc
    exact ⟨hinv, fun b hb => by rw [if_neg (by simp)]; exact hdurable b hb, fun _ => hview⟩
  | done =>
    simp only [Sys.advance, hpc]
    exact ⟨h.finish hpc, fun _ _ => rfl, fun _ _ _ => rfl⟩

end Rounds

/-! ## The other steps -/

section Steps

variable {s : Sys} {log : Log}

theorem begin_op_spec (h : begin_op s.log = some log) :
    s.log.committing = false ∧
      (s.log.lh.length : Int) + (s.log.outstanding + 1) * MAXOPBLOCKS ≤ LOGSIZE ∧
      log = { s.log with outstanding := s.log.outstanding + 1 } := by
  unfold begin_op at h
  split at h
  · cases h
  · rename_i hc
    split at h
    · cases h
    · rename_i hroom
      exact ⟨eq_false_of_ne_true hc, by omega, (Option.some.inj h).symm⟩

theorem log_write_spec {b : Nat} (h : log_write s.log b = .ok log) :
    s.log.lh.length < LOGSIZE ∧ (s.log.lh.length : Int) < s.log.size - 1 ∧
      0 < s.log.outstanding ∧ log = { s.log with lh := absorb s.log.lh b } := by
  unfold log_write at h
  split at h
  · cases h
  · split at h
    · cases h
    · exact ⟨by omega, by omega, by omega, by cases h; rfl⟩

theorem end_op_spec (h : end_op s.log = .ok log) :
    s.log.committing = false ∧ log = { s.log with
      outstanding := s.log.outstanding - 1
      committing := decide (s.log.outstanding = 1) } := by
  unfold end_op at h
  split at h
  · cases h
  · rename_i hc
    refine ⟨eq_false_of_ne_true hc, ?_⟩
    split at h
    · rename_i hone
      have hone : s.log.outstanding = 1 := by omega
      cases h
      simp [hone]
    · rename_i hone
      have hone : s.log.outstanding ≠ 1 := by omega
      cases h
      simp [hone, hc]

theorem phase_congr {s' : Sys} {pc : Pc} (hdisk : s'.disk = s.disk) (hview : s'.view = s.view)
    (hdirty : ∀ b, s'.Dirty b → s.Dirty b) (hlog : s'.log = s.log)
    (hboot : s'.booting = s.booting) (h : s.Phase pc) : s'.Phase pc := by
  cases pc with
  | install t =>
    obtain ⟨hhd, hle, hd, hinst, hseen⟩ := h
    simp only [Phase, Installed, hdisk, hview, hlog, hboot]
    exact ⟨hhd, hle, fun b hb => hd b (hdirty b hb), hinst, hseen⟩
  | _ => simpa only [Phase, Logged, hdisk, hview, hlog, hboot] using h

/-- Reading a block into the cache, or dropping a clean buffer. -/
theorem Inv.same {s' : Sys} (h : s.Inv) (hcoherent : s'.Coherent) (hdisk : s'.disk = s.disk)
    (hview : s'.view = s.view) (hdirty : ∀ b, s'.Dirty b → s.Dirty b) (hlog : s'.log = s.log)
    (hpc : s'.pc = s.pc) (hboot : s'.booting = s.booting) (hops : s'.ops = s.ops) : s'.Inv where
  coherent := hcoherent
  memory := by rw [hlog]; exact h.memory
  disk := by rw [hlog, hdisk]; exact h.disk
  dirty b hb := by rw [hlog]; exact h.dirty b (hdirty b hb)
  outstanding := by rw [hlog, hops]; exact h.outstanding
  committing hup := by rw [hlog, hpc]; exact h.committing (hboot ▸ hup)
  active hne := by rw [hpc]; exact h.active (hops ▸ hne)
  phase := by rw [hpc]; exact phase_congr hdisk hview hdirty hlog hboot h.phase

theorem Inv.boot {start size : Nat} {disk : Nat → Block}
    (h : Loggable start size (header start disk)) : (boot start size disk).Inv where
  coherent := nofun
  memory := ⟨List.nodup_nil, nofun, Nat.lt_of_le_of_lt (Nat.zero_le _) h.fits⟩
  disk := h
  dirty b hb := by obtain ⟨buf, hbuf, -⟩ := hb; cases hbuf
  outstanding := rfl
  committing hup := by cases hup
  active hne := by simp [Sys.boot] at hne
  phase := ⟨rfl, rfl⟩

theorem Inv.begin_op {p : Nat} (h : s.Inv) (hup : s.booting = false) (hp : p ∉ s.ops)
    (hb : begin_op s.log = some log) : Inv { s with
      log := log, ops := insert p s.ops, wrote := Function.update s.wrote p ∅ } := by
  obtain ⟨hc, -, rfl⟩ := begin_op_spec hb
  have hpc : s.pc = .idle := by
    by_contra hne
    simp [(h.committing hup).mpr hne] at hc
  refine ⟨h.coherent, h.memory, h.disk, h.dirty, ?_, h.committing, fun _ => hpc, ?_⟩
  · simp [h.outstanding, Finset.card_insert_of_notMem hp]
  · obtain ⟨hup, hhd⟩ : s.Phase .idle := hpc ▸ h.phase
    simp only [hpc]
    exact ⟨hup, hhd⟩

theorem Inv.log_write {p b : Nat} {v : Block} (h : s.Inv) (hp : p ∈ s.ops) (hb : Home s.log b)
    (hw : log_write s.log b = .ok log) : Inv { s with
      log := log
      cache := Function.update s.cache b (some ⟨v, true⟩)
      wrote := Function.update s.wrote p (insert b (s.wrote p)) } := by
  obtain ⟨-, hsize, -, rfl⟩ := log_write_spec hw
  have hpc := h.active ⟨p, hp⟩
  refine ⟨?_, ⟨absorb_nodup h.memory.nodup b, ?_, ?_⟩, h.disk, ?_, h.outstanding, h.committing,
    h.active, ?_⟩
  · intro c buf hc hd
    have hc : Function.update s.cache b (some ⟨v, true⟩) c = some buf := hc
    by_cases hcb : c = b
    · subst hcb
      rw [Function.update_self] at hc
      cases hc
      cases hd
    · exact h.coherent c buf (by rwa [Function.update_of_ne hcb] at hc) hd
  · intro c hc
    rcases mem_absorb.mp hc with rfl | hc
    · exact hb
    · exact h.memory.home c hc
  · have hle : (absorb s.log.lh b).length ≤ s.log.lh.length + 1 := by
      rw [absorb_eq]
      split <;> simp
    change (absorb s.log.lh b).length < s.log.size
    omega
  · rintro c ⟨buf, hc, hd⟩
    have hc : Function.update s.cache b (some ⟨v, true⟩) c = some buf := hc
    refine mem_absorb.mpr ?_
    by_cases hcb : c = b
    · exact .inl hcb
    · rw [Function.update_of_ne hcb] at hc
      exact .inr (h.dirty c ⟨buf, hc, hd⟩)
  · obtain ⟨hup, hhd⟩ : s.Phase .idle := hpc ▸ h.phase
    simp only [hpc]
    exact ⟨hup, hhd⟩

theorem Inv.end_op {p : Nat} (h : s.Inv) (hp : p ∈ s.ops) (he : end_op s.log = .ok log) :
    Inv { s with
      log := log, ops := s.ops.erase p, pc := if log.committing then .commit else s.pc } := by
  obtain ⟨hc, rfl⟩ := end_op_spec he
  have hpc := h.active ⟨p, hp⟩
  obtain ⟨hup, hhd⟩ : s.Phase .idle := hpc ▸ h.phase
  have hcard : (s.ops.erase p).card + 1 = s.ops.card := Finset.card_erase_add_one hp
  have hout := h.outstanding
  by_cases hone : s.log.outstanding = 1
  · refine ⟨h.coherent, h.memory, h.disk, h.dirty, ?_, fun _ => by simp [hone], ?_, ?_⟩
    · change s.log.outstanding - 1 = ((s.ops.erase p).card : Int)
      omega
    · intro hne
      have : 0 < (s.ops.erase p).card := Finset.card_pos.mpr hne
      omega
    · simp only [hone, decide_true, if_true]
      exact ⟨hup, hhd⟩
  · refine ⟨h.coherent, h.memory, h.disk, h.dirty, ?_, fun _ => by simp [hone, hpc],
      fun _ => by simp [hone, hpc], ?_⟩
    · change s.log.outstanding - 1 = ((s.ops.erase p).card : Int)
      omega
    · simp only [hone, decide_false, Bool.false_eq_true, if_false, hpc]
      exact ⟨hup, hhd⟩

end Steps

/-! ## Refinement -/

/-- While the machine recovers, nothing runs that could look at the blocks. -/
def shown (s : Sys) (b : Nat) : Block :=
  if s.booting then durable s.log.start s.disk b else s.view b

structure Refines (s : Sys) (a : Store Nat Nat Block) : Prop where
  inv : s.Inv
  active : a.active = s.ops
  durable : ∀ b, Home s.log b → a.durable b = durable s.log.start s.disk b
  live : ∀ b, Home s.log b → a.live b = s.shown b

theorem Inv.up {s : Sys} (h : s.Inv) {p : Nat} (hp : p ∈ s.ops) : s.booting = false := by
  have hphase := h.phase
  rw [h.active ⟨p, hp⟩] at hphase
  exact hphase.1

theorem advance_log (s : Sys) :
    s.advance.log.start = s.log.start ∧ s.advance.log.size = s.log.size := by
  unfold Sys.advance
  split <;> first | exact ⟨rfl, rfl⟩ | (split <;> exact ⟨rfl, rfl⟩)

theorem advance_booting (s : Sys) :
    s.advance.booting = if s.pc = .done then false else s.booting := by
  by_cases hdone : s.pc = .done
  · simp [Sys.advance, hdone]
  · rw [if_neg hdone]
    unfold Sys.advance
    split
    case h_8 hpc => exact absurd hpc hdone
    all_goals first | rfl | (split <;> rfl)

theorem advance_ops (s : Sys) : s.advance.ops = s.ops := by
  unfold Sys.advance
  split <;> first | rfl | (split <;> rfl)

/-- What the store is told of a step. It commits when the header is written. -/
def Event.seen : Event → Option (Store.Event Nat Nat Block)
  | .begin_op p => some (.start p)
  | .log_write p b v => some (.write p b v)
  | .end_op p => some (.finish p)
  | .advance .writeHead => some .commit
  | .advance _ | .fetch _ | .evict _ => none
  | .crash => some .crash

section Answers

variable {s : Sys} {a : Store Nat Nat Block} {log : Log} {p b : Nat}

theorem Refines.begin_op (h : s.Refines a) (hup : s.booting = false) (hp : p ∉ s.ops)
    (hb : Xv6.begin_op s.log = some log) : Refines { s with
      log := log, ops := insert p s.ops, wrote := Function.update s.wrote p ∅ }
      (a.apply (.start p)) := by
  have hinv := h.inv.begin_op hup hp hb
  obtain ⟨-, -, rfl⟩ := begin_op_spec hb
  exact ⟨hinv, congrArg (insert p) h.active, h.durable, h.live⟩

theorem Refines.log_write {v : Block} (h : s.Refines a) (hp : p ∈ s.ops) (hb : Home s.log b)
    (hw : Xv6.log_write s.log b = .ok log) : Refines { s with
      log := log
      cache := Function.update s.cache b (some ⟨v, true⟩)
      wrote := Function.update s.wrote p (insert b (s.wrote p)) } (a.apply (.write p b v)) := by
  have hinv := h.inv.log_write (v := v) hp hb hw
  obtain ⟨-, -, -, rfl⟩ := log_write_spec hw
  refine ⟨hinv, h.active, h.durable, fun c hc => ?_⟩
  have hlive := h.live c hc
  simp only [shown, h.inv.up hp, Bool.false_eq_true, if_false, Store.apply] at hlive ⊢
  by_cases hcb : c = b
  · subst hcb; simp [view]
  · simpa [view, hcb] using hlive

theorem Refines.end_op (h : s.Refines a) (hp : p ∈ s.ops) (he : Xv6.end_op s.log = .ok log) :
    Refines { s with
      log := log, ops := s.ops.erase p, pc := if log.committing then .commit else s.pc }
      (a.apply (.finish p)) := by
  have hinv := h.inv.end_op hp he
  obtain ⟨-, rfl⟩ := end_op_spec he
  exact ⟨hinv, congrArg (Finset.erase · p) h.active, h.durable, h.live⟩

theorem home_advance (s : Sys) (b : Nat) : Home s.advance.log b ↔ Home s.log b := by
  obtain ⟨hstart, hsize⟩ := advance_log s
  rw [Home, Home, hstart, hsize]

/-- No operation is open when the header is written. -/
theorem Refines.closed (h : s.Refines a) (hpc : s.pc ≠ .idle) : a.active = ∅ := by
  rw [h.active]
  exact Finset.not_nonempty_iff_eq_empty.mp fun hne => hpc (h.inv.active hne)

/-- The store commits: what it shows becomes durable. -/
theorem Refines.write_head (h : s.Refines a) (hpc : s.pc = .writeHead) :
    s.advance.Refines (a.apply .commit) := by
  obtain ⟨hinv, hdur, hview⟩ := h.inv.advance
  obtain ⟨hup, -⟩ : s.Phase .writeHead := hpc ▸ h.inv.phase
  refine ⟨hinv, by rw [advance_ops]; exact h.active, fun b hb => ?_, fun b hb => ?_⟩ <;>
    rw [home_advance] at hb
  · rw [(advance_log s).1, hdur b hb, if_pos hpc]
    simpa [Store.apply, shown, hup] using h.live b hb
  · simp only [shown, advance_booting, hpc, hup]
    simpa [Store.apply, shown, hup, hview hup b hb] using h.live b hb

/-- Every other round changes neither what is durable nor what is shown. -/
theorem Refines.advance (h : s.Refines a) (hpc : s.pc ≠ .writeHead) : s.advance.Refines a := by
  obtain ⟨hinv, hdur, hview⟩ := h.inv.advance
  refine ⟨hinv, by rw [advance_ops]; exact h.active, fun b hb => ?_, fun b hb => ?_⟩ <;>
    rw [home_advance] at hb
  · rw [(advance_log s).1, hdur b hb, if_neg hpc, h.durable b hb]
  · rw [h.live b hb, shown, shown, (advance_log s).1, hdur b hb, if_neg hpc]
    by_cases hdone : s.pc = .done
    · -- recovery ends: the log is empty, and so is the list of dirty buffers
      obtain ⟨hhd, hlh⟩ : s.Phase .done := hdone ▸ h.inv.phase
      have hclean : s.advance.view b = s.view b := by simp [Sys.advance, hdone, view]
      simp [advance_booting, hdone, durable_of_clear hhd, h.inv.view_clean hlh, hclean]
    · rw [advance_booting, if_neg hdone]
      cases hup : s.booting with
      | true => rfl
      | false => simp [hview hup b hb]

theorem Refines.fetch (h : s.Refines a) (b : Nat) : (s.bread b).Refines a := by
  refine ⟨h.inv.same (h.inv.coherent.bread b) rfl (bread_view s b)
    (fun c => (bread_dirty s b c).mp) rfl rfl rfl rfl, h.active, h.durable, fun c hc => ?_⟩
  rw [h.live c hc, shown, shown, bread_view]
  rfl

theorem Refines.evict {buf : Buf} (h : s.Refines a) (hbuf : s.cache b = some buf)
    (hclean : buf.dirty = false) :
    Refines { s with cache := Function.update s.cache b none } a := by
  have hview : view { s with cache := Function.update s.cache b none } = s.view := by
    funext c
    by_cases hc : c = b
    · subst hc
      simp [view, hbuf, h.inv.coherent c buf hbuf hclean]
    · simp [view, hc]
  have hkept : ∀ c buf', Function.update s.cache b none c = some buf' →
      s.cache c = some buf' := fun c buf' hc => by
    by_cases hcb : c = b
    · subst hcb; simp at hc
    · rwa [Function.update_of_ne hcb] at hc
  refine ⟨h.inv.same (fun c buf' hc => h.inv.coherent c buf' (hkept c buf' hc)) rfl hview ?_ rfl rfl
    rfl rfl, h.active, h.durable, fun c hc => ?_⟩
  · rintro c ⟨buf', hc, hd⟩
    exact ⟨buf', hkept c buf' hc, hd⟩
  · rw [h.live c hc, shown, shown, hview]

theorem Refines.crash (h : s.Refines a) : s.crash.Refines (a.apply .crash) :=
  ⟨.boot h.inv.disk, rfl, h.durable, h.durable⟩

end Answers

theorem Refines.mem_active {s : Sys} {a : Store Nat Nat Block} (h : s.Refines a) (p : Nat) :
    p ∈ a.active ↔ p ∈ s.ops := by rw [h.active]

theorem does_refines {s s' : Sys} {a : Store Nat Nat Block} {e : Event} (h : s.Refines a)
    (hs : Does s e s') : Run.Guarded Store.apply Store.Allowed a e.seen.toList ∧
      s'.Refines (Run.exec Store.apply a e.seen.toList) := by
  cases hs with
  | begin_op hup hp hb => exact ⟨⟨fun hmem => hp ((h.mem_active _).mp hmem), trivial⟩, h.begin_op hup hp hb⟩
  | log_write hp hb _ hw => exact ⟨⟨(h.mem_active _).mpr hp, trivial⟩, h.log_write hp hb hw⟩
  | end_op hp he => exact ⟨⟨(h.mem_active _).mpr hp, trivial⟩, h.end_op hp he⟩
  | advance hne =>
    by_cases hpc : s.pc = .writeHead
    · rw [hpc]
      exact ⟨⟨h.closed hne, trivial⟩, h.write_head hpc⟩
    · have hseen : (Event.advance s.pc).seen = none := by
        cases hat : s.pc with
        | writeHead => exact absurd hat hpc
        | _ => rfl
      rw [hseen]
      exact ⟨trivial, h.advance hpc⟩
  | fetch b => exact ⟨trivial, h.fetch b⟩
  | evict hbuf hclean => exact ⟨trivial, h.evict hbuf hclean⟩
  | crash => exact ⟨⟨trivial, trivial⟩, h.crash⟩

theorem Inv.step {s s' : Sys} (h : s.Inv) (hs : Step s s') : s'.Inv := by
  have href : s.Refines ⟨Sys.durable s.log.start s.disk, s.shown, s.ops⟩ :=
    ⟨h, rfl, fun _ _ => rfl, fun _ _ => rfl⟩
  obtain ⟨e, hs⟩ := hs
  exact (does_refines href hs).2.inv

/-- Outside of a commit, and with nothing logged, all that is shown is durable. -/
theorem Refines.settled {s : Sys} {a : Store Nat Nat Block} (h : s.Refines a)
    (hup : s.booting = false) (hlh : s.log.lh = []) {b : Nat} (hb : Home s.log b) :
    a.durable b = a.live b := by
  have hdisk : Sys.durable s.log.start s.disk = s.disk := by
    have hphase := h.inv.phase
    cases hpc : s.pc with
    | readHead =>
      rw [hpc] at hphase
      simp [hphase.1] at hup
    | install t =>
      rw [hpc] at hphase
      exact durable_of_clear (hphase.1.trans hlh)
    | clear =>
      rw [hpc] at hphase
      exact hphase.2
    | done =>
      rw [hpc] at hphase
      exact durable_of_clear hphase.1
    | idle | commit =>
      rw [hpc] at hphase
      exact durable_of_clear hphase.2
    | writeLog t | writeHead =>
      rw [hpc] at hphase
      exact durable_of_clear hphase.2.1
  rw [h.durable b hb, h.live b hb, hdisk, shown, hup]
  exact (h.inv.view_clean hlh b).symm

/-! ## Recovery -/

/-- The places of `recover_from_log`, and the one behind it. -/
def Recovering : Pc → Prop
  | .readHead | .install _ | .clear | .done | .idle => True
  | _ => False

theorem advance_recovering {s : Sys} (h : Recovering s.pc) : Recovering s.advance.pc := by
  unfold Sys.advance
  split <;> first | (split <;> trivial) | simp_all [Recovering]

theorem Inv.iterate {s : Sys} (h : s.Inv) (hpc : Recovering s.pc) (k : Nat) :
    (Sys.advance^[k] s).Inv ∧ (∀ b, Home s.log b →
      durable s.log.start (Sys.advance^[k] s).disk b = durable s.log.start s.disk b) := by
  induction k generalizing s with
  | zero => exact ⟨h, fun _ _ => rfl⟩
  | succ k ih =>
    obtain ⟨hinv, hdur, -⟩ := h.advance
    obtain ⟨hstart, hsize⟩ := advance_log s
    have hhead : s.pc ≠ .writeHead := by
      intro heq
      rw [heq] at hpc
      exact hpc
    obtain ⟨hinv', hdur'⟩ := ih hinv (advance_recovering hpc)
    rw [Function.iterate_succ_apply]
    refine ⟨hinv', fun b hb => ?_⟩
    have := hdur' b (by rwa [Home, hstart, hsize])
    rw [hstart] at this
    rw [this, hdur b hb, if_neg hhead]

/-- The rounds of `install_trans`, one after the other. -/
theorem install_rounds (k t : Nat) (s : Sys) (h : t + k = s.log.lh.length) :
    Sys.advance^[k] { s with pc := .install t } =
      { (List.range' t k).foldl Sys.install s with pc := .install (t + k) } := by
  induction k generalizing t s with
  | zero => rfl
  | succ k ih =>
    have ht : t < s.log.lh.length := by omega
    have hround : Sys.advance { s with pc := .install t } =
        { s.install t with pc := .install (t + 1) } := by
      simp only [Sys.advance, if_pos ht]
      rfl
    have hlog : t + 1 + k = (s.install t).log.lh.length := by
      change t + 1 + k = s.log.lh.length
      omega
    rw [Function.iterate_succ_apply, hround, ih (t + 1) (s.install t) hlog, List.range'_succ,
      List.foldl_cons, Nat.add_right_comm t 1 k, Nat.add_assoc t k 1]

theorem foldl_install_log (ts : List Nat) (s : Sys) : (ts.foldl Sys.install s).log = s.log := by
  induction ts generalizing s with
  | nil => rfl
  | cons t ts ih => exact ih (s.install t)

/-- `recover_from_log` is what the steps do when nothing comes between them. -/
theorem recover_rounds (s : Sys) (hpc : s.pc = .readHead) :
    ∃ k, Sys.advance^[k] s = { s.recover_from_log with pc := .done } := by
  let r := s.read_head
  have hread : Sys.advance s = { r with pc := .install 0 } := by simp only [Sys.advance, hpc, r]
  have hinstall : Sys.advance^[r.log.lh.length] { r with pc := .install 0 } =
      { r.install_trans with pc := .install r.log.lh.length } := by
    rw [install_rounds _ 0 r (Nat.zero_add _), ← List.range_eq_range', Nat.zero_add]
    rfl
  have hforget : Sys.advance { r.install_trans with pc := .install r.log.lh.length } =
      { r.install_trans.forget with pc := .clear } := by
    have hend : ¬ r.log.lh.length < r.install_trans.log.lh.length := by
      simp [install_trans, foldl_install_log]
    simp only [Sys.advance, if_neg hend]
    rfl
  refine ⟨1 + (1 + (r.log.lh.length + 1)), ?_⟩
  rw [Function.iterate_add_apply, Function.iterate_add_apply, Function.iterate_add_apply]
  simp only [Function.iterate_one]
  rw [hread, hinstall, hforget]
  rfl

theorem recover_spec {s : Sys} (h : s.Inv) (hpc : s.pc = .readHead) :
    header s.log.start s.recover_from_log.disk = [] ∧ ∀ b, Home s.log b →
      s.recover_from_log.disk b = durable s.log.start s.disk b := by
  obtain ⟨k, hk⟩ := recover_rounds s hpc
  obtain ⟨hinv, hdur⟩ := h.iterate (by rw [hpc]; trivial) k
  rw [hk] at hinv hdur
  obtain ⟨hhd, -⟩ : Phase _ .done := hinv.phase
  have hlog : s.recover_from_log.log.start = s.log.start := by
    simp [recover_from_log, install_trans, Sys.write_head, forget, foldl_install_log, Sys.read_head]
  have hhd' : header s.log.start s.recover_from_log.disk = [] := hlog ▸ hhd
  refine ⟨hhd', fun b hb => ?_⟩
  rw [← hdur b hb]
  exact (congrFun (durable_of_clear hhd') b).symm

theorem Inv.refines_boot {start size : Nat} {disk : Nat → Block}
    (h : Loggable start size (header start disk)) :
    (Sys.boot start size disk).Refines (.init (Sys.durable start disk)) :=
  ⟨.boot h, rfl, fun _ _ => rfl, fun _ _ => rfl⟩

/-- The atomic store after the events of a run. -/
def history (start : Nat) (disk : Nat → Block) (es : List Event) : Store Nat Nat Block :=
  Run.exec Store.apply (.init (durable start disk)) (es.filterMap Event.seen)

/-- Whatever run, crashes and broken-off recoveries included: what it told the atomic store is a
history of that store, the cache shows what the operations wrote, a recovery at any moment brings
the disk to the last commit, and when nothing is logged that is everything. -/
theorem log_crash_safe {start size : Nat} {disk : Nat → Block} {s : Sys} {es : List Event}
    (hdisk : Loggable start size (header start disk))
    (hrun : Trace Does (boot start size disk) es s) :
    Run.Guarded Store.apply Store.Allowed (.init (durable start disk))
        (es.filterMap Event.seen) ∧
      (history start disk es).active = s.ops ∧
      (s.booting = false → ∀ b, Home s.log b → s.view b = (history start disk es).live b) ∧
      (s.booting = false → s.log.lh = [] → ∀ b, Home s.log b →
        (history start disk es).durable b = (history start disk es).live b) ∧
      readHeader (s.crash.recover_from_log.disk s.log.start) = [] ∧
      ∀ b, Home s.log b → s.crash.recover_from_log.disk b = (history start disk es).durable b := by
  obtain ⟨hallowed, href⟩ :=
    trace_refines (R := Refines) (fun _ _ _ _ h hs => does_refines h hs) (Inv.refines_boot hdisk)
      hrun
  have hcrash : s.crash.Inv := .boot href.inv.disk
  obtain ⟨hclear, hrecover⟩ := recover_spec hcrash rfl
  refine ⟨hallowed, href.active, fun hup b hb => ?_, fun hup hlh b hb => href.settled hup hlh hb,
    hclear, fun b hb => ?_⟩
  · refine Eq.trans ?_ (href.live b hb).symm
    rw [shown, hup]
    rfl
  · rw [hrecover b hb]
    exact (href.durable b hb).symm

theorem Does.round {s : Sys} {pc : Pc} (h : s.pc = pc) (hne : pc ≠ .idle) :
    Does s (.advance pc) s.advance := by
  subst h
  exact .advance hne

/-- An operation has written block 40, and the log is on disk but for its header. -/
theorem logged_run : ∃ s es, Trace Does (boot 2 30 fun _ _ => 0) es s ∧
    es.filterMap Event.seen = [.start 0, .write 0 40 fun _ => 7, .finish 0] ∧
      s.pc = .writeHead ∧ Home s.log 40 := by
  let s0 := (boot 2 30 fun _ _ => 0).advance.advance.advance.advance
  have hboot : Trace Does (boot 2 30 fun _ _ => 0)
      [.advance .readHead, .advance (.install 0), .advance .clear, .advance .done] s0 :=
    .cons (.round rfl nofun) <| .cons (.round rfl nofun) <| .cons (.round rfl nofun) <|
      .single (.round rfl nofun)
  let s1 : Sys := { s0 with
    log := ⟨2, 30, 1, false, []⟩, ops := insert 0 s0.ops, wrote := Function.update s0.wrote 0 ∅ }
  let s2 : Sys := s1.bread 40
  let s3 : Sys := { s2 with
    log := ⟨2, 30, 1, false, [40]⟩
    cache := Function.update s2.cache 40 (some ⟨fun _ => 7, true⟩)
    wrote := Function.update s2.wrote 0 (insert 40 (s2.wrote 0)) }
  let s4 : Sys := { s3 with log := ⟨2, 30, 0, true, [40]⟩, ops := s3.ops.erase 0, pc := .commit }
  have hopen : 0 ∈ s1.ops := Finset.mem_insert_self 0 s0.ops
  have hbegin : Does s0 (.begin_op 0) s1 := .begin_op rfl (Finset.notMem_empty 0) rfl
  have hread : s2.cache 40 = some ⟨fun _ => 0, false⟩ := rfl
  have hwrite : Does s2 (.log_write 0 40 fun _ => 7) s3 :=
    .log_write hopen (.inr (by decide)) hread rfl
  have hop : Trace Does s0 [.begin_op 0, .fetch 40, .log_write 0 40 fun _ => 7, .end_op 0] s4 :=
    .cons hbegin <| .cons (.fetch 40) <| .cons hwrite <| .single (.end_op hopen rfl)
  have hcommit : Trace Does s4 [.advance .commit, .advance (.writeLog 0), .advance (.writeLog 1)]
      s4.advance.advance.advance :=
    .cons (.round rfl nofun) <| .cons (.round rfl nofun) <| .single (.round rfl nofun)
  exact ⟨_, _, (hboot.append hop).append hcommit, rfl, rfl, .inr (by decide)⟩

/-- The machine goes down when the header is written and nothing installed. -/
theorem committed_run : ∃ s es, Trace Does (boot 2 30 fun _ _ => 0) es s ∧
    es.filterMap Event.seen =
      [.start 0, .write 0 40 fun _ => 7, .finish 0, .commit, .crash] ∧ Home s.log 40 := by
  obtain ⟨s, es, hrun, hes, hpc, hhome⟩ := logged_run
  refine ⟨_, _, hrun.append (.cons (.round hpc nofun) (.single .crash)), ?_,
    (home_advance s 40).mpr hhome⟩
  rw [List.filterMap_append, hes]
  rfl

theorem log_crash_safe_committed : ∃ s es, Trace Does (boot 2 30 fun _ _ => 0) es s ∧
    es.filterMap Event.seen =
      [.start 0, .write 0 40 fun _ => 7, .finish 0, .commit, .crash] ∧
    s.crash.recover_from_log.disk 40 = fun _ => 7 := by
  obtain ⟨s, es, hrun, hes, hhome⟩ := committed_run
  have hdisk : Loggable 2 30 (header 2 fun _ _ => 0) :=
    ⟨by simp [header, readHeader], by simp [header, readHeader], by simp [header, readHeader]⟩
  obtain ⟨-, -, -, -, -, hrec⟩ := log_crash_safe hdisk hrun
  refine ⟨s, es, hrun, hes, ?_⟩
  rw [hrec 40 hhome, history, hes]
  simp [Run.exec, Store.apply, Store.init]

end Sys

end Xv6
end SsuComputer
