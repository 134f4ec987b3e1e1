import SsuComputer.Xv6.LogCrash
import Mathlib.Algebra.BigOperators.Group.Finset.Basic
import Mathlib.Algebra.Order.BigOperators.Group.Finset
import Mathlib.Order.Interval.Finset.Nat

/-!
# SsuComputer.Xv6.LogSpace

When `log_write` runs out of room. `begin_op` reserves `MAXOPBLOCKS` blocks for each operation and
compares with `LOGSIZE`, while `log_write` compares with the size of the log on disk, which `mkfs`
makes `LOGSIZE` blocks with the header among them. So the reservation holds for operations of at
most `MAXOPBLOCKS - 1` blocks (`log_write_never_panics_iff`).
-/

namespace SsuComputer
namespace Xv6
namespace Sys

open Relation

/-- A step after which no open operation has logged more than `n` blocks. -/
def Within (n : Nat) (s s' : Sys) : Prop := Step s s' ∧ ∀ p ∈ s'.ops, (s'.wrote p).card ≤ n

/-- What the open operations may still log, at one block less than `MAXOPBLOCKS` each. -/
def left (s : Sys) : Nat := ∑ p ∈ s.ops, (9 - (s.wrote p).card)

/-- While nobody commits, the log and what may still come fit in 28 blocks. -/
structure Room (s : Sys) : Prop where
  quiet : s.ops = ∅ → s.log.lh = []
  logged : ∀ p ∈ s.ops, s.wrote p ⊆ s.log.lh.toFinset
  room : s.log.lh.length + s.left ≤ 28

def Spaced (s : Sys) : Prop := s.Inv ∧ (s.pc = .idle → s.Room)

theorem room_of_quiet {s : Sys} (hops : s.ops = ∅) (hlh : s.log.lh = []) : s.Room :=
  ⟨fun _ => hlh, by simp [hops], by simp [left, hops, hlh]⟩

section Steps

variable {s : Sys} {log : Log} {p b n : Nat} {v : Block}

theorem Room.begin_op (h : s.Room) (hinv : s.Inv) (hp : p ∉ s.ops)
    (hb : Xv6.begin_op s.log = some log) : Room { s with
      log := log, ops := insert p s.ops, wrote := Function.update s.wrote p ∅ } := by
  obtain ⟨-, hroom, rfl⟩ := begin_op_spec hb
  have hne : ∀ q ∈ s.ops, q ≠ p := fun q hq heq => hp (heq ▸ hq)
  refine ⟨fun hempty => ?_, ?_, ?_⟩
  · simp at hempty
  · intro q hq
    rcases Finset.mem_insert.mp hq with rfl | hq
    · simp
    · simpa [hne q hq] using h.logged q hq
  · have hsum : ∑ q ∈ s.ops, (9 - (Function.update s.wrote p ∅ q).card) = s.left :=
      Finset.sum_congr rfl fun q hq => by rw [Function.update_of_ne (hne q hq)]
    have hbound : s.left ≤ s.ops.card * 9 :=
      Finset.sum_le_card_nsmul s.ops _ 9 fun q _ => Nat.sub_le 9 _
    have hleft : left { s with
        log := { s.log with outstanding := s.log.outstanding + 1 }, ops := insert p s.ops,
        wrote := Function.update s.wrote p ∅ } = 9 + s.left := by
      simp [left, Finset.sum_insert hp, hsum]
    rw [hleft]
    change s.log.lh.length + (9 + s.left) ≤ 28
    have hout := hinv.outstanding
    rcases s.ops.eq_empty_or_nonempty with hempty | hops
    · simp [h.quiet hempty, left, hempty]
    · have := Finset.card_pos.mpr hops
      simp only [MAXOPBLOCKS, LOGSIZE] at hroom
      push_cast at hroom
      omega

theorem Room.log_write (h : s.Room) (hp : p ∈ s.ops) (hcard : (insert b (s.wrote p)).card ≤ 9)
    (hw : Xv6.log_write s.log b = .ok log) : Room { s with
      log := log
      cache := Function.update s.cache b (some ⟨v, true⟩)
      wrote := Function.update s.wrote p (insert b (s.wrote p)) } := by
  obtain ⟨-, -, -, rfl⟩ := log_write_spec hw
  refine ⟨fun hempty => ?_, ?_, ?_⟩
  · have hempty : s.ops = ∅ := hempty
    simp [hempty] at hp
  · intro q hq x hx
    have hx : x ∈ Function.update s.wrote p (insert b (s.wrote p)) q := hx
    refine List.mem_toFinset.mpr (mem_absorb.mpr ?_)
    by_cases hqp : q = p
    · subst hqp
      rw [Function.update_self, Finset.mem_insert] at hx
      exact hx.imp id fun hx => List.mem_toFinset.mp (h.logged q hp hx)
    · rw [Function.update_of_ne hqp] at hx
      exact .inr (List.mem_toFinset.mp (h.logged q hq hx))
  · have hrest : ∑ q ∈ s.ops.erase p,
        (9 - (Function.update s.wrote p (insert b (s.wrote p)) q).card) =
          ∑ q ∈ s.ops.erase p, (9 - (s.wrote q).card) :=
      Finset.sum_congr rfl fun q hq => by rw [Function.update_of_ne (Finset.ne_of_mem_erase hq)]
    have hroom := h.room
    simp only [left, ← Finset.add_sum_erase s.ops _ hp, Function.update_self, hrest] at hroom ⊢
    rw [absorb_eq]
    by_cases hmem : b ∈ s.wrote p
    · have hlh : b ∈ s.log.lh := List.mem_toFinset.mp (h.logged p hp hmem)
      rw [if_pos hlh, Finset.insert_eq_of_mem hmem]
      exact hroom
    · rw [Finset.card_insert_of_notMem hmem] at hcard ⊢
      split
      · omega
      · rw [List.length_append, List.length_singleton]
        omega

theorem Room.end_op (h : s.Room) (hp : p ∈ s.ops) (hne : s.ops.erase p ≠ ∅)
    (he : Xv6.end_op s.log = .ok log) : Room { s with
      log := log, ops := s.ops.erase p, pc := if log.committing then .commit else s.pc } := by
  obtain ⟨-, rfl⟩ := end_op_spec he
  refine ⟨fun hempty => absurd hempty hne, fun q hq => h.logged q (Finset.mem_of_mem_erase hq), ?_⟩
  have hroom := h.room
  simp only [left, ← Finset.add_sum_erase s.ops _ hp] at hroom ⊢
  omega

end Steps

theorem advance_idle {s : Sys} (h : s.advance.pc = .idle) : s.pc = .idle ∨ s.pc = .done := by
  cases hpc : s.pc with
  | idle => exact .inl rfl
  | done => exact .inr rfl
  | _ =>
    simp only [Sys.advance, hpc] at h
    first | cases h | (split at h <;> cases h)

theorem Spaced.step {n : Nat} (hn : n ≤ 9) {s s' : Sys} (h : s.Spaced) (hs : Within n s s') :
    s'.Spaced := by
  obtain ⟨hstep, hcard⟩ := hs
  obtain ⟨hinv, hroom⟩ := h
  refine ⟨hinv.step hstep, fun hpc => ?_⟩
  obtain ⟨e, hstep⟩ := hstep
  cases hstep with
  | begin_op _ hp hb => exact (hroom hpc).begin_op hinv hp hb
  | @log_write p b v buf log hp hb hbuf hw =>
    refine (hroom hpc).log_write hp ?_ hw
    have := hcard p hp
    simp only [Function.update_self] at this
    omega
  | @end_op p log hp he =>
    have hidle := hinv.active ⟨p, hp⟩
    refine (hroom hidle).end_op hp ?_ he
    intro hempty
    have hone : s.log.outstanding = 1 := by
      rw [hinv.outstanding, ← Finset.card_erase_add_one hp, hempty]
      rfl
    obtain ⟨-, rfl⟩ := end_op_spec he
    simp [hone] at hpc
  | advance hne =>
    have hops : s.ops = ∅ := Finset.not_nonempty_iff_eq_empty.mp fun hops => hne (hinv.active hops)
    have hat := (advance_idle hpc).resolve_left hne
    obtain ⟨-, hlh⟩ : s.Phase .done := hat ▸ hinv.phase
    refine room_of_quiet (by rw [advance_ops, hops]) ?_
    simp [Sys.advance, hat, hlh]
  | fetch b => exact ⟨(hroom hpc).quiet, (hroom hpc).logged, (hroom hpc).room⟩
  | evict => exact ⟨(hroom hpc).quiet, (hroom hpc).logged, (hroom hpc).room⟩
  | crash => simp [Sys.crash, boot] at hpc

theorem step_size {s s' : Sys} (hs : Step s s') : s'.log.size = s.log.size := by
  obtain ⟨e, hs⟩ := hs
  cases hs with
  | begin_op _ _ hb => rw [(begin_op_spec hb).2.2]
  | log_write _ _ _ hw => rw [(log_write_spec hw).2.2.2]
  | end_op _ he => rw [(end_op_spec he).2]
  | advance => exact (advance_log s).2
  | _ => rfl

/-! ## A run that fills the log -/

/-- Three operations have logged the blocks from 32 on, ten each, as far as they got. -/
structure Filled (s : Sys) (len : Nat) : Prop where
  pc : s.pc = .idle
  log : s.log = ⟨2, 30, 3, false, (List.range len).map (32 + ·)⟩
  ops : s.ops = {0, 1, 2}
  wrote : ∀ p, s.wrote p ⊆ Finset.Ico (32 + 10 * p) (32 + 10 * p + 10)

theorem Filled.card {s : Sys} {len : Nat} (h : s.Filled len) (p : Nat) : (s.wrote p).card ≤ 10 := by
  simpa using Finset.card_le_card (h.wrote p)

theorem Filled.next {s : Sys} {len n : Nat} (h : s.Filled len) (hlen : len < 29) (hn : 10 ≤ n) :
    ∃ s', ReflTransGen (Within n) s s' ∧ s'.Filled (len + 1) := by
  let b := 32 + len
  let r := s.bread b
  obtain ⟨buf, hbuf⟩ : ∃ buf, r.cache b = some buf := by
    cases hc : s.cache b with
    | some buf => exact ⟨buf, by simp [r, bread, hc]⟩
    | none => exact ⟨⟨s.disk b, false⟩, by simp [r, bread, hc]⟩
  have hfresh : b ∉ s.log.lh := by simp [h.log, b]
  have hwrite : Xv6.log_write r.log b = .ok { s.log with lh := s.log.lh ++ [b] } := by
    have hlog : r.log = s.log := rfl
    have habsorb : absorb s.log.lh b = s.log.lh ++ [b] := by rw [absorb_eq, if_neg hfresh]
    rw [hlog, Xv6.log_write, habsorb, if_neg, if_neg]
    · simp [h.log]
    · simp only [h.log, LOGSIZE, MAXOPBLOCKS, List.length_map, List.length_range]
      omega
  have hp : len / 10 ∈ r.ops := by
    change len / 10 ∈ s.ops
    rw [h.ops]
    simp only [Finset.mem_insert, Finset.mem_singleton]
    omega
  let s' : Sys := { r with
    log := { s.log with lh := s.log.lh ++ [b] }
    cache := Function.update r.cache b (some ⟨s.view b, true⟩)
    wrote := Function.update r.wrote (len / 10) (insert b (r.wrote (len / 10))) }
  have hfilled : s'.Filled (len + 1) := by
    refine ⟨h.pc, ?_, h.ops, fun p => ?_⟩
    · simp [s', h.log, List.range_succ, b]
    · change Function.update s.wrote (len / 10) (insert b (s.wrote (len / 10))) p ⊆ _
      by_cases hpl : p = len / 10
      · subst hpl
        rw [Function.update_self]
        refine Finset.insert_subset ?_ (h.wrote _)
        rw [Finset.mem_Ico]
        omega
      · rw [Function.update_of_ne hpl]
        exact h.wrote p
  refine ⟨s', ?_, hfilled⟩
  refine (ReflTransGen.single ⟨⟨_, .fetch b⟩, fun p _ => (h.card p).trans hn⟩).tail ⟨?_, ?_⟩
  · refine ⟨_, .log_write hp ?_ hbuf hwrite⟩
    have hlog : r.log = s.log := rfl
    rw [hlog, h.log]
    exact .inr (by simp only [b]; omega)
  · exact fun p _ => (hfilled.card p).trans hn

def blank : Sys := boot 2 30 fun _ _ => 0

theorem enter {s : Sys} {p n : Nat} {log : Log} (hup : s.booting = false) (hp : p ∉ s.ops)
    (hb : Xv6.begin_op s.log = some log) (hempty : ∀ q, s.wrote q = ∅) :
    Within n s { s with
      log := log, ops := insert p s.ops, wrote := Function.update s.wrote p ∅ } := by
  refine ⟨⟨_, .begin_op hup hp hb⟩, fun q _ => ?_⟩
  by_cases hq : q = p
  · simp [hq]
  · simp [hq, hempty q]

theorem filled_start {n : Nat} : ∃ s, ReflTransGen (Within n) blank s ∧ s.Filled 0 := by
  let s0 := blank.advance.advance.advance.advance
  have hrecovered : ReflTransGen (Within n) blank s0 := by
    have hstep : ∀ {s : Sys}, s.pc ≠ .idle → s.advance.ops = ∅ → Within n s s.advance :=
      fun hpc hops => ⟨⟨_, .advance hpc⟩, by simp [hops]⟩
    exact (((ReflTransGen.single (hstep (by decide) rfl)).tail (hstep (by decide) rfl)).tail
      (hstep (by decide) rfl)).tail (hstep (by decide) rfl)
  -- three processes enter, each with room for ten blocks in what is left
  let s1 : Sys := { s0 with
    log := ⟨2, 30, 1, false, []⟩, ops := insert 0 s0.ops, wrote := Function.update s0.wrote 0 ∅ }
  let s2 : Sys := { s1 with
    log := ⟨2, 30, 2, false, []⟩, ops := insert 1 s1.ops, wrote := Function.update s1.wrote 1 ∅ }
  let s3 : Sys := { s2 with
    log := ⟨2, 30, 3, false, []⟩, ops := insert 2 s2.ops, wrote := Function.update s2.wrote 2 ∅ }
  have hops : s0.ops = ∅ := rfl
  have h0 : ∀ p, s0.wrote p = ∅ := fun _ => rfl
  have h1 : ∀ p, s1.wrote p = ∅ := by simp [s1, Function.update_apply, h0]
  have h2 : ∀ p, s2.wrote p = ∅ := by simp [s2, Function.update_apply, h1]
  have h3 : ∀ p, s3.wrote p = ∅ := by simp [s3, Function.update_apply, h2]
  have hentered : ReflTransGen (Within n) s0 s3 :=
    ((ReflTransGen.single (enter rfl (by simp [hops]) rfl h0)).tail
      (enter rfl (by simp [hops]) rfl h1)).tail (enter rfl (by simp [hops]) rfl h2)
  refine ⟨s3, hrecovered.trans hentered, ⟨rfl, rfl, ?_, fun p => by simp [h3 p]⟩⟩
  change insert 2 (insert 1 (insert 0 s0.ops)) = {0, 1, 2}
  rw [hops]
  decide

theorem filled_run {n : Nat} (hn : 10 ≤ n) {len : Nat} (hlen : len ≤ 29) :
    ∃ s, ReflTransGen (Within n) blank s ∧ s.Filled len := by
  induction len with
  | zero => exact filled_start
  | succ len ih =>
    obtain ⟨s, hs, hfilled⟩ := ih (by omega)
    obtain ⟨s', hs', hfilled'⟩ := hfilled.next (by omega) hn
    exact ⟨s', hs.trans hs', hfilled'⟩

/-- With the log that `mkfs` makes, `log_write` never panics when no operation logs more than `n`
blocks, exactly when `n` is below the `MAXOPBLOCKS` that `begin_op` reserves. -/
theorem log_write_never_panics_iff (n : Nat) :
    (∀ start disk s, Loggable start LOGSIZE (header start disk) →
      ReflTransGen (Within n) (boot start LOGSIZE disk) s →
        ∀ p ∈ s.ops, ∀ b, (insert b (s.wrote p)).card ≤ n →
          ∃ log, Xv6.log_write s.log b = .ok log) ↔
      n < MAXOPBLOCKS := by
  constructor
  · intro h
    by_contra hn
    have hn : 10 ≤ n := Nat.not_lt.mp hn
    obtain ⟨s, hs, hfilled⟩ := filled_run hn (le_refl 29)
    have hcard : (insert 61 (s.wrote 2)).card ≤ n := by
      refine le_trans (Finset.card_le_card (t := Finset.Ico 52 62) ?_) (by simpa using hn)
      exact Finset.insert_subset (by simp) (hfilled.wrote 2)
    have hdisk : Loggable 2 LOGSIZE (header 2 fun _ _ => 0) :=
      ⟨by simp [header, readHeader], by simp [header, readHeader],
        by simp [header, readHeader, LOGSIZE, MAXOPBLOCKS]⟩
    obtain ⟨log, hlog⟩ := h 2 _ s hdisk hs 2 (by simp [hfilled.ops]) 61 hcard
    simp [Xv6.log_write, hfilled.log] at hlog
  · intro hn start disk s hdisk hrun p hp b hcard
    have hn : n ≤ 9 := Nat.le_of_lt_succ hn
    have hstart : (boot start LOGSIZE disk).Spaced := ⟨.boot hdisk, fun hpc => by cases hpc⟩
    obtain ⟨hinv, hroom⟩ := runs_invariant (fun _ _ h hs => h.step hn hs) hstart hrun
    have hsize : s.log.size = LOGSIZE :=
      runs_invariant (I := fun s => s.log.size = LOGSIZE)
        (fun _ _ h hs => (step_size hs.1).trans h) rfl hrun
    have hpc := hinv.active ⟨p, hp⟩
    have := (hroom hpc).room
    have hout : 0 < s.log.outstanding := by
      rw [hinv.outstanding]
      exact_mod_cast Finset.card_pos.mpr ⟨p, hp⟩
    refine ⟨{ s.log with lh := absorb s.log.lh b }, ?_⟩
    rw [Xv6.log_write, if_neg, if_neg (by omega)]
    simp only [hsize, LOGSIZE, MAXOPBLOCKS]
    omega

end Sys
end Xv6
end SsuComputer
