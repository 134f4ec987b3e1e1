import SsuComputer.Lib.While
import Mathlib.Logic.Function.Basic
import Mathlib.Data.List.Nodup

/-!
# SsuComputer.Lib.Cycle

Circular linked lists with a head node, one direction of links at a time.

`Cycle next h xs`: following `next` from the head `h` passes the nodes `xs` and comes back to `h`.
A doubly linked list (`Doubly`) is a cycle of `next` with the nodes `xs` and one of `prev` with
`xs.reverse`; each of the two stores of an unlinking or a linking changes one of them
(`Cycle.unlink`, `Cycle.link`). `scan` is the loop that looks for a node.
-/

namespace SsuComputer

variable {ν : Type _} {next next' : ν → ν}

/-- From `a`, following `next`, the nodes are `xs`, and then comes `e`. -/
def Path (next : ν → ν) : ν → List ν → ν → Prop
  | a, [], e => a = e
  | a, x :: xs, e => a = x ∧ Path next (next x) xs e

namespace Path

variable {a x e : ν} {xs ys : List ν}

@[simp] theorem nil : Path next a [] e ↔ a = e := Iff.rfl

@[simp] theorem cons : Path next a (x :: xs) e ↔ a = x ∧ Path next (next x) xs e := Iff.rfl

theorem append : Path next a (xs ++ x :: ys) e ↔ Path next a xs x ∧ Path next (next x) ys e := by
  induction xs generalizing a with
  | nil => simp
  | cons y xs ih => simp [ih, and_assoc]

/-- Only the links of the nodes passed matter. -/
theorem congr (h : Path next a xs e) (heq : ∀ y ∈ xs, next' y = next y) : Path next' a xs e := by
  induction xs generalizing a with
  | nil => exact h
  | cons x xs ih =>
    refine ⟨h.1, ?_⟩
    rw [heq x (by simp)]
    exact ih h.2 fun y hy => heq y (by simp [hy])

end Path

structure Cycle (next : ν → ν) (h : ν) (xs : List ν) : Prop where
  path : Path next (next h) xs h
  nodup : (h :: xs).Nodup

namespace Cycle

variable {h p b : ν} {xs ys l : List ν}

theorem whole (hc : Cycle next h xs) : Path next h (h :: xs) h := ⟨rfl, hc.path⟩

/-- Where the list is cut at a node, its link leads to the node behind. -/
theorem next_eq (hc : Cycle next h xs) (hp : h :: xs = l ++ p :: b :: ys) : next p = b := by
  have hwhole := hc.whole
  rw [hp, Path.append] at hwhole
  exact hwhole.2.1

theorem next_last (hc : Cycle next h xs) (hp : h :: xs = l ++ [p]) : next p = h := by
  have hwhole := hc.whole
  rw [hp, Path.append] at hwhole
  exact hwhole.2

theorem of_whole (hwhole : Path next h l h) (hl : l = h :: xs) (hnd : l.Nodup) :
    Cycle next h xs := by
  subst hl
  exact ⟨hwhole.2, hnd⟩

variable [DecidableEq ν]

/-- `p->next = b->next` takes `b` out, where `p` is the node before it. -/
theorem unlink (hc : Cycle next h (xs ++ b :: ys)) (hp : h :: xs = l ++ [p]) :
    Cycle (Function.update next p (next b)) h (xs ++ ys) := by
  have hcut : h :: (xs ++ b :: ys) = l ++ p :: b :: ys := by
    rw [← List.cons_append, hp, List.append_assoc]
    rfl
  have hrest : l ++ p :: ys = h :: (xs ++ ys) := by
    rw [← List.cons_append, hp, List.append_assoc]
    rfl
  have hnd := hc.nodup
  rw [hcut] at hnd
  have hnd' : (l ++ p :: ys).Nodup := hnd.sublist (by simp)
  have hpas : p ∉ l := fun hmem => (List.nodup_append.mp hnd).2.2 p hmem p (by simp) rfl
  have hpys : p ∉ ys := fun hmem =>
    (List.nodup_cons.mp (List.nodup_append.mp hnd).2.1).1 (by simp [hmem])
  have hwhole := hc.whole
  rw [hcut, Path.append] at hwhole
  obtain ⟨has, -, hys⟩ := hwhole
  refine of_whole (l := l ++ p :: ys) (Path.append.mpr ⟨?_, ?_⟩) hrest hnd'
  · exact has.congr fun y hy => Function.update_of_ne (ne_of_mem_of_not_mem hy hpas) _ _
  · rw [Function.update_self]
    exact hys.congr fun y hy => Function.update_of_ne (ne_of_mem_of_not_mem hy hpys) _ _

/-- `b->next = p->next; p->next = b` puts `b` behind `p`. -/
theorem link (hc : Cycle next h (xs ++ ys)) (hp : h :: xs = l ++ [p]) (hb : b ∉ h :: (xs ++ ys)) :
    Cycle (Function.update (Function.update next b (next p)) p b) h (xs ++ b :: ys) := by
  have hcut : h :: (xs ++ ys) = l ++ p :: ys := by
    rw [← List.cons_append, hp, List.append_assoc]
    rfl
  have hfull : l ++ p :: b :: ys = h :: (xs ++ b :: ys) := by
    rw [← List.cons_append, hp, List.append_assoc]
    rfl
  have hnd := hc.nodup
  rw [hcut] at hnd hb
  have hpas : p ∉ l := fun hmem => (List.nodup_append.mp hnd).2.2 p hmem p (by simp) rfl
  have hpys : p ∉ ys := fun hmem => (List.nodup_cons.mp (List.nodup_append.mp hnd).2.1).1 hmem
  have hbp : b ≠ p := by rintro rfl; exact hb (by simp)
  have hnd' : (l ++ p :: b :: ys).Nodup := by
    rw [List.append_cons]
    rw [List.append_cons] at hnd hb
    exact List.nodup_middle.mpr (List.nodup_cons.mpr ⟨hb, hnd⟩)
  have hwhole := hc.whole
  rw [hcut, Path.append] at hwhole
  obtain ⟨has, hys⟩ := hwhole
  have hsame : ∀ y, y ≠ p → y ≠ b →
      Function.update (Function.update next b (next p)) p b y = next y := fun y hyp hyb => by
    rw [Function.update_of_ne hyp, Function.update_of_ne hyb]
  refine of_whole (l := l ++ p :: b :: ys) (Path.append.mpr ⟨?_, ?_⟩) hfull hnd'
  · refine has.congr fun y hy => hsame y (ne_of_mem_of_not_mem hy hpas) ?_
    rintro rfl
    exact hb (by simp [hy])
  · rw [Function.update_self]
    refine ⟨rfl, ?_⟩
    rw [Function.update_of_ne hbp, Function.update_self]
    refine hys.congr fun y hy => hsame y (ne_of_mem_of_not_mem hy hpys) ?_
    rintro rfl
    exact hb (by simp [hy])

end Cycle

/-- A doubly linked list with a head node. -/
structure Doubly (next prev : ν → ν) (h : ν) (xs : List ν) : Prop where
  next : Cycle next h xs
  prev : Cycle prev h xs.reverse

namespace Doubly

variable {prev : ν → ν} {h b : ν} {xs ys : List ν}

theorem flip (hd : Doubly next prev h xs) : Doubly prev next h xs.reverse :=
  ⟨hd.prev, by rw [List.reverse_reverse]; exact hd.next⟩

/-- `prev b` is the node in front of `b`. -/
theorem before (hd : Doubly next prev h (xs ++ b :: ys)) : ∃ as, h :: xs = as ++ [prev b] := by
  have hprev := hd.prev
  rw [List.reverse_append, List.reverse_cons] at hprev
  rcases List.eq_nil_or_concat xs with rfl | ⟨zs, p, rfl⟩
  · exact ⟨[], by rw [hprev.next_last (p := b) (l := h :: ys.reverse) (by simp)]; rfl⟩
  · have hcut : h :: (ys.reverse ++ [b] ++ (zs.concat p).reverse) =
        h :: ys.reverse ++ b :: p :: zs.reverse := by simp
    exact ⟨h :: zs, by rw [hprev.next_eq hcut]; simp⟩

theorem after (hd : Doubly next prev h (xs ++ b :: ys)) :
    ∃ as, h :: ys.reverse = as ++ [next b] := by
  have hflip := hd.flip
  rw [List.reverse_append, List.reverse_cons, List.append_assoc] at hflip
  exact hflip.before

theorem last (hd : Doubly next prev h xs) : ∃ as, h :: xs.reverse = as ++ [next h] := by
  cases xs with
  | nil => exact ⟨[], by rw [hd.next.next_last (p := h) (l := []) rfl]; rfl⟩
  | cons x xs =>
    exact ⟨h :: xs.reverse, by rw [hd.next.next_eq (p := h) (b := x) (l := []) rfl]; simp⟩

variable [DecidableEq ν]

/-- `b->next->prev = b->prev; b->prev->next = b->next`. -/
theorem unlink (hd : Doubly next prev h (xs ++ b :: ys)) :
    Doubly (Function.update next (prev b) (next b)) (Function.update prev (next b) (prev b)) h
      (xs ++ ys) := by
  obtain ⟨as, has⟩ := hd.before
  obtain ⟨bs, hbs⟩ := hd.after
  have hprev := hd.prev
  rw [List.reverse_append, List.reverse_cons, List.append_assoc] at hprev
  refine ⟨hd.next.unlink has, ?_⟩
  rw [List.reverse_append]
  exact Cycle.unlink hprev hbs

/-- `b->next = h->next; b->prev = h; h->next->prev = b; h->next = b`. -/
theorem push (hd : Doubly next prev h xs) (hb : b ∉ h :: xs) :
    Doubly (Function.update (Function.update next b (next h)) h b)
      (Function.update (Function.update prev b h) (next h) b) h (b :: xs) := by
  obtain ⟨as, has⟩ := hd.last
  have hlast := hd.prev.next_last has
  have hprev : Cycle prev h (xs.reverse ++ []) := by
    rw [List.append_nil]
    exact hd.prev
  have hlink := hprev.link (b := b) has (by simpa using hb)
  rw [hlast] at hlink
  refine ⟨Cycle.link (l := []) (p := h) (by exact hd.next) rfl hb, ?_⟩
  rw [List.reverse_cons]
  exact hlink

end Doubly

/-- `for (b = a; b != h; b = b->next) if (found b) break;` with fuel. -/
def scan [DecidableEq ν] (next : ν → ν) (h : ν) (found : ν → Bool) : Nat → ν → Option ν
  | 0, _ => none
  | fuel + 1, b =>
    if b = h then none
    else if found b then some b
    else scan next h found fuel (next b)

theorem scan_path [DecidableEq ν] {h a : ν} {xs : List ν} {found : ν → Bool}
    (hp : Path next a xs h) (hh : h ∉ xs) {fuel : Nat} (hfuel : xs.length < fuel) :
    scan next h found fuel a = xs.find? found := by
  induction xs generalizing a fuel with
  | nil =>
    cases fuel with
    | zero => cases hfuel
    | succ fuel => rw [scan, if_pos (Path.nil.mp hp)]; rfl
  | cons x xs ih =>
    obtain ⟨rfl, hp⟩ := hp
    cases fuel with
    | zero => cases hfuel
    | succ fuel =>
      have hne : a ≠ h := by rintro rfl; exact hh (by simp)
      rw [scan, if_neg hne, List.find?_cons]
      cases found a with
      | true => rfl
      | false =>
        rw [if_neg (by simp)]
        exact ih hp (fun hmem => hh (by simp [hmem])) (Nat.lt_of_succ_lt_succ hfuel)

/-! ## Walking round -/

theorem whileLoop_path {a e : ν} {xs : List ν} {found : ν → Bool} {r : ν} (hp : Path next a xs e)
    (hr : xs.find? found = some r) {fuel : Nat} (hfuel : xs.length ≤ fuel) :
    whileLoop (fun p => !found p) (fun p => some (next p)) fuel a = some r := by
  induction xs generalizing a fuel with
  | nil => cases hr
  | cons x xs ih =>
    obtain ⟨rfl, hp⟩ := hp
    rw [List.find?_cons] at hr
    cases hf : found a with
    | true =>
      rw [hf] at hr
      cases hr
      exact whileLoop_of_not (by simp [hf]) fuel
    | false =>
      rw [hf] at hr
      obtain ⟨more, rfl⟩ : ∃ more, fuel = more + 1 := ⟨fuel - 1, by simp at hfuel; omega⟩
      rw [whileLoop]
      simp only [hf, Bool.not_false, if_true, Option.bind_some]
      exact ih hp hr (by simpa using hfuel)

/-- The cycle seen from any of its nodes. -/
theorem Cycle.rotate {h a : ν} {xs : List ν} (hc : Cycle next h xs) (ha : a ∈ h :: xs) :
    ∃ ys, Path next a (a :: ys) a ∧ (a :: ys).Perm (h :: xs) := by
  obtain ⟨l, r, hcut⟩ := List.append_of_mem ha
  have hwhole := hc.whole
  rw [hcut, Path.append] at hwhole
  cases l with
  | nil =>
    obtain ⟨rfl, rfl⟩ : h = a ∧ xs = r := by simpa using hcut
    exact ⟨xs, hc.whole, List.Perm.refl _⟩
  | cons b l =>
    obtain ⟨rfl, rfl⟩ : h = b ∧ xs = l ++ a :: r := by simpa using hcut
    refine ⟨r ++ h :: l, ?_, ?_⟩
    · rw [← List.cons_append, Path.append]
      exact ⟨⟨rfl, hwhole.2⟩, hwhole.1.2⟩
    · rw [← List.cons_append, ← List.cons_append]
      exact List.perm_append_comm

end SsuComputer
