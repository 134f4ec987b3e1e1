import Mathlib.Data.List.Destutter
import SsuComputer.Hw1.Solve
import Mathlib

/-!
# SsuComputer.Hw1.Agreement

When the three programs of HW1 print the same.

* `gcdFront_floored`, `gcdBack_truncated` — the two results of `gcdVector`: that of Python is negative
  exactly when a number is; that of C++ and Java only as long as `KeepsSign` holds.
* `solveSorted_eq` — the lines about primes depend on the sorted numbers alone.
* `solve_agree_iff` — the programs agree exactly when equal numbers stand next to each other and no
  sign is lost.
-/

namespace SsuComputer
namespace Hw1

/-! ## The divisor of two numbers -/

theorem gcd_comm (R : Remainder) (a b : Int) : gcd R a b = gcd R b a := by
  rcases lt_trichotomy a b with h | rfl | h
  · rw [gcd, gcd, if_pos h, if_neg (by omega)]
  · rfl
  · rw [gcd, gcd, if_neg (by omega), if_pos h]

theorem gcd_natCast (R : Remainder) (a b : Nat) : gcd R a b = Nat.gcd a b := by
  rw [gcd]
  split
  · rw [euclid_natCast, Nat.gcd_comm]
  · rw [euclid_natCast]

theorem gcd_neg_neg (R : Remainder) (a b : Nat) : gcd R (-a) (-b) = -(Nat.gcd a b : Int) := by
  rw [gcd]
  split
  · rw [euclid_neg, euclid_natCast, Nat.gcd_comm]
  · rw [euclid_neg, euclid_natCast]

theorem gcd_mixed (R : Remainder) (a : Nat) {b : Nat} (h : 0 < b) :
    gcd R a (-b) = euclid R a (-b) := by
  rw [gcd, if_neg (by omega)]

theorem gcd_floored {a b : Int} (h : a < 0 ∨ b < 0) :
    gcd floored a b = -(Int.gcd a b : Int) := by
  have key : ∀ a b : Int, b ≤ a → b < 0 → gcd floored a b = -(Int.gcd a b : Int) := by
    intro a b hle hb
    obtain ⟨n, rfl⟩ : ∃ n : Nat, b = -(n : Int) := ⟨b.natAbs, by omega⟩
    rw [gcd, if_neg (by omega), euclid_floored a (by omega), Int.gcd_neg]
  rcases le_total b a with hle | hle
  · exact key a b hle (by omega)
  · rw [gcd_comm, key b a hle (by omega), Int.gcd_comm]

/-! ## The divisor of a list -/

def listGcd (numbers : List Int) : Nat := numbers.foldr (fun x g => Nat.gcd x.natAbs g) 0

theorem dvd_listGcd {d : Nat} {numbers : List Int} :
    d ∣ listGcd numbers ↔ ∀ x ∈ numbers, d ∣ x.natAbs := by
  induction numbers with
  | nil => simp [listGcd]
  | cons x numbers ih =>
    rw [List.forall_mem_cons, ← ih]
    exact Nat.dvd_gcd_iff

theorem listGcd_congr {l l' : List Int} (h : ∀ x, x ∈ l ↔ x ∈ l') : listGcd l = listGcd l' := by
  apply Nat.dvd_antisymm
  · exact dvd_listGcd.mpr fun x hx => dvd_listGcd.mp dvd_rfl x ((h x).mpr hx)
  · exact dvd_listGcd.mpr fun x hx => dvd_listGcd.mp dvd_rfl x ((h x).mp hx)

theorem listGcd_concat (l : List Int) (x : Int) :
    listGcd (l ++ [x]) = Nat.gcd x.natAbs (listGcd l) := by
  have hmem : ∀ y, y ∈ l ++ [x] ↔ y ∈ x :: l := fun y => by simp [or_comm]
  exact listGcd_congr hmem

theorem listGcd_pos {l : List Int} {x : Int} (hx : x ∈ l) (h : x ≠ 0) : 0 < listGcd l := by
  apply Nat.pos_of_ne_zero
  intro h0
  have hdvd : listGcd l ∣ x.natAbs := dvd_listGcd.mp dvd_rfl x hx
  rw [h0, Nat.zero_dvd] at hdvd
  omega

theorem gcdFront_cons (R : Remainder) {l : List Int} (h : l ≠ []) (x : Int) :
    gcdFront R (x :: l) = (gcdFront R l).map (gcd R x) := by
  match l with
  | [] => exact absurd rfl h
  | [y] => rw [gcdFront, gcdFront, Option.map_some]
  | y :: z :: rest => rw [gcdFront]

theorem gcdBack_concat (R : Remainder) {l : List Int} (h : l ≠ []) (x : Int) :
    gcdBack R (l ++ [x]) = (gcdBack R l).map (gcd R x) := by
  match l with
  | [] => exact absurd rfl h
  | [y] => rw [List.singleton_append, gcdBack, gcdBack, Option.map_some, gcd_comm]
  | [y, z] => simp [gcdBack]
  | y :: z :: w :: rest =>
    have hdrop : (z :: w :: rest ++ [x]).dropLast = z :: w :: rest := List.dropLast_concat
    rw [List.cons_append, List.cons_append] at hdrop
    show gcdBack R (y :: z :: w :: (rest ++ [x])) = _
    rw [gcdBack, hdrop]
    simp

theorem gcdFront_nonneg (R : Remainder) {l : List Int} (hne : l ≠ []) (h : ∀ x ∈ l, 0 ≤ x) :
    gcdFront R l = some (listGcd l : Int) := by
  induction l with
  | nil => exact absurd rfl hne
  | cons x l ih =>
    obtain ⟨n, rfl⟩ := Int.eq_ofNat_of_zero_le (h x List.mem_cons_self)
    by_cases hl : l = []
    · subst hl
      simp [gcdFront, listGcd]
    · rw [gcdFront_cons R hl, ih hl fun y hy => h y (List.mem_cons_of_mem _ hy), Option.map_some,
        gcd_natCast]
      rfl

theorem gcdFront_floored {l : List Int} (h : ∃ x ∈ l, x < 0) :
    gcdFront floored l = some (-(listGcd l : Int)) := by
  induction l with
  | nil => simp at h
  | cons x l ih =>
    by_cases hl : l = []
    · subst hl
      simp only [List.mem_singleton, exists_eq_left] at h
      simp only [gcdFront, listGcd, List.foldr_cons, List.foldr_nil, Nat.gcd_zero_right,
        Option.some.injEq]
      omega
    · rw [gcdFront_cons _ hl]
      by_cases hneg : ∃ y ∈ l, y < 0
      · have hpos : 0 < listGcd l := by
          obtain ⟨y, hy, hlt⟩ := hneg
          exact listGcd_pos hy (by omega)
        rw [ih hneg, Option.map_some, gcd_floored (.inr (by omega)), Int.gcd_neg]
        rfl
      · have hx : x < 0 := by
          obtain ⟨y, hy, hlt⟩ := h
          rcases List.mem_cons.mp hy with rfl | hy
          · exact hlt
          · exact absurd ⟨y, hy, hlt⟩ hneg
        rw [gcdFront_nonneg _ hl fun y hy => not_lt.mp fun hlt => hneg ⟨y, hy, hlt⟩,
          Option.map_some, gcd_floored (.inl hx)]
        rfl

theorem gcdBack_nonneg (R : Remainder) {l : List Int} (hne : l ≠ []) (h : ∀ x ∈ l, 0 ≤ x) :
    gcdBack R l = some (listGcd l : Int) := by
  induction l using List.reverseRecOn with
  | nil => exact absurd rfl hne
  | append_singleton l x ih =>
    obtain ⟨n, rfl⟩ := Int.eq_ofNat_of_zero_le (h x (by simp))
    by_cases hl : l = []
    · subst hl
      simp [gcdBack, listGcd]
    · rw [gcdBack_concat R hl, ih hl fun y hy => h y (by simp [hy]), Option.map_some, gcd_natCast,
        listGcd_concat]
      rfl

/-! ## The sign in C++ and Java -/

/-- Each positive number meets the divisor of the smaller ones in an odd number of divisions. -/
def KeepsSign (l : List Int) : Prop :=
  ∀ x ∈ l, 0 < x → Odd (divisions x.natAbs (listGcd (l.filter (· < x))))

theorem keepsSign_congr {l l' : List Int} (h : ∀ x, x ∈ l ↔ x ∈ l') :
    KeepsSign l ↔ KeepsSign l' := by
  have hbelow : ∀ x, listGcd (l.filter (· < x)) = listGcd (l'.filter (· < x)) :=
    fun x => listGcd_congr fun y => by simp [h]
  simp only [KeepsSign, h, hbelow]

theorem keepsSign_concat {l : List Int} {x : Int} (h : ∀ y ∈ l, y < x) :
    KeepsSign (l ++ [x]) ↔ KeepsSign l ∧ (0 < x → Odd (divisions x.natAbs (listGcd l))) := by
  have hfilter : ∀ y ∈ l, (l ++ [x]).filter (· < y) = l.filter (· < y) := by
    intro y hy
    have hlt := h y hy
    simp [List.filter_append, Int.not_lt.mpr (Int.le_of_lt hlt)]
  have hlast : (l ++ [x]).filter (· < x) = l := by
    rw [List.filter_append, List.filter_eq_self.mpr fun y hy => decide_eq_true (h y hy)]
    simp
  constructor
  · intro hkeeps
    refine ⟨?_, ?_⟩
    · intro y hy hpos
      rw [← hfilter y hy]
      exact hkeeps y (by simp [hy]) hpos
    · intro hpos
      have := hkeeps x (by simp) hpos
      rwa [hlast] at this
  · intro hboth y hy hpos
    rcases List.mem_append.mp hy with hy | hy
    · rw [hfilter y hy]
      exact hboth.1 y hy hpos
    · rw [List.mem_singleton] at hy
      subst hy
      rw [hlast]
      exact hboth.2 hpos

/-- One sign is kept by a number of the same sign, and by the parity of the divisions otherwise. -/
theorem gcd_truncated_neg {x : Int} {g : Nat} (hg : 0 < g) :
    gcd truncated x (-g) = if x ≤ 0 ∨ Odd (divisions x.natAbs g) then
      -(Nat.gcd x.natAbs g : Int) else Nat.gcd x.natAbs g := by
  rcases lt_trichotomy x 0 with h | rfl | h
  · obtain ⟨n, rfl⟩ : ∃ n : Nat, x = -(n : Int) := ⟨x.natAbs, by omega⟩
    rw [gcd_neg_neg, if_pos (.inl (by omega)), Int.natAbs_neg, Int.natAbs_natCast]
  · rw [← Int.natCast_zero, gcd_mixed _ _ hg, euclid_truncated, divisions_of_pos _ hg, Nat.zero_mod,
      divisions_zero, if_pos (.inl (by simp))]
    simp
  · obtain ⟨n, rfl⟩ := Int.eq_ofNat_of_zero_le (Int.le_of_lt h)
    rw [gcd_mixed _ _ hg, euclid_truncated, Int.natAbs_natCast]
    by_cases hodd : Odd (divisions n g)
    · rw [hodd.neg_one_pow, if_pos (.inr hodd), Int.neg_one_mul]
    · rw [(Nat.not_odd_iff_even.mp hodd).neg_one_pow, if_neg (by simp [hodd]; omega), Int.one_mul]

/-- On increasing numbers of which the first is negative. -/
theorem gcdBack_truncated {l : List Int} (hsorted : l.Pairwise (· < ·)) (h : ∃ x ∈ l, x < 0) :
    (KeepsSign l ∧ gcdBack truncated l = some (-(listGcd l : Int))) ∨
      (¬ KeepsSign l ∧ gcdBack truncated l = some (listGcd l : Int)) := by
  induction l using List.reverseRecOn with
  | nil => simp at h
  | append_singleton l x ih =>
    obtain ⟨hl, -, hlast⟩ := List.pairwise_append.mp hsorted
    have hlt : ∀ y ∈ l, y < x := fun y hy => hlast y hy x (by simp)
    rw [keepsSign_concat hlt]
    by_cases hnil : l = []
    · subst hnil
      obtain ⟨y, hy, hneg⟩ := h
      obtain rfl : y = x := by simpa using hy
      refine .inl ⟨⟨(fun z hz => absurd hz List.not_mem_nil), (fun hpos => by omega)⟩, ?_⟩
      simp only [List.nil_append, gcdBack, listGcd, List.foldr_cons, List.foldr_nil,
        Nat.gcd_zero_right, Option.some.injEq]
      omega
    · have hneg : ∃ y ∈ l, y < 0 := by
        obtain ⟨y, hy, hy0⟩ := h
        rcases List.mem_append.mp hy with hy | hy
        · exact ⟨y, hy, hy0⟩
        · obtain ⟨z, hz⟩ := List.exists_mem_of_ne_nil l hnil
          obtain rfl : y = x := by simpa using hy
          exact ⟨z, hz, (hlt z hz).trans hy0⟩
      have hg : 0 < listGcd l := by
        obtain ⟨y, hy, hy0⟩ := hneg
        exact listGcd_pos hy (by omega)
      rw [gcdBack_concat _ hnil, listGcd_concat]
      rcases ih hl hneg with ⟨hk, hr⟩ | ⟨hk, hr⟩
      · rw [hr, Option.map_some, gcd_truncated_neg hg]
        by_cases hkeep : x ≤ 0 ∨ Odd (divisions x.natAbs (listGcd l))
        · refine .inl ⟨⟨hk, fun hpos => hkeep.resolve_left (not_le.mpr hpos)⟩, ?_⟩
          rw [if_pos hkeep]
        · refine .inr ⟨fun hboth => hkeep ?_, by rw [if_neg hkeep]⟩
          rcases le_or_gt x 0 with hx | hx
          · exact .inl hx
          · exact .inr (hboth.2 hx)
      · -- A positive number stands before `x` already, where the sign was lost.
        obtain ⟨y, hy, hy0⟩ : ∃ y ∈ l, 0 < y := by
          by_contra hnone
          exact hk fun y hy hpos => absurd ⟨y, hy, hpos⟩ hnone
        obtain ⟨n, rfl⟩ := Int.eq_ofNat_of_zero_le (Int.le_of_lt (hy0.trans (hlt y hy)))
        refine .inr ⟨fun hboth => hk hboth.1, ?_⟩
        rw [hr, Option.map_some, gcd_natCast, Int.natAbs_natCast]

/-! ## The programs -/

/-- The lines about primes. -/
noncomputable def lines (numbers : List Int) : List (Int × Int × Int) :=
  (numbers.zip numbers.tail).map fun p =>
    (p.1, p.2, ((primes (min p.1 p.2) (max p.1 p.2)).card : Int))

theorem mapM_eq_some_map {α β : Type} {f : α → Option β} {g : α → β} {l : List α}
    (h : ∀ a ∈ l, f a = some (g a)) : l.mapM f = some (l.map g) := by
  induction l with
  | nil => rfl
  | cons a l ih =>
    rw [List.mapM_cons, h a List.mem_cons_self, ih fun b hb => h b (List.mem_cons_of_mem _ hb)]
    rfl

theorem triples_eq {L : Language} {numbers : List Int}
    (hfits : ∀ x ∈ numbers, ∀ j ≤ x, L.fits j = true) : triples L numbers = some (lines numbers) := by
  refine mapM_eq_some_map ?_
  intro p hp
  obtain ⟨h1, h2⟩ := List.of_mem_zip hp
  rw [primeNumberBetween_eq, Option.map_some]
  intro j hj
  rcases le_max_iff.mp hj with hj | hj
  · exact hfits _ h1 j hj
  · exact hfits _ (List.mem_of_mem_tail h2) j hj

theorem solveSorted_eq {L : Language} {gcdVector : List Int → Option Int} {numbers : List Int}
    (hfits : ∀ x ∈ numbers, ∀ j ≤ x, L.fits j = true) {divisor : Int}
    (h : gcdVector numbers = some divisor) :
    solveSorted L gcdVector numbers = some (divisor, lines numbers) := by
  rw [solveSorted, h, triples_eq hfits]
  rfl

theorem length_lines (numbers : List Int) : (lines numbers).length = numbers.length - 1 := by
  simp [lines]

theorem mem_destutter' {l : List Int} {x a : Int} :
    x ∈ l.destutter' (· ≠ ·) a ↔ x = a ∨ x ∈ l := by
  induction l generalizing a with
  | nil => simp
  | cons b l ih =>
    rw [List.destutter']
    split
    · rw [List.mem_cons, ih, List.mem_cons]
    · rename_i heq
      rw [not_not.mp heq, ih, List.mem_cons, ← or_assoc, or_self]

theorem mem_destutter {l : List Int} {x : Int} : x ∈ l.destutter (· ≠ ·) ↔ x ∈ l := by
  cases l with
  | nil => rfl
  | cons a l => rw [List.destutter_cons', mem_destutter', List.mem_cons]

/-- Sorting forgets the order in which the numbers of a set are. -/
theorem insertionSort_congr {l l' : List Int} (hl : l.Nodup) (hl' : l'.Nodup)
    (h : ∀ x, x ∈ l ↔ x ∈ l') : l.insertionSort (· ≤ ·) = l'.insertionSort (· ≤ ·) := by
  have hperm : l.Perm l' := (List.perm_ext_iff_of_nodup hl hl').mpr h
  exact (((List.perm_insertionSort _ l).trans hperm).trans
    (List.perm_insertionSort _ l').symm).eq_of_sortedLE List.sortedLE_insertionSort
      List.sortedLE_insertionSort

/-- A list with as many numbers as there are different ones has no number twice. -/
theorem nodup_of_length_le {l l' : List Int} (h : l' ⊆ l) (hl' : l'.Nodup)
    (hlength : l.length ≤ l'.length) : l.Nodup :=
  ((List.subperm_of_subset hl' h).perm_of_length_le hlength).nodup_iff.mp hl'

theorem gcdBack_some (R : Remainder) {l : List Int} (h : l ≠ []) : ∃ d, gcdBack R l = some d := by
  induction l using List.reverseRecOn with
  | nil => exact absurd rfl h
  | append_singleton l x ih =>
    by_cases hl : l = []
    · subst hl
      exact ⟨x, by rw [List.nil_append, gcdBack]⟩
    · obtain ⟨d, hd⟩ := ih hl
      exact ⟨gcd R x d, by rw [gcdBack_concat R hl, hd, Option.map_some]⟩

theorem gcdFront_some (R : Remainder) {l : List Int} (h : l ≠ []) : ∃ d, gcdFront R l = some d := by
  induction l with
  | nil => exact absurd rfl h
  | cons x l ih =>
    by_cases hl : l = []
    · subst hl
      exact ⟨x, by rw [gcdFront]⟩
    · obtain ⟨d, hd⟩ := ih hl
      exact ⟨gcd R x d, by rw [gcdFront_cons R hl, hd, Option.map_some]⟩

/-- The numbers that Java and Python go on with. -/
def distinct (numbers : List Int) : List Int := numbers.dedup.insertionSort (· ≤ ·)

def Int32 (x : Int) : Prop := -2147483648 ≤ x ∧ x ≤ 2147483647

section

variable {numbers : List Int}

theorem mem_distinct {x : Int} : x ∈ distinct numbers ↔ x ∈ numbers := by
  rw [distinct, List.mem_insertionSort, List.mem_dedup]

theorem distinct_ne_nil (hne : numbers ≠ []) : distinct numbers ≠ [] := by
  obtain ⟨x, hx⟩ := List.exists_mem_of_ne_nil numbers hne
  exact List.ne_nil_of_mem (mem_distinct.mpr hx)

theorem distinct_sorted (numbers : List Int) : (distinct numbers).Pairwise (· < ·) := by
  have hnodup : (distinct numbers).Nodup :=
    (List.perm_insertionSort _ _).nodup_iff.mpr numbers.nodup_dedup
  exact (List.sortedLE_insertionSort.pairwise.and hnodup).imp fun h => lt_of_le_of_ne h.1 h.2

theorem java_solve (h : ∀ x ∈ numbers, Int32 x) {d : Int}
    (hd : gcdBack truncated (distinct numbers) = some d) :
    Java.solve numbers = some (d, lines (distinct numbers)) := by
  have hsorted : numbers.reverse.dedup.reverse.insertionSort (· ≤ ·) = distinct numbers :=
    insertionSort_congr (List.nodup_reverse.mpr (List.nodup_dedup _)) numbers.nodup_dedup
      fun x => by simp
  rw [Java.solve, hsorted]
  refine solveSorted_eq ?_ hd
  intro x hx j hj
  have := (h x (mem_distinct.mp hx)).2
  exact decide_eq_true (by omega)

theorem python_solve {d : Int} (hd : gcdFront floored (distinct numbers) = some d) :
    Python.solve numbers = some (d, lines (distinct numbers)) :=
  solveSorted_eq (fun _ _ _ _ => rfl) hd

theorem cpp_solve (h : ∀ x ∈ numbers, Int32 x) {d : Int}
    (hd : gcdBack truncated ((numbers.destutter (· ≠ ·)).insertionSort (· ≤ ·)) = some d) :
    Cpp.solve numbers = some (d, lines ((numbers.destutter (· ≠ ·)).insertionSort (· ≤ ·))) := by
  refine solveSorted_eq ?_ hd
  intro x hx j hj
  have := (h x (mem_destutter.mp ((List.mem_insertionSort _).mp hx))).2
  exact decide_eq_true (by omega)

/-- The divisors of Java and Python have the same sign. -/
theorem divisors_agree_iff (hne : numbers ≠ []) :
    gcdBack truncated (distinct numbers) = gcdFront floored (distinct numbers) ↔
      (∀ x ∈ numbers, 0 ≤ x) ∨ KeepsSign numbers := by
  by_cases hneg : ∃ x ∈ distinct numbers, x < 0
  · obtain ⟨x, hx, hlt⟩ := hneg
    have hpos : 0 < listGcd (distinct numbers) := listGcd_pos hx (by omega)
    have hsome : ¬ ∀ x ∈ numbers, 0 ≤ x := fun hall => by
      have := hall x (mem_distinct.mp hx)
      omega
    rw [gcdFront_floored ⟨x, hx, hlt⟩, ← keepsSign_congr fun y => mem_distinct]
    rcases gcdBack_truncated (distinct_sorted numbers) ⟨x, hx, hlt⟩ with ⟨hk, hr⟩ | ⟨hk, hr⟩
    · simp [hr, hk]
    · rw [hr, Option.some.injEq]
      constructor
      · intro heq
        omega
      · intro hor
        exact absurd hor (by simp [hsome, hk])
  · have hall : ∀ x ∈ numbers, 0 ≤ x := fun x hx =>
      not_lt.mp fun hlt => hneg ⟨x, mem_distinct.mpr hx, hlt⟩
    have hall' : ∀ x ∈ distinct numbers, 0 ≤ x := fun x hx => hall x (mem_distinct.mp hx)
    rw [gcdBack_nonneg _ (distinct_ne_nil hne) hall', gcdFront_nonneg _ (distinct_ne_nil hne) hall']
    exact ⟨fun _ => .inl hall, fun _ => rfl⟩

end

/-- The three programs print the same. -/
def Agree (numbers : List Int) : Prop :=
  ∃ printed, Cpp.solve numbers = some printed ∧ Java.solve numbers = some printed ∧
    Python.solve numbers = some printed

theorem sorted_cpp_ne_nil {numbers : List Int} (hne : numbers ≠ []) :
    (numbers.destutter (· ≠ ·)).insertionSort (· ≤ ·) ≠ [] := by
  obtain ⟨x, hx⟩ := List.exists_mem_of_ne_nil numbers hne
  exact List.ne_nil_of_mem ((List.mem_insertionSort _).mpr (mem_destutter.mpr hx))

/-- A number that C++ keeps twice gives it a line more than Java. -/
theorem nodup_of_agree {numbers : List Int} (hne : numbers ≠ []) (h : ∀ x ∈ numbers, Int32 x)
    (hagree : Agree numbers) : (numbers.destutter (· ≠ ·)).Nodup := by
  obtain ⟨printed, hcpp, hjava, -⟩ := hagree
  obtain ⟨c, hc⟩ := gcdBack_some truncated (sorted_cpp_ne_nil hne)
  obtain ⟨j, hj⟩ := gcdBack_some truncated (distinct_ne_nil hne)
  rw [cpp_solve h hc] at hcpp
  rw [java_solve h hj, ← hcpp] at hjava
  have hlines := congrArg List.length (Prod.ext_iff.mp (Option.some.inj hjava)).2
  have hS := List.length_pos_of_ne_nil (distinct_ne_nil hne)
  simp only [length_lines, distinct, List.length_insertionSort] at hlines hS
  have hsubset : numbers.dedup ⊆ numbers.destutter (· ≠ ·) := fun x hx =>
    mem_destutter.mpr (List.mem_dedup.mp hx)
  exact nodup_of_length_le hsubset numbers.nodup_dedup (by omega)

theorem solve_agree_iff (numbers : List Int) (hne : numbers ≠ []) (h : ∀ x ∈ numbers, Int32 x) :
    Agree numbers ↔ (numbers.destutter (· ≠ ·)).Nodup ∧
      ((∀ x ∈ numbers, 0 ≤ x) ∨ KeepsSign numbers) := by
  obtain ⟨j, hj⟩ := gcdBack_some truncated (distinct_ne_nil hne)
  rw [← divisors_agree_iff hne]
  constructor
  · intro hagree
    refine ⟨nodup_of_agree hne h hagree, ?_⟩
    obtain ⟨printed, -, hjava, hpython⟩ := hagree
    obtain ⟨p, hp⟩ := gcdFront_some floored (distinct_ne_nil hne)
    rw [java_solve h hj] at hjava
    rw [python_solve hp, ← hjava] at hpython
    have hdivisor : p = j := (Prod.ext_iff.mp (Option.some.inj hpython)).1
    rw [hj, hp, hdivisor]
  · intro hboth
    obtain ⟨hnodup, hgcd⟩ := hboth
    have hsorted : (numbers.destutter (· ≠ ·)).insertionSort (· ≤ ·) = distinct numbers :=
      insertionSort_congr hnodup numbers.nodup_dedup fun x => by
        rw [mem_destutter, List.mem_dedup]
    refine ⟨(j, lines (distinct numbers)), ?_, java_solve h hj, python_solve (hgcd ▸ hj)⟩
    rw [cpp_solve h (by rw [hsorted]; exact hj), hsorted]

theorem solve_agree_iff_adjacent : Agree [8, 3, 3] :=
  (solve_agree_iff [8, 3, 3] (by simp) (by simp [Int32])).mpr ⟨by decide, .inl (by simp)⟩

/-- C++ keeps both ones of `1 2 1`. -/
theorem solve_disagree : ¬ Agree [1, 2, 1] := by
  intro h
  exact absurd (nodup_of_agree (by simp) (by simp [Int32]) h) (by decide)

end Hw1
end SsuComputer
