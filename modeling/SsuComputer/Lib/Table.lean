import Mathlib.Logic.Function.Basic
import Mathlib.Data.List.Basic

/-!
# SsuComputer.Lib.Table

Dynamic programming over two indices: a table with a border of zeros, filled row by row, and the
recursion it computes.

The value of a cell is `f i j diag up left`, from the cells before it. `fillTable_eq` is the rule for
programs that fill the table with two loops.
-/

namespace SsuComputer

/-- The recursion. -/
def table (f : Nat → Nat → Nat → Nat → Nat → Nat) : Nat → Nat → Nat
  | 0, _ => 0
  | _ + 1, 0 => 0
  | i + 1, j + 1 => f (i + 1) (j + 1) (table f i j) (table f i (j + 1)) (table f (i + 1) j)
termination_by i j => i + j

def setCell (arr : Nat → Nat → Nat) (i j v : Nat) : Nat → Nat → Nat :=
  Function.update arr i (Function.update (arr i) j v)

section Fill

variable (f : Nat → Nat → Nat → Nat → Nat → Nat)

/-- The body of the inner loop. -/
def fillCell (i : Nat) (arr : Nat → Nat → Nat) (j : Nat) : Nat → Nat → Nat :=
  setCell arr i j (f i j (arr (i - 1) (j - 1)) (arr (i - 1) j) (arr i (j - 1)))

def fillRow (n : Nat) (arr : Nat → Nat → Nat) (i : Nat) : Nat → Nat → Nat :=
  (List.range' 1 n).foldl (fillCell f i) arr

/-- The table after the loops over the rows `1..m` and the columns `1..n`. -/
def fillTable (m n : Nat) : Nat → Nat → Nat :=
  (List.range' 1 m).foldl (fillRow f n) fun _ _ => 0

variable {f} {n : Nat}

@[simp] theorem table_zero_left (j : Nat) : table f 0 j = 0 := by
  cases j <;> rw [table]

@[simp] theorem table_zero_right (i : Nat) : table f i 0 = 0 := by
  cases i <;> rw [table]

theorem table_succ (i j : Nat) : table f (i + 1) (j + 1) =
    f (i + 1) (j + 1) (table f i j) (table f i (j + 1)) (table f (i + 1) j) := by rw [table]

theorem setCell_self (arr : Nat → Nat → Nat) (i j v : Nat) : setCell arr i j v i j = v := by
  simp [setCell]

theorem setCell_of_ne {arr : Nat → Nat → Nat} {i j i' j' : Nat} (v : Nat) (h : i' ≠ i ∨ j' ≠ j) :
    setCell arr i j v i' j' = arr i' j' := by
  by_cases hi : i' = i
  · subst hi
    have hj : j' ≠ j := h.resolve_left fun hne => hne rfl
    simp [setCell, hj]
  · simp [setCell, hi]

/-- A row, up to column `c`, with the rows above it filled. -/
theorem fillRow_spec {arr : Nat → Nat → Nat} {i : Nat} (habove : ∀ j ≤ n, arr i j = table f i j)
    (hzero : arr (i + 1) 0 = 0) {c : Nat} (hc : c ≤ n) :
    (∀ i' ≠ i + 1, ∀ j, fillRow f c arr (i + 1) i' j = arr i' j) ∧
      ∀ j ≤ c, fillRow f c arr (i + 1) (i + 1) j = table f (i + 1) j := by
  induction c with
  | zero =>
    refine ⟨fun _ _ _ => rfl, fun j hj => ?_⟩
    rw [Nat.le_zero.mp hj, table_zero_right]
    exact hzero
  | succ c ih =>
    obtain ⟨hother, hrow⟩ := ih (by omega)
    have hstep : fillRow f (c + 1) arr (i + 1) = fillCell f (i + 1) (fillRow f c arr (i + 1)) (c + 1) := by
      rw [fillRow, List.range'_1_concat, List.foldl_append, Nat.add_comm 1 c]
      rfl
    rw [hstep, fillCell]
    refine ⟨fun i' hi' j => ?_, fun j hj => ?_⟩
    · rw [setCell_of_ne _ (.inl hi'), hother i' hi' j]
    · by_cases hjc : j = c + 1
      · subst hjc
        rw [setCell_self, table_succ, Nat.add_sub_cancel, Nat.add_sub_cancel, hother i (by omega),
          hother i (by omega), hrow c (Nat.le_refl c), habove c (by omega), habove (c + 1) (by omega)]
      · rw [setCell_of_ne _ (.inr hjc), hrow j (by omega)]

/-- The loops compute the recursion. -/
theorem fillTable_eq {m i j : Nat} (hi : i ≤ m) (hj : j ≤ n) : fillTable f m n i j = table f i j := by
  have h : ∀ m, (∀ i ≤ m, ∀ j ≤ n, fillTable f m n i j = table f i j) ∧
      ∀ i, m < i → ∀ j, fillTable f m n i j = 0 := by
    intro m
    induction m with
    | zero =>
      refine ⟨fun i hi j _ => ?_, fun _ _ _ => rfl⟩
      rw [Nat.le_zero.mp hi, table_zero_left]
      rfl
    | succ m ih =>
      have hstep : fillTable f (m + 1) n = fillRow f n (fillTable f m n) (m + 1) := by
        rw [fillTable, List.range'_1_concat, List.foldl_append, Nat.add_comm 1 m]
        rfl
      obtain ⟨hother, hrow⟩ := fillRow_spec (f := f) (fun j hj => ih.1 m (Nat.le_refl m) j hj)
        (ih.2 (m + 1) (Nat.lt_succ_self m) 0) (Nat.le_refl n)
      rw [hstep]
      refine ⟨fun i hi j hj => ?_, fun i hi j => ?_⟩
      · by_cases him : i = m + 1
        · subst him
          exact hrow j hj
        · rw [hother i him j]
          exact ih.1 i (by omega) j hj
      · rw [hother i (by omega) j]
        exact ih.2 i (by omega) j
  exact (h m).1 i hi j hj

end Fill

end SsuComputer
