import SsuComputer.Lib.CString

/-!
# SsuComputer.Lib.Strcmp

`strcmp`, of which only the sign has a meaning, and the strict order that it defines.
-/

namespace SsuComputer

def strcmp : CString → CString → Int
  | [], [] => 0
  | [], _ :: _ => -1
  | _ :: _, [] => 1
  | c :: s, d :: t => if c = d then strcmp s t else (c.toNat : Int) - d.toNat

theorem toNat_ne_of_ne {c d : Char} (h : c ≠ d) : c.toNat ≠ d.toNat := by
  intro heq
  refine h (Char.ext ?_)
  exact UInt32.toNat_inj.mp heq

theorem strcmp_self (s : CString) : strcmp s s = 0 := by
  induction s with
  | nil => rfl
  | cons c s ih =>
    unfold strcmp
    rw [if_pos rfl]
    exact ih

theorem strcmp_eq_zero {s t : CString} : strcmp s t = 0 ↔ s = t := by
  constructor
  · intro h
    induction s generalizing t with
    | nil =>
      cases t with
      | nil => rfl
      | cons d t => cases h
    | cons c s ih =>
      cases t with
      | nil => cases h
      | cons d t =>
        unfold strcmp at h
        split_ifs at h with hcd
        · rw [hcd, ih h]
        · have := toNat_ne_of_ne hcd
          omega
  · rintro rfl
    exact strcmp_self s

theorem strcmp_swap {s t : CString} : strcmp s t < 0 ↔ 0 < strcmp t s := by
  induction s generalizing t with
  | nil => cases t <;> simp [strcmp]
  | cons c s ih =>
    cases t with
    | nil => simp [strcmp]
    | cons d t =>
      unfold strcmp
      by_cases hcd : c = d
      · rw [if_pos hcd, if_pos hcd.symm]
        exact ih
      · rw [if_neg hcd, if_neg (Ne.symm hcd)]
        omega

theorem strcmp_trans {s t u : CString} (hst : strcmp s t < 0) (htu : strcmp t u < 0) :
    strcmp s u < 0 := by
  induction s generalizing t u with
  | nil =>
    cases u with
    | nil =>
      have := strcmp_swap.mp hst
      omega
    | cons e u =>
      unfold strcmp
      decide
  | cons c s ih =>
    cases t with
    | nil => cases hst
    | cons d t =>
      cases u with
      | nil => cases htu
      | cons e u =>
        unfold strcmp at hst htu ⊢
        split_ifs at hst with hcd
        · subst hcd
          split_ifs at htu with hce
          · rw [if_pos hce]
            exact ih hst htu
          · rw [if_neg hce]
            exact htu
        · split_ifs at htu with hde
          · subst hde
            rw [if_neg hcd]
            exact hst
          · have hce : c ≠ e := by
              rintro rfl
              omega
            rw [if_neg hce]
            omega

end SsuComputer
