import Mathlib.Logic.Function.Basic
import Mathlib.Data.List.Nodup
import Mathlib.Data.List.Zip

/-!
# SsuComputer.Lib.RedoLog

Entries of a redo log played over a store.

`replay es d` writes the entries `es` over `d` in order. Playing the log again over a store that
already has some of its entries changes nothing (`replay_update`, `replay_eq_self`), which is what
makes a recovery that was cut short safe to start again.
-/

namespace SsuComputer

variable {ι β : Type _} [DecidableEq ι]

def replay (es : List (ι × β)) (d : ι → β) : ι → β :=
  es.foldl (fun d e => Function.update d e.1 e.2) d

@[simp] theorem replay_nil (d : ι → β) : replay [] d = d := rfl

@[simp] theorem replay_cons (e : ι × β) (es : List (ι × β)) (d : ι → β) :
    replay (e :: es) d = replay es (Function.update d e.1 e.2) := rfl

theorem replay_append (es fs : List (ι × β)) (d : ι → β) :
    replay (es ++ fs) d = replay fs (replay es d) := by
  simp [replay]

theorem replay_of_not_mem {es : List (ι × β)} {i : ι} (h : i ∉ es.map Prod.fst) (d : ι → β) :
    replay es d i = d i := by
  induction es generalizing d with
  | nil => rfl
  | cons e es ih =>
    rw [List.map_cons, List.mem_cons, not_or] at h
    rw [replay_cons, ih h.2, Function.update_of_ne h.1]

/-- Where the entries write, what was there before does not matter. -/
theorem replay_congr {es : List (ι × β)} {d d' : ι → β} {i : ι}
    (h : i ∈ es.map Prod.fst ∨ d i = d' i) : replay es d i = replay es d' i := by
  induction es generalizing d d' with
  | nil => simpa using h
  | cons e es ih =>
    rw [replay_cons, replay_cons]
    refine ih ?_
    by_cases hi : i = e.1
    · subst hi
      right
      rw [Function.update_self, Function.update_self]
    · rw [Function.update_of_ne hi, Function.update_of_ne hi]
      simpa [hi] using h

theorem replay_of_mem {es : List (ι × β)} {i : ι} {v : β} (hnd : (es.map Prod.fst).Nodup)
    (h : (i, v) ∈ es) (d : ι → β) : replay es d i = v := by
  induction es generalizing d with
  | nil => cases h
  | cons e es ih =>
    rw [List.map_cons, List.nodup_cons] at hnd
    rw [replay_cons]
    rcases List.mem_cons.mp h with rfl | h
    · rw [replay_of_not_mem hnd.1, Function.update_self]
    · exact ih hnd.2 h _

/-- Writing one entry early changes nothing. -/
theorem replay_update {es : List (ι × β)} {i : ι} {v : β} (hnd : (es.map Prod.fst).Nodup)
    (h : (i, v) ∈ es) (d : ι → β) : replay es (Function.update d i v) = replay es d := by
  funext j
  by_cases hj : j = i
  · subst hj
    rw [replay_of_mem hnd h, replay_of_mem hnd h]
  · exact replay_congr (.inr (Function.update_of_ne hj v d))

/-- A store that has every entry already. -/
theorem replay_eq_self {es : List (ι × β)} {d : ι → β} (hnd : (es.map Prod.fst).Nodup)
    (h : ∀ e ∈ es, d e.1 = e.2) : replay es d = d := by
  funext j
  by_cases hj : j ∈ es.map Prod.fst
  · obtain ⟨e, he, rfl⟩ := List.mem_map.mp hj
    rw [replay_of_mem hnd he, h e he]
  · exact replay_of_not_mem hj d

end SsuComputer
