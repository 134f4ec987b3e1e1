import Mathlib.Data.List.Nodup
import Mathlib.Data.List.Perm.Basic
import Mathlib.Data.List.Count

/-!
# SsuComputer.Lib.Grouping

Grouping records by a key, one record at a time.

`Groups key val gkey items recs gs`: the groups `gs` have distinct keys, the keys of `recs`, and each
group lists the values of the records with its key in record order. The rules say what keeps it:
a record with a new key in a group of its own (`Groups.new`, wherever that group is put), a record
appended to the group of its key (`Groups.extend`). `Groups.mem_filter_iff` says which groups are
long enough to be kept.
-/

namespace SsuComputer

variable {α β γ κ : Type _} [DecidableEq κ]

structure Groups (key : α → κ) (val : α → β) (gkey : γ → κ) (items : γ → List β) (recs : List α)
    (gs : List γ) : Prop where
  nodup : (gs.map gkey).Nodup
  mem_iff : ∀ k, k ∈ gs.map gkey ↔ k ∈ recs.map key
  items_eq : ∀ g ∈ gs, items g = (recs.filter fun r => key r = gkey g).map val

namespace Groups

variable {key : α → κ} {val : α → β} {gkey : γ → κ} {items : γ → List β}
  {recs : List α} {gs gs' : List γ}

theorem nil : Groups key val gkey items [] [] := ⟨by simp, by simp, by simp⟩

theorem filter_concat (r : α) (k : κ) :
    ((recs ++ [r]).filter fun x => key x = k).map val =
      (recs.filter fun x => key x = k).map val ++ if key r = k then [val r] else [] := by
  by_cases h : key r = k <;> simp [List.filter_append, h]

theorem new (h : Groups key val gkey items recs gs) {r : α} {g : γ} (hnew : key r ∉ gs.map gkey)
    (hperm : gs'.Perm (g :: gs)) (hkey : gkey g = key r) (hitems : items g = [val r]) :
    Groups key val gkey items (recs ++ [r]) gs' := by
  have hmap := hperm.map gkey
  refine ⟨?_, fun k => ?_, fun g' hg' => ?_⟩
  · rw [hmap.nodup_iff, List.map_cons, List.nodup_cons, hkey]
    exact ⟨hnew, h.nodup⟩
  · rw [hmap.mem_iff, List.map_cons, List.mem_cons, h.mem_iff, hkey]
    simp [or_comm]
  · rw [filter_concat]
    rcases List.mem_cons.mp (hperm.mem_iff.mp hg') with rfl | hold
    · have hnone : recs.filter (fun x => key x = gkey g') = [] := by
        rw [List.filter_eq_nil_iff]
        intro x hx he
        rw [hkey, decide_eq_true_eq] at he
        exact hnew ((h.mem_iff _).mpr (he ▸ List.mem_map_of_mem hx))
      rw [hnone, hitems, hkey]
      simp
    · have hne : key r ≠ gkey g' := fun he => hnew (he ▸ List.mem_map_of_mem hold)
      simp [hne, h.items_eq g' hold]

theorem extend {pre post : List γ} {g g' : γ} (h : Groups key val gkey items recs (pre ++ g :: post))
    {r : α} (hkey : gkey g = key r) (hkey' : gkey g' = gkey g)
    (hitems : items g' = items g ++ [val r]) :
    Groups key val gkey items (recs ++ [r]) (pre ++ g' :: post) := by
  have hmap : (pre ++ g' :: post).map gkey = (pre ++ g :: post).map gkey := by simp [hkey']
  refine ⟨by rw [hmap]; exact h.nodup, fun k => ?_, fun x hx => ?_⟩
  · rw [hmap, h.mem_iff, List.map_append, List.mem_append, List.map_singleton, List.mem_singleton]
    refine ⟨.inl, ?_⟩
    rintro (hk | rfl)
    · exact hk
    · exact (h.mem_iff _).mp (by simp [hkey])
  · rw [filter_concat]
    by_cases hx' : x = g'
    · subst hx'
      rw [hitems, hkey', h.items_eq g (by simp)]
      simp [hkey]
    · have hmem : x ∈ pre ++ g :: post := by
        simp only [List.mem_append, List.mem_cons, hx', false_or] at hx ⊢
        exact hx.imp_right .inr
      have hne : key r ≠ gkey x := by
        have hnd := h.nodup
        rw [List.map_append, List.map_cons, List.nodup_middle, List.nodup_cons] at hnd
        rintro he
        refine hnd.1 ?_
        rw [hkey, he, ← List.map_append]
        refine List.mem_map_of_mem ?_
        simp only [List.mem_append, List.mem_cons, hx', false_or] at hx ⊢
        exact hx
      rw [if_neg hne, List.append_nil, h.items_eq x hmem]

/-- A group holds as many values as there are records with its key. -/
theorem length_items [BEq κ] [LawfulBEq κ] (h : Groups key val gkey items recs gs) {g : γ}
    (hg : g ∈ gs) : (items g).length = (recs.map key).count (gkey g) := by
  rw [h.items_eq g hg, List.length_map, List.count, List.countP_map, List.countP_eq_length_filter]
  congr 1
  refine List.filter_congr fun r _ => ?_
  simp [beq_eq_decide]

/-- The groups that are long enough are those of the keys that occur often enough. -/
theorem mem_filter_iff [BEq κ] [LawfulBEq κ] (h : Groups key val gkey items recs gs) (n : Nat)
    (hn : 0 < n) (k : κ) :
    k ∈ (gs.filter fun g => n ≤ (items g).length).map gkey ↔ n ≤ (recs.map key).count k := by
  simp only [List.mem_map, List.mem_filter, decide_eq_true_eq]
  constructor
  · rintro ⟨g, ⟨hg, hlen⟩, rfl⟩
    rwa [← h.length_items hg]
  · intro hk
    obtain ⟨g, hg, rfl⟩ := List.mem_map.mp ((h.mem_iff k).mpr
      (List.count_pos_iff.mp (Nat.lt_of_lt_of_le hn hk)))
    exact ⟨g, ⟨hg, by rwa [h.length_items hg]⟩, rfl⟩

end Groups

end SsuComputer
