import Mathlib.Data.List.Dedup
import Mathlib.Data.List.Nodup

/-!
# SsuComputer.Lib.Paging

Page replacement in the abstract: a policy keeps at most `n` pages in a list and says which list
follows a fault.

* `queue n`, `stack n` — first in first out (oldest page in front), last in first out (youngest
  page in front). Both take a free place first.
* `faults policy` — the number of faults of a reference string.
* `loaded` — all pages met so far, each once, in the order in which they were met first;
  `loaded_length` counts the distinct pages.
-/

namespace SsuComputer
namespace Paging

variable {α : Type _}

def queue (n : Nat) (resident : List α) (page : α) : List α :=
  if resident.length < n then resident ++ [page] else resident.tail ++ [page]

def stack (n : Nat) (resident : List α) (page : α) : List α :=
  if resident.length < n then page :: resident else page :: resident.tail

section Resident

variable {n : Nat} {resident : List α} {page : α}

theorem queue_free (h : resident.length < n) : queue n resident page = resident ++ [page] :=
  if_pos h

theorem stack_free (h : resident.length < n) : stack n resident page = page :: resident :=
  if_pos h

theorem stack_full (h : n ≤ resident.length) : stack n resident page = page :: resident.tail :=
  if_neg (Nat.not_lt.mpr h)

end Resident

variable [DecidableEq α]

def faults (policy : List α → α → List α) : List α → List α → Nat
  | _, [] => 0
  | resident, page :: pages =>
    if page ∈ resident then faults policy resident pages
    else faults policy (policy resident page) pages + 1

def loaded : List α → List α → List α
  | seen, [] => seen
  | seen, page :: pages => if page ∈ seen then loaded seen pages else loaded (seen ++ [page]) pages

section Steps

variable {policy : List α → α → List α} {resident seen pages : List α} {page : α}

theorem faults_hit (h : page ∈ resident) :
    faults policy resident (page :: pages) = faults policy resident pages :=
  if_pos h

theorem faults_fault (h : page ∉ resident) :
    faults policy resident (page :: pages) = faults policy (policy resident page) pages + 1 :=
  if_neg h

theorem loaded_hit (h : page ∈ seen) : loaded seen (page :: pages) = loaded seen pages :=
  if_pos h

theorem loaded_fault (h : page ∉ seen) :
    loaded seen (page :: pages) = loaded (seen ++ [page]) pages :=
  if_neg h

end Steps

theorem length_le_loaded (seen pages : List α) : seen.length ≤ (loaded seen pages).length := by
  induction pages generalizing seen with
  | nil => simp [loaded]
  | cons page pages ih =>
    by_cases hp : page ∈ seen
    · rw [loaded_hit hp]
      exact ih seen
    · rw [loaded_fault hp]
      have := ih (seen ++ [page])
      simp only [List.length_append, List.length_singleton] at this
      omega

theorem mem_loaded {seen pages : List α} {p : α} :
    p ∈ loaded seen pages ↔ p ∈ seen ∨ p ∈ pages := by
  induction pages generalizing seen with
  | nil => simp [loaded]
  | cons page pages ih =>
    by_cases hp : page ∈ seen
    · rw [loaded_hit hp, ih, List.mem_cons]
      constructor
      · rintro (h | h)
        · exact .inl h
        · exact .inr (.inr h)
      · rintro (h | rfl | h)
        · exact .inl h
        · exact .inl hp
        · exact .inr h
    · rw [loaded_fault hp, ih, List.mem_append, List.mem_singleton, List.mem_cons, or_assoc]

theorem nodup_loaded {seen pages : List α} (h : seen.Nodup) : (loaded seen pages).Nodup := by
  induction pages generalizing seen with
  | nil => exact h
  | cons page pages ih =>
    by_cases hp : page ∈ seen
    · rw [loaded_hit hp]
      exact ih h
    · rw [loaded_fault hp]
      refine ih (List.nodup_append.mpr ⟨h, List.nodup_singleton page, ?_⟩)
      intro a ha b hb hab
      rw [List.mem_singleton] at hb
      exact hp (hb ▸ hab ▸ ha)

theorem loaded_length (pages : List α) : (loaded [] pages).length = pages.dedup.length := by
  refine List.Perm.length_eq ((List.perm_ext_iff_of_nodup (nodup_loaded List.nodup_nil)
    (List.nodup_dedup pages)).mpr fun p => ?_)
  rw [mem_loaded, List.mem_dedup]
  simp

end Paging
end SsuComputer
