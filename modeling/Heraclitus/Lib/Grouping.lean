import Heraclitus.Lib.SortedMap
import Mathlib.Data.Finset.Sort
/-!
# Grouping — loops that gather what belongs to one key

A loop over a list adds each element to the entry of its key.  The entry of a key is then what a loop over the elements of that key
makes, and a map is the list of its keys in order with their entries.
-/
namespace Heraclitus
namespace SortedMap

variable {κ α β : Type} [LinearOrder κ] {key : α → κ} {add : Option β → α → β}

def groupInto (key : α → κ) (add : Option β → α → β) (l : List α) (m : SortedMap κ β) : SortedMap κ β :=
  l.foldl (fun m a => m.alter (key a) (fun old => some (add old a))) m

/-- **One key of a grouping.** -/
theorem get?_groupInto {p : α → Bool} {k : κ} (hp : ∀ a, p a = true ↔ key a = k) : ∀ (l : List α) (m : SortedMap κ β),
    (groupInto key add l m).get? k = (l.filter p).foldl (fun old a => some (add old a)) (m.get? k)
  | [], _ => rfl
  | a :: l, m => by
    have ih := get?_groupInto hp l (m.alter (key a) (fun old => some (add old a)))
    rw [groupInto] at ih ⊢
    rw [List.foldl_cons, ih, get?_alter]
    by_cases hk : key a = k
    · rw [if_pos hk.symm, List.filter_cons_of_pos ((hp a).2 hk), List.foldl_cons, hk]
    · rw [if_neg (Ne.symm hk), List.filter_cons_of_neg fun h => hk ((hp a).1 h)]

theorem entries_eq_sort {m : SortedMap κ β} {s : Finset κ} {f : κ → β} (h : ∀ k v, m.get? k = some v ↔ k ∈ s ∧ v = f k) :
    m.entries = s.sort.map (fun k => (k, f k)) := by
  have hsorted : (s.sort.map (fun k => (k, f k))).Pairwise (fun a b => a.1 < b.1) :=
    List.pairwise_map.2 (List.sortedLT_iff_pairwise.1 (Finset.sortedLT_sort s))
  have hm : m = ⟨s.sort.map (fun k => (k, f k)), hsorted⟩ := by
    ext1 k
    apply Option.ext
    intro v
    rw [h, get?_eq_some]
    simp only [List.mem_map, Finset.mem_sort]
    constructor
    · rintro ⟨hk, rfl⟩
      exact ⟨k, hk, rfl⟩
    · rintro ⟨j, hj, heq⟩
      cases heq
      exact ⟨hj, rfl⟩
  rw [hm]

end SortedMap
end Heraclitus
