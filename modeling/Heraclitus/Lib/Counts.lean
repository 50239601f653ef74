import Heraclitus.Lib.SortedMap
import Mathlib.Data.List.Count
import Mathlib.Order.Bounds.Defs
/-!
# Counts — a map of counters is a bag

A key is bound to how often it is held, and not at all where it is not held.  The first key is then the least one held.
-/
namespace Heraclitus
namespace SortedMap

variable {κ : Type} [LinearOrder κ] {m : SortedMap κ Nat} {l : List κ} {k : κ}

def first? {β : Type} (m : SortedMap κ β) : Option κ := m.entries.head?.map Prod.fst

/-- One more. -/
def up (m : SortedMap κ Nat) (k : κ) : SortedMap κ Nat := m.alter k (fun o => some (o.getD 0 + 1))

/-- One less, and no binding for the last. -/
def down (m : SortedMap κ Nat) (k : κ) : SortedMap κ Nat :=
  m.alter k (fun o => o.bind (fun n => if n - 1 = 0 then none else some (n - 1)))

def Counts (m : SortedMap κ Nat) (l : List κ) : Prop := ∀ k, m.get? k = if l.count k = 0 then none else some (l.count k)

theorem counts_empty : (empty : SortedMap κ Nat).Counts [] := fun _ => rfl

theorem Counts.isSome_iff (h : m.Counts l) : (m.get? k).isSome ↔ k ∈ l := by
  rw [h k]
  by_cases hz : l.count k = 0
  · simp [hz, List.count_eq_zero.1 hz]
  · simp [hz, List.count_pos_iff.1 (Nat.pos_of_ne_zero hz)]

theorem Counts.up (h : m.Counts l) (k : κ) : (m.up k).Counts (k :: l) := by
  intro j
  rw [SortedMap.up, get?_alter]
  by_cases hj : j = k
  · subst hj
    rw [if_pos rfl, h j, List.count_cons_self]
    by_cases hz : l.count j = 0
    · simp [hz]
    · simp [hz]
  · rw [if_neg hj, h j, List.count_cons_of_ne (Ne.symm hj)]

theorem Counts.down (h : m.Counts l) (hk : k ∈ l) : (m.down k).Counts (l.erase k) := by
  intro j
  rw [SortedMap.down, get?_alter]
  by_cases hj : j = k
  · subst hj
    have hpos : l.count j ≠ 0 := Nat.pos_iff_ne_zero.1 (List.count_pos_iff.2 hk)
    rw [if_pos rfl, h j, if_neg hpos, List.count_erase_self]
    rfl
  · rw [if_neg hj, h j, List.count_erase_of_ne hj]

theorem Counts.perm {l' : List κ} (h : m.Counts l) (hp : l.Perm l') : m.Counts l' := by
  intro k
  rw [h k, hp.count_eq]

theorem first?_eq_some {β : Type} {m : SortedMap κ β} (h : m.first? = some k) :
    (m.get? k).isSome ∧ ∀ j, (m.get? j).isSome → k ≤ j := by
  obtain ⟨e, he, rfl⟩ := Option.map_eq_some_iff.1 h
  have hmem : e ∈ m.entries := List.mem_of_mem_head? he
  refine ⟨by rw [get?_eq_some.2 hmem]; rfl, fun j hj => ?_⟩
  obtain ⟨v, hv⟩ := Option.isSome_iff_exists.1 hj
  have hsorted := m.sorted
  have hmem' := get?_eq_some.1 hv
  cases hl : m.entries with
  | nil => rw [hl] at he; cases he
  | cons x xs =>
    rw [hl] at he hsorted hmem'
    cases he
    rcases List.mem_cons.1 hmem' with rfl | hmem'
    · exact le_refl _
    · exact le_of_lt ((List.pairwise_cons.1 hsorted).1 _ hmem')

theorem first?_eq_none {β : Type} {m : SortedMap κ β} (h : m.first? = none) (k : κ) : m.get? k = none := by
  have hnil : m.entries = [] := List.head?_eq_none_iff.1 (Option.map_eq_none_iff.1 h)
  rw [get?, hnil]
  rfl

/-- **The first key is the least one held.** -/
theorem Counts.isLeast (h : m.Counts l) (hk : m.first? = some k) : IsLeast {x | x ∈ l} k := by
  obtain ⟨hsome, hle⟩ := first?_eq_some hk
  exact ⟨h.isSome_iff.1 hsome, fun j hj => hle j (h.isSome_iff.2 hj)⟩

theorem Counts.eq_nil (h : m.Counts l) (hk : m.first? = none) : l = [] := by
  refine List.eq_nil_iff_forall_not_mem.2 fun j hj => ?_
  have := h.isSome_iff.2 hj
  rw [first?_eq_none hk j] at this
  cases this

end SortedMap
end Heraclitus
