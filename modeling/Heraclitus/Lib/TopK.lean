import Mathlib.Data.List.Sort
/-!
# TopK — the best `k` of a list, and what may be left out without changing them

A search that stops early has to show one thing of what it left out: that `k` of the items it kept come before it.
-/
namespace Heraclitus

variable {α β : Type} {le : α → α → Bool}

/-- `sort_by` and `truncate(k)`. -/
def best (le : α → α → Bool) (k : Nat) (l : List α) : List α := (l.mergeSort le).take k

/-- A comparison that tells any two different items apart. -/
structure Compares (le : α → α → Bool) : Prop where
  trans : ∀ a b c, le a b = true → le b c = true → le a c = true
  total : ∀ a b, (le a b || le b a) = true
  antisymm : ∀ a b, le a b = true → le b a = true → a = b

theorem Compares.sorted (h : Compares le) (l : List α) : (l.mergeSort le).Pairwise (fun a b => le a b = true) :=
  List.pairwise_mergeSort h.trans h.total l

theorem Compares.eq_of_perm (h : Compares le) {l m : List α} (hl : l.Pairwise (fun a b => le a b = true))
    (hm : m.Pairwise (fun a b => le a b = true)) (hp : l.Perm m) : l = m :=
  hp.eq_of_pairwise (fun a b _ _ => h.antisymm a b) hl hm

theorem mem_of_mem_best {k : Nat} {l : List α} {x : α} (h : x ∈ best le k l) : x ∈ l :=
  List.mem_mergeSort.1 (List.mem_of_mem_take h)

/-- The order in which the items arrive does not matter. -/
theorem best_perm (h : Compares le) {l m : List α} (hp : l.Perm m) (k : Nat) : best le k l = best le k m := by
  have heq : l.mergeSort le = m.mergeSort le := by
    refine h.eq_of_perm (h.sorted l) (h.sorted m) ?_
    exact ((List.mergeSort_perm l le).trans hp).trans (List.mergeSort_perm m le).symm
  rw [best, best, heq]

theorem map_best {le' : β → β → Bool} {f : α → β} {l : List α} (h : ∀ a ∈ l, ∀ b ∈ l, le a b = le' (f a) (f b))
    (k : Nat) : (best le k l).map f = best le' k (l.map f) := by
  rw [best, best, List.map_take, List.map_mergeSort h]

theorem Compares.filter_mergeSort (h : Compares le) (p : α → Bool) (l : List α) :
    (l.mergeSort le).filter p = (l.filter p).mergeSort le := by
  refine h.eq_of_perm ((h.sorted l).filter p) (h.sorted _) ?_
  exact ((List.mergeSort_perm l le).filter p).trans (List.mergeSort_perm _ le).symm

theorem take_filter_of_forall_take {p : α → Bool} : ∀ {k : Nat} {l : List α}, (∀ x ∈ l.take k, p x = true) →
    (l.filter p).take k = l.take k
  | 0, l, _ => by rw [List.take_zero, List.take_zero]
  | _ + 1, [], _ => rfl
  | k + 1, a :: l, h => by
    rw [List.take_succ_cons, List.forall_mem_cons] at h
    rw [List.filter_cons_of_pos h.1, List.take_succ_cons, List.take_succ_cons, take_filter_of_forall_take h.2]

/-- **Early termination**: items that come after `k` others are left out without changing the best `k`. -/
theorem best_filter (h : Compares le) {p : α → Bool} {k : Nat} {l : List α} (top : List α) (hnodup : top.Nodup)
    (hsub : top ⊆ l) (hk : k ≤ top.length) (hbeats : ∀ x ∈ top, ∀ y ∈ l, p y = false → ¬ le y x = true) :
    best le k (l.filter p) = best le k l := by
  have hkept : ∀ x ∈ (l.mergeSort le).take k, p x = true := by
    intro y hy
    obtain ⟨i, hi, hget⟩ := List.mem_take_iff_getElem.1 hy
    rw [Nat.lt_min] at hi
    by_contra hp
    have hyl : y ∈ l := List.mem_mergeSort.1 (List.mem_of_mem_take hy)
    -- every item of `top` is among the first `i` of the sorted list, where there is no room for `k`
    have hbefore : top ⊆ (l.mergeSort le).take i := by
      intro x hx
      have hxl : x ∈ l.mergeSort le := List.mem_mergeSort.2 (hsub hx)
      rw [← List.take_append_drop i (l.mergeSort le), List.mem_append] at hxl
      refine hxl.resolve_right (fun hdrop => ?_)
      refine hbeats x hx y hyl (Bool.eq_false_iff.2 hp) ?_
      rw [List.drop_eq_getElem_cons hi.2, List.mem_cons, hget] at hdrop
      have hsorted := (h.sorted l).sublist (List.drop_sublist i _)
      rw [List.drop_eq_getElem_cons hi.2, hget, List.pairwise_cons] at hsorted
      rcases hdrop with rfl | hdrop
      · exact Bool.or_self (le x x) ▸ h.total x x
      · exact hsorted.1 x hdrop
    have hroom := (List.subperm_of_subset hnodup hbefore).length_le
    rw [List.length_take] at hroom
    omega
  rw [best, best, ← h.filter_mergeSort, take_filter_of_forall_take hkept]

end Heraclitus
