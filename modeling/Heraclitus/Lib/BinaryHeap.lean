import Mathlib.Data.List.Sort
/-!
# BinaryHeap — a priority queue by what its documentation promises

A heap holds a bag of items and gives back a greatest one first.  Which of several greatest items comes first, and in which order
the items stand inside, is left to the implementation.
-/
namespace Heraclitus

structure BinaryHeap (α : Type) (le : α → α → Prop) where
  Heap : Type
  empty : Heap
  push : α → Heap → Heap
  pop : Heap → Option (α × Heap)
  toVec : Heap → List α
  toVec_empty : toVec empty = []
  toVec_push (a : α) (h : Heap) : (toVec (push a h)).Perm (a :: toVec h)
  pop_none (h : Heap) : pop h = none → toVec h = []
  pop_some (h : Heap) (a : α) (h' : Heap) : pop h = some (a, h') → (toVec h).Perm (a :: toVec h')
  pop_greatest (h : Heap) (a : α) (h' : Heap) : pop h = some (a, h') → ∀ b ∈ toVec h', le b a

namespace BinaryHeap

variable {α : Type} {le : α → α → Prop} (Q : BinaryHeap α le)

def len (h : Q.Heap) : Nat := (Q.toVec h).length

def peek (h : Q.Heap) : Option α := (Q.pop h).map (·.1)

/-- The greatest item leaves, if there is one. -/
def drop (h : Q.Heap) : Q.Heap := ((Q.pop h).map (·.2)).getD h

variable {Q} {h h' : Q.Heap} {a b : α}

@[simp] theorem len_empty : Q.len Q.empty = 0 := by rw [len, Q.toVec_empty, List.length_nil]

@[simp] theorem mem_push : b ∈ Q.toVec (Q.push a h) ↔ b = a ∨ b ∈ Q.toVec h := by
  rw [(Q.toVec_push a h).mem_iff, List.mem_cons]

@[simp] theorem len_push : Q.len (Q.push a h) = Q.len h + 1 := by
  rw [len, (Q.toVec_push a h).length_eq, List.length_cons, len]

theorem mem_of_pop (hpop : Q.pop h = some (a, h')) : b ∈ Q.toVec h ↔ b = a ∨ b ∈ Q.toVec h' := by
  rw [(Q.pop_some h a h' hpop).mem_iff, List.mem_cons]

theorem len_of_pop (hpop : Q.pop h = some (a, h')) : Q.len h = Q.len h' + 1 := by
  rw [len, (Q.pop_some h a h' hpop).length_eq, List.length_cons, len]

/-- What is left after a drop was there before. -/
theorem toVec_drop_subperm : (Q.toVec (Q.drop h)).Subperm (Q.toVec h) := by
  unfold drop
  cases hpop : Q.pop h with
  | none => exact .refl _
  | some x => exact (List.sublist_cons_self x.1 _).subperm.trans (Q.pop_some h x.1 x.2 hpop).symm.subperm

theorem len_drop : Q.len h ≤ Q.len (Q.drop h) + 1 := by
  unfold drop
  cases hpop : Q.pop h with
  | none => exact Nat.le_succ _
  | some x => exact Nat.le_of_eq (len_of_pop hpop)

/-- The heap that keeps its items in order. -/
def sorted [DecidableRel le] [Std.Total le] [IsTrans α le] : BinaryHeap α le where
  Heap := { l : List α // l.Pairwise (fun a b => le b a) }
  empty := ⟨[], .nil⟩
  push a h := ⟨h.1.orderedInsert (fun a b => le b a) a, by
    have : Std.Total (fun a b => le b a) := ⟨fun a b => (Std.Total.total (r := le) b a)⟩
    have : IsTrans α (fun a b => le b a) := ⟨fun _ _ _ h h' => IsTrans.trans _ _ _ h' h⟩
    exact h.2.orderedInsert a h.1⟩
  pop h :=
    match h with
    | ⟨[], _⟩ => none
    | ⟨a :: l, hl⟩ => some (a, ⟨l, hl.of_cons⟩)
  toVec h := h.1
  toVec_empty := rfl
  toVec_push a h := List.perm_orderedInsert _ a h.1
  pop_none h hpop := by
    match h, hpop with
    | ⟨[], _⟩, _ => rfl
  pop_some h a h' hpop := by
    match h, hpop with
    | ⟨_ :: _, _⟩, rfl => exact .refl _
  pop_greatest h a h' hpop := by
    match h, hpop with
    | ⟨_ :: _, hl⟩, rfl => exact fun b hb => List.rel_of_pairwise_cons hl hb

end BinaryHeap
end Heraclitus
