import Mathlib.Data.List.Infix
import Mathlib.Tactic.Tauto
/-!
# Separator — two words joined by a third

A join that is read in two ways has the separator in it twice.
-/
namespace Heraclitus

variable {α : Type} {s x y x' y' : List α}

/-- No proper end of the separator begins it. -/
def Unbordered (s : List α) : Prop := ∀ a b, a ≠ [] → b ≠ [] → s = a ++ b → ¬b <+: s

theorem unbordered_singleton (c : α) : Unbordered [c] := by
  intro a b ha hb h
  have hlen := congrArg List.length h
  rw [List.length_append, List.length_singleton] at hlen
  have := List.length_pos_iff.2 ha
  have := List.length_pos_iff.2 hb
  omega

theorem unbordered_pair {c d : α} (h : c ≠ d) : Unbordered [c, d] := by
  intro a b ha hb hab hpre
  match a, ha with
  | [c'], _ =>
    obtain ⟨rfl, rfl⟩ := List.cons.inj hab
    exact h (List.cons_prefix_cons.1 hpre).1.symm
  | c' :: d' :: a, _ =>
    have hlen := congrArg List.length hab
    have := List.length_pos_iff.2 hb
    simp only [List.length_cons, List.length_append, List.length_nil] at hlen
    omega

/-- The separator of the second reading stands behind that of the first. -/
theorem exists_of_append_separator (hs : Unbordered s) {a : List α} (ha : a ≠ []) (h : s ++ y = a ++ (s ++ y')) :
    ∃ z, a = s ++ z ∧ y = z ++ (s ++ y') := by
  rcases List.append_eq_append_iff.1 h with ⟨z, hz, hy⟩ | ⟨b, hb, hrest⟩
  · exact ⟨z, hz, hy⟩
  · cases b with
    | nil => exact ⟨[], by simpa using hb.symm, by simpa using hrest.symm⟩
    | cons c b =>
      refine absurd ?_ (hs a (c :: b) ha (List.cons_ne_nil c b) hb)
      rcases List.append_eq_append_iff.1 hrest with ⟨z, hz, -⟩ | ⟨z, hz, -⟩
      · have hlen := congrArg List.length hz
        have hlen' := congrArg List.length hb
        have := List.length_pos_iff.2 ha
        simp at hlen hlen'
        omega
      · exact ⟨z, hz.symm⟩

/-- **Two readings of a join** are the same, or one has the separator inside the part that the other ends with. -/
theorem append_separator_eq_iff (hs : Unbordered s) : x ++ (s ++ y) = x' ++ (s ++ y') ↔
    (x = x' ∧ y = y') ∨ (∃ z, x' = x ++ (s ++ z) ∧ y = z ++ (s ++ y')) ∨ ∃ z, x = x' ++ (s ++ z) ∧ y' = z ++ (s ++ y) := by
  constructor
  · intro h
    rcases List.append_eq_append_iff.1 h with ⟨a, rfl, ha⟩ | ⟨a, rfl, ha⟩
    · cases a with
      | nil => exact .inl ⟨by simp, List.append_cancel_left ha⟩
      | cons c a =>
        obtain ⟨z, hz, hy⟩ := exists_of_append_separator hs (List.cons_ne_nil c a) ha
        exact .inr (.inl ⟨z, by rw [hz], hy⟩)
    · cases a with
      | nil => exact .inl ⟨by simp, (List.append_cancel_left ha).symm⟩
      | cons c a =>
        obtain ⟨z, hz, hy⟩ := exists_of_append_separator hs (List.cons_ne_nil c a) ha
        exact .inr (.inr ⟨z, by rw [hz], hy⟩)
  · rintro (⟨rfl, rfl⟩ | ⟨z, rfl, rfl⟩ | ⟨z, rfl, rfl⟩)
    · rfl
    · simp only [List.append_assoc]
    · simp only [List.append_assoc]

end Heraclitus
