import Mathlib.Order.Lattice
/-!
# Extrema — the least and the greatest of a list, as a running `min` or `max`
-/
namespace Heraclitus

variable {β : Type} [LinearOrder β] {b : β}

theorem foldl_min_le : ∀ (l : List β) (m : β), l.foldl min m ≤ m ∧ ∀ x ∈ l, l.foldl min m ≤ x
  | [], m => ⟨le_refl m, fun x hx => absurd hx List.not_mem_nil⟩
  | x :: l, m => by
    obtain ⟨hle, hall⟩ := foldl_min_le l (min m x)
    rw [List.foldl_cons]
    refine ⟨le_trans hle (min_le_left m x), fun y hy => ?_⟩
    rcases List.mem_cons.1 hy with rfl | hy
    · exact le_trans hle (min_le_right m y)
    · exact hall y hy

theorem le_foldl_min : ∀ {l : List β} {m : β}, b ≤ m → (∀ x ∈ l, b ≤ x) → b ≤ l.foldl min m
  | [], _, h, _ => h
  | x :: l, m, h, hl => by
    rw [List.foldl_cons]
    exact le_foldl_min (le_min h (hl x List.mem_cons_self)) (fun y hy => hl y (List.mem_cons_of_mem x hy))

theorem le_foldl_max : ∀ (l : List β) (m : β), m ≤ l.foldl max m ∧ ∀ x ∈ l, x ≤ l.foldl max m
  | [], m => ⟨le_refl m, fun x hx => absurd hx List.not_mem_nil⟩
  | x :: l, m => by
    obtain ⟨hle, hall⟩ := le_foldl_max l (max m x)
    rw [List.foldl_cons]
    refine ⟨le_trans (le_max_left m x) hle, fun y hy => ?_⟩
    rcases List.mem_cons.1 hy with rfl | hy
    · exact le_trans (le_max_right m y) hle
    · exact hall y hy

theorem foldl_max_le : ∀ (l : List β) (m : β), m ≤ b → (∀ x ∈ l, x ≤ b) → l.foldl max m ≤ b
  | [], _, h, _ => h
  | x :: l, m, h, hl => by
    rw [List.foldl_cons]
    exact foldl_max_le l _ (max_le h (hl x List.mem_cons_self)) (fun y hy => hl y (List.mem_cons_of_mem x hy))

end Heraclitus
