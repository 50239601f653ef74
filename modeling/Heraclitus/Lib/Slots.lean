import Mathlib.Logic.Function.Basic
import Mathlib.Data.List.Nodup
/-!
# Slots — loops over independently keyed components

A table of slots, one per key, and a loop over components each of which reads and writes only the slot of its own key.
When the keys are distinct such a loop is one pointwise update, and a loop over inputs around it is, slot by slot, the
loop of that component alone.
-/
namespace Heraclitus

variable {κ ι α β : Type} [DecidableEq κ]

/-- Every component rewrites its own slot. -/
def sweep (key : ι → κ) (g : ι → β → β) (cs : List ι) (f : κ → β) : κ → β :=
  cs.foldl (fun f c => Function.update f (key c) (g c (f (key c)))) f

variable {key : ι → κ}

theorem sweep_of_notMem (g : ι → β → β) {k : κ} : ∀ (cs : List ι) (f : κ → β), k ∉ cs.map key →
    sweep key g cs f k = f k
  | [], _, _ => rfl
  | c :: cs, f, h => by
    rw [List.map_cons, List.mem_cons, not_or] at h
    have ih := sweep_of_notMem g cs (Function.update f (key c) (g c (f (key c)))) h.2
    rw [Function.update_of_ne h.1] at ih
    exact ih

theorem sweep_of_mem (g : ι → β → β) {c : ι} : ∀ (cs : List ι) (f : κ → β), (cs.map key).Nodup → c ∈ cs →
    sweep key g cs f (key c) = g c (f (key c))
  | d :: cs, f, hnd, hc => by
    rw [List.map_cons, List.nodup_cons] at hnd
    show sweep key g cs (Function.update f (key d) (g d (f (key d)))) (key c) = _
    rcases List.mem_cons.1 hc with rfl | hc
    · rw [sweep_of_notMem g cs _ hnd.1, Function.update_self]
    · have hne : key c ≠ key d := fun h => hnd.1 (h ▸ List.mem_map_of_mem hc)
      rw [sweep_of_mem g cs _ hnd.2 hc, Function.update_of_ne hne]

theorem sweep_eq_self {g : ι → β → β} (hg : ∀ c x, g c x = x) : ∀ (cs : List ι) (f : κ → β), sweep key g cs f = f
  | [], _ => rfl
  | c :: cs, f => by
    show sweep key g cs (Function.update f (key c) (g c (f (key c)))) = f
    rw [hg, Function.update_eq_self, sweep_eq_self hg cs]

/-- **A loop of sweeps is, at each component, the loop of that component.** -/
theorem foldl_sweep_of_mem (g : α → ι → β → β) {cs : List ι} (hnd : (cs.map key).Nodup) {c : ι} (hc : c ∈ cs) :
    ∀ (inputs : List α) (f : κ → β), inputs.foldl (fun f a => sweep key (g a) cs f) f (key c)
      = inputs.foldl (fun x a => g a c x) (f (key c))
  | [], _ => rfl
  | a :: inputs, f => by
    rw [List.foldl_cons, foldl_sweep_of_mem g hnd hc inputs, sweep_of_mem (g a) cs f hnd hc, List.foldl_cons]

end Heraclitus
