import Heraclitus.Core
/-!
# Hlc — the hybrid logical clock (`heraclitus-core/src/hlc.rs`)

Physical milliseconds in the high 48 bits, a counter in the low 16.  The wall clock is read from outside; the clock itself
is the last timestamp it gave or observed.
-/
namespace Heraclitus

structure Hlc where
  last : Nat
  deriving DecidableEq

/-- A clock that gave nothing yet. -/
def Hlc.new : Hlc := ⟨0⟩

/-- `physical_now() << 16`, in a `u64`. -/
def physicalNow (ms : Nat) : Nat := ms * 2 ^ 16 % 2 ^ 64

def Hlc.now (hlc : Hlc) (ms : Nat) : Nat × Hlc :=
  let phys := physicalNow ms
  let next := if hlc.last < phys then phys else satAdd64 hlc.last 1
  (next, ⟨next⟩)

def Hlc.observe (hlc : Hlc) (remote : Nat) : Hlc := ⟨max hlc.last remote⟩

namespace Hlc

variable {hlc : Hlc}

@[simp] theorem observe_last (hlc : Hlc) (remote : Nat) : (hlc.observe remote).last = max hlc.last remote := rfl

/-- **The clock never steps back**, as long as it is a `u64`. -/
theorem le_now (h : hlc.last ≤ u64Max) (ms : Nat) : hlc.last ≤ (hlc.now ms).1 := by
  unfold now satAdd64
  dsimp only
  split
  · omega
  · omega

theorem now_le (hlc : Hlc) (ms : Nat) : (hlc.now ms).1 ≤ u64Max := by
  have : physicalNow ms < 2 ^ 64 := Nat.mod_lt _ (by decide)
  unfold now satAdd64
  dsimp only
  unfold u64Max
  split
  · omega
  · omega

/-- **A timestamp is greater than every earlier one**, unless the counter is saturated. -/
theorem lt_now {ms : Nat} (h : (hlc.now ms).1 < u64Max) : hlc.last < (hlc.now ms).1 := by
  unfold now satAdd64 at *
  dsimp only at *
  split
  · omega
  · rename_i hle
    rw [if_neg hle] at h
    omega

/-- **A clock that observed a list** is not behind any member, and no further than the greatest. -/
theorem le_foldl_observe : ∀ (l : List Nat) (hlc : Hlc), hlc.last ≤ (l.foldl observe hlc).last ∧
    (∀ t ∈ l, t ≤ (l.foldl observe hlc).last)
  | [], hlc => ⟨Nat.le_refl _, nofun⟩
  | t :: l, hlc => by
    obtain ⟨hle, hall⟩ := le_foldl_observe l (hlc.observe t)
    rw [observe_last] at hle
    rw [List.foldl_cons]
    refine ⟨by omega, fun x hx => ?_⟩
    rcases List.mem_cons.1 hx with rfl | hx
    · omega
    · exact hall x hx

theorem foldl_observe_le {b : Nat} : ∀ (l : List Nat) (hlc : Hlc), hlc.last ≤ b → (∀ t ∈ l, t ≤ b) →
    (l.foldl observe hlc).last ≤ b
  | [], _, h, _ => h
  | t :: l, hlc, h, hl => by
    rw [List.foldl_cons]
    refine foldl_observe_le l _ ?_ (fun x hx => hl x (List.mem_cons_of_mem _ hx))
    have := hl t List.mem_cons_self
    rw [observe_last]
    omega

end Hlc

end Heraclitus
