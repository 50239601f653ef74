import Mathlib.Algebra.Ring.Nat
import Mathlib.Data.List.Basic
/-!
# Checked — machine arithmetic as a debug build does it

A computation stops at a fault, returns early with `None`, or gives a value.  Numbers are `u64` or a `usize` of 64 bits; what
leads out of the type is a fault, as is an index outside, a shift by the whole width or an assertion that does not hold.
`x.Gives o` says that there is no fault on the way to `o`.
-/
namespace Heraclitus

inductive Fault where
  | overflow
  | outOfBounds
  | assertion
  | capacity
  deriving DecidableEq

def Checked (α : Type) : Type := Except Fault (Option α)

namespace Checked

variable {α β : Type}

def bind (x : Checked α) (f : α → Checked β) : Checked β :=
  match x with
  | .error e => .error e
  | .ok none => .ok none
  | .ok (some a) => f a

instance : Monad Checked where
  pure a := .ok (some a)
  bind := bind

def fault (e : Fault) : Checked α := .error e

/-- `?`, on an `Option`. -/
def ofOption (o : Option α) : Checked α := .ok o

/-- `return None`. -/
def refuse : Checked α := .ok none

/-! ## Operations -/

def add (a b : Nat) : Checked Nat := if a + b < 2 ^ 64 then pure (a + b) else fault .overflow

def sub (a b : Nat) : Checked Nat := if b ≤ a then pure (a - b) else fault .overflow

def shl (a k : Nat) : Checked Nat := if k < 64 then pure (a <<< k % 2 ^ 64) else fault .overflow

def shr (a k : Nat) : Checked Nat := if k < 64 then pure (a >>> k) else fault .overflow

def index (l : List α) (i : Nat) : Checked α :=
  match l[i]? with
  | some a => pure a
  | none => fault .outOfBounds

/-- `l[..n]`. -/
def sliceTo (l : List α) (n : Nat) : Checked (List α) := if n ≤ l.length then pure (l.take n) else fault .outOfBounds

def assert (p : Prop) [Decidable p] : Checked Unit := if p then pure () else fault .assertion

/-- `Vec::with_capacity`, of `count` elements that take `size` bytes each. -/
def withCapacity (count size : Nat) : Checked Unit := if count * size < 2 ^ 63 then pure () else fault .capacity

/-- `sum`, from `acc` on. -/
def sumFrom (acc : Nat) : List Nat → Checked Nat
  | [] => pure acc
  | n :: l => do
    let acc ← add acc n
    sumFrom acc l

def checkedAdd (a b : Nat) : Option Nat := if a + b < 2 ^ 64 then some (a + b) else none

def checkedSub (a b : Nat) : Option Nat := if b ≤ a then some (a - b) else none

def checkedMul (a b : Nat) : Option Nat := if a * b < 2 ^ 64 then some (a * b) else none

/-- `get(i..j)`. -/
def getRange (l : List α) (i j : Nat) : Option (List α) :=
  if i ≤ j ∧ j ≤ l.length then some ((l.drop i).take (j - i)) else none

/-! ## No fault -/

/-- The computation gets to `o` without a fault. -/
def Gives (x : Checked α) (o : Option α) : Prop := x = .ok o

theorem gives_pure (a : α) : (pure a : Checked α).Gives (some a) := rfl

theorem gives_ofOption (o : Option α) : (ofOption o).Gives o := rfl

theorem gives_refuse : (refuse : Checked α).Gives none := rfl

/-- **Sequence.** -/
theorem Gives.bind {x : Checked α} {f : α → Checked β} {o : Option α} {g : α → Option β} (h : x.Gives o)
    (hf : ∀ a, o = some a → (f a).Gives (g a)) : (x >>= f).Gives (o.bind g) := by
  obtain rfl : x = .ok o := h
  cases o with
  | none => rfl
  | some a => exact hf a rfl

theorem Gives.bind_eq {x : Checked α} {f : α → Checked β} {a : α} (h : x.Gives (some a)) : (x >>= f) = f a := by
  obtain rfl : x = .ok (some a) := h
  rfl

/-- Sequence, behind a part that gives a value. -/
theorem Gives.seq {x : Checked α} {f : α → Checked β} {a : α} {o : Option β} (h : x.Gives (some a)) (hf : (f a).Gives o) :
    (x >>= f).Gives o := h.bind_eq ▸ hf

theorem fault_bind (e : Fault) (f : α → Checked β) : (fault e >>= f) = fault e := rfl

variable {a b k n i size : Nat} {l : List α}

theorem gives_add (h : a + b < 2 ^ 64) : (add a b).Gives (some (a + b)) := if_pos h

theorem gives_sub (h : b ≤ a) : (sub a b).Gives (some (a - b)) := if_pos h

theorem gives_shl (h : k < 64) : (shl a k).Gives (some (a <<< k % 2 ^ 64)) := if_pos h

theorem gives_shr (h : k < 64) : (shr a k).Gives (some (a >>> k)) := if_pos h

theorem gives_index {x : α} (h : l[i]? = some x) : (index l i).Gives (some x) := by
  unfold index
  rw [h]
  rfl

theorem gives_sliceTo (h : n ≤ l.length) : (sliceTo l n).Gives (some (l.take n)) := if_pos h

theorem gives_assert {p : Prop} [Decidable p] (h : p) : (assert p).Gives (some ()) := if_pos h

theorem gives_withCapacity (h : n * size < 2 ^ 63) : (withCapacity n size).Gives (some ()) := if_pos h

theorem gives_sumFrom : ∀ (l : List Nat) (acc : Nat), acc + l.sum < 2 ^ 64 → (sumFrom acc l).Gives (some (acc + l.sum))
  | [], acc, _ => gives_pure acc
  | n :: l, acc, h => by
    rw [List.sum_cons, ← Nat.add_assoc] at h
    refine (gives_add (Nat.lt_of_le_of_lt (Nat.le_add_right _ _) h)).seq ?_
    rw [List.sum_cons, ← Nat.add_assoc]
    exact gives_sumFrom l _ h

end Checked
end Heraclitus
