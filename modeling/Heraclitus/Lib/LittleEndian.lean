import Mathlib.Algebra.Ring.Nat
import Mathlib.Data.List.Basic
/-!
# LittleEndian — fixed-width integers as bytes

`leBytes w n` is `n` on `w` bytes, least significant first, as `to_le_bytes` writes it; what does not fit is dropped.
-/
namespace Heraclitus

def leBytes : Nat → Nat → List UInt8
  | 0, _ => []
  | w + 1, n => UInt8.ofNat n :: leBytes w (n / 256)

def leNat : List UInt8 → Nat
  | [] => 0
  | b :: bs => b.toNat + 256 * leNat bs

@[simp] theorem length_leBytes : ∀ w n : Nat, (leBytes w n).length = w
  | 0, _ => rfl
  | w + 1, n => by rw [leBytes, List.length_cons, length_leBytes w]

theorem leNat_leBytes : ∀ w n : Nat, leNat (leBytes w n) = n % 256 ^ w
  | 0, n => by rw [Nat.pow_zero, Nat.mod_one]; rfl
  | w + 1, n => by
    have hb : (UInt8.ofNat n).toNat = n % 256 := UInt8.toNat_ofNat'
    rw [leBytes, leNat, leNat_leBytes w, hb, Nat.pow_succ', Nat.mod_mul]

theorem leNat_leBytes_of_lt {w n : Nat} (h : n < 256 ^ w) : leNat (leBytes w n) = n := by
  rw [leNat_leBytes, Nat.mod_eq_of_lt h]

/-- The bytes of a number are got back from it. -/
theorem leBytes_leNat : ∀ bytes : List UInt8, leBytes bytes.length (leNat bytes) = bytes
  | [] => rfl
  | b :: bytes => by
    have hb := b.toNat_lt
    have hlow : UInt8.ofNat (b.toNat + 256 * leNat bytes) = b := by
      rw [← UInt8.toNat_inj, UInt8.toNat_ofNat']
      omega
    have hhigh : (b.toNat + 256 * leNat bytes) / 256 = leNat bytes := by omega
    rw [List.length_cons, leNat, leBytes, hlow, hhigh, leBytes_leNat bytes]

theorem leBytes_leNat_of_length {bytes : List UInt8} {w : Nat} (h : bytes.length = w) : leBytes w (leNat bytes) = bytes := by
  rw [← h, leBytes_leNat]

theorem leNat_append : ∀ a b : List UInt8, leNat (a ++ b) = leNat a + 256 ^ a.length * leNat b
  | [], b => by rw [List.nil_append, leNat, List.length_nil, Nat.pow_zero, Nat.one_mul, Nat.zero_add]
  | x :: a, b => by
    rw [List.cons_append, leNat, leNat_append a b, leNat, List.length_cons, Nat.pow_succ', Nat.mul_assoc, Nat.mul_add,
      Nat.add_assoc]

theorem leNat_lt : ∀ bytes : List UInt8, leNat bytes < 256 ^ bytes.length
  | [] => by decide
  | b :: bytes => by
    have hb := b.toNat_lt
    have hrest := leNat_lt bytes
    rw [leNat, List.length_cons, Nat.pow_succ']
    omega

theorem leNat_take_lt (bytes : List UInt8) (n : Nat) : leNat (bytes.take n) < 256 ^ n :=
  Nat.lt_of_lt_of_le (leNat_lt _) (Nat.pow_le_pow_right (by decide) (List.length_take_le n bytes))

end Heraclitus
