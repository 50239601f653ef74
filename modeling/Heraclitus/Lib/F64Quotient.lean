import Heraclitus.Lib.F64
/-!
# F64Quotient — the quotient of two integers as an `f64`

`n as f64 / d as f64` for `n ≤ d < 2 ^ 53`, where both casts are exact: the quotient to the nearest, and to the even one of two
nearest.
-/
namespace Heraclitus
namespace F64

/-- The quotient to the nearest integer, and to the even one of two nearest. -/
def roundDiv (n d : Nat) : Nat :=
  let q := n / d
  let r := n % d
  if d < 2 * r ∨ d = 2 * r ∧ q % 2 = 1 then q + 1 else q

/-- How far `n` is shifted up until it reaches `d`. -/
def scale (n d : Nat) : Nat :=
  let s := d.log2 - n.log2
  if d ≤ n * 2 ^ s then s else s + 1

/-- `n as f64 / d as f64`.  A mantissa rounded up to `2 ^ 53` carries into the exponent. -/
def quotient (n d : Nat) : F64 :=
  if n = 0 then ⟨0⟩ else ⟨UInt64.ofNat ((1022 - scale n d) * 2 ^ 52 + roundDiv (n * 2 ^ (52 + scale n d)) d)⟩

/-- `0.25`. -/
def quarter : F64 := ⟨0x3FD0000000000000⟩

end F64
end Heraclitus
