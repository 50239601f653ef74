import Mathlib.Algebra.Ring.Nat
import Mathlib.Data.Nat.Log
import Mathlib.Tactic.Ring
/-!
# F64 — the `f64` of the source, by its bits

Comparison of two numbers, and the casts from and to `u64`.  A number that is no NaN is ordered by its magnitude bits under
its sign; the two zeros are equal.
-/
namespace Heraclitus

structure F64 where
  bits : UInt64
  deriving DecidableEq

namespace F64

/-- The bits without the sign. -/
def magnitude (x : F64) : Nat := x.bits.toNat % 2 ^ 63

def negative (x : F64) : Bool := decide (2 ^ 63 ≤ x.bits.toNat)

/-- The magnitude of the infinities; above it are the NaNs. -/
def infMagnitude : Nat := 2047 * 2 ^ 52

def isNan (x : F64) : Bool := decide (infMagnitude < x.magnitude)

def isFinite (x : F64) : Bool := decide (x.magnitude < infMagnitude)

/-- The place of a number in the order of all numbers. -/
def place (x : F64) : Int := if x.negative then -(x.magnitude : Int) else x.magnitude

/-- `f64::partial_cmp`. -/
def partialCmp (x y : F64) : Option Ordering :=
  if x.isNan || y.isNan then none
  else some (if x.place < y.place then .lt else if x.place = y.place then .eq else .gt)

/-- `x < y`. -/
def lt (x y : F64) : Bool := x.partialCmp y == some .lt

/-- `x <= y`. -/
def le (x y : F64) : Bool := x.lt y || x.partialCmp y == some .eq

/-- The quotient by `2 ^ s`, to the nearest, and to the even one of two nearest. -/
def roundShift (n s : Nat) : Nat :=
  let q := n / 2 ^ s
  let r := n % 2 ^ s
  if 2 ^ (s - 1) < r ∨ r = 2 ^ (s - 1) ∧ q % 2 = 1 then q + 1 else q

/-- `n as f64` for a `u64`.  A mantissa rounded up to `2 ^ 53` carries into the exponent. -/
def ofU64 (n : Nat) : F64 :=
  if n = 0 then ⟨0⟩
  else
    let e := n.log2
    let mantissa := if e ≤ 52 then n * 2 ^ (52 - e) else roundShift n (e - 52)
    ⟨UInt64.ofNat ((e + 1022) * 2 ^ 52 + mantissa)⟩

/-- The integer part of a mantissa under the exponent `k`. -/
def integerPart (k mantissa : Nat) : Nat :=
  if k ≤ 52 then mantissa / 2 ^ (52 - k) else mantissa * 2 ^ (k - 52)

/-- `x as u64`: towards zero, saturating; a NaN is 0. -/
def toU64 (x : F64) : Nat :=
  if x.isNan || x.negative then 0
  else
    let e := x.magnitude / 2 ^ 52
    if e < 1023 then 0 else min (2 ^ 64 - 1) (integerPart (e - 1023) (2 ^ 52 + x.magnitude % 2 ^ 52))

theorem place_of_lt {x : F64} (h : x.bits.toNat < 2 ^ 63) : x.place = x.bits.toNat := by
  unfold place negative magnitude
  rw [decide_eq_false (Nat.not_le.2 h), Nat.mod_eq_of_lt h]
  rfl

theorem place_of_le {x : F64} (h : 2 ^ 63 ≤ x.bits.toNat) : x.place = 2 ^ 63 - x.bits.toNat := by
  have hbits : x.bits.toNat < 2 ^ 64 := x.bits.toNat_lt
  unfold place negative magnitude
  rw [decide_eq_true h, if_pos rfl]
  omega

/-! ## Casts of integers -/

/-- The mantissa of `n as f64`, before a carry. -/
def significand (n : Nat) : Nat := if n.log2 ≤ 52 then n * 2 ^ (52 - n.log2) else roundShift n (n.log2 - 52)

theorem roundShift_bounds (n s : Nat) : n / 2 ^ s ≤ roundShift n s ∧ roundShift n s ≤ n / 2 ^ s + 1 := by
  unfold roundShift
  dsimp only
  split <;> omega

theorem roundShift_mono {n n' : Nat} (s : Nat) (h : n ≤ n') : roundShift n s ≤ roundShift n' s := by
  have hq : n / 2 ^ s ≤ n' / 2 ^ s := Nat.div_le_div_right h
  obtain ⟨-, hup⟩ := roundShift_bounds n s
  obtain ⟨hlow, -⟩ := roundShift_bounds n' s
  by_cases heq : n / 2 ^ s = n' / 2 ^ s
  · have hr : n % 2 ^ s ≤ n' % 2 ^ s := by
      have h₁ := Nat.div_add_mod n (2 ^ s)
      have h₂ := Nat.div_add_mod n' (2 ^ s)
      rw [heq] at h₁
      omega
    unfold roundShift
    dsimp only
    rw [heq]
    split
    · rename_i hc
      rw [if_pos (by omega)]
    · split <;> omega
  · omega

/-- A multiple of the power is shifted without rounding. -/
theorem roundShift_mul (q s : Nat) : roundShift (q * 2 ^ s) s = q := by
  unfold roundShift
  dsimp only
  rw [Nat.mul_div_cancel _ (Nat.two_pow_pos s), Nat.mul_mod_left]
  have hpos := Nat.two_pow_pos (s - 1)
  rw [if_neg (by omega)]

theorem significand_bounds {n : Nat} (h0 : n ≠ 0) : 2 ^ 52 ≤ significand n ∧ significand n ≤ 2 ^ 53 := by
  have hlow : 2 ^ n.log2 ≤ n := Nat.log2_self_le h0
  have hhigh : n < 2 ^ (n.log2 + 1) := Nat.lt_log2_self
  unfold significand
  split
  · rename_i he
    have hpow : 2 ^ n.log2 * 2 ^ (52 - n.log2) = 2 ^ 52 := by
      rw [← Nat.pow_add]
      congr 1
      omega
    have h₁ := Nat.mul_le_mul_right (2 ^ (52 - n.log2)) hlow
    have h₂ := Nat.mul_le_mul_right (2 ^ (52 - n.log2)) (Nat.le_of_lt hhigh)
    rw [Nat.pow_succ, Nat.mul_right_comm, hpow] at h₂
    omega
  · rename_i he
    have hpow : 2 ^ 52 * 2 ^ (n.log2 - 52) = 2 ^ n.log2 := by
      rw [← Nat.pow_add]
      congr 1
      omega
    obtain ⟨hl, hu⟩ := roundShift_bounds n (n.log2 - 52)
    have h₁ : 2 ^ 52 ≤ n / 2 ^ (n.log2 - 52) := (Nat.le_div_iff_mul_le (Nat.two_pow_pos _)).2 (by omega)
    have h₂ : n / 2 ^ (n.log2 - 52) < 2 ^ 53 := (Nat.div_lt_iff_lt_mul (Nat.two_pow_pos _)).2 (by omega)
    omega

theorem bits_eq_significand {n : Nat} (h0 : n ≠ 0) (hn : n < 2 ^ 64) :
    (ofU64 n).bits.toNat = (n.log2 + 1022) * 2 ^ 52 + significand n := by
  obtain ⟨-, hle⟩ := significand_bounds h0
  have he : n.log2 < 64 := (Nat.log2_lt h0).2 hn
  unfold ofU64
  rw [if_neg h0]
  exact UInt64.toNat_ofNat_of_lt' (by show _ < 2 ^ 64; unfold significand at hle; omega)

theorem place_ofU64 {n : Nat} (hn : n < 2 ^ 64) : (ofU64 n).place = (ofU64 n).bits.toNat ∧
    (ofU64 n).isNan = false ∧ (ofU64 n).negative = false ∧ (ofU64 n).magnitude = (ofU64 n).bits.toNat := by
  have hlt : (ofU64 n).bits.toNat < 1088 * 2 ^ 52 := by
    by_cases h0 : n = 0
    · subst h0
      decide
    · obtain ⟨-, hle⟩ := significand_bounds h0
      have he : n.log2 < 64 := (Nat.log2_lt h0).2 hn
      rw [bits_eq_significand h0 hn]
      omega
  have hmod : (ofU64 n).magnitude = (ofU64 n).bits.toNat := Nat.mod_eq_of_lt (by omega)
  refine ⟨place_of_lt (by omega), ?_, decide_eq_false (by omega), hmod⟩
  exact decide_eq_false (by rw [hmod, infMagnitude]; omega)

/-- **The cast of integers keeps their order.** -/
theorem place_ofU64_mono {a b : Nat} (h : a ≤ b) (hb : b < 2 ^ 64) : (ofU64 a).place ≤ (ofU64 b).place := by
  rw [(place_ofU64 (by omega)).1, (place_ofU64 hb).1]
  by_cases h0 : a = 0
  · subst h0
    exact Int.natCast_nonneg _
  · have hb0 : b ≠ 0 := by omega
    obtain ⟨-, ha₂⟩ := significand_bounds h0
    obtain ⟨hb₁, -⟩ := significand_bounds hb0
    rw [bits_eq_significand h0 (by omega), bits_eq_significand hb0 hb]
    have hlog : a.log2 ≤ b.log2 := by
      refine Nat.le_of_lt_succ ((Nat.pow_lt_pow_iff_right (by decide : 1 < 2)).1 ?_)
      exact Nat.lt_of_le_of_lt (Nat.le_trans (Nat.log2_self_le h0) h) Nat.lt_log2_self
    by_cases heq : a.log2 = b.log2
    · have hsig : significand a ≤ significand b := by
        unfold significand
        rw [heq]
        split
        · exact Nat.mul_le_mul_right _ h
        · exact roundShift_mono _ h
      rw [heq]
      omega
    · omega

/-! ## Casts of integers that a mantissa holds -/

/-- The exponent and the mantissa of `n as f64`, up to `2 ^ 53`. -/
theorem bits_ofU64 {n : Nat} (h0 : n ≠ 0) (hn : n ≤ 2 ^ 53) :
    ∃ m, (ofU64 n).bits.toNat = (n.log2 + 1022) * 2 ^ 52 + m ∧ 2 ^ 52 ≤ m ∧ m < 2 ^ 53 ∧ m * 2 ^ n.log2 = n * 2 ^ 52 := by
  have hlow : 2 ^ n.log2 ≤ n := Nat.log2_self_le h0
  have hhigh : n < 2 ^ (n.log2 + 1) := Nat.lt_log2_self
  have he : n.log2 ≤ 53 := (Nat.pow_le_pow_iff_right (by decide)).1 (Nat.le_trans hlow hn)
  have hbits : ∀ m, m < 2 ^ 53 → (UInt64.ofNat ((n.log2 + 1022) * 2 ^ 52 + m)).toNat = (n.log2 + 1022) * 2 ^ 52 + m :=
    fun m hm => UInt64.toNat_ofNat_of_lt' (by show _ < 2 ^ 64; omega)
  unfold ofU64
  rw [if_neg h0]
  dsimp only
  by_cases hle : n.log2 ≤ 52
  · rw [if_pos hle]
    have hpow : 2 ^ n.log2 * 2 ^ (52 - n.log2) = 2 ^ 52 := by
      rw [← Nat.pow_add]
      congr 1
      omega
    have hm₁ : 2 ^ 52 ≤ n * 2 ^ (52 - n.log2) := hpow ▸ Nat.mul_le_mul_right _ hlow
    have hm₂ : n * 2 ^ (52 - n.log2) < 2 ^ 53 := by
      have := Nat.mul_lt_mul_of_pos_right hhigh (Nat.two_pow_pos (52 - n.log2))
      rw [Nat.pow_succ, Nat.mul_right_comm, hpow] at this
      omega
    refine ⟨_, hbits _ hm₂, hm₁, hm₂, ?_⟩
    rw [Nat.mul_assoc, Nat.mul_comm (2 ^ (52 - n.log2)), hpow]
  · have he' : n.log2 = 53 := by omega
    rw [he'] at hlow
    have hn' : n = 2 ^ 53 := Nat.le_antisymm hn hlow
    rw [if_neg hle]
    subst hn'
    exact ⟨2 ^ 52, by decide, Nat.le_refl _, by decide, by decide⟩

theorem integerPart_bounds (k mantissa : Nat) (hlow : 2 ^ 52 ≤ mantissa) (hhigh : mantissa < 2 ^ 53) :
    2 ^ k ≤ integerPart k mantissa ∧ integerPart k mantissa < 2 ^ (k + 1) := by
  unfold integerPart
  split
  · rename_i hk
    have hpow : 2 ^ k * 2 ^ (52 - k) = 2 ^ 52 := by
      rw [← Nat.pow_add]
      congr 1
      omega
    rw [Nat.le_div_iff_mul_le (Nat.two_pow_pos _), Nat.div_lt_iff_lt_mul (Nat.two_pow_pos _), Nat.pow_succ,
      Nat.mul_right_comm, hpow]
    omega
  · rename_i hk
    have hpow : 2 ^ k = 2 ^ 52 * 2 ^ (k - 52) := by
      rw [← Nat.pow_add]
      congr 1
      omega
    rw [Nat.pow_succ, hpow, Nat.mul_right_comm]
    exact ⟨Nat.mul_le_mul_right _ hlow, Nat.mul_lt_mul_of_pos_right hhigh (Nat.two_pow_pos _)⟩

theorem le_integerPart_iff {n k m : Nat} (mantissa : Nat) (hlow : 2 ^ 52 ≤ mantissa) (hm : m * 2 ^ k = n * 2 ^ 52)
    (hn : n ≤ 2 ^ 53) (hle : 2 ^ 52 ≤ m) : n ≤ integerPart k mantissa ↔ m ≤ mantissa := by
  unfold integerPart
  split
  · rename_i hk52
    have hpow : 2 ^ 52 = 2 ^ (52 - k) * 2 ^ k := by
      rw [← Nat.pow_add]
      congr 1
      omega
    rw [hpow, ← Nat.mul_assoc] at hm
    rw [Nat.le_div_iff_mul_le (Nat.two_pow_pos _), Nat.eq_of_mul_eq_mul_right (Nat.two_pow_pos k) hm]
  · rename_i hk52
    have hpow : 2 ^ 53 ≤ 2 ^ k := Nat.pow_le_pow_right (by decide) (by omega)
    have h1 : m * 2 ^ 53 ≤ n * 2 ^ 52 := by
      rw [← hm]
      exact Nat.mul_le_mul_left m hpow
    have hm' : m = 2 ^ 52 := by omega
    have h2 : 2 ≤ 2 ^ (k - 52) := Nat.le_self_pow (by omega) 2
    have h3 : mantissa * 2 ≤ mantissa * 2 ^ (k - 52) := Nat.mul_le_mul_left mantissa h2
    constructor
    · intro _
      omega
    · intro _
      omega

/-- **An integer up to `2 ^ 53` is at most a number exactly when it is at most its truncation.** -/
theorem le_toU64_iff {n : Nat} (hn : n ≤ 2 ^ 53) {x : F64} (hnan : x.isNan = false) (hpos : x.negative = false) :
    n ≤ x.toU64 ↔ (ofU64 n).bits.toNat ≤ x.magnitude := by
  by_cases h0 : n = 0
  · subst h0
    simp [ofU64]
  · obtain ⟨m, hbits, hm₁, hm₂, hm⟩ := bits_ofU64 h0 hn
    have hlow : 2 ^ n.log2 ≤ n := Nat.log2_self_le h0
    have hhigh : n < 2 ^ (n.log2 + 1) := Nat.lt_log2_self
    have hsplit := Nat.div_add_mod x.magnitude (2 ^ 52)
    have hfrac := Nat.mod_lt x.magnitude (Nat.two_pow_pos 52)
    have htrunc : x.toU64 = if x.magnitude / 2 ^ 52 < 1023 then 0 else
        min (2 ^ 64 - 1) (integerPart (x.magnitude / 2 ^ 52 - 1023) (2 ^ 52 + x.magnitude % 2 ^ 52)) := by
      rw [toU64, hnan, hpos]
      rfl
    rw [hbits, htrunc]
    generalize x.magnitude / 2 ^ 52 = e at *
    generalize x.magnitude % 2 ^ 52 = f at *
    by_cases he : e < 1023
    · rw [if_pos he]
      omega
    · obtain ⟨hl, hu⟩ := integerPart_bounds (e - 1023) (2 ^ 52 + f) (by omega) (by omega)
      rw [if_neg he, Nat.le_min]
      have hsmall : n ≤ 2 ^ 64 - 1 := by omega
      rcases Nat.lt_trichotomy (n.log2 + 1023) e with hlt | heq | hgt
      · have : 2 ^ (n.log2 + 1) ≤ 2 ^ (e - 1023) := Nat.pow_le_pow_right (by decide) (by omega)
        refine ⟨fun _ => by omega, fun _ => ⟨hsmall, by omega⟩⟩
      · have hk : n.log2 = e - 1023 := by omega
        have hiff := le_integerPart_iff (2 ^ 52 + f) (by omega) (hk ▸ hm) hn hm₁
        rw [hiff]
        omega
      · have : 2 ^ (e - 1023 + 1) ≤ 2 ^ n.log2 := Nat.pow_le_pow_right (by decide) (by omega)
        refine ⟨fun h => by omega, fun h => by omega⟩

/-! ## Casts there and back -/

/-- The truncation of the number at a place. -/
def truncate (place : Nat) : Nat :=
  if place / 2 ^ 52 < 1023 then 0
  else min (2 ^ 64 - 1) (integerPart (place / 2 ^ 52 - 1023) (2 ^ 52 + place % 2 ^ 52))

section

variable {x : F64}

/-- A number is truncated by its place. -/
theorem toU64_eq_truncate (hnan : x.isNan = false) : x.toU64 = truncate x.place.toNat := by
  unfold toU64 place
  rw [hnan, Bool.false_or]
  cases x.negative with
  | true =>
    have hzero : (-(x.magnitude : Int)).toNat = 0 := by omega
    rw [if_pos rfl, if_pos rfl, hzero]
    decide
  | false => rfl

theorem toU64_le (hnan : x.isNan = false) : x.toU64 ≤ 2 ^ 64 - 1 := by
  rw [toU64_eq_truncate hnan, truncate]
  split
  · exact Nat.zero_le _
  · exact Nat.min_le_left _ _

theorem toU64_of_place_le (hnan : x.isNan = false) (h : x.place ≤ 0) : x.toU64 = 0 := by
  have hzero : x.place.toNat = 0 := by omega
  rw [toU64_eq_truncate hnan, hzero]
  decide

/-- **An integer from `2 ^ 53` on is the number that it was truncated from.** -/
theorem place_ofU64_toU64 (hnan : x.isNan = false) (h : 2 ^ 53 ≤ x.toU64) (hlt : x.toU64 < 2 ^ 64 - 1) :
    (ofU64 x.toU64).place = x.place := by
  have hpos : 0 < x.place := by
    by_contra hc
    rw [toU64_of_place_le hnan (Int.not_lt.1 hc)] at h
    omega
  have hplace : x.place = x.place.toNat := by omega
  have htrunc := toU64_eq_truncate hnan
  generalize x.toU64 = n at *
  rw [(place_ofU64 (by omega)).1, hplace]
  generalize x.place.toNat = p at *
  have hsplit := Nat.div_add_mod p (2 ^ 52)
  have hfrac := Nat.mod_lt p (Nat.two_pow_pos 52)
  unfold truncate at htrunc
  generalize p / 2 ^ 52 = e at *
  generalize p % 2 ^ 52 = f at *
  by_cases he : e < 1023
  · rw [if_pos he] at htrunc
    omega
  · rw [if_neg he] at htrunc
    obtain ⟨hl, hu⟩ := integerPart_bounds (e - 1023) (2 ^ 52 + f) (by omega) (by omega)
    have hn : n = integerPart (e - 1023) (2 ^ 52 + f) := by omega
    have he' : 53 ≤ e - 1023 := by
      have : 2 ^ 53 < 2 ^ (e - 1023 + 1) := by omega
      have := (Nat.pow_lt_pow_iff_right (by decide : 1 < 2)).1 this
      omega
    have hlog : n.log2 = e - 1023 := (Nat.log2_eq_iff (by omega)).2 ⟨by omega, by omega⟩
    have hsig : significand n = 2 ^ 52 + f := by
      unfold significand
      rw [hlog, if_neg (by omega), hn, integerPart, if_neg (by omega)]
      exact roundShift_mul _ _
    rw [bits_eq_significand (by omega) (by omega), hlog, hsig]
    omega

/-- A truncation that is cut off is one of a number that no `u64` reaches. -/
theorem le_place_of_toU64_eq (hnan : x.isNan = false) (h : x.toU64 = 2 ^ 64 - 1) : 1087 * 2 ^ 52 ≤ x.place := by
  rw [toU64_eq_truncate hnan] at h
  suffices hp : 1087 * 2 ^ 52 ≤ x.place.toNat by omega
  generalize x.place.toNat = p at *
  have hsplit := Nat.div_add_mod p (2 ^ 52)
  have hfrac := Nat.mod_lt p (Nat.two_pow_pos 52)
  unfold truncate at h
  generalize p / 2 ^ 52 = e at *
  generalize p % 2 ^ 52 = f at *
  by_contra hlt
  have he : e < 1087 := by omega
  by_cases hlow : e < 1023
  · rw [if_pos hlow] at h
    omega
  · rw [if_neg hlow] at h
    have hpart : 2 ^ 64 - 1 ≤ integerPart (e - 1023) (2 ^ 52 + f) := by omega
    by_cases h63 : e - 1023 = 63
    · rw [h63, integerPart, if_neg (by decide)] at hpart
      omega
    · obtain ⟨-, hu⟩ := integerPart_bounds (e - 1023) (2 ^ 52 + f) (by omega) (by omega)
      have : 2 ^ (e - 1023 + 1) ≤ 2 ^ 63 := Nat.pow_le_pow_right (by decide) (by omega)
      omega

theorem place_eq_magnitude (h : 0 < x.place) : x.negative = false ∧ x.place = x.magnitude := by
  unfold place at h ⊢
  cases hneg : x.negative with
  | true =>
    rw [hneg, if_pos rfl] at h
    omega
  | false => exact ⟨rfl, rfl⟩

/-- The truncation of a number that is not negative is at most the number. -/
theorem place_ofU64_toU64_le (hnan : x.isNan = false) (hpos : 0 ≤ x.place) : (ofU64 x.toU64).place ≤ x.place := by
  have hle := toU64_le hnan
  by_cases hzero : x.place = 0
  · rw [toU64_of_place_le hnan (Int.le_of_eq hzero), hzero]
    decide
  · obtain ⟨hneg, hmag⟩ := place_eq_magnitude (by omega : 0 < x.place)
    by_cases hsmall : x.toU64 < 2 ^ 53
    · have hbits := (le_toU64_iff (Nat.le_of_lt hsmall) hnan hneg).1 (Nat.le_refl _)
      rw [(place_ofU64 (by omega)).1, hmag]
      exact_mod_cast hbits
    · by_cases hcut : x.toU64 = 2 ^ 64 - 1
      · have hplace := le_place_of_toU64_eq hnan hcut
        have hmax : (ofU64 (2 ^ 64 - 1)).place = 1087 * 2 ^ 52 := by decide +kernel
        rw [hcut, hmax]
        exact hplace
      · exact Int.le_of_eq (place_ofU64_toU64 hnan (Nat.not_lt.1 hsmall) (by omega))

/-- An integer over the truncation of a number is not below the number. -/
theorem place_le_ofU64 {n : Nat} (hn : n < 2 ^ 64) (hnan : x.isNan = false) (h : x.toU64 < n) :
    x.place ≤ (ofU64 n).place := by
  by_cases hpos : 0 < x.place
  · by_cases hsmall : x.toU64 < 2 ^ 53
    · obtain ⟨hneg, hmag⟩ := place_eq_magnitude hpos
      have hnext : x.toU64 + 1 ≤ 2 ^ 53 := hsmall
      have hover : ¬ (ofU64 (x.toU64 + 1)).bits.toNat ≤ x.magnitude := fun hc => by
        have := (le_toU64_iff hnext hnan hneg).2 hc
        omega
      have hmono := place_ofU64_mono (show x.toU64 + 1 ≤ n from h) hn
      rw [(place_ofU64 (by omega)).1] at hmono
      omega
    · rw [← place_ofU64_toU64 hnan (Nat.not_lt.1 hsmall) (by omega)]
      exact place_ofU64_mono (Nat.le_of_lt h) hn
  · rw [(place_ofU64 hn).1]
    omega

end

/-! ## Comparison -/

theorem partialCmp_swap (x y : F64) : y.partialCmp x = (x.partialCmp y).map Ordering.swap := by
  unfold partialCmp
  rw [Bool.or_comm]
  split
  · rfl
  · rcases Int.lt_trichotomy x.place y.place with h | h | h
    · simp [h, Int.not_lt.2 (Int.le_of_lt h), h.ne']
    · simp [h]
    · simp [h, Int.not_lt.2 (Int.le_of_lt h), h.ne']

theorem partialCmp_of_not_nan {x y : F64} (hx : x.isNan = false) (hy : y.isNan = false) :
    x.partialCmp y = some (if x.place < y.place then .lt else if x.place = y.place then .eq else .gt) := by
  rw [partialCmp, hx, hy]
  rfl

theorem not_nan_of_finite {x : F64} (h : x.isFinite = true) : x.isNan = false :=
  decide_eq_false (Nat.not_lt.2 (Nat.le_of_lt (of_decide_eq_true h)))

end F64
end Heraclitus
