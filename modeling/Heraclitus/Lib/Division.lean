import Mathlib
/-!
# Division — a shift register divides polynomials over GF(2)

A row of bits is a polynomial with its first bit as the highest coefficient, and a register of `w` bits is read from its lowest
bit on, as the reflected cyclic codes have it.  One turn of the register multiplies by `X` and takes the divisor away once where
the product reaches its degree, so feeding a message bit by bit leaves the remainder of a division, which is unique.
-/
namespace Heraclitus
namespace Division

open Polynomial

variable {w : Nat}

/-- The bits of a register, lowest first. -/
def bits (s : BitVec w) : List Bool := (List.range w).map s.getLsbD

noncomputable def poly : List Bool → (ZMod 2)[X]
  | [] => 0
  | b :: rest => (if b then X ^ rest.length else 0) + poly rest

attribute [local simp] poly

/-- One turn of the register. -/
def shift (taps s : BitVec w) : BitVec w := if s.getLsbD 0 then (s >>> 1) ^^^ taps else s >>> 1

/-- The register takes in a message, bit by bit. -/
def divide (taps : BitVec w) : BitVec w → List Bool → BitVec w
  | s, [] => s
  | s, b :: message => divide taps (shift taps (s ^^^ (BitVec.ofBool b).setWidth w)) message

noncomputable def divisor (taps : BitVec w) : (ZMod 2)[X] := X ^ w + poly (bits taps)

/-! ## Rows of bits -/

@[simp] theorem length_bits (s : BitVec w) : (bits s).length = w := by simp [bits]

theorem poly_append (xs ys : List Bool) : poly (xs ++ ys) = poly xs * X ^ ys.length + poly ys := by
  induction xs with
  | nil => simp [poly]
  | cons b xs ih =>
    rw [List.cons_append, poly, poly, ih, List.length_append]
    split <;> ring

theorem poly_zeros (n : Nat) : poly (List.replicate n false) = 0 := by
  induction n with
  | zero => rfl
  | succ n ih => simp [List.replicate_succ, poly, ih]

theorem poly_xor (f g : Nat → Bool) (l : List Nat) :
    poly (l.map (fun i => f i ^^ g i)) = poly (l.map f) + poly (l.map g) := by
  induction l with
  | nil => simp [poly]
  | cons i l ih =>
    simp only [List.map_cons, poly, List.length_map, ih]
    cases f i <;> cases g i <;> simp only [Bool.xor_false, Bool.xor_true, Bool.not_true, Bool.not_false,
      Bool.false_eq_true, if_true, if_false]
    · ring
    · ring
    · ring
    · calc 0 + (poly (l.map f) + poly (l.map g))
          = (X ^ l.length + X ^ l.length) + (poly (l.map f) + poly (l.map g)) := by rw [CharTwo.add_self_eq_zero]
        _ = _ := by ring

theorem degree_poly_lt (xs : List Bool) : (poly xs).degree < xs.length := by
  induction xs with
  | nil => simp [poly]
  | cons b xs ih =>
    have hlt : ((xs.length : Nat) : WithBot Nat) < ((xs.length + 1 : Nat) : WithBot Nat) := by
      exact_mod_cast Nat.lt_succ_self _
    rw [poly, List.length_cons]
    refine lt_of_le_of_lt (degree_add_le _ _) (max_lt ?_ (ih.trans hlt))
    split
    · rwa [degree_X_pow]
    · rw [degree_zero]
      exact bot_lt_of_lt hlt

/-- Rows of one length with one polynomial are the same. -/
theorem eq_of_poly_eq : ∀ {xs ys : List Bool}, xs.length = ys.length → poly xs = poly ys → xs = ys
  | [], [], _, _ => rfl
  | b :: xs, c :: ys, hlen, h => by
    rw [List.length_cons, List.length_cons, Nat.add_right_cancel_iff] at hlen
    have hcoeff : ∀ (d : Bool) (zs : List Bool), (poly (d :: zs)).coeff zs.length = if d then 1 else 0 := by
      intro d zs
      rw [poly, coeff_add, coeff_eq_zero_of_degree_lt (degree_poly_lt zs), add_zero]
      split <;> simp
    have hhead : b = c := by
      have := hcoeff b xs
      rw [h, hlen, hcoeff c ys] at this
      cases b <;> cases c <;> simp_all
    subst hhead
    rw [poly, poly, hlen] at h
    rw [eq_of_poly_eq hlen (add_left_cancel h)]

theorem bits_inj {s t : BitVec w} (h : bits s = bits t) : s = t := by
  refine BitVec.eq_of_getLsbD_eq fun i hi => ?_
  exact List.map_inj_left.1 h i (List.mem_range.2 hi)

/-! ## Registers -/

theorem bits_xor (s t : BitVec w) : poly (bits (s ^^^ t)) = poly (bits s) + poly (bits t) := by
  rw [bits, bits, bits, ← poly_xor]
  congr 1
  exact List.map_congr_left fun i _ => BitVec.getLsbD_xor

theorem bits_split {n : Nat} (h : n ≤ w) (s : BitVec w) :
    bits s = (List.range n).map s.getLsbD ++ (List.range (w - n)).map (fun i => s.getLsbD (n + i)) := by
  have hrange : List.range w = List.range n ++ (List.range (w - n)).map (n + ·) := by
    rw [← List.range_add, Nat.add_sub_cancel' h]
  rw [bits, hrange, List.map_append, List.map_map]
  rfl

theorem map_false (f : Nat → Bool) (n : Nat) (h : ∀ i < n, f i = false) : (List.range n).map f = List.replicate n false := by
  rw [List.eq_replicate_iff]
  refine ⟨by simp, fun b hb => ?_⟩
  obtain ⟨i, hi, rfl⟩ := List.mem_map.1 hb
  exact h i (List.mem_range.1 hi)

/-- The bits that are left are shifted down, and zeros follow them. -/
theorem bits_ushiftRight {n : Nat} (h : n ≤ w) (s : BitVec w) :
    bits (s >>> n) = (List.range (w - n)).map (fun i => s.getLsbD (n + i)) ++ List.replicate n false := by
  rw [bits_split (Nat.sub_le w n) (s >>> n), Nat.sub_sub_self h]
  congr 1
  · exact List.map_congr_left fun i _ => BitVec.getLsbD_ushiftRight s n i
  · refine map_false _ n fun i _ => ?_
    rw [BitVec.getLsbD_ushiftRight]
    exact BitVec.getLsbD_of_ge s _ (by omega)

/-- A narrow word in a wide register. -/
theorem bits_setWidth {v : Nat} (h : v ≤ w) (b : BitVec v) :
    bits (b.setWidth w) = bits b ++ List.replicate (w - v) false := by
  rw [bits_split h]
  congr 1
  · refine List.map_congr_left fun i hi => ?_
    have := List.mem_range.1 hi
    rw [BitVec.getLsbD_setWidth, decide_eq_true (by omega), Bool.true_and]
  · refine map_false _ _ fun i _ => ?_
    rw [BitVec.getLsbD_setWidth, BitVec.getLsbD_of_ge b _ (by omega), Bool.and_false]

theorem bits_truncate (n : Nat) (s : BitVec w) : bits (s.setWidth n) = (List.range n).map s.getLsbD := by
  refine List.map_congr_left fun i hi => ?_
  rw [BitVec.getLsbD_setWidth, decide_eq_true (List.mem_range.1 hi), Bool.true_and]

/-! ## A turn and a message -/

/-- **A turn multiplies by `X`**, up to one divisor. -/
theorem poly_shift (taps s : BitVec (w + 1)) :
    poly (bits (shift taps s)) + divisor taps * (if s.getLsbD 0 then 1 else 0) = X * poly (bits s) := by
  have hbits : poly (bits s) = (if s.getLsbD 0 then X ^ w else 0) + poly ((List.range w).map (fun i => s.getLsbD (1 + i))) := by
    rw [bits_split (Nat.succ_le_succ (Nat.zero_le w)) s]
    simp [poly]
  have hdown : poly (bits (s >>> 1)) = poly ((List.range w).map (fun i => s.getLsbD (1 + i))) * X := by
    rw [bits_ushiftRight (Nat.succ_le_succ (Nat.zero_le w)) s, poly_append]
    simp [poly]
  rw [hbits, shift]
  split
  · rw [bits_xor, hdown, divisor]
    calc _ = (poly (bits taps) + poly (bits taps)) + X * (X ^ w + poly ((List.range w).map (fun i => s.getLsbD (1 + i)))) := by ring
      _ = _ := by rw [CharTwo.add_self_eq_zero, zero_add]
  · rw [hdown]
    ring

theorem poly_bit (b : Bool) : poly (bits ((BitVec.ofBool b).setWidth (w + 1))) = if b then X ^ w else 0 := by
  rw [bits_setWidth (by omega), poly_append, poly_zeros]
  cases b <;> simp [bits, poly]

/-- What the register holds after a message is the dividend, up to a multiple of the divisor. -/
theorem poly_divide_add (taps : BitVec (w + 1)) : ∀ (s : BitVec (w + 1)) (message : List Bool), ∃ q : (ZMod 2)[X],
    poly (bits (divide taps s message)) + divisor taps * q
      = X ^ message.length * poly (bits s) + X ^ (w + 1) * poly message
  | s, [] => ⟨0, by simp [divide, poly]⟩
  | s, b :: message => by
    obtain ⟨q, hq⟩ := poly_divide_add taps (shift taps (s ^^^ (BitVec.ofBool b).setWidth (w + 1))) message
    have hturn := poly_shift taps (s ^^^ (BitVec.ofBool b).setWidth (w + 1))
    rw [bits_xor, poly_bit] at hturn
    generalize (if (s ^^^ (BitVec.ofBool b).setWidth (w + 1)).getLsbD 0 then (1 : (ZMod 2)[X]) else 0) = e at hturn
    refine ⟨q + X ^ message.length * e, ?_⟩
    rw [divide, List.length_cons, poly]
    calc _ = (poly (bits (divide taps (shift taps (s ^^^ (BitVec.ofBool b).setWidth (w + 1))) message)) + divisor taps * q)
          + X ^ message.length * (divisor taps * e) := by ring
      _ = X ^ message.length * (poly (bits (shift taps (s ^^^ (BitVec.ofBool b).setWidth (w + 1)))) + divisor taps * e)
          + X ^ (w + 1) * poly message := by rw [hq]; ring
      _ = X ^ (message.length + 1) * poly (bits s) + X ^ (w + 1) * ((if b then X ^ message.length else 0) + poly message) := by
        rw [hturn]
        split <;> ring

theorem degree_divisor (taps : BitVec w) : (divisor taps).degree = w := by
  have hlt : (poly (bits taps)).degree < ((X : (ZMod 2)[X]) ^ w).degree := by
    have := degree_poly_lt (bits taps)
    rw [length_bits] at this
    rwa [degree_X_pow]
  rw [divisor, degree_add_eq_left_of_degree_lt hlt, degree_X_pow]

theorem monic_divisor (taps : BitVec w) : (divisor taps).Monic := by
  refine monic_X_pow_add ?_
  have := degree_poly_lt (bits taps)
  rwa [length_bits] at this

/-- A register that differs from a dividend by a multiple of the divisor is the remainder. -/
theorem modByMonic_of_add {taps s : BitVec w} {p q : (ZMod 2)[X]} (h : poly (bits s) + divisor taps * q = p) :
    p %ₘ divisor taps = poly (bits s) := by
  refine (div_modByMonic_unique q _ (monic_divisor taps) ⟨h, ?_⟩).2
  have := degree_poly_lt (bits s)
  rw [length_bits] at this
  rwa [degree_divisor]

/-- **Feeding a message bit by bit leaves the remainder** of what the register held, the message and `w` zeros behind it. -/
theorem poly_divide (taps s : BitVec (w + 1)) (message : List Bool) :
    poly (bits (divide taps s message))
      = (X ^ message.length * poly (bits s) + X ^ (w + 1) * poly message) %ₘ divisor taps := by
  obtain ⟨q, hq⟩ := poly_divide_add taps s message
  exact (modByMonic_of_add hq).symm

/-- **The remainder is unique**: whatever computes it holds what the register holds. -/
theorem eq_divide {taps s t : BitVec (w + 1)} {message : List Bool}
    (h : poly (bits t) = (X ^ message.length * poly (bits s) + X ^ (w + 1) * poly message) %ₘ divisor taps) :
    t = divide taps s message := by
  rw [← poly_divide] at h
  exact bits_inj (eq_of_poly_eq (by simp) h)

theorem divide_append (taps : BitVec w) : ∀ (s : BitVec w) (xs ys : List Bool),
    divide taps s (xs ++ ys) = divide taps (divide taps s xs) ys
  | _, [], _ => rfl
  | _, _ :: xs, ys => divide_append taps _ xs ys

/-! ## Several bits at a time -/

theorem repeat_succ {α : Type} (f : α → α) (a : α) : ∀ n : Nat, Nat.repeat f (n + 1) a = Nat.repeat f n (f a)
  | 0 => rfl
  | n + 1 => congrArg f (repeat_succ f a n)

/-- Turns without a message. -/
theorem repeat_shift (taps : BitVec w) : ∀ (n : Nat) (s : BitVec w),
    divide taps s (List.replicate n false) = Nat.repeat (shift taps) n s
  | 0, _ => rfl
  | n + 1, s => by
    have hzero : s ^^^ (BitVec.ofBool false).setWidth w = s := by simp
    rw [List.replicate_succ, divide, hzero, repeat_shift taps n, repeat_succ]

/-- A word that the register takes in whole: xor-ed in below, then one turn for each of its bits. -/
theorem divide_word {v : Nat} (h : v ≤ w + 1) (taps s : BitVec (w + 1)) (b : BitVec v) :
    divide taps s (bits b) = divide taps (s ^^^ b.setWidth (w + 1)) (List.replicate v false) := by
  refine (eq_divide ?_).symm
  rw [poly_divide, bits_xor, bits_setWidth h, poly_append, poly_zeros, poly_zeros, List.length_replicate, length_bits,
    List.length_replicate]
  refine congrArg (· %ₘ divisor taps) ?_
  calc X ^ v * (poly (bits s) + (poly (bits b) * X ^ (w + 1 - v) + 0)) + X ^ (w + 1) * 0
      = X ^ v * poly (bits s) + X ^ (v + (w + 1 - v)) * poly (bits b) := by ring
    _ = _ := by rw [Nat.add_sub_cancel' h]

/-- **The table recurrence**: the turns of the low bits are the table's, and the high bits only move down. -/
theorem divide_table {n : Nat} (h : n ≤ w + 1) (taps s : BitVec (w + 1)) :
    divide taps s (List.replicate n false)
      = divide taps ((s.setWidth n).setWidth (w + 1)) (List.replicate n false) ^^^ (s >>> n) := by
  obtain ⟨q, hq⟩ := poly_divide_add taps ((s.setWidth n).setWidth (w + 1)) (List.replicate n false)
  refine (eq_divide ?_).symm
  rw [poly_zeros, mul_zero, add_zero] at hq ⊢
  refine (modByMonic_of_add (q := q) ?_).symm
  rw [bits_xor, add_right_comm, hq, bits_setWidth h, poly_append, poly_zeros, bits_truncate, bits_ushiftRight h,
    poly_append, poly_zeros, bits_split h s, poly_append]
  simp only [List.length_replicate, List.length_map, List.length_range]
  ring

end Division
end Heraclitus
