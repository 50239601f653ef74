import Heraclitus.Core
import Mathlib.Tactic.Ring
/-!
# V6Varint — canonical varints (`heraclitus-log/src/v6/varint.rs`)

One quantity, one byte stream: groups of seven bits, lowest first, and no last group that a shorter form would do without.
-/
namespace Heraclitus
namespace V6

/-- A `u64` never needs more than ten groups of seven bits. -/
def maxVarintLen : Nat := 10

/-- The loop of `put_varint`, with the turns that are left. -/
def putGroups : Nat → Nat → Bytes
  | 0, v => [UInt8.ofNat v]
  | n + 1, v => if v < 0x80 then [UInt8.ofNat v] else (UInt8.ofNat v ||| 0x80) :: putGroups n (v >>> 7)

def putVarint (v : Nat) : Bytes := putGroups 9 v

/-- The loop of `read_varint`, in group `i` of a buffer of `len` bytes. -/
def readGroups (ctx : String) (len : Nat) : Nat → Nat → Bytes → Except HeraclitusError (Nat × Nat)
  | _, _, [] =>
    if maxVarintLen ≤ len then .error (corrupt ctx "varint longer than 10 bytes")
    else .error (corrupt ctx "truncated varint (continuation bit at EOF)")
  | i, result, byte :: rest =>
    let payload := (byte &&& 0x7f).toNat
    if i = 9 ∧ 1 < payload then .error (corrupt ctx "varint overflows u64")
    else
      let result := result ||| payload <<< (7 * i)
      if byte &&& 0x80 = 0 then
        if 0 < i ∧ byte = 0 then .error (corrupt ctx "non-canonical varint (redundant trailing group)")
        else .ok (result, i + 1)
      else readGroups ctx len (i + 1) result rest

def readVarint (ctx : String) (buf : Bytes) : Except HeraclitusError (Nat × Nat) :=
  readGroups ctx buf.length 0 0 (buf.take maxVarintLen)

/-! ## A varint is read back -/

theorem toNat_and_low (b : UInt8) : (b &&& 0x7f).toNat = b.toNat % 128 := by
  rw [UInt8.toNat_and]
  exact Nat.and_two_pow_sub_one_eq_mod b.toNat 7

/-- The bit that says whether another group follows. -/
theorem and_high_eq_zero (b : UInt8) : b &&& 0x80 = 0 ↔ b.toNat < 128 := by
  have h : ∀ n < 256, UInt8.ofNat n &&& 0x80 = 0 ↔ n < 128 := by decide +kernel
  have := h b.toNat b.toNat_lt
  rwa [UInt8.ofNat_toNat] at this

theorem toNat_or_high (v : Nat) : (UInt8.ofNat v ||| 0x80).toNat = 128 + v % 128 := by
  have h : ∀ n < 256, (UInt8.ofNat n ||| 0x80).toNat = 128 + n % 128 := by decide +kernel
  have := h (v % 256) (Nat.mod_lt v (by decide))
  rwa [UInt8.ofNat_mod_size, Nat.mod_mod_of_dvd v (by decide)] at this

/-- A group on top of smaller ones. -/
theorem or_shiftLeft {result i : Nat} (payload : Nat) (h : result < 128 ^ i) :
    result ||| payload <<< (7 * i) = result + payload * 128 ^ i := by
  have hpow : 128 ^ i = 2 ^ (7 * i) := (Nat.pow_mul 2 7 i).symm
  rw [hpow] at h ⊢
  rw [Nat.shiftLeft_eq, Nat.mul_comm payload, Nat.or_comm, ← Nat.two_pow_add_eq_or_of_lt h, Nat.add_comm]

theorem readGroups_putGroups (ctx : String) (len : Nat) (rest : Bytes) : ∀ {n i result v : Nat}, n + i = 9 →
    result < 128 ^ i → v < 2 ^ (64 - 7 * i) → (0 < i → 0 < v) →
    readGroups ctx len i result (putGroups n v ++ rest) = .ok (result + v * 128 ^ i, i + (putGroups n v).length) := by
  -- the last group, in whichever turn it comes
  have hlast : ∀ {i result v : Nat}, i ≤ 9 → result < 128 ^ i → v < 128 → (i = 9 → v < 2) → (0 < i → 0 < v) →
      readGroups ctx len i result ([UInt8.ofNat v] ++ rest) = .ok (result + v * 128 ^ i, i + 1) := by
    intro i result v hi hresult hv hnine hpos
    have hbyte : (UInt8.ofNat v).toNat = v := by
      rw [UInt8.toNat_ofNat', Nat.mod_eq_of_lt (by omega)]
    have hzero : ¬(0 < i ∧ UInt8.ofNat v = 0) := by
      rintro ⟨h, h0⟩
      rw [h0] at hbyte
      have := hpos h
      exact absurd hbyte.symm (Nat.ne_of_gt this)
    rw [List.singleton_append, readGroups]
    dsimp only
    rw [toNat_and_low, hbyte, Nat.mod_eq_of_lt hv, if_neg (fun h => absurd (hnine h.1) (by omega)),
      if_pos ((and_high_eq_zero _).2 (by omega)), if_neg hzero, or_shiftLeft v hresult]
  intro n
  induction n with
  | zero =>
    intro i result v hn hresult hv hpos
    rw [putGroups]
    have hi : i = 9 := by omega
    rw [hi] at hv
    exact hlast (by omega) hresult (by omega) (fun _ => by omega) hpos
  | succ n ih =>
    intro i result v hn hresult hv hpos
    rw [putGroups]
    split
    · rename_i hlt
      exact hlast (by omega) hresult hlt (fun h => by omega) hpos
    · rename_i hge
      have hbyte := toNat_or_high v
      have hshift : v >>> 7 = v / 128 := Nat.shiftRight_eq_div_pow v 7
      have hresult' : result + v % 128 * 128 ^ i < 128 ^ (i + 1) := by
        have := Nat.mul_le_mul_right (128 ^ i) (show v % 128 ≤ 127 by omega)
        rw [Nat.pow_succ]
        omega
      have hv' : v / 128 < 2 ^ (64 - 7 * (i + 1)) := by
        refine Nat.div_lt_of_lt_mul ?_
        have : 64 - 7 * i = 7 + (64 - 7 * (i + 1)) := by omega
        rwa [this, Nat.pow_add] at hv
      rw [List.cons_append, readGroups]
      dsimp only
      rw [toNat_and_low, hbyte, Nat.add_mod_left, Nat.mod_mod, if_neg (by omega), if_neg (by rw [and_high_eq_zero]; omega),
        or_shiftLeft _ hresult, hshift, ih (by omega) hresult' hv' (fun _ => by omega), List.length_cons]
      have hsum : result + v % 128 * 128 ^ i + v / 128 * 128 ^ (i + 1) = result + v * 128 ^ i := by
        rw [Nat.pow_succ, Nat.add_assoc]
        conv_rhs => rw [← Nat.mod_add_div v 128]
        ring
      rw [hsum, Nat.add_assoc i, Nat.add_comm 1]

theorem length_putGroups_le : ∀ n v : Nat, (putGroups n v).length ≤ n + 1
  | 0, _ => Nat.le_refl _
  | n + 1, v => by
    rw [putGroups]
    split
    · simp
    · have := length_putGroups_le n (v >>> 7)
      rw [List.length_cons]
      omega

/-- **A quantity is read back**, whatever follows it. -/
theorem readVarint_putVarint (ctx : String) {v : Nat} (hv : v < 2 ^ 64) (rest : Bytes) :
    readVarint ctx (putVarint v ++ rest) = .ok (v, (putVarint v).length) := by
  have hlen : (putVarint v).length ≤ maxVarintLen := length_putGroups_le 9 v
  have htake : (putVarint v ++ rest).take maxVarintLen
      = putVarint v ++ rest.take (maxVarintLen - (putVarint v).length) := by
    rw [List.take_append, List.take_of_length_le hlen]
  have h := readGroups_putGroups ctx (putVarint v ++ rest).length (rest.take (maxVarintLen - (putVarint v).length))
    (n := 9) (i := 0) (v := v) rfl Nat.one_pos hv (fun h => absurd h (Nat.lt_irrefl 0))
  rw [readVarint, htake]
  rw [Nat.zero_add, Nat.pow_zero, Nat.mul_one, Nat.zero_add] at h
  exact h

end V6
end Heraclitus
