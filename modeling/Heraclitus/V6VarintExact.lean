import Heraclitus.V6Varint
/-!
# V6VarintExact — what is not the encoding of a quantity is refused (`heraclitus-log/src/v6/varint.rs`)

Plain ULEB128 reads groups up to the first one without a continuation bit, however many they are, and so gives one quantity many
forms.  The reader takes such a form exactly if it has at most ten groups, fits 64 bits and has no group to spare, and then it is
what the writer writes.
-/
namespace Heraclitus
namespace V6

/-- The quantity in front of the bytes and the groups it takes. -/
def uleb : Bytes → Option (Nat × Nat)
  | [] => none
  | byte :: rest =>
    if byte &&& 0x80 = 0 then some ((byte &&& 0x7f).toNat, 1)
    else (uleb rest).map fun r => ((byte &&& 0x7f).toNat + 128 * r.1, r.2 + 1)

variable {buf : Bytes} {v n : Nat}

theorem uleb_last {byte : UInt8} (h : byte.toNat < 128) (rest : Bytes) : uleb (byte :: rest) = some (byte.toNat, 1) := by
  rw [uleb, if_pos ((and_high_eq_zero byte).2 h), toNat_and_low, Nat.mod_eq_of_lt h]

theorem uleb_more {byte : UInt8} (h : ¬byte.toNat < 128) (rest : Bytes) :
    uleb (byte :: rest) = (uleb rest).map fun r => (byte.toNat % 128 + 128 * r.1, r.2 + 1) := by
  rw [uleb, if_neg (fun h' => h ((and_high_eq_zero byte).1 h')), toNat_and_low]

theorem uleb_pos : ∀ {buf : Bytes} {v n : Nat}, uleb buf = some (v, n) → 0 < n ∧ n ≤ buf.length
  | byte :: rest, v, n, h => by
    by_cases hlast : byte.toNat < 128
    · rw [uleb_last hlast, Option.some.injEq, Prod.mk.injEq] at h
      obtain ⟨-, rfl⟩ := h
      exact ⟨Nat.one_pos, Nat.succ_le_succ (Nat.zero_le _)⟩
    · rw [uleb_more hlast, Option.map_eq_some_iff] at h
      obtain ⟨⟨v', n'⟩, hrest, heq⟩ := h
      rw [Prod.mk.injEq] at heq
      obtain ⟨-, rfl⟩ := heq
      exact ⟨Nat.succ_pos _, Nat.succ_le_succ (uleb_pos hrest).2⟩

/-- Only the groups that are left are seen. -/
theorem uleb_take : ∀ (k : Nat) (buf : Bytes), uleb (buf.take k) = (uleb buf).filter (fun r => decide (r.2 ≤ k))
  | k, [] => by rw [List.take_nil]; rfl
  | 0, byte :: rest => by
    cases h : uleb (byte :: rest) with
    | none => rfl
    | some r =>
      rw [List.take_zero, Option.filter_some, decide_eq_false (Nat.not_le.2 (uleb_pos h).1)]
      rfl
  | k + 1, byte :: rest => by
    rw [List.take_succ_cons]
    by_cases hlast : byte.toNat < 128
    · rw [uleb_last hlast, uleb_last hlast, Option.filter_some, decide_eq_true (Nat.succ_le_succ (Nat.zero_le k))]
      rfl
    · rw [uleb_more hlast, uleb_more hlast, uleb_take k rest]
      cases uleb rest with
      | none => rfl
      | some r =>
        rw [Option.filter_some, Option.map_some, Option.filter_some]
        by_cases hk : r.2 ≤ k
        · simp [hk]
        · simp [hk]

/-! ## The reader -/

/-- How the reader ends that has seen `i` groups, worth `result`, and finds the quantity `v` in `n` groups more. -/
def groupsEnd (ctx : String) (i result v n : Nat) : Except HeraclitusError (Nat × Nat) :=
  if 2 ^ 64 ≤ result + v * 128 ^ i then .error (corrupt ctx "varint overflows u64")
  else if 1 < i + n ∧ v < 128 ^ (n - 1) then .error (corrupt ctx "non-canonical varint (redundant trailing group)")
  else .ok (result + v * 128 ^ i, i + n)

/-- Only the tenth group can take a quantity past 64 bits. -/
theorem overflow_iff {i result x : Nat} (hi : i ≤ 9) (hresult : result < 128 ^ i) (hx : x < 128) :
    i = 9 ∧ 1 < x ↔ 2 ^ 64 ≤ result + x * 128 ^ i := by
  by_cases h : i = 9
  · subst h
    simp only [true_and]
    omega
  · have hpow : 128 ^ (i + 1) ≤ 128 ^ 9 := Nat.pow_le_pow_right (by decide) (by omega)
    have hle := Nat.mul_le_mul_right (128 ^ i) (Nat.le_of_lt_succ hx)
    rw [Nat.pow_succ] at hpow
    simp only [h, false_and, false_iff]
    omega

theorem readGroups_some (ctx : String) (len : Nat) : ∀ {bytes : Bytes} {i result v n : Nat}, i + bytes.length ≤ 10 →
    result < 128 ^ i → uleb bytes = some (v, n) → readGroups ctx len i result bytes = groupsEnd ctx i result v n
  | byte :: rest, i, result, v, n, hlen, hresult, h => by
    rw [List.length_cons] at hlen
    have hi : i ≤ 9 := by omega
    have hover := overflow_iff hi hresult (Nat.mod_lt byte.toNat (show 0 < 128 by decide))
    rw [readGroups]
    simp only [toNat_and_low, and_high_eq_zero, hover, or_shiftLeft _ hresult]
    by_cases hlast : byte.toNat < 128
    · rw [uleb_last hlast, Option.some.injEq, Prod.mk.injEq] at h
      obtain ⟨rfl, rfl⟩ := h
      have hzero : (0 < i ∧ byte = 0) ↔ (1 < i + 1 ∧ byte.toNat < 128 ^ (1 - 1)) := by
        rw [← UInt8.toNat_inj]
        simp
      rw [Nat.mod_eq_of_lt hlast]
      simp only [hlast, if_true, hzero]
      rfl
    · rw [uleb_more hlast, Option.map_eq_some_iff] at h
      obtain ⟨⟨v', n'⟩, hrest, heq⟩ := h
      rw [Prod.mk.injEq] at heq
      obtain ⟨rfl, rfl⟩ := heq
      obtain ⟨hn', hle'⟩ := uleb_pos hrest
      have hsum : result + (byte.toNat % 128 + 128 * v') * 128 ^ i
          = result + byte.toNat % 128 * 128 ^ i + v' * 128 ^ (i + 1) := by
        rw [Nat.pow_succ]
        ring
      have hnext : result + byte.toNat % 128 * 128 ^ i < 128 ^ (i + 1) := by
        have := Nat.mul_le_mul_right (128 ^ i) (show byte.toNat % 128 ≤ 127 by omega)
        rw [Nat.pow_succ]
        omega
      by_cases hbig : 2 ^ 64 ≤ result + byte.toNat % 128 * 128 ^ i
      · rw [if_pos hbig, groupsEnd, if_pos (by rw [hsum]; exact Nat.le_add_right_of_le hbig)]
      · rw [if_neg hbig, if_neg hlast, readGroups_some ctx len (by omega) hnext hrest, groupsEnd, groupsEnd, hsum]
        have hshort : (1 < i + 1 + n' ∧ v' < 128 ^ (n' - 1))
            ↔ (1 < i + (n' + 1) ∧ byte.toNat % 128 + 128 * v' < 128 ^ (n' + 1 - 1)) := by
          have hpow : 128 ^ n' = 128 ^ (n' - 1) * 128 := by
            rw [← Nat.pow_succ, Nat.succ_eq_add_one, Nat.sub_add_cancel hn']
          rw [Nat.add_sub_cancel, hpow]
          omega
        have hgroups : i + 1 + n' = i + (n' + 1) := by omega
        rw [hgroups] at hshort ⊢
        simp only [hshort]

/-- Bytes that end in a continuation are refused. -/
theorem readGroups_none (ctx : String) (len : Nat) : ∀ {bytes : Bytes} {i : Nat} (result : Nat), i + bytes.length ≤ 10 →
    uleb bytes = none → ∃ message, readGroups ctx len i result bytes = .error (corrupt ctx message) ∧
      (message = "varint overflows u64" ∧ i + bytes.length = 10 ∨
        message = if 10 ≤ len then "varint longer than 10 bytes" else "truncated varint (continuation bit at EOF)")
  | [], _, _, _, _ => by
    rw [readGroups]
    by_cases h : 10 ≤ len
    · exact ⟨_, if_pos h, .inr (if_pos h).symm⟩
    · exact ⟨_, if_neg h, .inr (if_neg h).symm⟩
  | byte :: rest, i, result, hlen, h => by
    rw [List.length_cons] at hlen ⊢
    have hlast : ¬byte.toNat < 128 := fun hlast => by
      rw [uleb_last hlast] at h
      exact absurd h (by simp)
    rw [uleb_more hlast, Option.map_eq_none_iff] at h
    rw [readGroups]
    simp only [toNat_and_low, and_high_eq_zero]
    by_cases hover : i = 9 ∧ 1 < byte.toNat % 128
    · exact ⟨_, if_pos hover, .inl ⟨rfl, by omega⟩⟩
    · rw [if_neg hover, if_neg hlast]
      obtain ⟨message, heq, hmessage⟩ :=
        readGroups_none ctx len (result ||| (byte.toNat % 128) <<< (7 * i)) (show i + 1 + rest.length ≤ 10 by omega) h
      exact ⟨message, heq, hmessage.imp_left fun h => ⟨h.1, by omega⟩⟩

/-! ## The writer -/

/-- A form without a group to spare is what the writer writes. -/
theorem take_eq_putGroups : ∀ {buf : Bytes} {v n : Nat} (m : Nat), uleb buf = some (v, n) → (1 < n → 128 ^ (n - 1) ≤ v) →
    n ≤ m + 1 → buf.take n = putGroups m v
  | byte :: rest, v, n, m, h, hmin, hm => by
    by_cases hlast : byte.toNat < 128
    · rw [uleb_last hlast, Option.some.injEq, Prod.mk.injEq] at h
      obtain ⟨rfl, rfl⟩ := h
      cases m with
      | zero => simp [putGroups]
      | succ m => simp [putGroups, hlast]
    · rw [uleb_more hlast, Option.map_eq_some_iff] at h
      obtain ⟨⟨v', n'⟩, hrest, heq⟩ := h
      rw [Prod.mk.injEq] at heq
      obtain ⟨rfl, rfl⟩ := heq
      obtain ⟨hn', -⟩ := uleb_pos hrest
      have hpow : 128 ^ n' = 128 ^ (n' - 1) * 128 := by
        rw [← Nat.pow_succ, Nat.succ_eq_add_one, Nat.sub_add_cancel hn']
      have hv' : 128 ^ (n' - 1) ≤ v' := by
        have := hmin (by omega)
        rw [Nat.add_sub_cancel, hpow] at this
        omega
      have hpos : 0 < v' := Nat.lt_of_lt_of_le (Nat.pow_pos (by decide)) hv'
      obtain ⟨m, rfl⟩ : ∃ k, m = k + 1 := ⟨m - 1, by omega⟩
      have hbyte : UInt8.ofNat (byte.toNat % 128 + 128 * v') ||| 0x80 = byte := by
        have := byte.toNat_lt
        rw [← UInt8.toNat_inj, toNat_or_high]
        omega
      have hshift : (byte.toNat % 128 + 128 * v') >>> 7 = v' := by
        rw [Nat.shiftRight_eq_div_pow]
        omega
      rw [putGroups, if_neg (by omega), hbyte, hshift, List.take_succ_cons,
        take_eq_putGroups m hrest (fun _ => hv') (by omega)]

theorem readVarint_of_uleb (ctx : String) (h : uleb buf = some (v, n)) (hn : n ≤ maxVarintLen) :
    readVarint ctx buf = groupsEnd ctx 0 0 v n := by
  have htake : uleb (buf.take maxVarintLen) = some (v, n) := by
    rw [uleb_take, h, Option.filter_some, decide_eq_true hn]
    rfl
  exact readGroups_some ctx buf.length (by simp [maxVarintLen]) Nat.one_pos htake

/-- What has no end within ten groups. -/
theorem readVarint_of_none (ctx : String) (h : ∀ v n, uleb buf = some (v, n) → maxVarintLen < n) :
    ∃ message, readVarint ctx buf = .error (corrupt ctx message) ∧
      (buf.length < maxVarintLen → message = "truncated varint (continuation bit at EOF)") := by
  have htake : uleb (buf.take maxVarintLen) = none := by
    rw [uleb_take]
    cases hbuf : uleb buf with
    | none => rfl
    | some r =>
      rw [Option.filter_some, decide_eq_false (Nat.not_le.2 (h r.1 r.2 hbuf))]
      rfl
  obtain ⟨message, heq, hmessage⟩ := readGroups_none ctx buf.length 0 (show 0 + _ ≤ 10 by simp [maxVarintLen]) htake
  refine ⟨message, heq, fun hlen => ?_⟩
  rcases hmessage with ⟨-, hfull⟩ | rfl
  · rw [List.length_take, Nat.min_eq_right (Nat.le_of_lt hlen)] at hfull
    rw [maxVarintLen] at hlen
    omega
  · exact if_neg (Nat.not_le.2 hlen)

/-- **The reader takes exactly the writer's encodings.**  What was written is read back whatever follows it; what is read took the
bytes that the writer writes for it; a quantity that ends early, needs more than ten groups or 64 bits, or has a group to spare is
refused. -/
theorem readVarint_exact (ctx : String) :
    (∀ v < 2 ^ 64, ∀ rest, readVarint ctx (putVarint v ++ rest) = .ok (v, (putVarint v).length)) ∧
    (∀ buf v n, readVarint ctx buf = .ok (v, n) → v < 2 ^ 64 ∧ n ≤ buf.length ∧ buf.take n = putVarint v) ∧
    (∀ buf, uleb buf = none → buf.length < maxVarintLen →
      readVarint ctx buf = .error (corrupt ctx "truncated varint (continuation bit at EOF)")) ∧
    (∀ buf, (∀ v n, uleb buf = some (v, n) → maxVarintLen < n) → ∃ message, readVarint ctx buf = .error (corrupt ctx message)) ∧
    (∀ buf v n, uleb buf = some (v, n) → n ≤ maxVarintLen → 2 ^ 64 ≤ v →
      readVarint ctx buf = .error (corrupt ctx "varint overflows u64")) ∧
    (∀ buf v n, uleb buf = some (v, n) → n ≤ maxVarintLen → v < 2 ^ 64 → 1 < n → v < 128 ^ (n - 1) →
      readVarint ctx buf = .error (corrupt ctx "non-canonical varint (redundant trailing group)")) := by
  refine ⟨fun v hv rest => readVarint_putVarint ctx hv rest, fun buf v n h => ?_, fun buf h hlen => ?_, fun buf h => ?_,
    fun buf v n h hn hv => ?_, fun buf v n h hn hv hone hshort => ?_⟩
  · by_cases hend : ∃ v' n', uleb buf = some (v', n') ∧ n' ≤ maxVarintLen
    · obtain ⟨v', n', huleb, hn'⟩ := hend
      rw [readVarint_of_uleb ctx huleb hn', groupsEnd] at h
      simp only [Nat.pow_zero, Nat.mul_one, Nat.zero_add] at h
      by_cases hbig : 2 ^ 64 ≤ v'
      · rw [if_pos hbig] at h
        exact nomatch h
      · by_cases hshort : 1 < n' ∧ v' < 128 ^ (n' - 1)
        · rw [if_neg hbig, if_pos hshort] at h
          exact nomatch h
        · rw [if_neg hbig, if_neg hshort, Except.ok.injEq, Prod.mk.injEq] at h
          obtain ⟨rfl, rfl⟩ := h
          exact ⟨Nat.not_le.1 hbig, (uleb_pos huleb).2,
            take_eq_putGroups 9 huleb (fun hone => Nat.not_lt.1 fun hlt => hshort ⟨hone, hlt⟩) hn'⟩
    · obtain ⟨message, heq, -⟩ := @readVarint_of_none buf ctx
        fun v' n' huleb => Nat.not_le.1 fun hn' => hend ⟨v', n', huleb, hn'⟩
      rw [heq] at h
      exact nomatch h
  · obtain ⟨message, heq, hmessage⟩ := @readVarint_of_none buf ctx fun v n huleb => by
      rw [h] at huleb
      exact nomatch huleb
    rw [heq, hmessage hlen]
  · obtain ⟨message, heq, -⟩ := readVarint_of_none ctx h
    exact ⟨message, heq⟩
  · rw [readVarint_of_uleb ctx h hn, groupsEnd, if_pos (by simpa using hv)]
  · rw [readVarint_of_uleb ctx h hn, groupsEnd, if_neg (by simpa using hv), if_pos (by simpa using ⟨hone, hshort⟩)]

end V6
end Heraclitus
