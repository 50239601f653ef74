import Heraclitus.V6Raw
/-!
# V6RawScan — what a scan finds in a RAW segment

A file is its header, whole records and a tail.  The scan reads the records whatever the tail is; the tail is nothing, a
footer, or torn: a part of a record or of a footer, which is where any cut behind the header ends.
-/
namespace Heraclitus
namespace V6

def RawRecord.encode (r : RawRecord) : Bytes := encodeRawRecord r.lsn r.hlc r.payload

def RawRecord.size (r : RawRecord) : Nat := rawRecordHeaderLen + r.payload.length

/-- A record of the widths of its types that `append` accepts. -/
structure RawRecord.Wide (r : RawRecord) : Prop where
  lsn : r.lsn < 2 ^ 64
  hlc : r.hlc < 2 ^ 64
  payload : r.payload.length ≤ hardMaxRecordBytes

def encodeRecords (rs : List RawRecord) : Bytes := rs.flatMap RawRecord.encode

def sizes (rs : List RawRecord) : Nat := (rs.map RawRecord.size).sum

@[simp] theorem RawRecord.length_encode (r : RawRecord) : r.encode.length = r.size := length_encodeRawRecord _ _ _

@[simp] theorem encodeRecords_nil : encodeRecords [] = [] := rfl

@[simp] theorem encodeRecords_cons (r : RawRecord) (rs : List RawRecord) :
    encodeRecords (r :: rs) = r.encode ++ encodeRecords rs := List.flatMap_cons

@[simp] theorem encodeRecords_append (rs ss : List RawRecord) :
    encodeRecords (rs ++ ss) = encodeRecords rs ++ encodeRecords ss := List.flatMap_append

@[simp] theorem sizes_nil : sizes [] = 0 := rfl

@[simp] theorem sizes_cons (r : RawRecord) (rs : List RawRecord) : sizes (r :: rs) = r.size + sizes rs := by
  simp [sizes]

@[simp] theorem sizes_append (rs ss : List RawRecord) : sizes (rs ++ ss) = sizes rs + sizes ss := by
  simp [sizes]

@[simp] theorem length_encodeRecords : ∀ rs : List RawRecord, (encodeRecords rs).length = sizes rs
  | [] => rfl
  | r :: rs => by simp [length_encodeRecords rs]

theorem length_le_sizes : ∀ rs : List RawRecord, rs.length ≤ sizes rs
  | [] => Nat.le_refl _
  | r :: rs => by
    have := length_le_sizes rs
    simp [RawRecord.size, rawRecordHeaderLen]
    omega

/-! ## The loop -/

theorem decodeRawRecord_cons {r : RawRecord} (h : r.Wide) (tail : Bytes) :
    decodeRawRecord (r.encode ++ tail) = .record r.lsn r.hlc r.payload r.size :=
  decodeRawRecord_encode tail h.lsn h.hlc h.payload

/-- **The scan reads every whole record.** -/
theorem scanRecords_records (tail : Bytes) (fuel : Nat) : ∀ (rs : List RawRecord) (pos : Nat) (done : List RawRecord),
    (∀ r ∈ rs, r.Wide) → scanRecords (fuel + rs.length) (encodeRecords rs ++ tail) pos done
      = scanRecords fuel tail (pos + sizes rs) (done ++ rs)
  | [], pos, done, _ => by simp
  | r :: rs, pos, done, h => by
    have hne : r.encode ++ (encodeRecords rs ++ tail) ≠ [] := by
      intro hnil
      have := congrArg List.length hnil
      simp [RawRecord.size, rawRecordHeaderLen] at this
    have hfuel : fuel + (r :: rs).length = (fuel + rs.length) + 1 := rfl
    rw [encodeRecords_cons, List.append_assoc, hfuel, scanRecords, if_neg hne,
      decodeRawRecord_cons (h r List.mem_cons_self)]
    dsimp only
    rw [List.drop_left' r.length_encode,
      scanRecords_records tail fuel rs _ _ (fun q hq => h q (List.mem_cons_of_mem r hq))]
    simp [Nat.add_assoc]

/-- What ends a scan without an error: no record, and no complete footer. -/
structure Torn (tail : Bytes) : Prop where
  ne_nil : tail ≠ []
  decode : decodeRawRecord tail = .torn
  incomplete : ¬(tail.take 4 = footerMagic ∧ footerLen ≤ tail.length)

theorem take_four_ne_footerMagic {b : Bytes} (h : b.length < 4) : b.take 4 ≠ footerMagic := by
  intro heq
  have := congrArg List.length heq
  rw [List.length_take] at this
  simp [footerMagic] at this
  omega

/-- **A part of a record is torn.** -/
theorem torn_record (r : RawRecord) (hlen : r.payload.length ≤ hardMaxRecordBytes) {n : Nat} (hpos : 0 < n)
    (hn : n < r.size) : Torn (r.encode.take n) := by
  have hlength : (r.encode.take n).length = n := by
    rw [List.length_take, r.length_encode]
    omega
  have hmagic : (r.encode.take n).take 4 ≠ footerMagic := by
    by_cases h4 : n < 4
    · exact take_four_ne_footerMagic (by omega)
    · have hfour := take_four_encodeRawRecord r.lsn r.hlc r.payload []
      rw [List.append_nil] at hfour
      rw [List.take_take, Nat.min_eq_left (by omega)]
      exact fun heq => leBytes_ne_footerMagic hlen (hfour.symm.trans heq)
  refine ⟨fun hnil => ?_, ?_, fun h => hmagic h.1⟩
  · rw [hnil] at hlength
    simp at hlength
    omega
  · unfold decodeRawRecord
    rw [if_neg hmagic]
    by_cases h24 : (r.encode.take n).length < rawRecordHeaderLen
    · rw [if_pos h24]
    · rw [if_neg h24]
      have hfour : (r.encode.take n).take 4 = leBytes 4 r.payload.length := by
        have h := take_four_encodeRawRecord r.lsn r.hlc r.payload []
        rw [List.append_nil] at h
        rw [hlength] at h24
        simp only [rawRecordHeaderLen] at h24
        rw [List.take_take, Nat.min_eq_left (by omega)]
        exact h
      have hlen4 : leNat (leBytes 4 r.payload.length) = r.payload.length :=
        leNat_leBytes_of_lt (by unfold hardMaxRecordBytes at hlen; omega)
      dsimp only
      rw [hfour, hlen4, if_neg (by omega), if_pos (by rw [hlength]; exact hn)]

/-- **A part of a footer is torn.** -/
theorem torn_footer (f : FooterV6) {n : Nat} (hpos : 0 < n) (hn : n < footerLen) : Torn (f.encode.take n) := by
  have hlength : (f.encode.take n).length = n := by
    rw [List.length_take, f.length_encode]
    omega
  have hfooterLen : footerLen = 128 := rfl
  refine ⟨fun hnil => ?_, ?_, fun h => ?_⟩
  · rw [hnil] at hlength
    simp at hlength
    omega
  · unfold decodeRawRecord
    by_cases h4 : (f.encode.take n).take 4 = footerMagic
    · rw [if_pos h4, FooterV6.decode]
      dsimp only
      rw [if_pos (by omega)]
    · have hlt : n < 4 := by
        by_contra hge
        refine h4 ?_
        have := f.take_four_encode []
        rw [List.append_nil] at this
        rwa [List.take_take, Nat.min_eq_left (by omega)]
      rw [if_neg h4, if_pos (by rw [hlength]; exact Nat.lt_trans hlt (by decide))]
  · have := h.2
    omega

/-- A footer that the scan of these records accepts. -/
structure FooterV6.Seals (f : FooterV6) (rs : List RawRecord) : Prop where
  wide : f.Wide
  coherent : f.checkCoherence = .ok ()
  valid : validateRawFooter f rs = .ok ()

/-- The end of a file and what a scan says of it; `pos` is where it begins. -/
inductive Tail (rs : List RawRecord) (pos : Nat) : Bytes → Option FooterV6 → Option Nat → Prop
  | clean : Tail rs pos [] none none
  | torn {tail : Bytes} : Torn tail → Tail rs pos tail none (some pos)
  | sealed_ {f : FooterV6} : f.Seals rs → Tail rs pos f.encode (some f) none

theorem scanRecords_tail {rs : List RawRecord} {pos : Nat} {tail : Bytes} {footer : Option FooterV6} {tornAt : Option Nat}
    (h : Tail rs pos tail footer tornAt) {fuel : Nat} (hfuel : tail.length ≤ fuel) :
    scanRecords fuel tail pos rs = .ok (rs, footer, tornAt) := by
  cases h with
  | clean => cases fuel <;> simp [scanRecords]
  | torn ht =>
    obtain ⟨fuel, rfl⟩ : ∃ n, fuel = n + 1 := ⟨fuel - 1, by
      have := List.length_pos_iff.2 ht.ne_nil
      omega⟩
    rw [scanRecords, if_neg ht.ne_nil, ht.decode]
    dsimp only
    rw [if_neg ht.incomplete]
  | @sealed_ f hf =>
    have hlen := f.length_encode
    obtain ⟨fuel, rfl⟩ : ∃ n, fuel = n + 1 := ⟨fuel - 1, by
      simp only [footerLen] at hlen
      omega⟩
    have hne : f.encode ≠ [] := by
      intro hnil
      rw [hnil] at hlen
      cases hlen
    have hmagic := f.take_four_encode []
    have hdecode := FooterV6.decode_encode hf.wide hf.coherent []
    rw [List.append_nil] at hmagic hdecode
    rw [scanRecords, if_neg hne, decodeRawRecord, if_pos hmagic, hdecode]
    dsimp only
    rw [if_neg (by rw [hlen]; exact fun hne => hne rfl), hf.valid]

/-- A header as `create` writes it. -/
structure FileHeaderV6.Raw (h : FileHeaderV6) : Prop where
  wide : h.Wide
  layout : h.physicalLayout = .raw

/-- **The scan of a segment**: its header, its records and what its end is. -/
theorem scanRawBytes_eq {h : FileHeaderV6} (hh : h.Raw) {rs : List RawRecord} (hrs : ∀ r ∈ rs, r.Wide) {tail : Bytes}
    {footer : Option FooterV6} {tornAt : Option Nat} (ht : Tail rs (fileHeaderLen + sizes rs) tail footer tornAt) :
    scanRawBytes (h.encode ++ (encodeRecords rs ++ tail))
      = .ok { header := h, records := rs, footer := footer, tornAt := tornAt } := by
  have hlen := FileHeaderV6.length_encode hh.wide.storageNamespaceId
  have hcount := length_le_sizes rs
  unfold scanRawBytes
  rw [FileHeaderV6.decode_encode hh.wide]
  dsimp only
  rw [if_neg (fun hne => hne hh.layout), List.drop_left' hlen]
  have hfuel : (h.encode ++ (encodeRecords rs ++ tail)).length
      = (fileHeaderLen + sizes rs + tail.length - rs.length) + rs.length := by
    rw [List.length_append, List.length_append, hlen, length_encodeRecords]
    omega
  rw [hfuel, scanRecords_records tail _ rs _ [] hrs, List.nil_append, scanRecords_tail ht (by omega)]

/-! ## Cuts -/

/-- How many of the records lie wholly in the first `n` bytes. -/
def wholeIn : Nat → List RawRecord → Nat
  | _, [] => 0
  | n, r :: rs => if r.size ≤ n then wholeIn (n - r.size) rs + 1 else 0

theorem wholeIn_le : ∀ (rs : List RawRecord) (n : Nat), wholeIn n rs ≤ rs.length
  | [], _ => Nat.le_refl _
  | r :: rs, n => by
    unfold wholeIn
    split
    · exact Nat.succ_le_succ (wholeIn_le rs _)
    · exact Nat.zero_le _

/-- **The bytes before a position** are whole records and a part of the next one, or all the records and a part of what
follows them. -/
theorem take_encodeRecords (tail : Bytes) : ∀ (rs : List RawRecord) (n : Nat),
    (∃ r m, rs[wholeIn n rs]? = some r ∧ m < r.size ∧
      (encodeRecords rs ++ tail).take n = encodeRecords (rs.take (wholeIn n rs)) ++ r.encode.take m) ∨
    wholeIn n rs = rs.length ∧ (encodeRecords rs ++ tail).take n = encodeRecords rs ++ tail.take (n - sizes rs)
  | [], n => .inr ⟨rfl, by simp⟩
  | r :: rs, n => by
    by_cases hle : r.size ≤ n
    · have hwhole : wholeIn n (r :: rs) = wholeIn (n - r.size) rs + 1 := by rw [wholeIn, if_pos hle]
      have htake : (encodeRecords (r :: rs) ++ tail).take n
          = r.encode ++ (encodeRecords rs ++ tail).take (n - r.size) := by
        rw [encodeRecords_cons, List.append_assoc, List.take_append, r.length_encode,
          List.take_of_length_le (by rw [r.length_encode]; exact hle)]
      rw [hwhole, htake]
      rcases take_encodeRecords tail rs (n - r.size) with ⟨q, m, hq, hm, heq⟩ | ⟨hall, heq⟩
      · refine .inl ⟨q, m, by rwa [List.getElem?_cons_succ], hm, ?_⟩
        rw [heq]
        simp
      · refine .inr ⟨by rw [hall]; rfl, ?_⟩
        rw [heq, sizes_cons, Nat.sub_sub]
        simp
    · have hwhole : wholeIn n (r :: rs) = 0 := by rw [wholeIn, if_neg hle]
      refine .inl ⟨r, n, by rw [hwhole]; rfl, by omega, ?_⟩
      rw [hwhole, List.take_zero, encodeRecords_nil, List.nil_append, encodeRecords_cons, List.append_assoc]
      exact List.take_append_of_le_length (by rw [r.length_encode]; omega)

/-- All the records that end before `n` are whole in the first `n` bytes. -/
theorem le_wholeIn : ∀ {rs : List RawRecord} {k n : Nat}, k ≤ rs.length → sizes (rs.take k) ≤ n → k ≤ wholeIn n rs
  | [], k, n, hk, _ => Nat.le_trans hk (Nat.zero_le _)
  | r :: rs, 0, n, _, _ => Nat.zero_le _
  | r :: rs, k + 1, n, hk, hn => by
    rw [List.take_succ_cons, sizes_cons] at hn
    rw [wholeIn, if_pos (by omega)]
    exact Nat.succ_le_succ (le_wholeIn (Nat.le_of_succ_le_succ hk) (by omega))

theorem sizes_take_of_le_wholeIn : ∀ {rs : List RawRecord} {k n : Nat}, k ≤ wholeIn n rs → sizes (rs.take k) ≤ n
  | _, 0, _, _ => Nat.zero_le _
  | [], k + 1, n, h => absurd h (Nat.not_succ_le_zero k)
  | r :: rs, k + 1, n, h => by
    rw [wholeIn] at h
    split at h
    · rename_i hle
      have hrest := sizes_take_of_le_wholeIn (Nat.le_of_succ_le_succ h)
      rw [List.take_succ_cons, sizes_cons]
      omega
    · exact absurd h (Nat.not_succ_le_zero k)

/-- **The whole records** are those that end before the cut. -/
theorem le_wholeIn_iff {rs : List RawRecord} {k n : Nat} (hk : k ≤ rs.length) : k ≤ wholeIn n rs ↔ sizes (rs.take k) ≤ n :=
  ⟨sizes_take_of_le_wholeIn, le_wholeIn hk⟩

end V6
end Heraclitus
