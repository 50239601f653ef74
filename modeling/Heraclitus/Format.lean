import Heraclitus.Core
import Heraclitus.Lib.LittleEndian
/-!
# Format — the bytes of a legacy segment (`heraclitus-log/src/format.rs`, `cpm.rs`)

`header ++ record* ++ footer?`, where a record is `len u32 | crc u32 | lsn u64 | hlc u64 | payload`.  What the checksum
covers depends on the version in the segment's header.  BLAKE3 and the older checksum are other crates' functions.
-/
namespace Heraclitus
namespace Legacy

def magic : Bytes := [0x48, 0x52, 0x4b, 0x4c]
def footerMagic : Bytes := [0x48, 0x46, 0x54, 0x52]
def formatVersion : Nat := 5
def headerLen : Nat := 4 + 2 + 8 + 8
def recordHeaderLen : Nat := 4 + 4 + 8 + 8
def footerLen : Nat := 4 + 8 + 8 + 8 + 32

/-- The sanity bound of every reader: a longer record is refused. -/
def maxPayloadLen : Nat := 512 * 1024 * 1024

/-- The hash functions of other crates. -/
structure Hashes where
  crc32 : Bytes → UInt32
  blake3 : Bytes → Digest

/-! ## CRC-32C -/

def crcShift (crc : UInt32) : UInt32 := if crc &&& 1 ≠ 0 then (crc >>> 1) ^^^ 0x82F63B78 else crc >>> 1

/-- An entry of `CRC32C_TABLE`. -/
def crcEntry (i : UInt32) : UInt32 := Nat.repeat crcShift 8 i

def updateTabela (crc : UInt32) (data : Bytes) : UInt32 :=
  data.foldl (fun crc b => crcEntry ((crc ^^^ b.toUInt32) &&& 0xFF) ^^^ (crc >>> 8)) crc

def crc32c (data : Bytes) : UInt32 := ~~~ updateTabela 0xFFFFFFFF data

/-! ## Header and footer -/

structure SegmentHeader where
  version : Nat
  segmentId : Nat
  createdHlc : Nat

def SegmentHeader.encode (h : SegmentHeader) : Bytes :=
  magic ++ leBytes 2 h.version ++ leBytes 8 h.segmentId ++ leBytes 8 h.createdHlc

def SegmentHeader.decode (buf : Bytes) : Except HeraclitusError SegmentHeader :=
  if buf.length < headerLen ∨ buf.take 4 ≠ magic then
    .error (.corruption "segment header" "bad magic or short header")
  else
    let version := leNat ((buf.drop 4).take 2)
    if formatVersion < version then
      .error (.corruption "segment header"
        s!"format negotiation failed: on-disk major {version} > supported {formatVersion}")
    else .ok { version := version, segmentId := leNat ((buf.drop 6).take 8), createdHlc := leNat ((buf.drop 14).take 8) }

structure SegmentFooter where
  recordCount : Nat
  minLsn : Nat
  maxLsn : Nat
  blake3Root : Digest

def SegmentFooter.encode (f : SegmentFooter) : Bytes :=
  footerMagic ++ leBytes 8 f.recordCount ++ leBytes 8 f.minLsn ++ leBytes 8 f.maxLsn ++ f.blake3Root.1

/-- `buf[28..60]` as an array. -/
def toDigest (b : Bytes) : Digest :=
  if h : b.length = 32 then ⟨b, h⟩ else Digest.replicate 0

def SegmentFooter.decode (buf : Bytes) : Option SegmentFooter :=
  if buf.length < footerLen ∨ buf.take 4 ≠ footerMagic then none
  else some {
    recordCount := leNat ((buf.drop 4).take 8), minLsn := leNat ((buf.drop 12).take 8),
    maxLsn := leNat ((buf.drop 20).take 8), blake3Root := toDigest ((buf.drop 28).take 32) }

/-! ## Records -/

variable (H : Hashes)

/-- The CRC over a record's authenticated region, which never includes the CRC field itself. -/
def authenticatedCrc (version : Nat) (record : Bytes) : UInt32 :=
  if version < 2 then H.crc32 (record.drop recordHeaderLen)
  else if version < 5 then H.crc32 (record.take 4 ++ record.drop 8)
  else crc32c (record.take 4 ++ record.drop 8)

def recordLeaf (version : Nat) (record : Bytes) : Digest :=
  if version < 2 then H.blake3 (record.drop recordHeaderLen) else H.blake3 (record.take 4 ++ record.drop 8)

def encodeRecord (version lsn hlc : Nat) (payload : Bytes) : Bytes :=
  let len := leBytes 4 payload.length
  let rest := leBytes 8 lsn ++ leBytes 8 hlc ++ payload
  len ++ leBytes 4 (authenticatedCrc H version (len ++ leBytes 4 0 ++ rest)).toNat ++ rest

inductive Decoded where
  | record (lsn hlc : Nat) (payload : Bytes) (consumed : Nat)
  | footer (f : SegmentFooter)
  | torn

def decodeRecord (version : Nat) (buf : Bytes) : Decoded :=
  if buf.take 4 = footerMagic then
    match SegmentFooter.decode buf with
    | some f => .footer f
    | none => .torn
  else if buf.length < recordHeaderLen then .torn
  else
    let len := leNat (buf.take 4)
    if maxPayloadLen < len then .torn
    else
      let total := recordHeaderLen + len
      if buf.length < total then .torn
      else if (authenticatedCrc H version (buf.take total)).toNat ≠ leNat ((buf.drop 4).take 4) then .torn
      else .record (leNat ((buf.drop 8).take 8)) (leNat ((buf.drop 16).take 8))
        ((buf.take total).drop recordHeaderLen) total

/-- One level of the Merkle tree; an odd last node is paired with itself. -/
def merkleLevel : List Digest → List Digest
  | a :: b :: l => H.blake3 (a.1 ++ b.1) :: merkleLevel l
  | [a] => [H.blake3 (a.1 ++ a.1)]
  | [] => []

/-- The levels up to the root; as many levels as leaves are enough. -/
def merkleRootFrom : Nat → List Digest → Digest
  | _, [] => Digest.replicate 0
  | _, [a] => a
  | 0, a :: _ => a
  | fuel + 1, l => merkleRootFrom fuel (merkleLevel H l)

def merkleRoot (hashes : List Digest) : Digest := merkleRootFrom H hashes.length hashes

/-! ## What the reader finds -/

/-- A field of a byte layout, found at its offset. -/
theorem take_drop_field {a b c : Bytes} {i n : Nat} (ha : a.length = i) (hb : b.length = n) :
    ((a ++ (b ++ c)).drop i).take n = b := by
  rw [List.drop_left' ha, List.take_left' hb]

theorem leNat_footerMagic : leNat footerMagic = 1381254728 := by decide

/-- No admissible length spells the footer's magic. -/
theorem leBytes_ne_footerMagic {n : Nat} (h : n ≤ maxPayloadLen) : leBytes 4 n ≠ footerMagic := by
  intro heq
  have hn : n < 256 ^ 4 := by unfold maxPayloadLen at h; omega
  have := leNat_leBytes_of_lt hn
  rw [heq, leNat_footerMagic] at this
  unfold maxPayloadLen at h
  omega

section Record

variable (version lsn hlc : Nat) (payload tail : Bytes)

theorem encodeRecord_eq : ∃ crc : Bytes, crc.length = 4 ∧
    leNat crc = (authenticatedCrc H version (encodeRecord H version lsn hlc payload)).toNat ∧
    encodeRecord H version lsn hlc payload
      = leBytes 4 payload.length ++ (crc ++ (leBytes 8 lsn ++ (leBytes 8 hlc ++ payload))) := by
  let rest := leBytes 8 lsn ++ leBytes 8 hlc ++ payload
  let crc := authenticatedCrc H version (leBytes 4 payload.length ++ leBytes 4 0 ++ rest)
  refine ⟨leBytes 4 crc.toNat, length_leBytes 4 _, ?_, by simp [encodeRecord, crc, rest]⟩
  rw [leNat_leBytes_of_lt crc.toNat_lt]
  -- the CRC field is not part of what the CRC covers
  have hcover : ∀ c d : Bytes, c.length = 4 → d.length = 4 →
      authenticatedCrc H version (leBytes 4 payload.length ++ c ++ rest)
        = authenticatedCrc H version (leBytes 4 payload.length ++ d ++ rest) := fun c d hc hd => by
    have h8 : ∀ x : Bytes, x.length = 4 → (leBytes 4 payload.length ++ x ++ rest).drop 8 = rest :=
      fun x hx => List.drop_left' (by rw [List.length_append, length_leBytes, hx])
    have h4 : ∀ x : Bytes, (leBytes 4 payload.length ++ x ++ rest).take 4 = leBytes 4 payload.length :=
      fun x => by rw [List.append_assoc]; exact List.take_left' (length_leBytes 4 _)
    have h24 : ∀ x : Bytes, x.length = 4 → (leBytes 4 payload.length ++ x ++ rest).drop recordHeaderLen = payload :=
      fun x hx => by
        rw [← List.append_assoc]
        exact List.drop_left' (by simp [hx, recordHeaderLen])
    unfold authenticatedCrc
    rw [h4, h4, h8 c hc, h8 d hd, h24 c hc, h24 d hd]
  exact congrArg UInt32.toNat (hcover _ _ (length_leBytes 4 _) (length_leBytes 4 _))

@[simp] theorem length_encodeRecord :
    (encodeRecord H version lsn hlc payload).length = recordHeaderLen + payload.length := by
  simp [encodeRecord, recordHeaderLen]
  omega

theorem take_four_encodeRecord : (encodeRecord H version lsn hlc payload ++ tail).take 4 = leBytes 4 payload.length := by
  rw [encodeRecord, List.append_assoc, List.append_assoc]
  exact List.take_left' (length_leBytes 4 _)

variable {lsn payload}

/-- **A record decodes to what was encoded**, whatever follows it. -/
theorem decodeRecord_encodeRecord (hlsn : lsn < 2 ^ 64) (hlen : payload.length ≤ maxPayloadLen) :
    decodeRecord H version (encodeRecord H version lsn hlc payload ++ tail)
      = .record lsn (hlc % 2 ^ 64) payload (recordHeaderLen + payload.length) := by
  obtain ⟨crc, hcrclen, hcrc, heq⟩ := encodeRecord_eq H version lsn hlc payload
  have hfour := take_four_encodeRecord H version lsn hlc payload tail
  have hlen4 : leNat (leBytes 4 payload.length) = payload.length :=
    leNat_leBytes_of_lt (by unfold maxPayloadLen at hlen; omega)
  have htake : (encodeRecord H version lsn hlc payload ++ tail).take (recordHeaderLen + payload.length)
      = encodeRecord H version lsn hlc payload := List.take_left' (length_encodeRecord H version lsn hlc payload)
  have hlength : (encodeRecord H version lsn hlc payload ++ tail).length
      = recordHeaderLen + payload.length + tail.length := by rw [List.length_append, length_encodeRecord]
  have hcrc4 : ((encodeRecord H version lsn hlc payload ++ tail).drop 4).take 4 = crc := by
    rw [heq, List.append_assoc, List.append_assoc]
    exact take_drop_field (length_leBytes 4 _) hcrclen
  have hlsn8 : ((encodeRecord H version lsn hlc payload ++ tail).drop 8).take 8 = leBytes 8 lsn := by
    have : encodeRecord H version lsn hlc payload ++ tail
        = (leBytes 4 payload.length ++ crc) ++ (leBytes 8 lsn ++ (leBytes 8 hlc ++ payload ++ tail)) := by
      simp only [heq, List.append_assoc]
    rw [this]
    exact take_drop_field (by simp [hcrclen]) (length_leBytes 8 _)
  have hhlc8 : ((encodeRecord H version lsn hlc payload ++ tail).drop 16).take 8 = leBytes 8 hlc := by
    have : encodeRecord H version lsn hlc payload ++ tail
        = (leBytes 4 payload.length ++ crc ++ leBytes 8 lsn) ++ (leBytes 8 hlc ++ (payload ++ tail)) := by
      simp only [heq, List.append_assoc]
    rw [this]
    exact take_drop_field (by simp [hcrclen]) (length_leBytes 8 _)
  have hpayload : (encodeRecord H version lsn hlc payload).drop recordHeaderLen = payload := by
    have : encodeRecord H version lsn hlc payload
        = (leBytes 4 payload.length ++ crc ++ leBytes 8 lsn ++ leBytes 8 hlc) ++ payload := by
      simp only [heq, List.append_assoc]
    rw [this]
    exact List.drop_left' (by simp [hcrclen, recordHeaderLen])
  have hwidth : 256 ^ 8 = 2 ^ 64 := by decide
  unfold decodeRecord
  rw [hfour, if_neg (leBytes_ne_footerMagic hlen), hlength, hlen4, if_neg (by omega), if_neg (by omega),
    if_neg (by omega), htake, hcrc4, if_neg (by rw [hcrc]; exact fun h => h rfl), hlsn8, hhlc8, hpayload,
    leNat_leBytes_of_lt hlsn, leNat_leBytes, hwidth]

/-- The length field stands in front, also of a piece of a record. -/
theorem take_four_of_isPrefix {pre : Bytes} (hpre : pre <+: encodeRecord H version lsn hlc payload) (hfour : 4 ≤ pre.length) :
    (pre ++ tail).take 4 = leBytes 4 payload.length := by
  obtain ⟨rest, hrest⟩ := hpre
  have hwhole := take_four_encodeRecord H version lsn hlc payload []
  rw [← hrest, List.append_assoc, List.take_append_of_le_length hfour] at hwhole
  rw [List.take_append_of_le_length hfour, hwhole]

/-- **A record that is cut off is torn**, wherever the cut is. -/
theorem decodeRecord_of_isPrefix {pre : Bytes} (hlen : payload.length ≤ maxPayloadLen)
    (hpre : pre <+: encodeRecord H version lsn hlc payload) (hne : pre ≠ encodeRecord H version lsn hlc payload) :
    decodeRecord H version pre = .torn := by
  have hshort : pre.length < recordHeaderLen + payload.length := by
    rw [← length_encodeRecord H version lsn hlc payload]
    exact Nat.lt_of_le_of_ne hpre.length_le (fun heq => hne (hpre.eq_of_length heq))
  by_cases hfour : 4 ≤ pre.length
  · have hfield := take_four_of_isPrefix H version hlc [] hpre hfour
    rw [List.append_nil] at hfield
    have hlen4 : leNat (leBytes 4 payload.length) = payload.length :=
      leNat_leBytes_of_lt (by unfold maxPayloadLen at hlen; omega)
    rw [decodeRecord, hfield, if_neg (leBytes_ne_footerMagic hlen), hlen4]
    by_cases hheader : pre.length < recordHeaderLen
    · exact if_pos hheader
    · rw [if_neg hheader, if_neg (Nat.not_lt.2 hlen), if_pos hshort]
  · have hmagic : ¬pre.take 4 = footerMagic := by
      intro heq
      have hlength := congrArg List.length heq
      rw [List.length_take, show footerMagic.length = 4 from rfl] at hlength
      omega
    rw [decodeRecord, if_neg hmagic, if_pos (Nat.lt_trans (Nat.not_le.1 hfour) (by decide))]

/-- **The first bytes of a record are not a footer's.** -/
theorem not_footer_of_isPrefix {pre : Bytes} (hlen : payload.length ≤ maxPayloadLen)
    (hpre : pre <+: encodeRecord H version lsn hlc payload) (hfour : 4 ≤ pre.length) :
    SegmentFooter.decode (pre ++ tail) = none ∧ ∀ f, decodeRecord H version (pre ++ tail) ≠ .footer f := by
  have hmagic : ¬(pre ++ tail).take 4 = footerMagic := by
    rw [take_four_of_isPrefix H version hlc tail hpre hfour]
    exact leBytes_ne_footerMagic hlen
  refine ⟨by rw [SegmentFooter.decode, if_pos (.inr hmagic)], fun f hf => ?_⟩
  rw [decodeRecord, if_neg hmagic] at hf
  dsimp only at hf
  split_ifs at hf

/-- **The framing of a record**: it decodes to itself in front of anything, a strict prefix of it is torn, and its first bytes
are no footer's. -/
theorem record_framing (hlsn : lsn < 2 ^ 64) (hhlc : hlc < 2 ^ 64) (hlen : payload.length ≤ maxPayloadLen) :
    (∀ tail, decodeRecord H version (encodeRecord H version lsn hlc payload ++ tail)
      = .record lsn hlc payload (encodeRecord H version lsn hlc payload).length) ∧
    (∀ pre, pre <+: encodeRecord H version lsn hlc payload → pre ≠ encodeRecord H version lsn hlc payload →
      decodeRecord H version pre = .torn) ∧
    ∀ pre tail, pre <+: encodeRecord H version lsn hlc payload → 4 ≤ pre.length →
      SegmentFooter.decode (pre ++ tail) = none ∧ ∀ f, decodeRecord H version (pre ++ tail) ≠ .footer f := by
  refine ⟨fun tail => ?_, fun pre => decodeRecord_of_isPrefix H version hlc hlen,
    fun pre tail hpre => not_footer_of_isPrefix H version hlc tail hlen hpre⟩
  rw [decodeRecord_encodeRecord H version hlc tail hlsn hlen, Nat.mod_eq_of_lt hhlc, length_encodeRecord]

end Record

/-- A record of the present version. -/
theorem framing_of_three_bytes :
    let H : Hashes := { crc32 := fun _ => 0, blake3 := fun _ => Digest.replicate 0 }
    (∀ tail, decodeRecord H formatVersion (encodeRecord H formatVersion (2 ^ 64 - 1) 7 [1, 2, 3] ++ tail)
      = .record (2 ^ 64 - 1) 7 [1, 2, 3] (encodeRecord H formatVersion (2 ^ 64 - 1) 7 [1, 2, 3]).length) ∧
    (∀ pre, pre <+: encodeRecord H formatVersion (2 ^ 64 - 1) 7 [1, 2, 3] →
      pre ≠ encodeRecord H formatVersion (2 ^ 64 - 1) 7 [1, 2, 3] → decodeRecord H formatVersion pre = .torn) ∧
    ∀ pre tail, pre <+: encodeRecord H formatVersion (2 ^ 64 - 1) 7 [1, 2, 3] → 4 ≤ pre.length →
      SegmentFooter.decode (pre ++ tail) = none ∧ ∀ f, decodeRecord H formatVersion (pre ++ tail) ≠ .footer f :=
  record_framing _ formatVersion 7 (by decide) (by decide) (by decide)

@[simp] theorem SegmentHeader.length_encode (h : SegmentHeader) : h.encode.length = headerLen := by
  simp [SegmentHeader.encode, magic, headerLen]

@[simp] theorem SegmentFooter.length_encode (f : SegmentFooter) : f.encode.length = footerLen := by
  simp [SegmentFooter.encode, footerMagic, footerLen, f.blake3Root.2]

theorem SegmentHeader.decode_encode (h : SegmentHeader) (hv : h.version ≤ formatVersion) :
    ∃ h', SegmentHeader.decode h.encode = .ok h' ∧ h'.version = h.version := by
  have hver : leNat ((h.encode.drop 4).take 2) = h.version := by
    have : h.encode = magic ++ (leBytes 2 h.version ++ (leBytes 8 h.segmentId ++ leBytes 8 h.createdHlc)) := by
      simp [SegmentHeader.encode]
    rw [this, take_drop_field (by rfl) (length_leBytes 2 _)]
    exact leNat_leBytes_of_lt (Nat.lt_of_le_of_lt hv (by decide))
  have hmagic : h.encode.take 4 = magic := by
    rw [SegmentHeader.encode, List.append_assoc, List.append_assoc]
    exact List.take_left' (by rfl)
  have hnot : ¬(h.encode.length < headerLen ∨ h.encode.take 4 ≠ magic) := by
    rw [SegmentHeader.length_encode, hmagic]
    exact fun hor => hor.elim (Nat.lt_irrefl _) (fun hne => hne rfl)
  refine ⟨⟨leNat ((h.encode.drop 4).take 2), leNat ((h.encode.drop 6).take 8), leNat ((h.encode.drop 14).take 8)⟩, ?_,
    hver⟩
  rw [SegmentHeader.decode, if_neg hnot]
  exact if_neg (by rw [hver]; exact Nat.not_lt.2 hv)

/-- A footer is read as it was written, up to what its numbers fit. -/
theorem SegmentFooter.decode_encode_eq (f : SegmentFooter) : SegmentFooter.decode f.encode = some {
    recordCount := leNat (leBytes 8 f.recordCount), minLsn := leNat (leBytes 8 f.minLsn),
    maxLsn := leNat (leBytes 8 f.maxLsn), blake3Root := f.blake3Root } := by
  have hmagic : f.encode.take 4 = footerMagic := by
    rw [SegmentFooter.encode, List.append_assoc, List.append_assoc, List.append_assoc]
    exact List.take_left' (by rfl)
  have hnot : ¬(f.encode.length < footerLen ∨ f.encode.take 4 ≠ footerMagic) := by
    rw [SegmentFooter.length_encode, hmagic]
    exact fun hor => hor.elim (Nat.lt_irrefl _) (fun hne => hne rfl)
  have h4 : (f.encode.drop 4).take 8 = leBytes 8 f.recordCount := by
    have : f.encode = footerMagic ++ (leBytes 8 f.recordCount ++ (leBytes 8 f.minLsn ++ leBytes 8 f.maxLsn
        ++ f.blake3Root.1)) := by simp [SegmentFooter.encode]
    rw [this]
    exact take_drop_field (by rfl) (length_leBytes 8 _)
  have h12 : (f.encode.drop 12).take 8 = leBytes 8 f.minLsn := by
    have : f.encode = (footerMagic ++ leBytes 8 f.recordCount) ++ (leBytes 8 f.minLsn ++ (leBytes 8 f.maxLsn
        ++ f.blake3Root.1)) := by simp [SegmentFooter.encode]
    rw [this]
    exact take_drop_field (by simp [footerMagic]) (length_leBytes 8 _)
  have h20 : (f.encode.drop 20).take 8 = leBytes 8 f.maxLsn := by
    have : f.encode = (footerMagic ++ leBytes 8 f.recordCount ++ leBytes 8 f.minLsn) ++ (leBytes 8 f.maxLsn
        ++ (f.blake3Root.1)) := by simp [SegmentFooter.encode]
    rw [this]
    exact take_drop_field (by simp [footerMagic]) (length_leBytes 8 _)
  have h28 : (f.encode.drop 28).take 32 = f.blake3Root.1 := by
    have hdrop : f.encode.drop 28 = f.blake3Root.1 := List.drop_left' (by simp [footerMagic])
    rw [hdrop, List.take_of_length_le (Nat.le_of_eq f.blake3Root.2)]
  have hroot : toDigest f.blake3Root.1 = f.blake3Root := by
    rw [toDigest, dif_pos f.blake3Root.2]
  rw [SegmentFooter.decode, if_neg hnot, h4, h12, h20, h28, hroot]

theorem SegmentFooter.decode_encode (f : SegmentFooter) (hcount : f.recordCount < 2 ^ 64) (hmin : f.minLsn < 2 ^ 64)
    (hmax : f.maxLsn < 2 ^ 64) : SegmentFooter.decode f.encode = some f := by
  rw [f.decode_encode_eq, leNat_leBytes_of_lt hcount, leNat_leBytes_of_lt hmin, leNat_leBytes_of_lt hmax]

end Legacy
end Heraclitus
