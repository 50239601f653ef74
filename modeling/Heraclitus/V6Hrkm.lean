import Heraclitus.V6Format
import Heraclitus.V6Manifest
import Heraclitus.V6Varint
import Heraclitus.Lib.Reader
/-!
# V6Hrkm — the bytes of a manifest file (`heraclitus-log/src/v6/manifest.rs`)

`header(64) ++ descriptor* ++ footer(96)`.  The checksum in the footer covers the whole file, itself as zeros; the digest
beside it covers the descriptors.  The reader refuses more than the writer does: a descriptor that contradicts itself, a
location of more than 8 KiB, descriptors out of order.
-/
namespace Heraclitus
namespace V6
namespace Hrkm

open Legacy (crc32c toDigest)

def hrkmFooterMagic : Bytes := [0x48, 0x4b, 0x4d, 0x46]
def hrkmFormatVersion : Nat := 1
def hrkmHeaderLen : Nat := 64
def hrkmFooterLen : Nat := 96
def footerCrcOffset : Nat := 92
def hardMaxLocationBytes : Nat := 8 * 1024

/-! ## Primitive values -/

def utf8 (s : String) : Bytes := s.toByteArray.data.toList

def putStr (s : String) : Bytes := putVarint (utf8 s).length ++ utf8 s

def sliceAt (ctx : String) (len : Nat) : Reader HeraclitusError Bytes :=
  Reader.slice len (fun pos size => corrupt ctx s!"slice [{pos}..+{len}] out of bounds ({size} bytes)")

def readU8 (ctx : String) : Reader HeraclitusError UInt8 := do
  let raw ← sliceAt ctx 1
  pure (raw.headD 0)

def readBool (ctx : String) : Reader HeraclitusError Bool := do
  let b ← readU8 ctx
  if b = 0 then pure false
  else if b = 1 then pure true
  else Reader.fail (corrupt ctx s!"invalid boolean byte {b}")

def readV (ctx : String) : Reader HeraclitusError Nat := fun buf pos =>
  (readVarint ctx (buf.drop pos)).map (fun r => (r.1, pos + r.2))

def readU32 (ctx : String) : Reader HeraclitusError Nat := do
  let v ← readV ctx
  if v < 2 ^ 32 then pure v else Reader.fail (corrupt ctx "value exceeds u32")

def readU16Le (ctx : String) : Reader HeraclitusError Nat := do
  let raw ← sliceAt ctx 2
  pure (leNat raw)

def read32 (ctx : String) : Reader HeraclitusError Digest := do
  let raw ← sliceAt ctx 32
  pure (toDigest raw)

def readString (ctx : String) : Reader HeraclitusError String := do
  let len ← readV ctx
  if hardMaxLocationBytes < len then Reader.fail (corrupt ctx s!"string of {len} bytes exceeds the hard maximum")
  else
    let raw ← sliceAt ctx len
    match String.fromUTF8? raw.toByteArray with
    | some s => pure s
    | none => Reader.fail (corrupt ctx "location is not valid UTF-8")

def codecByte : CompressionCodec → UInt8
  | .raw => 0
  | .zstd => 1
  | .lz4Raw => 2

def codecFromByte (v : UInt8) : Except HeraclitusError CompressionCodec :=
  if v = 0 then .ok .raw
  else if v = 1 then .ok .zstd
  else if v = 2 then .ok .lz4Raw
  else .error (.corruption "compression codec" s!"unknown compression codec {v}")

def stateByte : GenerationState → UInt8
  | .writing => 0
  | .verified => 1
  | .active => 2
  | .superseded => 3
  | .archived => 4
  | .quarantined => 5

def stateFromByte (v : UInt8) : Except HeraclitusError GenerationState :=
  if v = 0 then .ok .writing
  else if v = 1 then .ok .verified
  else if v = 2 then .ok .active
  else if v = 3 then .ok .superseded
  else if v = 4 then .ok .archived
  else if v = 5 then .ok .quarantined
  else .error (.corruption "generation state" s!"unknown generation state {v}")

/-- An enumeration is read through its byte. -/
def readEnum {α : Type} (ctx : String) (fromByte : UInt8 → Except HeraclitusError α) : Reader HeraclitusError α := do
  let b ← readU8 ctx
  Reader.ofExcept (fromByte b)

/-! ## Descriptors -/

def encodeGeneration (g : PhysicalGeneration) : Bytes :=
  [putVarint g.generation, [layoutByte g.layout], [codecByte g.compression], [stateByte g.state],
    putVarint g.physicalSize, g.physicalDigest.1, putStr g.location, putVarint g.createdHlc, putVarint g.verifiedHlc,
    putVarint g.supersededHlc, putVarint g.verifiedCopies].flatten

def decodeGeneration : Reader HeraclitusError PhysicalGeneration := do
  let ctx := "hrkm generation"
  let generation ← readU32 ctx
  let layout ← readEnum ctx layoutFromByte
  let compression ← readEnum ctx codecFromByte
  let state ← readEnum ctx stateFromByte
  let physicalSize ← readV ctx
  let physicalDigest ← read32 ctx
  let location ← readString ctx
  let createdHlc ← readV ctx
  let verifiedHlc ← readV ctx
  let supersededHlc ← readV ctx
  let verifiedCopies ← readU32 ctx
  let g : PhysicalGeneration := {
    generation, layout, compression, location, physicalSize, physicalDigest, state, createdHlc, verifiedHlc
    supersededHlc, verifiedCopies }
  pure g

def encodeArtifact : Option DerivedArtifactRef → Bytes
  | none => [0]
  | some a => [[1], putStr a.location, putVarint a.size, a.digest.1, a.logicalRoot.1, putVarint a.createdHlc].flatten

def decodeArtifact : Reader HeraclitusError (Option DerivedArtifactRef) := do
  let ctx := "hrkm derived artifact"
  let present ← readU8 ctx
  if present = 0 then pure none
  else if present = 1 then do
    let location ← readString ctx
    let size ← readV ctx
    let digest ← read32 ctx
    let logicalRoot ← read32 ctx
    let createdHlc ← readV ctx
    let a : DerivedArtifactRef := { location, size, digest, logicalRoot, createdHlc }
    pure (some a)
  else Reader.fail (corrupt ctx s!"invalid presence byte {present}")

def boolByte (b : Bool) : UInt8 := if b then 1 else 0

def encodeSegment (s : SegmentDescriptorV2) : Bytes :=
  [putVarint s.segmentId, putVarint s.firstLsn, putVarint s.lastLsn, putVarint s.recordCount, leBytes 2 s.canonicalCodec,
    s.logicalRoot.1, putVarint s.minHlc, putVarint s.maxHlc, putVarint s.activeGeneration,
    putVarint s.generations.length, s.generations.flatMap encodeGeneration, encodeArtifact s.hrki,
    encodeArtifact s.parquet, [boolByte s.retention.legalHold], putVarint s.retention.gcGraceSeconds,
    putVarint s.retention.minVerifiedCopies, [boolByte s.retention.preserveLegacyOriginal]].flatten

/-- The count comes from the disk: it is checked against what is left, a generation taking eight bytes at least. -/
def decodeGenerations (ctx : String) : Reader HeraclitusError (List PhysicalGeneration) := do
  let genCount ← readV ctx
  let left ← Reader.remaining
  if left / 8 + 1 < genCount then Reader.fail (corrupt ctx "generation count exceeds remaining bytes")
  else decodeGeneration.times genCount

def decodeSegment : Reader HeraclitusError SegmentDescriptorV2 := do
  let ctx := "hrkm segment descriptor"
  let segmentId ← readV ctx
  let firstLsn ← readV ctx
  let lastLsn ← readV ctx
  let recordCount ← readV ctx
  let canonicalCodec ← readU16Le ctx
  let logicalRoot ← read32 ctx
  let minHlc ← readV ctx
  let maxHlc ← readV ctx
  let activeGeneration ← readU32 ctx
  let generations ← decodeGenerations ctx
  let hrki ← decodeArtifact
  let parquet ← decodeArtifact
  let legalHold ← readBool ctx
  let gcGraceSeconds ← readV ctx
  let minVerifiedCopies ← readU32 ctx
  let preserveLegacyOriginal ← readBool ctx
  let desc : SegmentDescriptorV2 := {
    segmentId, firstLsn, lastLsn, recordCount, canonicalCodec, logicalRoot, minHlc, maxHlc, activeGeneration, generations
    hrki, parquet, retention := { legalHold, gcGraceSeconds, minVerifiedCopies, preserveLegacyOriginal } }
  Reader.ofExcept (checkSegmentCoherence desc)
  pure desc

/-! ## The file -/

def headerFields (m : DatabaseManifest) : List Bytes :=
  [hrkmMagic, leBytes 2 hrkmFormatVersion, leBytes 2 hrkmHeaderLen, leBytes 8 m.manifestGeneration, m.storageNamespaceId,
    leBytes 8 m.cumulativeWatermark, leBytes 8 m.exportedThroughLsn, leBytes 4 m.segmentsV2.length, leBytes 4 0,
    leBytes 4 0]

def encodeHeader (m : DatabaseManifest) : Bytes :=
  (headerFields m).flatten ++ leBytes 4 (crc32c (headerFields m).flatten).toNat

variable (blake3 : Bytes → Digest)

/-- The footer in front of its checksum. -/
def footerFields (m : DatabaseManifest) (body : Bytes) : List Bytes :=
  [hrkmFooterMagic, leBytes 2 1, leBytes 2 hrkmFooterLen, leBytes 8 body.length, (blake3 body).1, m.statisticsRootHash.1,
    List.replicate 12 0]

def encodeBody (m : DatabaseManifest) : Bytes := m.segmentsV2.flatMap encodeSegment

def encodeManifest (m : DatabaseManifest) : Except HeraclitusError Bytes :=
  let ctx := "hrkm encode"
  if hardMaxSegments < m.segmentsV2.length then .error (corrupt ctx "too many segments for one manifest")
  else
    let body := encodeBody m
    if hardMaxBodyBytes < body.length then .error (corrupt ctx "manifest body exceeds the hard maximum")
    else
      let out := encodeHeader m ++ (body ++ (footerFields blake3 m body).flatten)
      .ok (out ++ leBytes 4 (crc32c (out ++ leBytes 4 0)).toNat)

/-- Ordered by `first_lsn`, which the binary search of §77 needs. -/
def ordered (segments : List SegmentDescriptorV2) : Bool :=
  decide (segments.IsChain (fun a b => a.firstLsn ≤ b.firstLsn))

def decodeManifest (buf : Bytes) : Except HeraclitusError DatabaseManifest :=
  let ctx := "hrkm"
  if buf.length < hrkmHeaderLen + hrkmFooterLen then
    .error (corrupt ctx "file too small to hold a header and a footer")
  else if buf.take 4 ≠ hrkmMagic then .error (corrupt ctx "bad magic")
  else
    let version := leNat ((buf.drop 4).take 2)
    let footerAt := buf.length - hrkmFooterLen
    let f := buf.drop footerAt
    let crcAt := footerAt + footerCrcOffset
    let body := (buf.drop hrkmHeaderLen).take (footerAt - hrkmHeaderLen)
    let segmentCount := leNat ((buf.drop 48).take 4)
    if version ≠ hrkmFormatVersion then .error (corrupt ctx s!"unsupported hrkm version {version}")
    else if leNat ((buf.drop 6).take 2) ≠ hrkmHeaderLen then .error (corrupt ctx "unexpected header_len")
    else if leNat ((buf.drop 60).take 4) ≠ (crc32c (buf.take 60)).toNat then
      .error (corrupt ctx "header crc32c mismatch")
    else if f.take 4 ≠ hrkmFooterMagic then .error (corrupt ctx "bad footer magic")
    else if leNat ((f.drop 6).take 2) ≠ hrkmFooterLen then .error (corrupt ctx "unexpected footer_len")
    else if leNat ((f.drop footerCrcOffset).take 4)
        ≠ (crc32c (buf.take crcAt ++ (leBytes 4 0 ++ buf.drop (crcAt + 4)))).toNat then
      .error (corrupt ctx "file crc32c mismatch")
    else if leNat ((f.drop 8).take 8) ≠ footerAt - hrkmHeaderLen then
      .error (corrupt ctx "body_len does not match the framed body")
    else if (blake3 body).1 ≠ (f.drop 16).take 32 then .error (corrupt ctx "body digest mismatch")
    else if hardMaxSegments < segmentCount then .error (corrupt ctx "segment_count above hard maximum")
    else
      match decodeSegment.times segmentCount body 0 with
      | .error e => .error e
      | .ok (segmentsV2, pos) =>
        if pos ≠ body.length then .error (corrupt ctx "trailing bytes after the declared segments")
        else if ordered segmentsV2 = false then .error (corrupt ctx "segments are not ordered by first_lsn")
        else .ok {
          manifestVersion := version
          formatIdentifier := hrkmMagic
          segments := []
          cumulativeWatermark := leNat ((buf.drop 32).take 8)
          statisticsRootHash := toDigest ((f.drop 48).take 32)
          storageNamespaceId := (buf.drop 16).take 16
          manifestGeneration := leNat ((buf.drop 8).take 8)
          segmentsV2 := segmentsV2
          exportedThroughLsn := leNat ((buf.drop 40).take 8) }

/-! ## What the types say of the values -/

structure WideGeneration (g : PhysicalGeneration) : Prop where
  generation : g.generation < 2 ^ 32
  physicalSize : g.physicalSize < 2 ^ 64
  createdHlc : g.createdHlc < 2 ^ 64
  verifiedHlc : g.verifiedHlc < 2 ^ 64
  supersededHlc : g.supersededHlc < 2 ^ 64
  verifiedCopies : g.verifiedCopies < 2 ^ 32

structure WideArtifact (a : DerivedArtifactRef) : Prop where
  size : a.size < 2 ^ 64
  createdHlc : a.createdHlc < 2 ^ 64

structure WideSegment (s : SegmentDescriptorV2) : Prop where
  segmentId : s.segmentId < 2 ^ 64
  firstLsn : s.firstLsn < 2 ^ 64
  lastLsn : s.lastLsn < 2 ^ 64
  recordCount : s.recordCount < 2 ^ 64
  canonicalCodec : s.canonicalCodec < 2 ^ 16
  minHlc : s.minHlc < 2 ^ 64
  maxHlc : s.maxHlc < 2 ^ 64
  activeGeneration : s.activeGeneration < 2 ^ 32
  length : s.generations.length < 2 ^ 64
  generations : ∀ g ∈ s.generations, WideGeneration g
  hrki : ∀ a ∈ s.hrki, WideArtifact a
  parquet : ∀ a ∈ s.parquet, WideArtifact a
  gcGraceSeconds : s.retention.gcGraceSeconds < 2 ^ 64
  minVerifiedCopies : s.retention.minVerifiedCopies < 2 ^ 32

structure WideManifest (m : DatabaseManifest) : Prop where
  cumulativeWatermark : m.cumulativeWatermark < 2 ^ 64
  exportedThroughLsn : m.exportedThroughLsn < 2 ^ 64
  storageNamespaceId : m.storageNamespaceId.length = 16
  segmentsV2 : ∀ s ∈ m.segmentsV2, WideSegment s

/-! ## What the reader refuses and the writer does not -/

def shortLocation (location : String) : Bool := decide ((utf8 location).length ≤ hardMaxLocationBytes)

def shortLocations (s : SegmentDescriptorV2) : Bool :=
  s.generations.all (fun g => shortLocation g.location) && s.hrki.all (fun a => shortLocation a.location) &&
    s.parquet.all (fun a => shortLocation a.location)

def legible (m : DatabaseManifest) : Bool :=
  m.segmentsV2.all (fun s => (checkSegmentCoherence s).isOk && shortLocations s) && ordered m.segmentsV2

/-- What a file keeps of a manifest: its version is the format's, and the v1 descriptors have no place in it. -/
def stored (m : DatabaseManifest) : DatabaseManifest :=
  { m with manifestVersion := hrkmFormatVersion, formatIdentifier := hrkmMagic, segments := [] }

/-! ## Every part is read back -/

section Parts

variable (ctx : String)

theorem takes_sliceAt {bytes : Bytes} {len : Nat} (h : bytes.length = len) : (sliceAt ctx len).Takes bytes bytes := by
  subst h
  exact Reader.takes_slice bytes _

theorem takes_readU8 (b : UInt8) : (readU8 ctx).Takes [b] b :=
  (takes_sliceAt ctx rfl).bind_end (Reader.takes_pure b)

theorem takes_readBool (b : Bool) : (readBool ctx).Takes [boolByte b] b := by
  refine (takes_readU8 ctx _).bind_end ?_
  cases b with
  | false => exact Reader.takes_pure false
  | true => exact Reader.takes_pure true

theorem takes_readV {v : Nat} (h : v < 2 ^ 64) : (readV ctx).Takes (putVarint v) v := by
  intro buf pos rest _ hdrop
  rw [readV, hdrop, readVarint_putVarint ctx h]
  rfl

theorem takes_readU32 {v : Nat} (h : v < 2 ^ 32) : (readU32 ctx).Takes (putVarint v) v := by
  refine (takes_readV ctx (Nat.lt_trans h (by decide))).bind_end ?_
  rw [if_pos h]
  exact Reader.takes_pure v

theorem takes_readU16Le {v : Nat} (h : v < 2 ^ 16) : (readU16Le ctx).Takes (leBytes 2 v) v := by
  refine (takes_sliceAt ctx (length_leBytes 2 v)).bind_end ?_
  rw [leNat_leBytes_of_lt h]
  exact Reader.takes_pure v

theorem takes_read32 (d : Digest) : (read32 ctx).Takes d.1 d := by
  refine (takes_sliceAt ctx d.2).bind_end ?_
  have hd : toDigest d.1 = d := by rw [toDigest, dif_pos d.2]
  rw [hd]
  exact Reader.takes_pure d

theorem toByteArray_utf8 (s : String) : (utf8 s).toByteArray = s.toByteArray := by
  refine ByteArray.ext ?_
  rw [List.data_toByteArray, utf8]

theorem takes_readString {s : String} (h : shortLocation s = true) : (readString ctx).Takes (putStr s) s := by
  have hlen : (utf8 s).length ≤ hardMaxLocationBytes := of_decide_eq_true h
  refine (takes_readV ctx (Nat.lt_of_le_of_lt hlen (by decide))).bind ?_
  rw [if_neg (Nat.not_lt.2 hlen)]
  refine (takes_sliceAt ctx rfl).bind_end ?_
  have hs : String.fromUTF8? (utf8 s).toByteArray = some s := by
    rw [toByteArray_utf8, String.fromUTF8?, dif_pos s.isValidUTF8]
    rfl
  rw [hs]
  exact Reader.takes_pure s

theorem takes_readEnum {α : Type} {fromByte : UInt8 → Except HeraclitusError α} {b : UInt8} {a : α}
    (h : fromByte b = .ok a) : (readEnum ctx fromByte).Takes [b] a :=
  (takes_readU8 ctx b).bind_end (Reader.takes_ofExcept h)

end Parts

theorem layoutFromByte_layoutByte (l : PhysicalLayout) : layoutFromByte (layoutByte l) = .ok l := by cases l <;> rfl

theorem codecFromByte_codecByte (c : CompressionCodec) : codecFromByte (codecByte c) = .ok c := by cases c <;> rfl

theorem stateFromByte_stateByte (s : GenerationState) : stateFromByte (stateByte s) = .ok s := by cases s <;> rfl

theorem takes_decodeGeneration {g : PhysicalGeneration} (hw : WideGeneration g) (hshort : shortLocation g.location = true) :
    decodeGeneration.Takes (encodeGeneration g) g := by
  unfold encodeGeneration decodeGeneration
  simp only [List.flatten_cons, List.flatten_nil]
  refine (takes_readU32 _ hw.generation).bind ?_
  refine (takes_readEnum _ (layoutFromByte_layoutByte g.layout)).bind ?_
  refine (takes_readEnum _ (codecFromByte_codecByte g.compression)).bind ?_
  refine (takes_readEnum _ (stateFromByte_stateByte g.state)).bind ?_
  refine (takes_readV _ hw.physicalSize).bind ?_
  refine (takes_read32 _ g.physicalDigest).bind ?_
  refine (takes_readString _ hshort).bind ?_
  refine (takes_readV _ hw.createdHlc).bind ?_
  refine (takes_readV _ hw.verifiedHlc).bind ?_
  refine (takes_readV _ hw.supersededHlc).bind ?_
  exact (takes_readU32 _ hw.verifiedCopies).bind (Reader.takes_pure g)

theorem takes_decodeArtifact : ∀ {o : Option DerivedArtifactRef}, (∀ a ∈ o, WideArtifact a) →
    o.all (fun a => shortLocation a.location) = true → decodeArtifact.Takes (encodeArtifact o) o
  | none, _, _ => (takes_readU8 _ 0).bind_end (Reader.takes_pure none)
  | some a, hw, hshort => by
    have hwide := hw a rfl
    unfold encodeArtifact decodeArtifact
    simp only [List.flatten_cons, List.flatten_nil]
    refine (takes_readU8 _ 1).bind ?_
    refine (takes_readString _ hshort).bind ?_
    refine (takes_readV _ hwide.size).bind ?_
    refine (takes_read32 _ a.digest).bind ?_
    refine (takes_read32 _ a.logicalRoot).bind ?_
    exact (takes_readV _ hwide.createdHlc).bind (Reader.takes_pure (some a))

theorem length_le_flatMap (l : List PhysicalGeneration) : 8 * l.length ≤ (l.flatMap encodeGeneration).length := by
  induction l with
  | nil => exact Nat.le_refl 0
  | cons g l ih =>
    have hg : 32 ≤ (encodeGeneration g).length := by
      simp only [encodeGeneration, List.flatten_cons, List.length_append, g.physicalDigest.2]
      omega
    rw [List.flatMap_cons, List.length_append, List.length_cons]
    omega

theorem takes_decodeGenerations (ctx : String) {l : List PhysicalGeneration} (hlen : l.length < 2 ^ 64)
    (hw : ∀ g ∈ l, WideGeneration g) (hshort : ∀ g ∈ l, shortLocation g.location = true) :
    (decodeGenerations ctx).Takes (putVarint l.length ++ l.flatMap encodeGeneration) l := by
  refine (takes_readV ctx hlen).bind (Reader.takes_remaining_bind (fun left hleft => ?_))
  have := length_le_flatMap l
  rw [if_neg (by omega)]
  exact Reader.takes_times l (fun g hg => takes_decodeGeneration (hw g hg) (hshort g hg))

theorem takes_decodeSegment {s : SegmentDescriptorV2} (hw : WideSegment s) (hcoherent : checkSegmentCoherence s = .ok ())
    (hshort : shortLocations s = true) : decodeSegment.Takes (encodeSegment s) s := by
  simp only [shortLocations, Bool.and_eq_true, List.all_eq_true] at hshort
  obtain ⟨⟨hgenerations, hhrki⟩, hparquet⟩ := hshort
  unfold encodeSegment decodeSegment
  simp only [List.flatten_cons, List.flatten_nil]
  refine (takes_readV _ hw.segmentId).bind ?_
  refine (takes_readV _ hw.firstLsn).bind ?_
  refine (takes_readV _ hw.lastLsn).bind ?_
  refine (takes_readV _ hw.recordCount).bind ?_
  refine (takes_readU16Le _ hw.canonicalCodec).bind ?_
  refine (takes_read32 _ s.logicalRoot).bind ?_
  refine (takes_readV _ hw.minHlc).bind ?_
  refine (takes_readV _ hw.maxHlc).bind ?_
  refine (takes_readU32 _ hw.activeGeneration).bind ?_
  rw [← List.append_assoc (putVarint s.generations.length)]
  refine (takes_decodeGenerations _ hw.length hw.generations hgenerations).bind ?_
  refine (takes_decodeArtifact hw.hrki hhrki).bind ?_
  refine (takes_decodeArtifact hw.parquet hparquet).bind ?_
  refine (takes_readBool _ s.retention.legalHold).bind ?_
  refine (takes_readV _ hw.gcGraceSeconds).bind ?_
  refine (takes_readU32 _ hw.minVerifiedCopies).bind ?_
  refine (takes_readBool _ s.retention.preserveLegacyOriginal).bind ?_
  exact (Reader.takes_ofExcept hcoherent).bind_nil (Reader.takes_pure s)

/-! ## The file is read back -/

variable {blake3} {m : DatabaseManifest} {bytes : Bytes}

theorem length_headerFields (h : m.storageNamespaceId.length = 16) : (headerFields m).flatten.length = 60 := by
  simp [headerFields, hrkmMagic, h]

theorem length_encodeHeader (h : m.storageNamespaceId.length = 16) : (encodeHeader m).length = hrkmHeaderLen := by
  rw [encodeHeader, List.length_append, length_headerFields h, length_leBytes]
  rfl

variable (blake3 m) in
theorem length_footerFields (body : Bytes) : (footerFields blake3 m body).flatten.length = footerCrcOffset := by
  simp [footerFields, hrkmFooterMagic, (blake3 body).2, m.statisticsRootHash.2, footerCrcOffset]

theorem encodeManifest_eq_ok (h : encodeManifest blake3 m = .ok bytes) : m.segmentsV2.length ≤ hardMaxSegments ∧
    (encodeBody m).length ≤ hardMaxBodyBytes ∧
    bytes = (encodeHeader m ++ (encodeBody m ++ (footerFields blake3 m (encodeBody m)).flatten)) ++
      leBytes 4 (crc32c ((encodeHeader m ++ (encodeBody m ++ (footerFields blake3 m (encodeBody m)).flatten)) ++
        leBytes 4 0)).toNat := by
  unfold encodeManifest at h
  dsimp only at h
  split at h
  · cases h
  · rename_i hsegments
    split at h
    · cases h
    · rename_i hbody
      cases h
      exact ⟨Nat.not_lt.1 hsegments, Nat.not_lt.1 hbody, rfl⟩

theorem times_decodeSegment (hw : WideManifest m) (hlegible : legible m = true) :
    decodeSegment.times m.segmentsV2.length (encodeBody m) 0 = .ok (m.segmentsV2, (encodeBody m).length) := by
  simp only [legible, Bool.and_eq_true, List.all_eq_true] at hlegible
  have htakes : (decodeSegment.times m.segmentsV2.length).Takes (encodeBody m) m.segmentsV2 := by
    refine Reader.takes_times m.segmentsV2 (fun s hs => ?_)
    obtain ⟨hok, hshort⟩ := hlegible.1 s hs
    refine takes_decodeSegment (hw.segmentsV2 s hs) ?_ hshort
    cases hcheck : checkSegmentCoherence s with
    | ok u => rfl
    | error e =>
      rw [hcheck] at hok
      cases hok
  have h := htakes (encodeBody m) 0 [] (Nat.zero_le _) (by rw [List.drop_zero, List.append_nil])
  rwa [Nat.zero_add] at h

/-- **A legible manifest is read back** as its file keeps it. -/
theorem decodeManifest_encodeManifest (hw : WideManifest m) (hgeneration : m.manifestGeneration < 2 ^ 64)
    (hlegible : legible m = true) (hencode : encodeManifest blake3 m = .ok bytes) :
    decodeManifest blake3 bytes = .ok (stored m) := by
  obtain ⟨hsegments, hbody, heq⟩ := encodeManifest_eq_ok hencode
  have htimes := times_decodeSegment hw hlegible
  have hheader := length_encodeHeader hw.storageNamespaceId
  have hfooter := length_footerFields blake3 m (encodeBody m)
  generalize hbodyEq : encodeBody m = body at *
  generalize hcrc : (crc32c ((encodeHeader m ++ (body ++ (footerFields blake3 m body).flatten)) ++ leBytes 4 0)).toNat = crc
    at heq
  have hcrc32 : crc < 256 ^ 4 := hcrc ▸ (crc32c _).toNat_lt
  have hlen : bytes.length = hrkmHeaderLen + body.length + hrkmFooterLen := by
    rw [heq]
    simp only [List.length_append, hheader, hfooter, length_leBytes]
    simp only [footerCrcOffset, hrkmFooterLen]
    omega
  have hfooterAt : bytes.length - hrkmFooterLen = hrkmHeaderLen + body.length := by omega
  -- the file, seen from its header, from its body and from its footer
  have hfront : bytes = (headerFields m).flatten ++ (leBytes 4 (crc32c (headerFields m).flatten).toNat ++
      (body ++ ((footerFields blake3 m body).flatten ++ leBytes 4 crc))) := by
    rw [heq]
    simp only [encodeHeader, List.append_assoc]
  have hback : bytes = (encodeHeader m ++ body) ++ ((footerFields blake3 m body).flatten ++ leBytes 4 crc) := by
    rw [heq]
    simp only [List.append_assoc]
  have hf : bytes.drop (hrkmHeaderLen + body.length) = (footerFields blake3 m body).flatten ++ leBytes 4 crc := by
    rw [hback]
    exact List.drop_left' (by rw [List.length_append, hheader])
  have hbodyAt : (bytes.drop hrkmHeaderLen).take (hrkmHeaderLen + body.length - hrkmHeaderLen) = body := by
    rw [hback, List.append_assoc, List.drop_left' hheader, Nat.add_sub_cancel_left, List.take_left' rfl]
  have hcovered : bytes.take (hrkmHeaderLen + body.length + footerCrcOffset)
      = encodeHeader m ++ (body ++ (footerFields blake3 m body).flatten) := by
    rw [heq]
    refine List.take_left' ?_
    rw [List.length_append, List.length_append, hheader, hfooter, Nat.add_assoc]
  have hrest : bytes.drop (hrkmHeaderLen + body.length + footerCrcOffset + 4) = [] := by
    refine List.drop_eq_nil_of_le ?_
    rw [hlen]
    simp only [footerCrcOffset, hrkmFooterLen]
    omega
  have hfield : ∀ {i k n : Nat} {b : Bytes}, (headerFields m)[i]? = some b → start (headerFields m) i = k →
      b.length = n → (bytes.drop k).take n = b := fun hb hk hn => by
    rw [hfront]
    exact take_drop_piece hb hk hn
  have hffield : ∀ {i k n : Nat} {b : Bytes}, (footerFields blake3 m body)[i]? = some b →
      start (footerFields blake3 m body) i = k → b.length = n →
      (((footerFields blake3 m body).flatten ++ leBytes 4 crc).drop k).take n = b := fun hb hk hn =>
    take_drop_piece hb hk hn
  have hns := hw.storageNamespaceId
  have hmagic : bytes.take 4 = hrkmMagic := hfield (i := 0) (k := 0) rfl rfl rfl
  have hversion := hfield (i := 1) (k := 4) rfl rfl (length_leBytes 2 _)
  have hheaderLen := hfield (i := 2) (k := 6) rfl (by simp [start, headerFields, hrkmMagic]) (length_leBytes 2 _)
  have hgen := hfield (i := 3) (k := 8) rfl (by simp [start, headerFields, hrkmMagic]) (length_leBytes 8 _)
  have hnamespace := hfield (i := 4) (k := 16) rfl (by simp [start, headerFields, hrkmMagic]) hns
  have hwatermark := hfield (i := 5) (k := 32) rfl (by simp [start, headerFields, hrkmMagic, hns]) (length_leBytes 8 _)
  have hexported := hfield (i := 6) (k := 40) rfl (by simp [start, headerFields, hrkmMagic, hns]) (length_leBytes 8 _)
  have hcount := hfield (i := 7) (k := 48) rfl (by simp [start, headerFields, hrkmMagic, hns]) (length_leBytes 4 _)
  have hheaderCrc : (bytes.drop 60).take 4 = leBytes 4 (crc32c (headerFields m).flatten).toNat := by
    rw [hfront, List.drop_left' (length_headerFields hns), List.take_left' (length_leBytes 4 _)]
  have hheaderCovered : bytes.take 60 = (headerFields m).flatten := by
    rw [hfront, List.take_left' (length_headerFields hns)]
  have hfmagic : ((footerFields blake3 m body).flatten ++ leBytes 4 crc).take 4 = hrkmFooterMagic :=
    hffield (i := 0) (k := 0) rfl rfl rfl
  have hfooterLen := hffield (i := 2) (k := 6) rfl (by simp [start, footerFields, hrkmFooterMagic]) (length_leBytes 2 _)
  have hbodyLen := hffield (i := 3) (k := 8) rfl (by simp [start, footerFields, hrkmFooterMagic]) (length_leBytes 8 _)
  have hdigest := hffield (i := 4) (k := 16) rfl (by simp [start, footerFields, hrkmFooterMagic]) (blake3 body).2
  have hroot := hffield (i := 5) (k := 48) rfl (by simp [start, footerFields, hrkmFooterMagic, (blake3 body).2])
    m.statisticsRootHash.2
  have hstoredCrc : (((footerFields blake3 m body).flatten ++ leBytes 4 crc).drop footerCrcOffset).take 4 = leBytes 4 crc := by
    rw [List.drop_left' hfooter, List.take_of_length_le (Nat.le_of_eq (length_leBytes 4 _))]
  have hrootDigest : toDigest m.statisticsRootHash.1 = m.statisticsRootHash := by
    rw [toDigest, dif_pos m.statisticsRootHash.2]
  have hordered : ordered m.segmentsV2 = true := by
    rw [legible, Bool.and_eq_true] at hlegible
    exact hlegible.2
  have hbody64 : body.length < 256 ^ 8 := Nat.lt_of_le_of_lt hbody (by decide)
  have hcount32 : m.segmentsV2.length < 256 ^ 4 := Nat.lt_of_le_of_lt hsegments (by decide)
  unfold decodeManifest
  dsimp only
  rw [if_neg (by omega), hfooterAt, hf, hbodyAt, hcovered, hrest, List.append_nil, hcrc, hmagic, if_neg (fun h => h rfl),
    hversion, leNat_leBytes_of_lt (by decide), if_neg (fun h => h rfl), hheaderLen, leNat_leBytes_of_lt (by decide),
    if_neg (fun h => h rfl), hheaderCrc, hheaderCovered, leNat_leBytes_of_lt (crc32c (headerFields m).flatten).toNat_lt,
    if_neg (fun h => h rfl), hfmagic, if_neg (fun h => h rfl), hfooterLen, leNat_leBytes_of_lt (by decide),
    if_neg (fun h => h rfl), hstoredCrc, leNat_leBytes_of_lt hcrc32, if_neg (fun h => h rfl), hbodyLen,
    leNat_leBytes_of_lt hbody64, if_neg (by omega), hdigest, if_neg (fun h => h rfl), hcount, leNat_leBytes_of_lt hcount32,
    if_neg (Nat.not_lt.2 hsegments), htimes]
  dsimp only
  rw [if_neg (fun h => h rfl), hordered, if_neg (by decide), hwatermark, hroot, hnamespace, hgen, hexported,
    leNat_leBytes_of_lt hw.cumulativeWatermark, leNat_leBytes_of_lt hgeneration, leNat_leBytes_of_lt hw.exportedThroughLsn,
    hrootDigest]
  rfl

/-! ## Sizes, which are all that the catalogue's own steps look at -/

theorem length_putGroups : ∀ n v : Nat, (putGroups n v).length = 1 + ((List.range n).filter (fun i => decide (128 ^ (i + 1) ≤ v))).length
  | 0, _ => rfl
  | n + 1, v => by
    have hrange : (List.range (n + 1)).filter (fun i => decide (128 ^ (i + 1) ≤ v))
        = (if 128 ≤ v then [0] else []) ++ ((List.range n).filter (fun i => decide (128 ^ (i + 1) ≤ v / 128))).map (· + 1) := by
      rw [List.range_succ_eq_map, List.filter_cons, List.filter_map]
      have hcongr : (List.range n).filter ((fun i => decide (128 ^ (i + 1) ≤ v)) ∘ Nat.succ)
          = (List.range n).filter (fun i => decide (128 ^ (i + 1) ≤ v / 128)) := by
        refine List.filter_congr (fun i _ => ?_)
        show decide (128 ^ (i + 1 + 1) ≤ v) = decide (128 ^ (i + 1) ≤ v / 128)
        rw [Nat.pow_succ 128 (i + 1), decide_eq_decide, Nat.le_div_iff_mul_le (by decide)]
      rw [hcongr]
      by_cases h : 128 ≤ v <;> simp [h]
    rw [putGroups, hrange, List.length_append, List.length_map]
    by_cases h : v < 0x80
    · have hzero : v / 128 = 0 := Nat.div_eq_of_lt h
      rw [if_pos h, if_neg (by omega), hzero]
      simp
    · rw [if_neg h, if_pos (by omega), List.length_cons, length_putGroups n, Nat.shiftRight_eq_div_pow]
      simp
      omega

theorem length_putVarint (v : Nat) : (putVarint v).length = varintLen v := length_putGroups 9 v

theorem length_putStr (s : String) : (putStr s).length = stringLen s := by
  have hsize : (utf8 s).length = s.utf8ByteSize := rfl
  rw [putStr, List.length_append, length_putVarint, hsize, stringLen]

theorem length_encodeGeneration (g : PhysicalGeneration) : (encodeGeneration g).length = generationLen g := by
  simp only [encodeGeneration, List.flatten_cons, List.flatten_nil, List.length_append, List.length_nil, List.length_singleton,
    length_putVarint, length_putStr, g.physicalDigest.2, generationLen]
  omega

theorem length_encodeArtifact : ∀ o : Option DerivedArtifactRef, (encodeArtifact o).length = artifactLen o
  | none => rfl
  | some a => by
    simp only [encodeArtifact, List.flatten_cons, List.flatten_nil, List.length_append, List.length_nil, List.length_singleton,
      length_putVarint, length_putStr, a.digest.2, a.logicalRoot.2, artifactLen]
    omega

theorem length_encodeSegment (s : SegmentDescriptorV2) : (encodeSegment s).length = segmentLen s := by
  have hgenerations : (s.generations.flatMap encodeGeneration).length = (s.generations.map generationLen).sum := by
    rw [List.length_flatMap]
    exact congrArg List.sum (List.map_congr_left (fun g _ => length_encodeGeneration g))
  simp only [encodeSegment, List.flatten_cons, List.flatten_nil, List.length_append, List.length_nil, List.length_singleton,
    length_putVarint, length_encodeArtifact, length_leBytes, hgenerations, s.logicalRoot.2, segmentLen]
  omega

/-- **The catalogue's own steps see the codec by what it refuses.** -/
theorem encodeManifest_map (blake3 : Bytes → Digest) (m : DatabaseManifest) :
    (encodeManifest blake3 m).map (fun _ => ()) = V6.encodeManifest m := by
  have hbody : (encodeBody m).length = (m.segmentsV2.map segmentLen).sum := by
    rw [encodeBody, List.length_flatMap]
    exact congrArg List.sum (List.map_congr_left (fun s _ => length_encodeSegment s))
  unfold encodeManifest V6.encodeManifest
  dsimp only
  rw [hbody]
  split
  · rfl
  · split
    · rfl
    · rfl

end Hrkm
end V6
end Heraclitus
