import Heraclitus.V6Raw
import Heraclitus.Lib.Fallible
/-!
# V6Manifest — the catalogue of a v6 log (`heraclitus-log/src/v6/manifest.rs`, `receipts.rs`)

How a sealed segment enters the catalogue and how a packed generation replaces it.  A manifest file is kept as the
manifest that was encoded; its codec appears by the sizes it refuses and the checks its reader makes.
-/
namespace Heraclitus
namespace V6

def hrkmMagic : Bytes := [0x48, 0x52, 0x4b, 0x4d]
def hardMaxSegments : Nat := 2 ^ 24
def hardMaxBodyBytes : Nat := 512 * 1024 * 1024

/-! ## File names -/

/-- The last `w` decimal digits. -/
def decDigits : Nat → Nat → Str
  | 0, _ => []
  | w + 1, n => decDigits w (n / 10) ++ [Nat.digitChar (n % 10)]

/-- `{:04}`. -/
def generationDigits (generation : Nat) : Str :=
  if generation < 10 ^ 4 then decDigits 4 generation else (toString generation).toList

/-- `raw_location`. -/
def rawLocation (id : Nat) : String :=
  String.ofList ("segments/".toList ++ decDigits 20 id ++ ".g0000.raw.hrkl".toList)

/-- The name of a packed file. -/
def packedName (id generation : Nat) : Str :=
  decDigits 20 id ++ ".g".toList ++ generationDigits generation ++ ".packed.hrkl".toList

/-- `packed_location`. -/
def packedLocation (id generation : Nat) : String := String.ofList ("segments/".toList ++ packedName id generation)

/-! ## What the codec refuses -/

/-- Bytes of a ULEB128 `u64`. -/
def varintLen (n : Nat) : Nat := 1 + ((List.range 9).filter (fun i => decide (128 ^ (i + 1) ≤ n))).length

def stringLen (s : String) : Nat := varintLen s.utf8ByteSize + s.utf8ByteSize

def generationLen (g : PhysicalGeneration) : Nat :=
  varintLen g.generation + 3 + varintLen g.physicalSize + 32 + stringLen g.location + varintLen g.createdHlc
    + varintLen g.verifiedHlc + varintLen g.supersededHlc + varintLen g.verifiedCopies

def artifactLen : Option DerivedArtifactRef → Nat
  | none => 1
  | some a => 1 + stringLen a.location + varintLen a.size + 64 + varintLen a.createdHlc

/-- Bytes that `encode_segment` writes. -/
def segmentLen (s : SegmentDescriptorV2) : Nat :=
  varintLen s.segmentId + varintLen s.firstLsn + varintLen s.lastLsn + varintLen s.recordCount + 34 + varintLen s.minHlc
    + varintLen s.maxHlc + varintLen s.activeGeneration + varintLen s.generations.length
    + (s.generations.map generationLen).sum + artifactLen s.hrki + artifactLen s.parquet + 1
    + varintLen s.retention.gcGraceSeconds + varintLen s.retention.minVerifiedCopies + 1

/-- `encode_manifest`, up to the bytes it produces. -/
def encodeManifest (m : DatabaseManifest) : Except HeraclitusError Unit :=
  let ctx := "hrkm encode"
  if hardMaxSegments < m.segmentsV2.length then .error (corrupt ctx "too many segments for one manifest")
  else if hardMaxBodyBytes < (m.segmentsV2.map segmentLen).sum then
    .error (corrupt ctx "manifest body exceeds the hard maximum")
  else .ok ()

def checkSegmentCoherence (s : SegmentDescriptorV2) : Except HeraclitusError Unit :=
  let ctx := "hrkm segment descriptor"
  if 0 < s.recordCount ∧ s.lastLsn < s.firstLsn then
    .error (corrupt ctx s!"segment {s.segmentId} has first_lsn > last_lsn")
  else if 0 < s.recordCount ∧ s.maxHlc < s.minHlc then
    .error (corrupt ctx s!"segment {s.segmentId} has min_hlc > max_hlc")
  else if 0 < s.recordCount ∧ satAdd64 (s.lastLsn - s.firstLsn) 1 < s.recordCount then
    .error (corrupt ctx s!"segment {s.segmentId} declares more records than its LSN span")
  else if ¬(s.generations.map (·.generation)).Nodup then
    .error (corrupt ctx s!"segment {s.segmentId} has duplicate generation numbers")
  else if s.generations ≠ [] ∧ s.active.isNone then
    .error (corrupt ctx s!"segment {s.segmentId} points at generation {s.activeGeneration} which does not exist")
  else .ok ()

theorem checkSegmentCoherence_eq_ok (s : SegmentDescriptorV2) : checkSegmentCoherence s = .ok () ↔
    ¬(0 < s.recordCount ∧ s.lastLsn < s.firstLsn) ∧ ¬(0 < s.recordCount ∧ s.maxHlc < s.minHlc) ∧
      ¬(0 < s.recordCount ∧ satAdd64 (s.lastLsn - s.firstLsn) 1 < s.recordCount) ∧
      (s.generations.map (·.generation)).Nodup ∧ ¬(s.generations ≠ [] ∧ s.active.isNone) := by
  unfold checkSegmentCoherence
  dsimp only
  simp only [guard_eq_ok, not_not, and_true]

/-- Does `decode_manifest` accept what was encoded? -/
def decodable (m : DatabaseManifest) : Bool :=
  m.segmentsV2.all (fun s => (checkSegmentCoherence s).isOk) &&
    decide (m.segmentsV2.Pairwise (fun a b => a.firstLsn ≤ b.firstLsn))

/-! ## The state machine of generations -/

/-- The descriptor of a segment that has only its RAW generation. -/
def sealedDescriptor (segmentId : Nat) (footer : FooterV6) (canonicalCodec : Nat) (location : String) (physicalSize : Nat)
    (physicalDigest : Digest) (nowHlc : Nat) : SegmentDescriptorV2 := {
  segmentId := segmentId, firstLsn := footer.minLsn, lastLsn := footer.maxLsn, recordCount := footer.recordCount
  canonicalCodec := canonicalCodec, logicalRoot := footer.logicalRoot, minHlc := footer.minHlc, maxHlc := footer.maxHlc
  activeGeneration := 0
  generations := [{
    generation := 0, layout := .raw, compression := .raw, location := location, physicalSize := physicalSize
    physicalDigest := physicalDigest, state := .active, createdHlc := nowHlc, verifiedHlc := nowHlc, supersededHlc := 0
    verifiedCopies := 1 }] }

def registerSealedRaw (m : DatabaseManifest) (segmentId : Nat) (footer : FooterV6) (canonicalCodec : Nat)
    (location : String) (physicalSize : Nat) (physicalDigest : Digest) (nowHlc : Nat) :
    Except HeraclitusError DatabaseManifest :=
  if (m.segment segmentId).any (fun existing => existing.logicalRoot != footer.logicalRoot) then
    .error (corrupt "hrkm register" s!"segment {segmentId} is already catalogued with a different logical_root")
  else
    let desc := sealedDescriptor segmentId footer canonicalCodec location physicalSize physicalDigest nowHlc
    match checkSegmentCoherence desc with
    | .error e => .error e
    | .ok () =>
      let m := m.upsertSegment desc
      .ok { m with cumulativeWatermark := max m.cumulativeWatermark footer.maxLsn }

def packerVersion : Nat := 1

/-- What a packing leaves to be audited (§87). -/
structure PackReceipt where
  segmentId : Nat
  storageNamespaceId : Bytes
  sourceGeneration : Nat
  sourcePhysicalDigest : Digest
  targetGeneration : Nat
  targetPhysicalDigest : Digest
  logicalRoot : Digest
  canonicalCodec : Nat
  codec : CompressionCodec
  blockSize : Nat
  firstLsn : Nat
  lastLsn : Nat
  recordCount : Nat
  sourcePhysicalSize : Nat
  targetPhysicalSize : Nat
  packerVersion : Nat
  createdHlc : Nat
  deriving DecidableEq

/-- The source generation steps back, unless it is in quarantine. -/
def supersede (nowHlc : Nat) (g : PhysicalGeneration) : PhysicalGeneration :=
  if g.state = .quarantined then g else { g with state := .superseded, supersededHlc := nowHlc }

/-- The descriptor with the packed generation recorded and active. -/
def packedDescriptor (desc : SegmentDescriptorV2) (receipt : PackReceipt) (targetLocation : String) (nowHlc : Nat) :
    SegmentDescriptorV2 :=
  let packed : PhysicalGeneration := {
    generation := receipt.targetGeneration, layout := .packed, compression := receipt.codec, location := targetLocation
    physicalSize := receipt.targetPhysicalSize, physicalDigest := receipt.targetPhysicalDigest, state := .active
    createdHlc := nowHlc, verifiedHlc := nowHlc, supersededHlc := 0, verifiedCopies := 1 }
  { desc with
    activeGeneration := receipt.targetGeneration
    generations := modifyFirst (fun g => g.generation == receipt.sourceGeneration) (supersede nowHlc)
      (desc.generations ++ [packed]) }

def recordPack (m : DatabaseManifest) (receipt : PackReceipt) (targetLocation : String) (nowHlc : Nat) :
    Except HeraclitusError DatabaseManifest :=
  let ctx := "hrkm record_pack"
  match m.segment receipt.segmentId with
  | none => .error (corrupt ctx s!"segment {receipt.segmentId} is not catalogued")
  | some desc =>
    if desc.logicalRoot ≠ receipt.logicalRoot then
      .error (corrupt ctx "pack receipt logical_root differs from the catalogued segment; refusing to record")
    else if (desc.generationAt receipt.targetGeneration).isSome then
      .error (corrupt ctx "target generation already recorded; generations are immutable")
    else
      let desc' := packedDescriptor desc receipt targetLocation nowHlc
      match checkSegmentCoherence desc' with
      | .error e => .error e
      | .ok () => .ok (m.modifySegment receipt.segmentId (fun _ => desc'))

/-! ## Names tell files apart -/

@[simp] theorem length_decDigits : ∀ w n : Nat, (decDigits w n).length = w
  | 0, _ => rfl
  | w + 1, n => by simp [decDigits, length_decDigits w]

theorem digitChar_injective : ∀ a < 10, ∀ b < 10, Nat.digitChar a = Nat.digitChar b → a = b := by decide

theorem decDigits_injective : ∀ {w n m : Nat}, n < 10 ^ w → m < 10 ^ w → decDigits w n = decDigits w m → n = m
  | 0, n, m, hn, hm, _ => by
    simp at hn hm
    omega
  | w + 1, n, m, hn, hm, h => by
    obtain ⟨hrest, hlast⟩ := List.append_inj' h rfl
    have hdigit := digitChar_injective _ (Nat.mod_lt n (by decide)) _ (Nat.mod_lt m (by decide)) (List.singleton_inj.1 hlast)
    have hdiv : n / 10 = m / 10 := by
      rw [Nat.pow_succ] at hn hm
      exact decDigits_injective (by omega) (by omega) hrest
    omega

theorem rawLocation_injective {i j : Nat} (hi : i < 2 ^ 64) (hj : j < 2 ^ 64) (h : rawLocation i = rawLocation j) : i = j := by
  have h := String.ofList_injective h
  rw [List.append_assoc, List.append_assoc] at h
  have hdigits := (List.append_inj (List.append_cancel_left h) (by simp)).1
  exact decDigits_injective (by omega) (by omega) hdigits

theorem packedLocation_injective {i j m n : Nat} (hi : i < 2 ^ 64) (hj : j < 2 ^ 64) (hm : m < 10 ^ 4) (hn : n < 10 ^ 4)
    (h : packedLocation i m = packedLocation j n) : i = j ∧ m = n := by
  have h := String.ofList_injective h
  simp only [packedName, List.append_assoc] at h
  obtain ⟨hid, hrest⟩ := List.append_inj (List.append_cancel_left h) (by simp)
  have hgeneration := List.append_cancel_right (List.append_cancel_left hrest)
  rw [generationDigits, generationDigits, if_pos hm, if_pos hn] at hgeneration
  exact ⟨decDigits_injective (by omega) (by omega) hid, decDigits_injective hm hn hgeneration⟩

theorem rawLocation_ne_packedLocation (i j n : Nat) : rawLocation i ≠ packedLocation j n := by
  intro h
  have hlast := congrArg (fun l : List Char => l.reverse[5]?) (String.ofList_injective h)
  simp [packedName] at hlast

end V6
end Heraclitus
