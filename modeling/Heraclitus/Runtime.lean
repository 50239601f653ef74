import Heraclitus.Core
import Heraclitus.Lib.FirstKey
import Heraclitus.Lib.Pieces
/-!
# Runtime — the database manifest (`heraclitus-core/src/runtime.rs`)

One catalogue of segments.  A segment's identity (`logicalRoot`) is kept apart from its physical generations, several of
which may coexist; a generation is a *canonical authority* when its state says that the segment's records can be rebuilt
from it.
-/
namespace Heraclitus

inductive SegmentState where
  | active | frozen | archived
  deriving DecidableEq, Repr

/-- The v1 descriptor, kept for the consumers that read only LSNs and states. -/
structure SegmentDescriptor where
  segmentId : Nat
  firstLsn : Nat
  lastLsn : Nat
  eventCount : Nat
  payloadHash : Digest
  state : SegmentState
  deriving DecidableEq, Repr

inductive PhysicalLayout where
  | raw | packed
  deriving DecidableEq, Repr

inductive CompressionCodec where
  | raw | zstd | lz4Raw
  deriving DecidableEq, Repr

/-- State of a physical generation (§72). -/
inductive GenerationState where
  | writing | verified | active | superseded | archived | quarantined
  deriving DecidableEq, Repr

/-- §91: the states the segment's records can be rebuilt from.  `superseded` counts: another representation is
preferred, these bytes still serve. -/
def GenerationState.isCanonicalAuthority : GenerationState → Bool
  | .verified | .active | .superseded | .archived => true
  | .writing | .quarantined => false

/-- One physical representation of a segment (§71). -/
structure PhysicalGeneration where
  generation : Nat
  layout : PhysicalLayout
  compression : CompressionCodec
  location : String
  physicalSize : Nat
  physicalDigest : Digest
  state : GenerationState
  createdHlc : Nat
  verifiedHlc : Nat
  supersededHlc : Nat
  verifiedCopies : Nat
  deriving DecidableEq, Repr

def PhysicalGeneration.isCanonicalAuthority (g : PhysicalGeneration) : Bool := g.state.isCanonicalAuthority

/-- A derived artifact, bound to the logical root it was built from (§56). -/
structure DerivedArtifactRef where
  location : String
  size : Nat
  digest : Digest
  logicalRoot : Digest
  createdHlc : Nat
  deriving DecidableEq, Repr

def defaultGcGraceSeconds : Nat := 86400

/-- Retention policy of a segment (§93, §94, §184). -/
structure RetentionPolicy where
  legalHold : Bool := false
  gcGraceSeconds : Nat := defaultGcGraceSeconds
  minVerifiedCopies : Nat := 1
  preserveLegacyOriginal : Bool := true
  deriving DecidableEq, Repr

/-- The v2 segment descriptor (§70). -/
structure SegmentDescriptorV2 where
  segmentId : Nat
  firstLsn : Nat
  lastLsn : Nat
  recordCount : Nat
  canonicalCodec : Nat
  logicalRoot : Digest
  minHlc : Nat
  maxHlc : Nat
  activeGeneration : Nat
  generations : List PhysicalGeneration
  hrki : Option DerivedArtifactRef := none
  parquet : Option DerivedArtifactRef := none
  retention : RetentionPolicy := {}
  deriving DecidableEq, Repr

/-- The generations that can rebuild the canonical records (§91). -/
def SegmentDescriptorV2.canonicalAuthorities (s : SegmentDescriptorV2) : List PhysicalGeneration :=
  s.generations.filter (·.isCanonicalAuthority)

/-- The generation readers should use. -/
def SegmentDescriptorV2.active (s : SegmentDescriptorV2) : Option PhysicalGeneration :=
  s.generations.find? (fun g => g.generation == s.activeGeneration)

/-- `generation(n)`: the first generation of that number. -/
def SegmentDescriptorV2.generationAt (s : SegmentDescriptorV2) (n : Nat) : Option PhysicalGeneration :=
  s.generations.find? (fun g => g.generation == n)

def SegmentDescriptorV2.hasLayout (s : SegmentDescriptorV2) (layout : PhysicalLayout) : Bool :=
  s.canonicalAuthorities.any (fun g => g.layout == layout)

/-- The root of the storage metadata (§68–§70). -/
structure DatabaseManifest where
  manifestVersion : Nat := 0
  formatIdentifier : Bytes := [0, 0, 0, 0]
  segments : List SegmentDescriptor := []
  cumulativeWatermark : Nat := 0
  statisticsRootHash : Digest := Digest.replicate 0
  storageNamespaceId : Bytes := List.replicate 16 0
  manifestGeneration : Nat := 0
  segmentsV2 : List SegmentDescriptorV2 := []
  exportedThroughLsn : Nat := 0
  deriving DecidableEq, Repr

/-- `segment(id)`: the first descriptor with that id. -/
def DatabaseManifest.segment (m : DatabaseManifest) (id : Nat) : Option SegmentDescriptorV2 :=
  m.segmentsV2.find? (fun s => s.segmentId == id)

/-- `segment_mut(id)` followed by an update: the first descriptor with that id, if there is one. -/
def DatabaseManifest.modifySegment (m : DatabaseManifest) (id : Nat)
    (f : SegmentDescriptorV2 → SegmentDescriptorV2) : DatabaseManifest :=
  { m with segmentsV2 := modifyFirst (fun s => s.segmentId == id) f m.segmentsV2 }

/-- A known id is replaced where it stands; a new one goes in front of the first segment that does not begin before it. -/
def DatabaseManifest.upsertSegment (m : DatabaseManifest) (desc : SegmentDescriptorV2) : DatabaseManifest :=
  let segments := match m.segmentsV2.findIdx? (fun s => s.segmentId == desc.segmentId) with
    | some i => m.segmentsV2.set i desc
    | none => m.segmentsV2.insertIdx (partitionPoint (fun s => decide (s.firstLsn < desc.firstLsn)) m.segmentsV2) desc
  { m with segmentsV2 := segments }

/-- From an LSN to its segment (§77). -/
def DatabaseManifest.findSegmentForLsn (m : DatabaseManifest) (lsn : Nat) : Option SegmentDescriptorV2 :=
  (m.segmentsV2[partitionPoint (fun s => decide (s.lastLsn < lsn)) m.segmentsV2]?).filter
    (fun s => decide (0 < s.recordCount) && decide (s.firstLsn ≤ lsn) && decide (lsn ≤ s.lastLsn))

/-- The segments with a RAW authority and no PACKED one (§144). -/
def DatabaseManifest.packingQueue (m : DatabaseManifest) : List Nat :=
  (m.segmentsV2.filter (fun s => s.hasLayout .raw && !s.hasLayout .packed)).map (·.segmentId)

theorem mem_canonicalAuthorities {s : SegmentDescriptorV2} {g : PhysicalGeneration} :
    g ∈ s.canonicalAuthorities ↔ g ∈ s.generations ∧ g.isCanonicalAuthority = true := by
  unfold SegmentDescriptorV2.canonicalAuthorities
  rw [List.mem_filter]

end Heraclitus
