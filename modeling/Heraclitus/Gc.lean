import Heraclitus.Runtime
import Heraclitus.Lib.Fallible
import Mathlib.Logic.Function.Basic
/-!
# Gc — the garbage collector's decisions (`v6/gc.rs`, §90–§95, §184)

`planGc` judges every physical generation on its own, and answers with candidates and with the reason of every refusal.
`assertGcInvariant` is the second opinion of §91, and `applyGc` takes the candidates out of the manifest.
-/
namespace Heraclitus
namespace Gc

/-- The HLC is `millis << 16 | counter`. -/
def hlcMillis (hlc : Nat) : Nat := hlc >>> 16

/-- `canonical_codec` of a migrated v1–v5 segment (§131). -/
def canonicalCodecLegacy : Nat := 0

/-- Live readers by `(segment, generation)` (§92). -/
structure PinRegistry where
  inner : Nat × Nat → Option Nat

def PinRegistry.new : PinRegistry := ⟨fun _ => none⟩

def PinRegistry.count (p : PinRegistry) (segmentId : Nat) (generation : Nat) : Nat :=
  (p.inner (segmentId, generation)).getD 0

def PinRegistry.pin (p : PinRegistry) (segmentId : Nat) (generation : Nat) : PinRegistry :=
  ⟨Function.update p.inner (segmentId, generation) (some (p.count segmentId generation + 1))⟩

/-- The drop of a `PinGuard`: the entry goes when its count reaches zero. -/
def PinRegistry.unpin (p : PinRegistry) (segmentId : Nat) (generation : Nat) : PinRegistry :=
  match p.inner (segmentId, generation) with
  | none => p
  | some c => ⟨Function.update p.inner (segmentId, generation) (if c - 1 = 0 then none else some (c - 1))⟩

structure GcOptions where
  nowHlc : Nat := 0
  keepManifests : Nat := 3
  collectQuarantined : Bool := false
  deriving DecidableEq, Repr

/-- Why a generation is *not* collected. -/
inductive GcBlockReason where
  | notSuperseded
  | legalHold
  | lastCanonicalAuthority
  | readerPinned (pins : Nat)
  | gracePeriod (remainingSeconds : Nat)
  | insufficientVerifiedCopies (have' need : Nat)
  | quarantined
  | legacyOriginalPreserved
  deriving DecidableEq, Repr

structure GcCandidate where
  segmentId : Nat
  generation : Nat
  location : String
  physicalSize : Nat
  layout : PhysicalLayout
  deriving DecidableEq, Repr

structure GcBlocked where
  segmentId : Nat
  generation : Nat
  location : String
  reason : GcBlockReason
  deriving DecidableEq, Repr

inductive ArtifactKind where
  | hrki | parquet
  deriving DecidableEq, Repr

structure StaleArtifact where
  segmentId : Nat
  location : String
  size : Nat
  kind : ArtifactKind
  deriving DecidableEq, Repr

structure GcPlan where
  generations : List GcCandidate := []
  blocked : List GcBlocked := []
  staleArtifacts : List StaleArtifact := []
  deriving DecidableEq, Repr

/-- The best count of verified copies among the *other* authorities of the segment (§184). -/
def melhorContagem (s : SegmentDescriptorV2) (excluir : Nat) : Nat :=
  ((s.generations.filter (fun g => g.generation != excluir && g.isCanonicalAuthority)).map (·.verifiedCopies)).foldl
    max 0

/-- Seconds left of the grace period; without a stamp it never runs out. -/
def graceRemaining (supersededHlc nowHlc graceSeconds : Nat) : Option Nat :=
  if supersededHlc = 0 then some graceSeconds
  else
    let decorridoMs := hlcMillis nowHlc - hlcMillis supersededHlc
    let necessarioMs := satMul64 graceSeconds 1000
    if decorridoMs ≥ necessarioMs then none
    else some ((necessarioMs - decorridoMs + 999) / 1000)

/-- The decision on one generation: `none` makes it a candidate. -/
def bloqueio (pins : PinRegistry) (opts : GcOptions) (s : SegmentDescriptorV2) (g : PhysicalGeneration) :
    Option GcBlockReason :=
  let autoridades := s.canonicalAuthorities.map (·.generation)
  if g.generation = s.activeGeneration then some .notSuperseded
  else if g.state = .quarantined ∧ opts.collectQuarantined = false then some .quarantined
  else if ¬(g.state = .superseded ∨ g.state = .quarantined) then some .notSuperseded
  else if s.retention.legalHold = true then some .legalHold
  else if s.retention.preserveLegacyOriginal = true ∧ s.canonicalCodec = canonicalCodecLegacy ∧ g.generation = 0 then
    some .legacyOriginalPreserved
  else if g.generation ∈ autoridades ∧ autoridades.length ≤ 1 then some .lastCanonicalAuthority
  else
    let pinned := pins.count s.segmentId g.generation
    if pinned > 0 then some (.readerPinned pinned)
    else match graceRemaining g.supersededHlc opts.nowHlc s.retention.gcGraceSeconds with
      | some faltam => some (.gracePeriod faltam)
      | none =>
        if melhorContagem s g.generation < s.retention.minVerifiedCopies then
          some (.insufficientVerifiedCopies (melhorContagem s g.generation) s.retention.minVerifiedCopies)
        else none

def candidate (s : SegmentDescriptorV2) (g : PhysicalGeneration) : GcCandidate :=
  { segmentId := s.segmentId, generation := g.generation, location := g.location, physicalSize := g.physicalSize,
    layout := g.layout }

/-- The inner loop of `plan_gc`. -/
def planGeneration (pins : PinRegistry) (opts : GcOptions) (s : SegmentDescriptorV2) (plan : GcPlan)
    (g : PhysicalGeneration) : GcPlan :=
  match bloqueio pins opts s g with
  | some reason =>
    { plan with blocked := plan.blocked ++
        [{ segmentId := s.segmentId, generation := g.generation, location := g.location, reason := reason }] }
  | none => { plan with generations := plan.generations ++ [candidate s g] }

/-- A derived artifact whose root is no longer the segment's is stale (§90); it never blocks anything. -/
def planArtifact (s : SegmentDescriptorV2) (kind : ArtifactKind) (ref : Option DerivedArtifactRef) (plan : GcPlan) :
    GcPlan :=
  match ref with
  | none => plan
  | some a =>
    if a.logicalRoot ≠ s.logicalRoot then
      { plan with staleArtifacts := plan.staleArtifacts ++
          [{ segmentId := s.segmentId, location := a.location, size := a.size, kind := kind }] }
    else plan

def planSegment (pins : PinRegistry) (opts : GcOptions) (plan : GcPlan) (s : SegmentDescriptorV2) : GcPlan :=
  planArtifact s .parquet s.parquet (planArtifact s .hrki s.hrki (s.generations.foldl (planGeneration pins opts s) plan))

/-- `plan_gc`: decides and explains, removes nothing. -/
def planGc (m : DatabaseManifest) (pins : PinRegistry) (opts : GcOptions) : GcPlan :=
  m.segmentsV2.foldl (planSegment pins opts) {}

def gcCtx : String := "hrkl v6 gc"

/-- One round of `assert_gc_invariant`. -/
def assertSegment (plan : GcPlan) (s : SegmentDescriptorV2) : Except HeraclitusError Unit :=
  let aRemover := (plan.generations.filter (fun c => c.segmentId == s.segmentId)).map (·.generation)
  let antes := s.canonicalAuthorities.length
  let sobram := (s.canonicalAuthorities.filter (fun g => !aRemover.contains g.generation)).length
  if antes > 0 ∧ sobram = 0 then
    .error (corrupt gcCtx s!"plan would leave segment {s.segmentId} without a canonical authority")
  else if aRemover.contains s.activeGeneration then
    .error (corrupt gcCtx s!"plan would remove the active generation of segment {s.segmentId}")
  else .ok ()

/-- `assert_gc_invariant`, the safety net of §91, written apart from `planGc`. -/
def assertGcInvariant (m : DatabaseManifest) (plan : GcPlan) : Except HeraclitusError Unit :=
  forM m.segmentsV2 (assertSegment plan)

/-- The `retain` call of `apply_gc`. -/
def dropGeneration (c : GcCandidate) (s : SegmentDescriptorV2) : SegmentDescriptorV2 :=
  { s with generations := s.generations.filter (·.generation != c.generation) }

def dropArtifact (a : StaleArtifact) (s : SegmentDescriptorV2) : SegmentDescriptorV2 :=
  match a.kind with
  | .hrki => { s with hrki := none }
  | .parquet => { s with parquet := none }

def removeGeneration (m : DatabaseManifest) (c : GcCandidate) : DatabaseManifest :=
  m.modifySegment c.segmentId (dropGeneration c)

def removeArtifact (m : DatabaseManifest) (a : StaleArtifact) : DatabaseManifest :=
  m.modifySegment a.segmentId (dropArtifact a)

/-- `apply_gc(&mut m, plan)`: the result, and the manifest the caller is left with. -/
def applyGc (m : DatabaseManifest) (plan : GcPlan) : Except HeraclitusError Unit × DatabaseManifest :=
  match assertGcInvariant m plan with
  | .error e => (.error e, m)
  | .ok () => (.ok (), plan.staleArtifacts.foldl removeArtifact (plan.generations.foldl removeGeneration m))

/-! ## What the plan contains -/

section Plan

variable (m : DatabaseManifest) (pins : PinRegistry) (opts : GcOptions)

/-- Every test of `plan_gc` passes for the generation `g` of `s`. -/
structure Collectable (s : SegmentDescriptorV2) (g : PhysicalGeneration) : Prop where
  notActive : g.generation ≠ s.activeGeneration
  replaced : g.state = .superseded ∨ g.state = .quarantined ∧ opts.collectQuarantined = true
  noHold : s.retention.legalHold = false
  notLegacy : ¬(s.retention.preserveLegacyOriginal = true ∧ s.canonicalCodec = canonicalCodecLegacy ∧ g.generation = 0)
  notLast : ¬(g.generation ∈ s.canonicalAuthorities.map (·.generation) ∧ s.canonicalAuthorities.length ≤ 1)
  unpinned : pins.count s.segmentId g.generation = 0
  graceOver : graceRemaining g.supersededHlc opts.nowHlc s.retention.gcGraceSeconds = none
  copies : s.retention.minVerifiedCopies ≤ melhorContagem s g.generation

/-- Some descriptor with this id has a collectable generation with this number. -/
def Named (id : Nat) (generation : Nat) : Prop :=
  ∃ t ∈ m.segmentsV2, t.segmentId = id ∧ ∃ g ∈ t.generations, g.generation = generation ∧ Collectable pins opts t g

variable {pins opts}

theorem bloqueio_eq_none {s : SegmentDescriptorV2} {g : PhysicalGeneration} :
    bloqueio pins opts s g = none ↔ Collectable pins opts s g := by
  unfold bloqueio
  simp only [ite_some_eq_none, List.length_map, gt_iff_lt, Nat.pos_iff_ne_zero, not_not]
  constructor
  · rintro ⟨hact, hq, hst, hhold, hleg, hlast, hpin, hg⟩
    split at hg
    · cases hg
    · rename_i hgrace
      simp only [ite_some_eq_none, and_true, Nat.not_lt] at hg
      refine ⟨hact, ?_, by simpa using hhold, hleg, hlast, hpin, hgrace, hg⟩
      rcases hst with hs | hs
      · exact .inl hs
      · exact .inr ⟨hs, by simpa [hs] using hq⟩
  · rintro ⟨hact, hst, hhold, hleg, hlast, hpin, hgrace, hcop⟩
    refine ⟨hact, ?_, hst.imp id And.left, by simp [hhold], hleg, hlast, hpin, ?_⟩
    · rintro ⟨hq, hc⟩
      rcases hst with hs | ⟨-, hc'⟩
      · rw [hs] at hq; cases hq
      · rw [hc] at hc'; cases hc'
    · rw [hgrace]
      exact if_neg (Nat.not_lt.2 hcop)

theorem planGeneration_generations (s : SegmentDescriptorV2) (plan : GcPlan) (g : PhysicalGeneration) :
    (planGeneration pins opts s plan g).generations
      = plan.generations ++ if bloqueio pins opts s g = none then [candidate s g] else [] := by
  unfold planGeneration
  cases bloqueio pins opts s g <;> simp

@[simp] theorem planArtifact_generations (s : SegmentDescriptorV2) (kind : ArtifactKind)
    (ref : Option DerivedArtifactRef) (plan : GcPlan) :
    (planArtifact s kind ref plan).generations = plan.generations := by
  unfold planArtifact
  split
  · rfl
  · split <;> rfl

theorem planSegment_generations (plan : GcPlan) (s : SegmentDescriptorV2) :
    (planSegment pins opts plan s).generations = plan.generations
      ++ s.generations.flatMap (fun g => if bloqueio pins opts s g = none then [candidate s g] else []) := by
  unfold planSegment
  rw [planArtifact_generations, planArtifact_generations]
  exact foldl_append_of_step GcPlan.generations (planGeneration_generations s) s.generations plan

/-- The candidates, in the order of the catalogue. -/
theorem planGc_generations : (planGc m pins opts).generations = m.segmentsV2.flatMap (fun s =>
    s.generations.flatMap (fun g => if bloqueio pins opts s g = none then [candidate s g] else [])) :=
  foldl_append_of_step GcPlan.generations planSegment_generations m.segmentsV2 {}

variable {m}

theorem mem_planGc {c : GcCandidate} : c ∈ (planGc m pins opts).generations ↔
    ∃ s ∈ m.segmentsV2, ∃ g ∈ s.generations, Collectable pins opts s g ∧ c = candidate s g := by
  simp only [planGc_generations, List.mem_flatMap, ← bloqueio_eq_none]
  refine exists_congr fun s => and_congr_right fun _ => exists_congr fun g => and_congr_right fun _ => ?_
  split
  · rename_i h; simp [h]
  · rename_i h; simp [h]

/-- The generation numbers the plan removes under one segment id. -/
theorem mem_aRemover {id : Nat} {n : Nat} :
    n ∈ ((planGc m pins opts).generations.filter (fun c => c.segmentId == id)).map (·.generation)
      ↔ Named m pins opts id n := by
  simp only [List.mem_map, List.mem_filter, mem_planGc, Named, beq_iff_eq]
  constructor
  · rintro ⟨_, ⟨⟨s, hs, g, hg, hc, rfl⟩, hid⟩, hn⟩
    exact ⟨s, hs, hid, g, hg, hn, hc⟩
  · rintro ⟨s, hs, hid, g, hg, hn, hc⟩
    exact ⟨candidate s g, ⟨⟨s, hs, g, hg, hc, rfl⟩, hid⟩, hn⟩

end Plan

end Gc
end Heraclitus
