import Heraclitus.V6Manifest
import Heraclitus.Lib.Run
import Mathlib.Data.List.Nodup
/-!
# V6Generations — the catalogue's state machine (`heraclitus-log/src/v6/manifest.rs`, §72–§73)

Seven calls change a manifest in place: a segment is registered, a packed generation replaces its source, a generation
goes into quarantine, derived artifacts are attached, and the legal hold and the count of verified copies are set.
-/
namespace Heraclitus

/-- `generation_mut(n)` followed by an update: the first generation of that number, if there is one. -/
def SegmentDescriptorV2.modifyGeneration (s : SegmentDescriptorV2) (n : Nat) (f : PhysicalGeneration → PhysicalGeneration) :
    SegmentDescriptorV2 :=
  { s with generations := modifyFirst (fun g => g.generation == n) f s.generations }

namespace V6

/-! ## The calls -/

def notCatalogued (ctx : String) (id : Nat) : HeraclitusError := corrupt ctx s!"segment {id} is not catalogued"

/-- `record_pack` as it works on the manifest in place: what the last check refuses is recorded all the same. -/
def recordPackInPlace (m : DatabaseManifest) (receipt : PackReceipt) (targetLocation : String) (nowHlc : Nat) :
    Except HeraclitusError Unit × DatabaseManifest :=
  let ctx := "hrkm record_pack"
  match m.segment receipt.segmentId with
  | none => (.error (notCatalogued ctx receipt.segmentId), m)
  | some desc =>
    if desc.logicalRoot ≠ receipt.logicalRoot then
      (.error (corrupt ctx "pack receipt logical_root differs from the catalogued segment; refusing to record"), m)
    else if (desc.generationAt receipt.targetGeneration).isSome then
      (.error (corrupt ctx "target generation already recorded; generations are immutable"), m)
    else
      let desc' := packedDescriptor desc receipt targetLocation nowHlc
      (checkSegmentCoherence desc', m.modifySegment receipt.segmentId (fun _ => desc'))

/-- The key of `max_by_key` in `quarantine_generation`: packed before raw, then the higher number. -/
def PhysicalGeneration.preferredTo (g b : PhysicalGeneration) : Bool :=
  let packed (g : PhysicalGeneration) : Nat := if g.layout = .packed then 1 else 0
  decide (packed b < packed g ∨ packed b = packed g ∧ b.generation ≤ g.generation)

/-- The best of the authorities, of equals the last. -/
def bestAuthority (gens : List PhysicalGeneration) : Option PhysicalGeneration :=
  (gens.filter (·.isCanonicalAuthority)).foldl
    (fun best g => if best.all (PhysicalGeneration.preferredTo g) then some g else best) none

def quarantine (nowHlc : Nat) (g : PhysicalGeneration) : PhysicalGeneration :=
  { g with state := .quarantined, supersededHlc := nowHlc }

/-- A superseded generation is in use again. -/
def reactivate (g : PhysicalGeneration) : PhysicalGeneration :=
  if g.state = .superseded then { g with state := .active, supersededHlc := 0 } else g

/-- The descriptor that reads from generation `n` again. -/
def reactivated (s : SegmentDescriptorV2) (n : Nat) : SegmentDescriptorV2 :=
  { s.modifyGeneration n reactivate with activeGeneration := n }

def quarantineGeneration (m : DatabaseManifest) (segmentId generation nowHlc : Nat) :
    Except HeraclitusError Nat × DatabaseManifest :=
  let ctx := "hrkm quarantine"
  match m.segment segmentId with
  | none => (.error (notCatalogued ctx segmentId), m)
  | some desc =>
    if (desc.generationAt generation).isNone then (.error (corrupt ctx s!"generation {generation} does not exist"), m)
    else
      let desc' := desc.modifyGeneration generation (quarantine nowHlc)
      match bestAuthority desc'.generations with
      | some g => (.ok g.generation, m.modifySegment segmentId (fun _ => reactivated desc' g.generation))
      | none =>
        (.error (corrupt ctx s!"segment {segmentId} has no remaining canonical authority after quarantine"),
          m.modifySegment segmentId (fun _ => desc'))

def attachSidecar (m : DatabaseManifest) (segmentId : Nat) (artifact : DerivedArtifactRef) :
    Except HeraclitusError Unit × DatabaseManifest :=
  let ctx := "hrkm attach_sidecar"
  match m.segment segmentId with
  | none => (.error (notCatalogued ctx segmentId), m)
  | some desc =>
    if artifact.logicalRoot ≠ desc.logicalRoot then
      (.error (corrupt ctx "sidecar logical_root does not match the segment"), m)
    else (.ok (), m.modifySegment segmentId (fun _ => { desc with hrki := some artifact }))

/-- The largest LSN up to which every segment has its Parquet projection. -/
def contiguousExportedLsn (m : DatabaseManifest) : Nat :=
  ((m.segmentsV2.takeWhile (fun s => s.parquet.any (fun p => p.logicalRoot == s.logicalRoot))).getLast?).elim 0 (·.lastLsn)

def attachParquet (m : DatabaseManifest) (segmentId : Nat) (artifact : DerivedArtifactRef) :
    Except HeraclitusError Unit × DatabaseManifest :=
  let ctx := "hrkm attach_parquet"
  match m.segment segmentId with
  | none => (.error (notCatalogued ctx segmentId), m)
  | some desc =>
    if artifact.logicalRoot ≠ desc.logicalRoot then
      (.error (corrupt ctx "parquet logical_root does not match the segment"), m)
    else
      let m' := m.modifySegment segmentId (fun _ => { desc with parquet := some artifact })
      (.ok (), { m' with
        exportedThroughLsn := max (contiguousExportedLsn m') (min m.exportedThroughLsn desc.lastLsn) })

def setLegalHold (m : DatabaseManifest) (segmentId : Nat) (hold : Bool) : Except HeraclitusError Unit × DatabaseManifest :=
  match m.segment segmentId with
  | none => (.error (notCatalogued "hrkm legal_hold" segmentId), m)
  | some desc =>
    (.ok (), m.modifySegment segmentId (fun _ => { desc with retention := { desc.retention with legalHold := hold } }))

def setVerifiedCopies (m : DatabaseManifest) (segmentId generation copies : Nat) :
    Except HeraclitusError Unit × DatabaseManifest :=
  let ctx := "hrkm verified_copies"
  match m.segment segmentId with
  | none => (.error (notCatalogued ctx segmentId), m)
  | some desc =>
    if (desc.generationAt generation).isNone then (.error (corrupt ctx s!"generation {generation} does not exist"), m)
    else (.ok (), m.modifySegment segmentId (fun _ =>
      desc.modifyGeneration generation (fun g => { g with verifiedCopies := copies })))

inductive ManifestCall where
  | registerSealedRaw (segmentId : Nat) (footer : FooterV6) (canonicalCodec : Nat) (location : String) (physicalSize : Nat)
      (physicalDigest : Digest) (nowHlc : Nat)
  | recordPack (receipt : PackReceipt) (targetLocation : String) (nowHlc : Nat)
  | quarantineGeneration (segmentId generation nowHlc : Nat)
  | attachSidecar (segmentId : Nat) (artifact : DerivedArtifactRef)
  | attachParquet (segmentId : Nat) (artifact : DerivedArtifactRef)
  | setLegalHold (segmentId : Nat) (hold : Bool)
  | setVerifiedCopies (segmentId generation copies : Nat)

/-- What the call answers, and the manifest it leaves. -/
def ManifestCall.run (m : DatabaseManifest) : ManifestCall → Except HeraclitusError Unit × DatabaseManifest
  | .registerSealedRaw segmentId footer canonicalCodec location physicalSize physicalDigest nowHlc =>
    match V6.registerSealedRaw m segmentId footer canonicalCodec location physicalSize physicalDigest nowHlc with
    | .error e => (.error e, m)
    | .ok m' => (.ok (), m')
  | .recordPack receipt targetLocation nowHlc => recordPackInPlace m receipt targetLocation nowHlc
  | .quarantineGeneration segmentId generation nowHlc =>
    ((V6.quarantineGeneration m segmentId generation nowHlc).1.map (fun _ => ()),
      (V6.quarantineGeneration m segmentId generation nowHlc).2)
  | .attachSidecar segmentId artifact => V6.attachSidecar m segmentId artifact
  | .attachParquet segmentId artifact => V6.attachParquet m segmentId artifact
  | .setLegalHold segmentId hold => V6.setLegalHold m segmentId hold
  | .setVerifiedCopies segmentId generation copies => V6.setVerifiedCopies m segmentId generation copies

/-! ## What a call may change -/

/-- Generation numbers are distinct, and the one in use is the one that is active. -/
structure Coherent (s : SegmentDescriptorV2) : Prop where
  distinct : (s.generations.map (·.generation)).Nodup
  active : ∃ g, s.active = some g ∧ g.state = .active
  onlyActive : ∀ g ∈ s.generations, g.state = .active → g.generation = s.activeGeneration

/-- The two stand for the same file: number, layout, codec, place, size and digest. -/
def SameGeneration (g g' : PhysicalGeneration) : Prop :=
  g'.generation = g.generation ∧ g'.layout = g.layout ∧ g'.compression = g.compression ∧ g'.location = g.location ∧
    g'.physicalSize = g.physicalSize ∧ g'.physicalDigest = g.physicalDigest

/-- Only `set_legal_hold` touches the retention of a segment. -/
def ManifestCall.retention (id : Nat) (r : RetentionPolicy) : ManifestCall → RetentionPolicy
  | .setLegalHold segmentId hold => if segmentId = id then { r with legalHold := hold } else r
  | _ => r

/-- A descriptor that a call replaced. -/
structure SegmentKept (c : ManifestCall) (id : Nat) (s s' : SegmentDescriptorV2) : Prop where
  coherent : Coherent s → Coherent s'
  generations : ∀ g ∈ s.generations, ∃ g' ∈ s'.generations, SameGeneration g g'
  retention : s'.retention = c.retention id s.retention

/-- A coherent segment stays so and a new one is; no generation and no policy is lost. -/
structure CatalogueKept (c : ManifestCall) (m m' : DatabaseManifest) : Prop where
  kept : ∀ id s, m.segment id = some s → ∃ s', m'.segment id = some s' ∧ SegmentKept c id s s'
  added : ∀ id s', m.segment id = none → m'.segment id = some s' → Coherent s'
  others : ∀ s' ∈ m'.segmentsV2, s' ∈ m.segmentsV2 ∨ m'.segment s'.segmentId = some s'

/-- The calls that change nothing when they fail. -/
def ManifestCall.atomic : ManifestCall → Bool
  | .registerSealedRaw .. | .recordPack .. | .attachSidecar .. | .attachParquet .. => true
  | _ => false

/-- **The call does what the catalogue promises.** -/
def ManifestCall.Sound (m : DatabaseManifest) (c : ManifestCall) : Prop :=
  ((c.run m).1 = .ok () → CatalogueKept c m (c.run m).2) ∧ ((c.run m).1 ≠ .ok () → c.atomic = true → (c.run m).2 = m)

/-- What the call must be for that: a segment that is registered again has the RAW generation only, and the default policy;
a packing replaces the generation in use; and behind a quarantine the best authority is the generation in use, or, when
that one is quarantined, a superseded one. -/
def ManifestCall.Fits (m : DatabaseManifest) : ManifestCall → Prop
  | .registerSealedRaw segmentId footer canonicalCodec location physicalSize physicalDigest nowHlc =>
    let desc := sealedDescriptor segmentId footer canonicalCodec location physicalSize physicalDigest nowHlc
    ∀ s, m.segment segmentId = some s → s.logicalRoot = footer.logicalRoot → checkSegmentCoherence desc = .ok () →
      (∀ g ∈ s.generations, ∃ g' ∈ desc.generations, SameGeneration g g') ∧ s.retention = {}
  | .recordPack receipt _ _ =>
    ∀ s, m.segment receipt.segmentId = some s → Coherent s → s.logicalRoot = receipt.logicalRoot →
      s.generationAt receipt.targetGeneration = none → receipt.sourceGeneration = s.activeGeneration
  | .quarantineGeneration segmentId generation nowHlc =>
    ∀ s, m.segment segmentId = some s → Coherent s → (s.generationAt generation).isSome = true →
      ∀ g, bestAuthority (s.modifyGeneration generation (quarantine nowHlc)).generations = some g →
        if generation = s.activeGeneration then g.state = .superseded else g.generation = s.activeGeneration
  | _ => True

/-! ## Lookups -/

theorem mem_of_segment {m : DatabaseManifest} {id : Nat} {s : SegmentDescriptorV2} (h : m.segment id = some s) :
    s ∈ m.segmentsV2 := List.mem_of_find?_eq_some h

theorem segmentId_of_segment {m : DatabaseManifest} {id : Nat} {s : SegmentDescriptorV2} (h : m.segment id = some s) :
    s.segmentId = id := by
  have hfound := List.find?_some h
  rwa [beq_iff_eq] at hfound

/-- One descriptor was replaced, or one is new. -/
structure Touches (m m' : DatabaseManifest) (id : Nat) (desc : SegmentDescriptorV2) : Prop where
  segment : ∀ i, m'.segment i = if i = id then some desc else m.segment i
  mem : ∀ s' ∈ m'.segmentsV2, s' ∈ m.segmentsV2 ∨ s' = desc

theorem touches_modifySegment {m : DatabaseManifest} {id : Nat} {s : SegmentDescriptorV2} (h : m.segment id = some s)
    (desc : SegmentDescriptorV2) (hid : desc.segmentId = s.segmentId) : Touches m (m.modifySegment id (fun _ => desc)) id desc := by
  replace hid := hid.trans (segmentId_of_segment h)
  obtain ⟨segs, hsegs⟩ : ∃ segs, m.segmentsV2 = segs := ⟨_, rfl⟩
  constructor
  · intro i
    show List.find? _ (modifyFirst _ _ m.segmentsV2) = if i = id then some desc else List.find? _ m.segmentsV2
    replace h : List.find? (fun s => s.segmentId == id) m.segmentsV2 = some s := h
    rw [hsegs] at h ⊢
    clear hsegs
    induction segs with
    | nil => cases h
    | cons x xs ih =>
      by_cases hx : x.segmentId = id
      · rw [modifyFirst, if_pos (beq_iff_eq.2 hx)]
        by_cases hi : i = id
        · rw [if_pos hi, List.find?_cons_of_pos (by rw [hid, hi, beq_self_eq_true])]
        · rw [if_neg hi, List.find?_cons_of_neg (by rw [hid, beq_iff_eq]; exact Ne.symm hi),
            List.find?_cons_of_neg (by rw [hx, beq_iff_eq]; exact Ne.symm hi)]
      · rw [List.find?_cons_of_neg (by simpa using hx)] at h
        rw [modifyFirst, if_neg (by simpa using hx), List.find?_cons, List.find?_cons, ih h]
        by_cases hi : i = id
        · rw [if_pos hi, if_pos hi, hi, beq_eq_false_iff_ne.2 hx]
        · rw [if_neg hi, if_neg hi]
  · intro s' hs'
    replace hs' : s' ∈ modifyFirst (fun s => s.segmentId == id) (fun _ => desc) m.segmentsV2 := hs'
    rw [hsegs] at hs' ⊢
    clear hsegs h
    induction segs with
    | nil => cases hs'
    | cons x xs ih =>
      rw [modifyFirst] at hs'
      split at hs'
      · rcases List.mem_cons.1 hs' with rfl | hs'
        · exact .inr rfl
        · exact .inl (List.mem_cons_of_mem _ hs')
      · rcases List.mem_cons.1 hs' with rfl | hs'
        · exact .inl List.mem_cons_self
        · exact (ih hs').imp_left (List.mem_cons_of_mem _)

/-- An element with a key of its own is found by this key, and hides nothing. -/
theorem find?_insertIdx {desc : SegmentDescriptorV2} (i : Nat) : ∀ {segs : List SegmentDescriptorV2} {n : Nat},
    (∀ s ∈ segs, s.segmentId ≠ desc.segmentId) → n ≤ segs.length →
    (segs.insertIdx n desc).find? (fun s => s.segmentId == i) =
      if i = desc.segmentId then some desc else segs.find? (fun s => s.segmentId == i)
  | segs, 0, _, _ => by
    rw [List.insertIdx_zero, List.find?_cons]
    by_cases hi : i = desc.segmentId
    · rw [if_pos hi, hi, beq_self_eq_true]
    · rw [if_neg hi, beq_eq_false_iff_ne.2 (Ne.symm hi)]
  | [], n + 1, _, hn => absurd hn (Nat.not_succ_le_zero n)
  | s :: segs, n + 1, h, hn => by
    have hs := h s List.mem_cons_self
    rw [List.insertIdx_succ_cons, List.find?_cons, List.find?_cons,
      find?_insertIdx i (fun s hs => h s (List.mem_cons_of_mem _ hs)) (Nat.le_of_succ_le_succ hn)]
    by_cases hi : i = desc.segmentId
    · rw [if_pos hi, if_pos hi, hi, beq_eq_false_iff_ne.2 hs]
    · rw [if_neg hi, if_neg hi]

theorem set_eq_modifyFirst {α : Type} {p : α → Bool} {a : α} : ∀ {l : List α} {n : Nat}, l.findIdx? p = some n →
    l.set n a = modifyFirst p (fun _ => a) l
  | [], n, h => by cases h
  | x :: l, n, h => by
    rw [List.findIdx?_cons] at h
    rw [modifyFirst]
    split at h
    · rename_i hx
      cases h
      rw [if_pos hx, List.set_cons_zero]
    · rename_i hx
      obtain ⟨k, hk, rfl⟩ := Option.map_eq_some_iff.1 h
      rw [if_neg hx, List.set_cons_succ, set_eq_modifyFirst hk]

theorem touches_upsertSegment (m : DatabaseManifest) (desc : SegmentDescriptorV2) :
    Touches m (m.upsertSegment desc) desc.segmentId desc := by
  unfold DatabaseManifest.upsertSegment
  cases hfind : m.segmentsV2.findIdx? (fun s => s.segmentId == desc.segmentId) with
  | none =>
    have habsent : ∀ s ∈ m.segmentsV2, s.segmentId ≠ desc.segmentId := by
      intro s hs
      simpa using List.findIdx?_eq_none_iff.1 hfind s hs
    have hle : partitionPoint (fun s => decide (s.firstLsn < desc.firstLsn)) m.segmentsV2 ≤ m.segmentsV2.length :=
      (List.takeWhile_prefix _).length_le
    refine ⟨fun i => find?_insertIdx i habsent hle, fun s' hs' => ?_⟩
    rcases (List.mem_insertIdx hle).1 hs' with rfl | hs'
    · exact .inr rfl
    · exact .inl hs'
  | some n =>
    have hset := set_eq_modifyFirst (a := desc) hfind
    have hsome : (m.segment desc.segmentId).isSome = true := by
      rw [DatabaseManifest.segment, List.find?_isSome]
      obtain ⟨hlt, hp, -⟩ := List.findIdx?_eq_some_iff_getElem.1 hfind
      exact ⟨_, List.getElem_mem hlt, hp⟩
    obtain ⟨s, hs⟩ := Option.isSome_iff_exists.1 hsome
    dsimp only
    rw [hset]
    exact touches_modifySegment hs desc (segmentId_of_segment hs).symm

/-! ## One descriptor -/

theorem SameGeneration.refl (g : PhysicalGeneration) : SameGeneration g g := ⟨rfl, rfl, rfl, rfl, rfl, rfl⟩

theorem SameGeneration.trans {g g' g'' : PhysicalGeneration} (h : SameGeneration g g') (h' : SameGeneration g' g'') : SameGeneration g g'' := by
  obtain ⟨h₁, h₂, h₃, h₄, h₅, h₆⟩ := h
  obtain ⟨h₁', h₂', h₃', h₄', h₅', h₆'⟩ := h'
  exact ⟨h₁'.trans h₁, h₂'.trans h₂, h₃'.trans h₃, h₄'.trans h₄, h₅'.trans h₅, h₆'.trans h₆⟩

section Descriptor

variable {s s' : SegmentDescriptorV2} {c : ManifestCall} {id n : Nat} {f : PhysicalGeneration → PhysicalGeneration}

theorem SegmentKept.refl (hc : c.retention id s.retention = s.retention) : SegmentKept c id s s :=
  ⟨fun h => h, fun g hg => ⟨g, hg, .refl g⟩, hc.symm⟩

/-- The generation in use, where numbers are distinct. -/
theorem coherent_iff (hdistinct : (s.generations.map (·.generation)).Nodup) : Coherent s ↔
    (∃ g ∈ s.generations, g.generation = s.activeGeneration ∧ g.state = .active) ∧
      ∀ g ∈ s.generations, g.state = .active → g.generation = s.activeGeneration := by
  constructor
  · rintro ⟨-, ⟨g, hactive, hstate⟩, honly⟩
    have hnumber := List.find?_some hactive
    exact ⟨⟨g, List.mem_of_find?_eq_some hactive, beq_iff_eq.1 hnumber, hstate⟩, honly⟩
  · rintro ⟨⟨g, hg, hnumber, hstate⟩, honly⟩
    exact ⟨hdistinct, ⟨g, find?_eq_some_of_nodup hdistinct hg hnumber, hstate⟩, honly⟩

/-- An update that leaves the file of every generation alone. -/
theorem map_generation_modifyFirst {p : PhysicalGeneration → Bool} (hf : ∀ g, SameGeneration g (f g))
    (l : List PhysicalGeneration) : (modifyFirst p f l).map (·.generation) = l.map (·.generation) :=
  map_modifyFirst (fun g => (hf g).1) l

theorem sameGeneration_modifyFirst {p : PhysicalGeneration → Bool} (hf : ∀ g, SameGeneration g (f g)) :
    ∀ {l : List PhysicalGeneration}, ∀ g ∈ l, ∃ g' ∈ modifyFirst p f l, SameGeneration g g'
  | x :: l, g, hg => by
    rw [modifyFirst]
    rcases List.mem_cons.1 hg with rfl | hg
    · split
      · exact ⟨_, List.mem_cons_self, hf g⟩
      · exact ⟨_, List.mem_cons_self, .refl g⟩
    · split
      · exact ⟨g, List.mem_cons_of_mem _ hg, .refl g⟩
      · obtain ⟨g', hg', hsame⟩ := sameGeneration_modifyFirst hf g hg
        exact ⟨g', List.mem_cons_of_mem _ hg', hsame⟩

theorem sameGeneration_supersede (nowHlc : Nat) (g : PhysicalGeneration) : SameGeneration g (supersede nowHlc g) := by
  unfold supersede
  split <;> exact ⟨rfl, rfl, rfl, rfl, rfl, rfl⟩

theorem sameGeneration_reactivate (g : PhysicalGeneration) : SameGeneration g (reactivate g) := by
  unfold reactivate
  split <;> exact ⟨rfl, rfl, rfl, rfl, rfl, rfl⟩

theorem reactivate_of_active {g : PhysicalGeneration} (h : g.state = .active) : reactivate g = g := by
  rw [reactivate, h, if_neg (by decide)]

theorem sameGeneration_quarantine (nowHlc : Nat) (g : PhysicalGeneration) : SameGeneration g (quarantine nowHlc g) :=
  ⟨rfl, rfl, rfl, rfl, rfl, rfl⟩

theorem bestAuthority_mem {gens : List PhysicalGeneration} {g : PhysicalGeneration} (h : bestAuthority gens = some g) :
    g ∈ gens ∧ g.isCanonicalAuthority = true := by
  have hfold : ∀ (l : List PhysicalGeneration) (best : Option PhysicalGeneration),
      l.foldl (fun best g => if best.all (PhysicalGeneration.preferredTo g) then some g else best) best = some g →
      best = some g ∨ g ∈ l := by
    intro l
    induction l with
    | nil => exact fun best h => .inl h
    | cons x l ih =>
      intro best h
      rcases ih _ h with h | h
      · dsimp only at h
        split at h
        · cases h
          exact .inr List.mem_cons_self
        · exact .inl h
      · exact .inr (List.mem_cons_of_mem _ h)
  rcases hfold _ _ h with h | h
  · cases h
  · exact List.mem_filter.1 h

/-! ## The check of the codec -/

theorem active_isNone : s.active.isNone = true ↔ s.activeGeneration ∉ s.generations.map (·.generation) := by
  rw [Option.isNone_iff_eq_none, SegmentDescriptorV2.active, List.find?_eq_none, List.mem_map]
  constructor
  · rintro h ⟨g, hg, hnumber⟩
    exact h g hg (beq_iff_eq.2 hnumber)
  · intro h g hg hnumber
    exact h ⟨g, hg, beq_iff_eq.1 hnumber⟩

/-- What has the numbers and the spans of a descriptor that passes, and uses one of the numbers, passes as well. -/
theorem checkSegmentCoherence_of_numbers (hs : checkSegmentCoherence s = .ok ())
    (hspans : (s'.recordCount, s'.firstLsn, s'.lastLsn, s'.minHlc, s'.maxHlc) =
      (s.recordCount, s.firstLsn, s.lastLsn, s.minHlc, s.maxHlc))
    (hnumbers : (s'.generations.map (·.generation)).Nodup)
    (hactive : s'.generations ≠ [] → s'.activeGeneration ∈ s'.generations.map (·.generation)) :
    checkSegmentCoherence s' = .ok () := by
  rw [checkSegmentCoherence_eq_ok] at hs ⊢
  simp only [Prod.mk.injEq] at hspans
  obtain ⟨hcount, hfirst, hlast, hmin, hmax⟩ := hspans
  rw [hcount, hfirst, hlast, hmin, hmax]
  exact ⟨hs.1, hs.2.1, hs.2.2.1, hnumbers, fun ⟨hne, hnone⟩ => active_isNone.1 hnone (hactive hne)⟩

theorem distinct_of_check (hs : checkSegmentCoherence s = .ok ()) : (s.generations.map (·.generation)).Nodup :=
  ((checkSegmentCoherence_eq_ok s).1 hs).2.2.2.1

theorem active_of_check (hs : checkSegmentCoherence s = .ok ()) (hne : s.generations ≠ []) :
    s.activeGeneration ∈ s.generations.map (·.generation) := by
  by_contra habsent
  exact ((checkSegmentCoherence_eq_ok s).1 hs).2.2.2.2 ⟨hne, active_isNone.2 habsent⟩

theorem coherent_sealedDescriptor (segmentId : Nat) (footer : FooterV6) (canonicalCodec : Nat) (location : String)
    (physicalSize : Nat) (physicalDigest : Digest) (nowHlc : Nat) :
    Coherent (sealedDescriptor segmentId footer canonicalCodec location physicalSize physicalDigest nowHlc) := by
  have hdistinct : ((sealedDescriptor segmentId footer canonicalCodec location physicalSize physicalDigest
      nowHlc).generations.map (·.generation)).Nodup := List.pairwise_singleton _ _
  refine (coherent_iff hdistinct).2 ⟨⟨_, List.mem_singleton_self _, rfl, rfl⟩, fun g hg _ => ?_⟩
  rw [List.mem_singleton.1 hg]
  rfl

/-! ## Packing -/

section Packing

variable {receipt : PackReceipt} {targetLocation : String} {nowHlc : Nat}

theorem generationAt_eq_none {n : Nat} : s.generationAt n = none ↔ n ∉ s.generations.map (·.generation) := by
  rw [SegmentDescriptorV2.generationAt, List.find?_eq_none, List.mem_map]
  constructor
  · rintro h ⟨g, hg, hnumber⟩
    exact h g hg (beq_iff_eq.2 hnumber)
  · intro h g hg hnumber
    exact h ⟨g, hg, beq_iff_eq.1 hnumber⟩

/-- The generation that a packing adds. -/
def packedGeneration (receipt : PackReceipt) (targetLocation : String) (nowHlc : Nat) : PhysicalGeneration := {
  generation := receipt.targetGeneration, layout := .packed, compression := receipt.codec, location := targetLocation
  physicalSize := receipt.targetPhysicalSize, physicalDigest := receipt.targetPhysicalDigest, state := .active
  createdHlc := nowHlc, verifiedHlc := nowHlc, supersededHlc := 0, verifiedCopies := 1 }

theorem packedDescriptor_generations : (packedDescriptor s receipt targetLocation nowHlc).generations =
    modifyFirst (fun g => g.generation == receipt.sourceGeneration) (supersede nowHlc)
      (s.generations ++ [packedGeneration receipt targetLocation nowHlc]) := rfl

theorem map_generation_packed : (packedDescriptor s receipt targetLocation nowHlc).generations.map (·.generation) =
    s.generations.map (·.generation) ++ [receipt.targetGeneration] := by
  rw [packedDescriptor_generations, map_generation_modifyFirst (sameGeneration_supersede nowHlc), List.map_append]
  rfl

variable (targetLocation nowHlc) in
theorem nodup_packed (hdistinct : (s.generations.map (·.generation)).Nodup)
    (hfresh : s.generationAt receipt.targetGeneration = none) :
    ((packedDescriptor s receipt targetLocation nowHlc).generations.map (·.generation)).Nodup := by
  rw [map_generation_packed, List.nodup_append]
  refine ⟨hdistinct, List.pairwise_singleton _ _, ?_⟩
  intro a ha b hb heq
  rw [List.mem_singleton.1 hb] at heq
  exact generationAt_eq_none.1 hfresh (heq ▸ ha)

/-- A generation behind a packing: one that was there, or the packed one. -/
theorem mem_packed (hdistinct : (s.generations.map (·.generation)).Nodup)
    (hfresh : s.generationAt receipt.targetGeneration = none) {g : PhysicalGeneration} :
    g ∈ (packedDescriptor s receipt targetLocation nowHlc).generations ↔
      ∃ x, (x ∈ s.generations ∨ x = packedGeneration receipt targetLocation nowHlc) ∧
        (if x.generation = receipt.sourceGeneration then supersede nowHlc x else x) = g := by
  have hnodup := nodup_packed targetLocation nowHlc hdistinct hfresh
  rw [map_generation_packed] at hnodup
  rw [packedDescriptor_generations, modifyFirst_eq_map (by rw [List.map_append]; exact hnodup), List.mem_map]
  simp only [List.mem_append, List.mem_singleton]

/-- **A packing keeps a segment coherent just when it replaces the generation in use.** -/
theorem coherent_packed_iff (hs : Coherent s) (hfresh : s.generationAt receipt.targetGeneration = none) :
    Coherent (packedDescriptor s receipt targetLocation nowHlc) ↔ receipt.sourceGeneration = s.activeGeneration := by
  have habsent := generationAt_eq_none.1 hfresh
  obtain ⟨⟨a, ha, hnumber, hactive⟩, honly⟩ := (coherent_iff hs.distinct).1 hs
  rw [coherent_iff (nodup_packed targetLocation nowHlc hs.distinct hfresh)]
  constructor
  · rintro ⟨-, honly'⟩
    by_contra hne
    have hmem : a ∈ (packedDescriptor s receipt targetLocation nowHlc).generations :=
      (mem_packed hs.distinct hfresh).2 ⟨a, .inl ha, if_neg (fun h => hne (h.symm.trans hnumber))⟩
    have htarget : a.generation = receipt.targetGeneration := honly' a hmem hactive
    exact habsent (htarget ▸ List.mem_map_of_mem ha)
  · intro hsource
    have htarget : (packedGeneration receipt targetLocation nowHlc).generation ≠ receipt.sourceGeneration := by
      intro h
      exact habsent (List.mem_map.2 ⟨a, ha, hnumber.trans (h.trans hsource).symm⟩)
    refine ⟨⟨packedGeneration receipt targetLocation nowHlc, ?_, rfl, rfl⟩, fun g hg hstate => ?_⟩
    · exact (mem_packed hs.distinct hfresh).2 ⟨_, .inr rfl, if_neg htarget⟩
    · obtain ⟨x, hx | rfl, rfl⟩ := (mem_packed hs.distinct hfresh).1 hg
      · -- what was active is the source
        exfalso
        split at hstate
        · unfold supersede at hstate
          split at hstate
          · rename_i hq
            rw [hq] at hstate
            cases hstate
          · cases hstate
        · rename_i hne
          exact hne ((honly x hx hstate).trans hsource.symm)
      · rw [if_neg htarget]
        rfl

end Packing

/-! ## Quarantine -/

/-- A generation behind an update of one number. -/
theorem mem_modifyGeneration (hdistinct : (s.generations.map (·.generation)).Nodup) {g : PhysicalGeneration} :
    g ∈ (s.modifyGeneration n f).generations ↔ ∃ x ∈ s.generations, (if x.generation = n then f x else x) = g := by
  rw [SegmentDescriptorV2.modifyGeneration, modifyFirst_eq_map hdistinct, List.mem_map]

theorem map_generation_modifyGeneration (hf : ∀ g, SameGeneration g (f g)) :
    (s.modifyGeneration n f).generations.map (·.generation) = s.generations.map (·.generation) :=
  map_generation_modifyFirst hf _

/-- **A quarantine keeps a segment coherent** just when the best authority left is the generation in use, or a superseded
one if that is the one that is quarantined. -/
theorem coherent_quarantined_iff (hs : Coherent s) {nowHlc : Nat} {c : PhysicalGeneration}
    (hc : bestAuthority (s.modifyGeneration n (quarantine nowHlc)).generations = some c) :
    Coherent (reactivated (s.modifyGeneration n (quarantine nowHlc)) c.generation) ↔
      if n = s.activeGeneration then c.state = .superseded else c.generation = s.activeGeneration := by
  obtain ⟨⟨a, ha, hnumber, hactive⟩, honly⟩ := (coherent_iff hs.distinct).1 hs
  obtain ⟨hmem, hauthority⟩ := bestAuthority_mem hc
  have hdistinct : ((s.modifyGeneration n (quarantine nowHlc)).generations.map (·.generation)).Nodup := by
    rw [map_generation_modifyGeneration (sameGeneration_quarantine nowHlc)]
    exact hs.distinct
  have hdistinct' : ((reactivated (s.modifyGeneration n (quarantine nowHlc)) c.generation).generations.map
      (·.generation)).Nodup := by
    rw [reactivated, map_generation_modifyGeneration sameGeneration_reactivate]
    exact hdistinct
  -- what is active behind the quarantine was so before it
  have hbefore : ∀ g ∈ (s.modifyGeneration n (quarantine nowHlc)).generations, g.state = .active →
      g.generation = s.activeGeneration ∧ n ≠ s.activeGeneration := by
    intro g hg hstate
    obtain ⟨x, hx, rfl⟩ := (mem_modifyGeneration hs.distinct).1 hg
    by_cases hxn : x.generation = n
    · rw [if_pos hxn] at hstate
      cases hstate
    · rw [if_neg hxn] at hstate ⊢
      exact ⟨honly x hx hstate, fun h => hxn ((honly x hx hstate).trans h.symm)⟩
  rw [coherent_iff hdistinct']
  constructor
  · rintro ⟨⟨g, hg, hgnumber, hgstate⟩, honly'⟩
    by_cases hn : n = s.activeGeneration
    · obtain ⟨x, hx, rfl⟩ := (mem_modifyGeneration hdistinct).1 hg
      have hxc : x.generation = c.generation := by
        split at hgnumber
        · assumption
        · exact hgnumber
      rw [List.inj_on_of_nodup_map hdistinct hx hmem hxc, if_pos rfl] at hgstate
      rw [if_pos hn]
      by_contra hsuperseded
      rw [reactivate, if_neg hsuperseded] at hgstate
      exact (hbefore c hmem hgstate).2 hn
    · have hleft : a ∈ (s.modifyGeneration n (quarantine nowHlc)).generations :=
        (mem_modifyGeneration hs.distinct).2 ⟨a, ha, if_neg (fun h => hn (h.symm.trans hnumber))⟩
      have hsame : (if a.generation = c.generation then reactivate a else a) = a := by
        rw [reactivate_of_active hactive, ite_self]
      rw [if_neg hn, ← hnumber]
      exact (honly' a ((mem_modifyGeneration hdistinct).2 ⟨a, hleft, hsame⟩) hactive).symm
  · intro h
    have hstate : (reactivate c).state = .active := by
      split at h
      · rw [reactivate, if_pos h]
      · rename_i hn
        have hleft : a ∈ (s.modifyGeneration n (quarantine nowHlc)).generations :=
          (mem_modifyGeneration hs.distinct).2 ⟨a, ha, if_neg (fun h => hn (h.symm.trans hnumber))⟩
        rw [List.inj_on_of_nodup_map hdistinct hmem hleft (h.trans hnumber.symm), reactivate_of_active hactive]
        exact hactive
    refine ⟨⟨reactivate c, (mem_modifyGeneration hdistinct).2 ⟨c, hmem, if_pos rfl⟩, (sameGeneration_reactivate c).1, hstate⟩, ?_⟩
    intro g hg hgstate
    obtain ⟨x, hx, rfl⟩ := (mem_modifyGeneration hdistinct).1 hg
    by_cases hxc : x.generation = c.generation
    · rw [if_pos hxc]
      exact (sameGeneration_reactivate x).1.trans hxc
    · rw [if_neg hxc] at hgstate ⊢
      obtain ⟨hxnumber, hn⟩ := hbefore x hx hgstate
      rw [if_neg hn] at h
      exact absurd (hxnumber.trans h.symm) hxc

end Descriptor

/-! ## One call -/

section Call

variable {m m' : DatabaseManifest} {c : ManifestCall} {id : Nat} {s desc : SegmentDescriptorV2}

/-- Every descriptor passes the check of the codec. -/
def Wellformed (m : DatabaseManifest) : Prop := ∀ s ∈ m.segmentsV2, checkSegmentCoherence s = .ok ()

/-- The watermarks are not looked at. -/
theorem Touches.watermarks (h : Touches m m' id desc) (cumulative exported : Nat) :
    Touches m { m' with cumulativeWatermark := cumulative, exportedThroughLsn := exported } id desc := ⟨h.segment, h.mem⟩

theorem Touches.wellformed (h : Touches m m' id desc) (hm : Wellformed m) (hdesc : checkSegmentCoherence desc = .ok ()) :
    Wellformed m' := by
  intro s' hs'
  rcases h.mem s' hs' with hs' | rfl
  · exact hm s' hs'
  · exact hdesc

/-- A call that replaced one descriptor kept what it had to just when it did so there. -/
theorem Touches.kept_iff (h : Touches m m' id desc) (hid : desc.segmentId = id)
    (hc : ∀ i r, i ≠ id → c.retention i r = r) :
    CatalogueKept c m m' ↔ (∀ s, m.segment id = some s → SegmentKept c id s desc) ∧ (m.segment id = none → Coherent desc) := by
  have hself : m'.segment id = some desc := by rw [h.segment, if_pos rfl]
  constructor
  · intro hkept
    refine ⟨fun s hs => ?_, fun hnone => hkept.added id desc hnone hself⟩
    obtain ⟨s', hs', hsegment⟩ := hkept.kept id s hs
    cases hself.symm.trans hs'
    exact hsegment
  · rintro ⟨hold, hnew⟩
    refine ⟨fun i s hs => ?_, fun i s' hnone hs' => ?_, fun s' hs' => ?_⟩
    · by_cases hi : i = id
      · subst hi
        exact ⟨desc, hself, hold s hs⟩
      · exact ⟨s, by rw [h.segment, if_neg hi, hs], .refl (hc i _ hi)⟩
    · by_cases hi : i = id
      · subst hi
        cases hself.symm.trans hs'
        exact hnew hnone
      · rw [h.segment, if_neg hi, hnone] at hs'
        cases hs'
    · rcases h.mem s' hs' with hs' | rfl
      · exact .inl hs'
      · exact .inr (hid ▸ hself)

theorem Touches.kept_iff_of_segment (h : Touches m m' id desc) (hs : m.segment id = some s) (hid : desc.segmentId = s.segmentId)
    (hc : ∀ i r, i ≠ id → c.retention i r = r) : CatalogueKept c m m' ↔ SegmentKept c id s desc := by
  rw [h.kept_iff (hid.trans (segmentId_of_segment hs)) hc]
  constructor
  · rintro ⟨hold, -⟩
    exact hold s hs
  · intro hold
    refine ⟨fun s' hs' => ?_, fun hnone => ?_⟩
    · cases hs.symm.trans hs'
      exact hold
    · cases hs.symm.trans hnone

/-- What a call does to a manifest whose descriptors pass the check. -/
structure Ruled (m : DatabaseManifest) (c : ManifestCall) : Prop where
  sound : c.Sound m ↔ c.Fits m
  wellformed : Wellformed (c.run m).2

theorem ruled_of_refused {e : HeraclitusError} (hm : Wellformed m) (hrun : c.run m = (.error e, m)) (hfits : c.Fits m) :
    Ruled m c := by
  refine ⟨iff_of_true ⟨fun h => ?_, fun _ _ => ?_⟩ hfits, ?_⟩
  · rw [hrun] at h
    cases h
  · rw [hrun]
  · rw [hrun]
    exact hm

theorem ruled_of_touched (hm : Wellformed m) (hrun : c.run m = (.ok (), m')) (h : Touches m m' id desc)
    (hdesc : checkSegmentCoherence desc = .ok ()) (hkept : CatalogueKept c m m' ↔ c.Fits m) : Ruled m c := by
  refine ⟨?_, by rw [hrun]; exact h.wellformed hm hdesc⟩
  rw [← hkept]
  constructor
  · intro hsound
    have hok := hsound.1 (by rw [hrun])
    rwa [hrun] at hok
  · intro hkept
    exact ⟨fun _ => by rw [hrun]; exact hkept, fun hne => absurd (by rw [hrun]) hne⟩

theorem ruled_registerSealedRaw (hm : Wellformed m) (segmentId : Nat) (footer : FooterV6) (canonicalCodec : Nat)
    (location : String) (physicalSize : Nat) (physicalDigest : Digest) (nowHlc : Nat) :
    Ruled m (.registerSealedRaw segmentId footer canonicalCodec location physicalSize physicalDigest nowHlc) := by
  have hcoherent := coherent_sealedDescriptor segmentId footer canonicalCodec location physicalSize physicalDigest nowHlc
  cases hsame : (m.segment segmentId).any (fun existing => existing.logicalRoot != footer.logicalRoot) with
  | true =>
    refine ruled_of_refused hm (e := corrupt "hrkm register"
      s!"segment {segmentId} is already catalogued with a different logical_root") ?_ ?_
    · rw [ManifestCall.run, registerSealedRaw, if_pos hsame]
    · intro s hs hroot
      rw [hs, Option.any_some, bne_iff_ne] at hsame
      exact absurd hroot hsame
  | false =>
    cases hcheck : checkSegmentCoherence
        (sealedDescriptor segmentId footer canonicalCodec location physicalSize physicalDigest nowHlc) with
    | error e =>
      refine ruled_of_refused hm (e := e) ?_ ?_
      · rw [ManifestCall.run, registerSealedRaw, if_neg (by rw [hsame]; exact Bool.false_ne_true)]
        dsimp only
        rw [hcheck]
      · intro s hs hroot hok
        cases hcheck.symm.trans hok
    | ok u =>
      have htouches := (touches_upsertSegment m (sealedDescriptor segmentId footer canonicalCodec location physicalSize
        physicalDigest nowHlc)).watermarks (max m.cumulativeWatermark footer.maxLsn) m.exportedThroughLsn
      refine ruled_of_touched hm ?_ htouches hcheck ((htouches.kept_iff rfl (fun _ _ _ => rfl)).trans ⟨?_, ?_⟩)
      · rw [ManifestCall.run, registerSealedRaw, if_neg (by rw [hsame]; exact Bool.false_ne_true)]
        dsimp only
        rw [hcheck]
        rfl
      · rintro ⟨hold, -⟩ s hs - -
        have hkept := hold s hs
        exact ⟨hkept.generations, hkept.retention.symm⟩
      · intro hfits
        refine ⟨fun s (hs : m.segment segmentId = some s) => ?_, fun _ => hcoherent⟩
        rw [hs, Option.any_some, bne_eq_false_iff_eq] at hsame
        obtain ⟨hgenerations, hretention⟩ := hfits s hs hsame hcheck
        exact ⟨fun _ => hcoherent, hgenerations, hretention.symm⟩

theorem packed_passes {receipt : PackReceipt} (targetLocation : String) (nowHlc : Nat)
    (hs : checkSegmentCoherence s = .ok ()) (hfresh : s.generationAt receipt.targetGeneration = none) :
    checkSegmentCoherence (packedDescriptor s receipt targetLocation nowHlc) = .ok () := by
  refine checkSegmentCoherence_of_numbers hs rfl (nodup_packed targetLocation nowHlc (distinct_of_check hs) hfresh) (fun _ => ?_)
  rw [map_generation_packed]
  exact List.mem_append_right _ (List.mem_singleton_self _)

theorem ruled_recordPack (hm : Wellformed m) (receipt : PackReceipt) (targetLocation : String) (nowHlc : Nat) :
    Ruled m (.recordPack receipt targetLocation nowHlc) := by
  cases hs : m.segment receipt.segmentId with
  | none =>
    refine ruled_of_refused hm (e := notCatalogued "hrkm record_pack" receipt.segmentId) ?_ ?_
    · rw [ManifestCall.run, recordPackInPlace, hs]
    · intro s hs'
      cases hs.symm.trans hs'
  | some s =>
    by_cases hroot : s.logicalRoot = receipt.logicalRoot
    · cases hfresh : s.generationAt receipt.targetGeneration with
      | some g =>
        refine ruled_of_refused hm
          (e := corrupt "hrkm record_pack" "target generation already recorded; generations are immutable") ?_ ?_
        · rw [ManifestCall.run, recordPackInPlace, hs]
          dsimp only
          rw [if_neg (not_not.2 hroot), hfresh, if_pos Option.isSome_some]
        · intro s' hs' _ _ hfresh'
          cases hs.symm.trans hs'
          cases hfresh.symm.trans hfresh'
      | none =>
        have hpass := packed_passes targetLocation nowHlc (hm s (mem_of_segment hs)) hfresh
        have htouches := touches_modifySegment hs (packedDescriptor s receipt targetLocation nowHlc) rfl
        refine ruled_of_touched hm ?_ htouches hpass
          ((htouches.kept_iff_of_segment hs rfl (fun _ _ _ => rfl)).trans ⟨?_, ?_⟩)
        · rw [ManifestCall.run, recordPackInPlace, hs]
          dsimp only
          rw [if_neg (not_not.2 hroot), hfresh, if_neg (by decide), hpass]
        · intro hkept s' hs' hcoherent _ _
          cases hs.symm.trans hs'
          exact (coherent_packed_iff hcoherent hfresh).1 (hkept.coherent hcoherent)
        · intro hfits
          refine ⟨fun hcoherent => (coherent_packed_iff hcoherent hfresh).2 (hfits s hs hcoherent hroot hfresh), ?_, rfl⟩
          intro g hg
          rw [packedDescriptor_generations]
          exact sameGeneration_modifyFirst (sameGeneration_supersede nowHlc) g (List.mem_append_left _ hg)
    · refine ruled_of_refused hm (e := corrupt "hrkm record_pack"
        "pack receipt logical_root differs from the catalogued segment; refusing to record") ?_ ?_
      · rw [ManifestCall.run, recordPackInPlace, hs]
        dsimp only
        rw [if_pos hroot]
      · intro s' hs' _ hroot'
        cases hs.symm.trans hs'
        exact absurd hroot' hroot

theorem quarantined_passes (n nowHlc : Nat) (hs : checkSegmentCoherence s = .ok ()) :
    checkSegmentCoherence (s.modifyGeneration n (quarantine nowHlc)) = .ok () := by
  have hnumbers := map_generation_modifyGeneration (s := s) (n := n) (sameGeneration_quarantine nowHlc)
  refine checkSegmentCoherence_of_numbers hs rfl (hnumbers ▸ distinct_of_check hs) (fun hne => ?_)
  rw [hnumbers]
  refine active_of_check hs (fun hnil => hne ?_)
  rw [SegmentDescriptorV2.modifyGeneration, hnil]
  rfl

theorem reactivated_passes {g : PhysicalGeneration} (hs : checkSegmentCoherence s = .ok ()) (hg : g ∈ s.generations) :
    checkSegmentCoherence (reactivated s g.generation) = .ok () := by
  have hnumbers : (reactivated s g.generation).generations.map (·.generation) = s.generations.map (·.generation) :=
    map_generation_modifyGeneration sameGeneration_reactivate
  refine checkSegmentCoherence_of_numbers hs rfl (hnumbers ▸ distinct_of_check hs) (fun _ => ?_)
  rw [hnumbers]
  exact List.mem_map_of_mem hg

theorem ruled_quarantineGeneration (hm : Wellformed m) (segmentId generation nowHlc : Nat) :
    Ruled m (.quarantineGeneration segmentId generation nowHlc) := by
  cases hs : m.segment segmentId with
  | none =>
    refine ruled_of_refused hm (e := notCatalogued "hrkm quarantine" segmentId) ?_ ?_
    · rw [ManifestCall.run, quarantineGeneration, hs]
      rfl
    · intro s hs'
      cases hs.symm.trans hs'
  | some s =>
    cases hfound : (s.generationAt generation).isNone with
    | true =>
      refine ruled_of_refused hm (e := corrupt "hrkm quarantine" s!"generation {generation} does not exist") ?_ ?_
      · rw [ManifestCall.run, quarantineGeneration, hs]
        dsimp only
        rw [hfound]
        rfl
      · intro s' hs' _ hsome
        cases hs.symm.trans hs'
        rw [Option.isNone_iff_eq_none.1 hfound] at hsome
        cases hsome
    | false =>
      have hpass := quarantined_passes generation nowHlc (hm s (mem_of_segment hs))
      cases hbest : bestAuthority (s.modifyGeneration generation (quarantine nowHlc)).generations with
      | none =>
        -- the call fails, and its quarantine stays
        have htouches := touches_modifySegment hs (s.modifyGeneration generation (quarantine nowHlc)) rfl
        have hrun : (ManifestCall.quarantineGeneration segmentId generation nowHlc).run m =
            (.error (corrupt "hrkm quarantine"
              s!"segment {segmentId} has no remaining canonical authority after quarantine"),
              m.modifySegment segmentId (fun _ => s.modifyGeneration generation (quarantine nowHlc))) := by
          rw [ManifestCall.run, quarantineGeneration, hs]
          dsimp only
          rw [hfound, if_neg Bool.false_ne_true, hbest]
          rfl
        refine ⟨iff_of_true ⟨fun h => ?_, fun _ h => ?_⟩ ?_, ?_⟩
        · rw [hrun] at h
          cases h
        · cases h
        · intro s' hs' _ _ g hg
          cases hs.symm.trans hs'
          cases hbest.symm.trans hg
        · rw [hrun]
          exact htouches.wellformed hm hpass
      | some g =>
        have htouches := touches_modifySegment hs
          (reactivated (s.modifyGeneration generation (quarantine nowHlc)) g.generation) rfl
        refine ruled_of_touched hm ?_ htouches (reactivated_passes hpass (bestAuthority_mem hbest).1)
          ((htouches.kept_iff_of_segment hs rfl (fun _ _ _ => rfl)).trans ⟨?_, ?_⟩)
        · rw [ManifestCall.run, quarantineGeneration, hs]
          dsimp only
          rw [hfound, if_neg Bool.false_ne_true, hbest]
          rfl
        · intro hkept s' hs' hcoherent _ g' hg'
          cases hs.symm.trans hs'
          cases hbest.symm.trans hg'
          exact (coherent_quarantined_iff hcoherent hbest).1 (hkept.coherent hcoherent)
        · intro hfits
          refine ⟨fun hcoherent => (coherent_quarantined_iff hcoherent hbest).2 (hfits s hs hcoherent ?_ g hbest), ?_, rfl⟩
          · rw [← Option.not_isNone, hfound]
            rfl
          · intro x hx
            obtain ⟨y, hy, hxy⟩ := sameGeneration_modifyFirst (sameGeneration_quarantine nowHlc) x hx
            obtain ⟨z, hz, hyz⟩ := sameGeneration_modifyFirst sameGeneration_reactivate y hy
            exact ⟨z, hz, hxy.trans hyz⟩

/-- A call that changes one descriptor and asks for nothing. -/
theorem ruled_of_modified (hm : Wellformed m) (hs : m.segment id = some s) (hrun : c.run m = (.ok (), m'))
    (h : Touches m m' id desc) (hid : desc.segmentId = s.segmentId) (hc : ∀ i r, i ≠ id → c.retention i r = r)
    (hpass : checkSegmentCoherence desc = .ok ()) (hkept : SegmentKept c id s desc) (hfits : c.Fits m) : Ruled m c :=
  ruled_of_touched hm hrun h hpass (iff_of_true ((h.kept_iff_of_segment hs hid hc).2 hkept) hfits)

theorem ruled_attachSidecar (hm : Wellformed m) (segmentId : Nat) (artifact : DerivedArtifactRef) :
    Ruled m (.attachSidecar segmentId artifact) := by
  cases hs : m.segment segmentId with
  | none => exact ruled_of_refused hm (by rw [ManifestCall.run, attachSidecar, hs]) trivial
  | some s =>
    by_cases hroot : artifact.logicalRoot = s.logicalRoot
    · refine ruled_of_modified hm hs ?_ (touches_modifySegment hs { s with hrki := some artifact } rfl) rfl
        (fun _ _ _ => rfl) (hm s (mem_of_segment hs)) ?_ trivial
      · rw [ManifestCall.run, attachSidecar, hs]
        dsimp only
        rw [if_neg (not_not.2 hroot)]
      · exact ⟨fun h => ⟨h.distinct, h.active, h.onlyActive⟩, fun g hg => ⟨g, hg, .refl g⟩, rfl⟩
    · refine ruled_of_refused hm (e := corrupt "hrkm attach_sidecar" "sidecar logical_root does not match the segment") ?_
        trivial
      rw [ManifestCall.run, attachSidecar, hs]
      dsimp only
      rw [if_pos hroot]

theorem ruled_attachParquet (hm : Wellformed m) (segmentId : Nat) (artifact : DerivedArtifactRef) :
    Ruled m (.attachParquet segmentId artifact) := by
  cases hs : m.segment segmentId with
  | none => exact ruled_of_refused hm (by rw [ManifestCall.run, attachParquet, hs]) trivial
  | some s =>
    by_cases hroot : artifact.logicalRoot = s.logicalRoot
    · have htouches := touches_modifySegment hs { s with parquet := some artifact } rfl
      let exported := max (contiguousExportedLsn (m.modifySegment segmentId (fun _ => { s with parquet := some artifact })))
        (min m.exportedThroughLsn s.lastLsn)
      refine ruled_of_modified hm hs ?_ (htouches.watermarks m.cumulativeWatermark exported) rfl (fun _ _ _ => rfl)
        (hm s (mem_of_segment hs)) ?_ trivial
      · rw [ManifestCall.run, attachParquet, hs]
        dsimp only
        rw [if_neg (not_not.2 hroot)]
        rfl
      · exact ⟨fun h => ⟨h.distinct, h.active, h.onlyActive⟩, fun g hg => ⟨g, hg, .refl g⟩, rfl⟩
    · refine ruled_of_refused hm (e := corrupt "hrkm attach_parquet" "parquet logical_root does not match the segment") ?_
        trivial
      rw [ManifestCall.run, attachParquet, hs]
      dsimp only
      rw [if_pos hroot]

theorem ruled_setLegalHold (hm : Wellformed m) (segmentId : Nat) (hold : Bool) :
    Ruled m (.setLegalHold segmentId hold) := by
  cases hs : m.segment segmentId with
  | none => exact ruled_of_refused hm (by rw [ManifestCall.run, setLegalHold, hs]) trivial
  | some s =>
    refine ruled_of_modified hm hs ?_
      (touches_modifySegment hs { s with retention := { s.retention with legalHold := hold } } rfl) rfl
      (fun i r hi => if_neg (Ne.symm hi)) (hm s (mem_of_segment hs)) ?_ trivial
    · rw [ManifestCall.run, setLegalHold, hs]
    · exact ⟨fun h => ⟨h.distinct, h.active, h.onlyActive⟩, fun g hg => ⟨g, hg, .refl g⟩, (if_pos rfl).symm⟩

theorem ruled_setVerifiedCopies (hm : Wellformed m) (segmentId generation copies : Nat) :
    Ruled m (.setVerifiedCopies segmentId generation copies) := by
  cases hs : m.segment segmentId with
  | none => exact ruled_of_refused hm (by rw [ManifestCall.run, setVerifiedCopies, hs]) trivial
  | some s =>
    cases hfound : (s.generationAt generation).isNone with
    | true =>
      refine ruled_of_refused hm (e := corrupt "hrkm verified_copies" s!"generation {generation} does not exist") ?_ trivial
      rw [ManifestCall.run, setVerifiedCopies, hs]
      dsimp only
      rw [if_pos hfound]
    | false =>
      let f : PhysicalGeneration → PhysicalGeneration := fun g => { g with verifiedCopies := copies }
      have hf : ∀ g, SameGeneration g (f g) := fun g => ⟨rfl, rfl, rfl, rfl, rfl, rfl⟩
      have hnumbers := map_generation_modifyGeneration (s := s) (n := generation) hf
      have hcheck := hm s (mem_of_segment hs)
      refine ruled_of_modified hm hs ?_ (touches_modifySegment hs (s.modifyGeneration generation f) rfl) rfl
        (fun _ _ _ => rfl) ?_ ⟨fun h => ?_, sameGeneration_modifyFirst hf, rfl⟩ trivial
      · rw [ManifestCall.run, setVerifiedCopies, hs]
        dsimp only
        rw [if_neg (by rw [hfound]; exact Bool.false_ne_true)]
      · refine checkSegmentCoherence_of_numbers hcheck rfl (hnumbers ▸ distinct_of_check hcheck) (fun hne => ?_)
        rw [hnumbers]
        refine active_of_check hcheck (fun hnil => hne ?_)
        rw [SegmentDescriptorV2.modifyGeneration, hnil]
        rfl
      · obtain ⟨⟨a, ha, hnumber, hactive⟩, honly⟩ := (coherent_iff h.distinct).1 h
        refine (coherent_iff (hnumbers ▸ h.distinct)).2 ⟨⟨if a.generation = generation then f a else a, ?_, ?_, ?_⟩, ?_⟩
        · exact (mem_modifyGeneration h.distinct).2 ⟨a, ha, rfl⟩
        · split <;> exact hnumber
        · split <;> exact hactive
        · intro g hg hstate
          obtain ⟨x, hx, rfl⟩ := (mem_modifyGeneration h.distinct).1 hg
          split at hstate <;> split <;> exact honly x hx hstate

/-- **What each call does.** -/
theorem ruled (hm : Wellformed m) (c : ManifestCall) : Ruled m c := by
  cases c with
  | registerSealedRaw => exact ruled_registerSealedRaw hm ..
  | recordPack => exact ruled_recordPack hm ..
  | quarantineGeneration => exact ruled_quarantineGeneration hm ..
  | attachSidecar => exact ruled_attachSidecar hm ..
  | attachParquet => exact ruled_attachParquet hm ..
  | setLegalHold => exact ruled_setLegalHold hm ..
  | setVerifiedCopies => exact ruled_setVerifiedCopies hm ..

end Call

/-! ## Sequences of calls -/

def ManifestCall.step (m : DatabaseManifest) (c : ManifestCall) : Option DatabaseManifest := some (c.run m).2

/-- **The catalogue keeps its promises exactly along the sequences whose every call fits.** -/
theorem calls_sound_iff : ∀ {m : DatabaseManifest} (_ : ∀ s ∈ m.segmentsV2, checkSegmentCoherence s = .ok ())
    (calls : List ManifestCall),
    allOk ManifestCall.step ManifestCall.Sound m calls ↔ allOk ManifestCall.step ManifestCall.Fits m calls
  | m, _, [] => Iff.rfl
  | m, hm, c :: calls => by
    obtain ⟨hsound, hm'⟩ := ruled hm c
    have ih := calls_sound_iff hm' calls
    constructor
    · rintro ⟨hc, hcalls⟩
      exact ⟨hsound.1 hc, fun m' h => by cases h; exact ih.1 (hcalls _ rfl)⟩
    · rintro ⟨hc, hcalls⟩
      exact ⟨hsound.2 hc, fun m' h => by cases h; exact ih.2 (hcalls _ rfl)⟩

def sampleFooter : FooterV6 := {
  recordCount := 2, minLsn := 0, maxLsn := 1, minHlc := 5, maxHlc := 6, blockCount := 0, flags := 0
  blockDirectoryOffset := 0, blockDirectoryLen := 0, logicalRoot := Digest.replicate 7 }

def sampleReceipt : PackReceipt := {
  segmentId := 0, storageNamespaceId := List.replicate 16 0, sourceGeneration := 0
  sourcePhysicalDigest := Digest.replicate 1, targetGeneration := 1, targetPhysicalDigest := Digest.replicate 2
  logicalRoot := Digest.replicate 7, canonicalCodec := 1, codec := .zstd, blockSize := 4096, firstLsn := 0, lastLsn := 1
  recordCount := 2, sourcePhysicalSize := 300, targetPhysicalSize := 200, packerVersion := 1, createdHlc := 9 }

def sampleRegister : ManifestCall :=
  .registerSealedRaw 0 sampleFooter 1 (rawLocation 0) 300 (Digest.replicate 1) 8

/-- A segment is sealed, packed and put under a legal hold. -/
def sampleCalls : List ManifestCall :=
  [sampleRegister, .recordPack sampleReceipt (packedLocation 0 1) 9, .setLegalHold 0 true]

theorem calls_sound_iff_sample : allOk ManifestCall.step ManifestCall.Sound {} sampleCalls ↔
    allOk ManifestCall.step ManifestCall.Fits {} sampleCalls :=
  calls_sound_iff (fun _ hs => absurd hs List.not_mem_nil) sampleCalls

/-- **Registering a packed segment again loses its packed generation and its legal hold**, and the call answers `Ok`. -/
theorem register_again_forgets :
    let m := (runs ManifestCall.step {} sampleCalls).getD {}
    ((m.segment 0).map (fun s => (s.generations.map (·.generation), s.retention.legalHold)) = some ([0, 1], true)) ∧
      (sampleRegister.run m).1 = .ok () ∧
      (((sampleRegister.run m).2.segment 0).map (fun s => (s.generations.map (·.generation), s.retention.legalHold))
        = some ([0], false)) := by
  decide +kernel

end V6
end Heraclitus
