import Heraclitus.V6Changes
import Heraclitus.V6ManifestStore
import Mathlib.Data.List.Chain
/-!
# V6Legible — which manifests are read back (`heraclitus-log/src/v6/manifest.rs`)

The reader of a manifest file accepts legible manifests only, and the writer does not ask: a long location or a descriptor out
of order is written, published and not read again.  A sequence of the catalogue's calls stays among the legible manifests
exactly while each location is short and no segment is registered anew out of its place.
-/
namespace Heraclitus
namespace V6
namespace Hrkm

open Legacy (crc32c toDigest)

/-! ## What the reader accepts is legible -/

theorem ensures_readString (ctx : String) : (readString ctx).Ensures (fun s => shortLocation s = true) := by
  unfold readString
  refine Reader.ensures_bind (fun len => ?_)
  by_cases hlen : hardMaxLocationBytes < len
  · rw [if_pos hlen]
    exact Reader.ensures_fail _
  · rw [if_neg hlen]
    have hraw : (sliceAt ctx len).Ensures (fun raw => raw.length ≤ len) := by
      intro buf pos raw pos' hr
      unfold sliceAt Reader.slice at hr
      split at hr
      · cases hr
        exact List.length_take_le _ _
      · cases hr
    refine hraw.bind (fun raw hle => ?_)
    cases hs : String.fromUTF8? raw.toByteArray with
    | none => exact Reader.ensures_fail _
    | some s =>
      refine Reader.ensures_pure (decide_eq_true ?_)
      unfold String.fromUTF8? at hs
      split at hs
      · cases hs
        show raw.toByteArray.data.toList.length ≤ hardMaxLocationBytes
        rw [List.data_toByteArray]
        exact Nat.le_trans hle (Nat.not_lt.1 hlen)
      · cases hs

theorem ensures_decodeGeneration : decodeGeneration.Ensures (fun g => shortLocation g.location = true) := by
  unfold decodeGeneration
  refine Reader.ensures_bind (fun _ => Reader.ensures_bind (fun _ => Reader.ensures_bind (fun _ => ?_)))
  refine Reader.ensures_bind (fun _ => Reader.ensures_bind (fun _ => Reader.ensures_bind (fun _ => ?_)))
  refine (ensures_readString _).bind (fun location hshort => ?_)
  refine Reader.ensures_bind (fun _ => Reader.ensures_bind (fun _ => Reader.ensures_bind (fun _ => ?_)))
  exact Reader.ensures_bind (fun _ => Reader.ensures_pure hshort)

theorem ensures_decodeArtifact :
    decodeArtifact.Ensures (fun o => o.all (fun a => shortLocation a.location) = true) := by
  unfold decodeArtifact
  refine Reader.ensures_bind (fun present => ?_)
  split
  · exact Reader.ensures_pure rfl
  · split
    · refine (ensures_readString _).bind (fun location hshort => ?_)
      refine Reader.ensures_bind (fun _ => Reader.ensures_bind (fun _ => Reader.ensures_bind (fun _ => ?_)))
      exact Reader.ensures_bind (fun _ => Reader.ensures_pure hshort)
    · exact Reader.ensures_fail _

theorem ensures_decodeGenerations (ctx : String) :
    (decodeGenerations ctx).Ensures (fun l => ∀ g ∈ l, shortLocation g.location = true) := by
  unfold decodeGenerations
  refine Reader.ensures_bind (fun genCount => Reader.ensures_bind (fun left => ?_))
  split
  · exact Reader.ensures_fail _
  · exact ensures_decodeGeneration.times genCount

/-- What the file says of one segment, alone. -/
def legibleSegment (s : SegmentDescriptorV2) : Bool := (checkSegmentCoherence s).isOk && shortLocations s

theorem ensures_decodeSegment : decodeSegment.Ensures (fun s => legibleSegment s = true) := by
  unfold decodeSegment
  refine Reader.ensures_bind (fun _ => Reader.ensures_bind (fun _ => Reader.ensures_bind (fun _ => ?_)))
  refine Reader.ensures_bind (fun _ => Reader.ensures_bind (fun _ => Reader.ensures_bind (fun _ => ?_)))
  refine Reader.ensures_bind (fun _ => Reader.ensures_bind (fun _ => Reader.ensures_bind (fun _ => ?_)))
  refine (ensures_decodeGenerations _).bind (fun generations hgenerations => ?_)
  refine ensures_decodeArtifact.bind (fun hrki hhrki => ensures_decodeArtifact.bind (fun parquet hparquet => ?_))
  refine Reader.ensures_bind (fun _ => Reader.ensures_bind (fun _ => ?_))
  refine Reader.ensures_bind (fun _ => Reader.ensures_bind (fun _ => ?_))
  refine (Reader.ensures_ofExcept _).bind (fun _ hcheck => Reader.ensures_pure ?_)
  rw [legibleSegment, shortLocations, hcheck]
  simp only [Except.isOk, Except.toBool, Bool.true_and, Bool.and_eq_true, List.all_eq_true]
  exact ⟨⟨hgenerations, hhrki⟩, hparquet⟩

variable {blake3 : Bytes → Digest} {m m' : DatabaseManifest} {bytes : Bytes}

theorem legible_iff : legible m = true ↔ (∀ s ∈ m.segmentsV2, legibleSegment s = true) ∧ ordered m.segmentsV2 = true := by
  rw [legible, Bool.and_eq_true, List.all_eq_true]
  rfl

/-- **What is accepted is legible.** -/
theorem legible_of_decodeManifest (h : decodeManifest blake3 bytes = .ok m) : legible m = true := by
  unfold decodeManifest at h
  simp only [guard_eq_ok] at h
  obtain ⟨-, -, -, -, -, -, -, -, -, -, -, h⟩ := h
  split at h
  · cases h
  · rename_i segmentsV2 pos htimes
    simp only [guard_eq_ok] at h
    obtain ⟨-, hordered, h⟩ := h
    cases h
    exact legible_iff.2 ⟨ensures_decodeSegment.times _ _ _ _ _ htimes, Bool.eq_true_of_not_eq_false hordered⟩

/-! ## A written manifest -/

/-- What a file keeps of a manifest is the same. -/
structure KeptAs (m m' : DatabaseManifest) : Prop where
  segmentsV2 : m'.segmentsV2 = m.segmentsV2
  cumulativeWatermark : m'.cumulativeWatermark = m.cumulativeWatermark
  exportedThroughLsn : m'.exportedThroughLsn = m.exportedThroughLsn
  storageNamespaceId : m'.storageNamespaceId = m.storageNamespaceId
  manifestGeneration : m'.manifestGeneration = m.manifestGeneration
  statisticsRootHash : m'.statisticsRootHash = m.statisticsRootHash

theorem keptAs_stored (m : DatabaseManifest) : KeptAs m (stored m) := ⟨rfl, rfl, rfl, rfl, rfl, rfl⟩

theorem legible_congr (h : m'.segmentsV2 = m.segmentsV2) : legible m' = legible m := by
  unfold legible
  rw [h]

/-- **A file is read back exactly when its manifest is legible.** -/
theorem decodes_iff_legible (hw : WideManifest m) (hgeneration : m.manifestGeneration < 2 ^ 64)
    (hencode : encodeManifest blake3 m = .ok bytes) :
    (∃ m', decodeManifest blake3 bytes = .ok m' ∧ KeptAs m m') ↔ legible m = true := by
  constructor
  · rintro ⟨m', hdecode, hkept⟩
    rw [← legible_congr hkept.segmentsV2]
    exact legible_of_decodeManifest hdecode
  · exact fun hlegible => ⟨stored m, decodeManifest_encodeManifest hw hgeneration hlegible hencode, keptAs_stored m⟩

/-! ## A published manifest -/

variable {dir dir' : Dir} {loaded : LoadedManifest}

theorem nextGeneration_lt (dir : Dir) : nextGeneration dir < 2 ^ 64 := by
  unfold nextGeneration
  cases (generations dir).getLast? with
  | none => decide
  | some g => exact Nat.mod_lt _ (by decide)

variable (blake3) in
/-- What a commit that returns has left in the directory. -/
structure Published (m : DatabaseManifest) (g : Nat) (loaded : LoadedManifest) (dir : Dir) (bytes : Bytes) : Prop where
  encoded : encodeManifest blake3 (stamp m g) = .ok bytes
  loaded : loaded = {
    manifest := stamp m g, generation := g, digest := blake3 bytes, path := pathFor g, recoveredByScan := false }
  file : dir.get? (pathFor g) = some bytes
  current : dir.get? currentFile = some (utf8 (String.ofList (currentPayload g (blake3 bytes))))

theorem renameFile_insert (source target : Str) (bytes : Bytes) (dir : Dir) :
    renameFile source target (dir.insert source bytes) = ((dir.insert source bytes).erase source).insert target bytes := by
  rw [renameFile, SortedMap.get?_insert, if_pos rfl]

variable (blake3) in
/-- **A commit that returns has published its manifest**; it refuses one that is not encoded, and a number that is taken. -/
theorem wp_commit (m : DatabaseManifest) (dir : Dir) : (commit blake3 m).wp
    ⟨fun loaded dir' => ∃ bytes, Published blake3 m (nextGeneration dir) loaded dir' bytes,
      fun e _ => dir.contains (pathFor (nextGeneration dir)) = true ∨
        encodeManifest blake3 (stamp m (nextGeneration dir)) = .error e,
      fun _ _ _ => True, fun _ => True⟩ dir := by
  unfold commit
  refine Prog.wp_look_ok rfl (fun _ => trivial) trivial (Prog.wp_get_bind ?_)
  split
  · rename_i htaken
    exact Prog.wp_refuse (.inl htaken)
  · refine Prog.wp_ofExcept_bind (fun bytes hencode => ?_) (fun _ hencode => .inr hencode)
    refine Prog.wp_write_bind (fun _ => trivial) (fun _ => trivial) ?_
    refine Prog.wp_step_bind (fun _ => trivial) trivial (Prog.wp_step_bind (fun _ => trivial) trivial ?_)
    refine Prog.wp_write_bind (fun _ => trivial) (fun _ => trivial) ?_
    refine Prog.wp_step_bind (fun _ => trivial) trivial (Prog.wp_step_bind (fun _ => trivial) trivial ?_)
    refine Prog.wp_pure ⟨bytes, hencode, rfl, ?_, ?_⟩
    · have hne := pathFor_ne_tmp (nextGeneration_lt dir)
      have hcurrent := pathFor_ne_currentFile (nextGeneration_lt dir)
      simp only [id, renameFile_insert, SortedMap.get?_insert, SortedMap.get?_erase, if_neg hcurrent, if_neg (hne _), if_pos]
    · simp only [id, renameFile_insert, SortedMap.get?_insert, if_pos]

/-- What is loaded was decoded. -/
theorem exists_decoded (h : load blake3 dir = some loaded) : ∃ bytes, decodeManifest blake3 bytes = .ok loaded.manifest := by
  have hfile : ∀ {path bytes recovered}, loadFile blake3 path bytes recovered = some loaded →
      ∃ bytes, decodeManifest blake3 bytes = .ok loaded.manifest := by
    intro path bytes recovered hload
    unfold loadFile at hload
    split at hload
    · cases hload
    · rename_i m hdecode
      cases hload
      exact ⟨bytes, hdecode⟩
  have hnamed : ∀ names, loadNamed blake3 dir names = some loaded →
      ∃ bytes, decodeManifest blake3 bytes = .ok loaded.manifest := by
    intro names hload
    cases names with
    | nil => cases hload
    | cons name rest =>
      rw [loadNamed] at hload
      dsimp only at hload
      rw [Option.ite_none_left_eq_some] at hload
      obtain ⟨-, hload⟩ := hload
      obtain ⟨bytes, -, hload⟩ := Option.bind_eq_some_iff.1 hload
      rw [Option.ite_none_left_eq_some] at hload
      exact hfile hload.2
  unfold load at h
  split at h
  · rename_i hcurrent
    cases h
    obtain ⟨raw, -, hload⟩ := Option.bind_eq_some_iff.1 hcurrent
    exact hnamed _ hload
  · obtain ⟨g, -, hload⟩ := List.exists_of_findSome?_eq_some h
    obtain ⟨bytes, -, hload⟩ := Option.bind_eq_some_iff.1 hload
    exact hfile hload

theorem WideManifest.stamp (hw : WideManifest m) (g : Nat) : WideManifest (stamp m g) :=
  ⟨hw.cumulativeWatermark, hw.exportedThroughLsn, hw.storageNamespaceId, hw.segmentsV2⟩

/-- **What was published is loaded exactly when it is legible.** -/
theorem loads_iff_legible {g : Nat} (hw : WideManifest m) (hg : g < 2 ^ 64) (h : Published blake3 m g loaded dir bytes) :
    (∃ l, load blake3 dir = some l ∧ l.generation = loaded.generation ∧ KeptAs (stamp m loaded.generation) l.manifest) ↔
      legible m = true := by
  obtain ⟨hencode, rfl, hfile, hcurrent⟩ := h
  constructor
  · rintro ⟨l, hload, -, hkept⟩
    obtain ⟨bytes', hdecode⟩ := exists_decoded hload
    rw [← legible_congr (m := m) hkept.segmentsV2]
    exact legible_of_decodeManifest hdecode
  · intro hlegible
    have hdecode := decodeManifest_encodeManifest (hw.stamp g) hg hlegible hencode
    refine ⟨{ manifest := stored (V6.Hrkm.stamp m g), generation := g, digest := blake3 bytes, path := pathFor g
              recoveredByScan := false }, ?_, rfl, keptAs_stored _⟩
    rw [load, loadFromCurrent_eq hfile hcurrent, loadFile, hdecode]
    rfl

end Hrkm

open Hrkm

/-! ## What the calls bring -/

/-- The location that a call brings into the manifest. -/
def ManifestCall.brings : ManifestCall → Option String
  | .registerSealedRaw _ _ _ location _ _ _ => some location
  | .recordPack _ targetLocation _ => some targetLocation
  | .attachSidecar _ artifact | .attachParquet _ artifact => some artifact.location
  | _ => none

/-- A segment that is registered again begins between the same neighbours. -/
def ManifestCall.InPlace (m : DatabaseManifest) : ManifestCall → Prop
  | .registerSealedRaw segmentId footer _ _ _ _ _ =>
    ∀ lead s rest, m.segmentsV2 = lead ++ s :: rest → s.segmentId = segmentId → (∀ x ∈ lead, x.segmentId ≠ segmentId) →
      (∀ x ∈ lead, x.firstLsn ≤ footer.minLsn) ∧ ∀ x ∈ rest, footer.minLsn ≤ x.firstLsn
  | _ => True

/-- What the reader asks of a call. -/
def ManifestCall.KeepsLegible (m : DatabaseManifest) (c : ManifestCall) : Prop :=
  c.Accepted m → (∀ location ∈ c.brings, shortLocation location = true) ∧ c.InPlace m

variable {m : DatabaseManifest} {c : ManifestCall} {id : Nat} {s desc : SegmentDescriptorV2}

theorem ordered_iff {segs : List SegmentDescriptorV2} :
    ordered segs = true ↔ (segs.map (·.firstLsn)).Pairwise (· ≤ ·) := by
  rw [ordered, decide_eq_true_iff, ← List.isChain_iff_pairwise, List.isChain_map]

theorem shortLocations_iff : shortLocations s = true ↔
    (∀ l ∈ s.generations.map (·.location), shortLocation l = true) ∧ (∀ a ∈ s.hrki, shortLocation a.location = true) ∧
      ∀ a ∈ s.parquet, shortLocation a.location = true := by
  simp only [shortLocations, Bool.and_eq_true, List.all_eq_true, Option.all_eq_true, List.forall_mem_map, and_assoc]
  rfl

theorem SameGeneration.location {g g' : PhysicalGeneration} (h : SameGeneration g g') : g'.location = g.location := h.2.2.2.1

theorem map_location_modifyGeneration {n : Nat} {f : PhysicalGeneration → PhysicalGeneration} (hf : ∀ g, SameGeneration g (f g)) :
    (s.modifyGeneration n f).generations.map (·.location) = s.generations.map (·.location) :=
  map_modifyFirst (fun g => (hf g).location) _

/-- A changed descriptor is short just when the location that the call brings is. -/
theorem Changes.shortLocations_iff (h : Changes c id s desc) (hs : shortLocations s = true) :
    shortLocations desc = true ↔ ∀ location ∈ c.brings, shortLocation location = true := by
  rw [V6.shortLocations_iff] at hs ⊢
  obtain ⟨hgenerations, hhrki, hparquet⟩ := hs
  have hnone : ∀ location ∈ (none : Option String), shortLocation location = true := fun _ h => by cases h
  cases h with
  | packed receipt targetLocation nowHlc =>
    have hlocations : (packedDescriptor s receipt targetLocation nowHlc).generations.map (·.location)
        = s.generations.map (·.location) ++ [targetLocation] := by
      rw [packedDescriptor_generations, map_modifyFirst (fun g => (sameGeneration_supersede nowHlc g).location),
        List.map_append]
      rfl
    rw [hlocations, List.forall_mem_append, List.forall_mem_singleton]
    refine ⟨fun h location hlocation => ?_, fun h => ⟨⟨hgenerations, h _ rfl⟩, hhrki, hparquet⟩⟩
    cases hlocation
    exact h.1.2
  | quarantined id n nowHlc =>
    rw [map_location_modifyGeneration (sameGeneration_quarantine nowHlc)]
    exact iff_of_true ⟨hgenerations, hhrki, hparquet⟩ hnone
  | replaced id n nowHlc _ g =>
    have hlocations : (reactivated (s.modifyGeneration n (quarantine nowHlc)) g.generation).generations.map (·.location)
        = s.generations.map (·.location) :=
      (map_location_modifyGeneration sameGeneration_reactivate).trans
        (map_location_modifyGeneration (sameGeneration_quarantine nowHlc))
    rw [hlocations]
    exact iff_of_true ⟨hgenerations, hhrki, hparquet⟩ hnone
  | sidecar _ artifact =>
    refine ⟨fun h location hlocation => ?_, fun h => ⟨hgenerations, fun a ha => ?_, hparquet⟩⟩
    · cases hlocation
      exact h.2.1 artifact rfl
    · cases ha
      exact h _ rfl
  | parquet _ artifact =>
    refine ⟨fun h location hlocation => ?_, fun h => ⟨hgenerations, hhrki, fun a ha => ?_⟩⟩
    · cases hlocation
      exact h.2.2 artifact rfl
    · cases ha
      exact h _ rfl
  | held => exact iff_of_true ⟨hgenerations, hhrki, hparquet⟩ hnone
  | copied _ n copies =>
    rw [map_location_modifyGeneration (f := fun g => { g with verifiedCopies := copies }) (fun g => ⟨rfl, rfl, rfl, rfl, rfl, rfl⟩)]
    exact iff_of_true ⟨hgenerations, hhrki, hparquet⟩ hnone

theorem Changes.firstLsn (h : Changes c id s desc) : desc.firstLsn = s.firstLsn := by cases h <;> rfl

/-! ## One call -/

theorem legibleSegment_iff (hcheck : checkSegmentCoherence s = .ok ()) : legibleSegment s = true ↔ shortLocations s = true := by
  rw [legibleSegment, hcheck]
  exact Iff.of_eq (congrArg (· = true) (Bool.true_and _))

/-- A new segment is put where the order wants it. -/
theorem ordered_insertIdx {segs : List SegmentDescriptorV2} (h : ordered segs = true) (desc : SegmentDescriptorV2) :
    ordered (segs.insertIdx (partitionPoint (fun s => decide (s.firstLsn < desc.firstLsn)) segs) desc) = true := by
  rw [ordered_iff] at h ⊢
  exact pairwise_insertIdx_partitionPoint desc h

/-- A segment that is replaced where it stands keeps the order just when it begins between its neighbours. -/
theorem ordered_replaced_iff {lead rest : List SegmentDescriptorV2} (h : ordered (lead ++ s :: rest) = true) :
    ordered (lead ++ desc :: rest) = true ↔
      (∀ x ∈ lead, x.firstLsn ≤ desc.firstLsn) ∧ ∀ x ∈ rest, desc.firstLsn ≤ x.firstLsn := by
  rw [ordered_iff, List.map_append, List.map_cons, List.pairwise_append, List.pairwise_cons] at h ⊢
  obtain ⟨hlead, ⟨-, hrest⟩, hacross⟩ := h
  simp only [List.forall_mem_map, List.forall_mem_cons] at hacross ⊢
  constructor
  · rintro ⟨-, ⟨hafter, -⟩, hbefore⟩
    exact ⟨fun x hx => (hbefore x hx).1, hafter⟩
  · rintro ⟨hbefore, hafter⟩
    exact ⟨hlead, ⟨hafter, hrest⟩, fun x hx => ⟨hbefore x hx, (hacross x hx).2⟩⟩

/-- **A registration keeps the order** just when it is in its place. -/
theorem ordered_upsertSegment_iff (h : ordered m.segmentsV2 = true) (segmentId : Nat) (footer : FooterV6) (canonicalCodec : Nat)
    (location : String) (physicalSize : Nat) (physicalDigest : Digest) (nowHlc : Nat) :
    ordered (m.upsertSegment
        (sealedDescriptor segmentId footer canonicalCodec location physicalSize physicalDigest nowHlc)).segmentsV2 = true ↔
      ManifestCall.InPlace m
        (.registerSealedRaw segmentId footer canonicalCodec location physicalSize physicalDigest nowHlc) := by
  generalize hdesc : sealedDescriptor segmentId footer canonicalCodec location physicalSize physicalDigest nowHlc = desc
  have hid : desc.segmentId = segmentId := by rw [← hdesc]; rfl
  have hfirst : desc.firstLsn = footer.minLsn := by rw [← hdesc]; rfl
  unfold DatabaseManifest.upsertSegment ManifestCall.InPlace
  dsimp only
  rw [hid, ← hfirst]
  cases hfind : m.segmentsV2.findIdx? (fun s => s.segmentId == segmentId) with
  | none =>
    refine iff_of_true (ordered_insertIdx h desc) (fun lead s rest hsegs hs => ?_)
    have hmem : s ∈ m.segmentsV2 := hsegs ▸ List.mem_append_right _ List.mem_cons_self
    have hne := List.findIdx?_eq_none_iff.1 hfind s hmem
    rw [hs, beq_self_eq_true] at hne
    cases hne
  | some n =>
    dsimp only
    rw [set_eq_modifyFirst hfind]
    constructor
    · intro hordered lead s rest hsegs hs hlead
      rw [hsegs] at h hordered
      rw [modifyFirst_append (p := fun s : SegmentDescriptorV2 => s.segmentId == segmentId) (beq_iff_eq.2 hs)
        (fun y hy => beq_eq_false_iff_ne.2 (hlead y hy))] at hordered
      exact (ordered_replaced_iff h).1 hordered
    · intro hplace
      obtain ⟨s, hs⟩ : ∃ s, m.segmentsV2.find? (fun s => s.segmentId == segmentId) = some s := by
        obtain ⟨hlt, hp, -⟩ := List.findIdx?_eq_some_iff_getElem.1 hfind
        exact Option.isSome_iff_exists.1 (List.find?_isSome.2 ⟨_, List.getElem_mem hlt, hp⟩)
      obtain ⟨hp, lead, rest, hsegs, hlead⟩ := List.find?_eq_some_iff_append.1 hs
      have hlead : ∀ y ∈ lead, (y.segmentId == segmentId) = false := fun y hy => by
        simpa using hlead y hy
      rw [hsegs] at h ⊢
      rw [modifyFirst_append (p := fun s : SegmentDescriptorV2 => s.segmentId == segmentId) hp hlead]
      exact (ordered_replaced_iff h).2
        (hplace lead s rest hsegs (beq_iff_eq.1 hp) (fun x hx => beq_eq_false_iff_ne.1 (hlead x hx)))

theorem legible_iff_of_wellformed (hm : Wellformed m) : legible m = true ↔
    (∀ s ∈ m.segmentsV2, shortLocations s = true) ∧ ordered m.segmentsV2 = true := by
  rw [legible_iff]
  refine and_congr_left (fun _ => forall₂_congr (fun s hs => legibleSegment_iff (hm s hs)))

/-- **A call keeps a manifest legible exactly when it meets the condition.** -/
theorem legible_run_iff (hm : Wellformed m) (h : legible m = true) (c : ManifestCall) :
    Wellformed (c.run m).2 ∧ (legible (c.run m).2 = true ↔ c.KeepsLegible m) := by
  have hm' := (ruled hm c).wellformed
  refine ⟨hm', ?_⟩
  obtain ⟨hshort, hordered⟩ := (legible_iff_of_wellformed hm).1 h
  rw [legible_iff_of_wellformed hm']
  have heffect := c.effect m
  generalize (c.run m).2 = m' at heffect hm' ⊢
  cases heffect with
  | refused _ hrefused => exact iff_of_true ⟨hshort, hordered⟩ (fun haccepted => absurd haccepted hrefused)
  | registered segmentId footer canonicalCodec location physicalSize physicalDigest nowHlc haccepted =>
    have htouches := touches_upsertSegment m
      (sealedDescriptor segmentId footer canonicalCodec location physicalSize physicalDigest nowHlc)
    have hnew : shortLocations (sealedDescriptor segmentId footer canonicalCodec location physicalSize physicalDigest nowHlc)
        = true ↔ shortLocation location = true := by
      rw [V6.shortLocations_iff]
      exact ⟨fun hall => hall.1 _ List.mem_cons_self,
        fun hlocation => ⟨List.forall_mem_singleton.2 hlocation, (fun _ ha => by cases ha), (fun _ ha => by cases ha)⟩⟩
    have hself := mem_of_segment ((htouches.segment segmentId).trans (if_pos rfl))
    show _ ∧ ordered (m.upsertSegment _).segmentsV2 = true ↔ _
    rw [ordered_upsertSegment_iff hordered]
    constructor
    · rintro ⟨hall, hplace⟩ -
      refine ⟨fun location' hlocation => ?_, hplace⟩
      cases hlocation
      exact hnew.1 (hall _ hself)
    · intro hkeeps
      obtain ⟨hlocation, hplace⟩ := hkeeps haccepted
      refine ⟨fun s hs => ?_, hplace⟩
      rcases htouches.mem s hs with hs | rfl
      · exact hshort s hs
      · exact hnew.2 (hlocation _ rfl)
  | changed _ id s desc haccepted hs hchanges =>
    have htouches := touches_modifySegment hs desc hchanges.segmentId
    have hself := mem_of_segment ((htouches.segment id).trans (if_pos rfl))
    have hordered' : ordered (m.modifySegment id (fun _ => desc)).segmentsV2 = true := by
      rw [ordered_iff, map_modifySegment (f := (·.firstLsn)) hs hchanges.firstLsn, ← ordered_iff]
      exact hordered
    have hnew := hchanges.shortLocations_iff (hshort s (mem_of_segment hs))
    constructor
    · rintro ⟨hall, -⟩ -
      refine ⟨hnew.1 (hall desc hself), ?_⟩
      cases hchanges <;> trivial
    · intro hkeeps
      refine ⟨fun x hx => ?_, hordered'⟩
      rcases htouches.mem x hx with hx | rfl
      · exact hshort x hx
      · exact hnew.2 (hkeeps haccepted).1

/-! ## Values of their types -/

/-- The values of a call fit the types of the source. -/
def ManifestCall.Wide : ManifestCall → Prop
  | .registerSealedRaw segmentId footer canonicalCodec location physicalSize physicalDigest nowHlc =>
    WideSegment (sealedDescriptor segmentId footer canonicalCodec location physicalSize physicalDigest nowHlc)
  | .recordPack receipt targetLocation nowHlc => WideGeneration (packedGeneration receipt targetLocation nowHlc)
  | .quarantineGeneration _ _ nowHlc => nowHlc < 2 ^ 64
  | .attachSidecar _ artifact | .attachParquet _ artifact => WideArtifact artifact
  | .setLegalHold _ _ => True
  | .setVerifiedCopies _ _ copies => copies < 2 ^ 32

/-- Generations have distinct numbers of 32 bits, so there are not too many of them. -/
theorem length_generations_lt {gens : List PhysicalGeneration} (hdistinct : (gens.map (·.generation)).Nodup)
    (hw : ∀ g ∈ gens, WideGeneration g) : gens.length < 2 ^ 64 := by
  have hsub : gens.map (·.generation) ⊆ List.range (2 ^ 32) := by
    intro n hn
    obtain ⟨g, hg, rfl⟩ := List.mem_map.1 hn
    exact List.mem_range.2 (hw g hg).generation
  have hle := (List.subperm_of_subset hdistinct hsub).length_le
  rw [List.length_map, List.length_range] at hle
  exact Nat.lt_of_le_of_lt hle (by decide)

theorem Hrkm.WideSegment.withGenerations (hw : WideSegment s) (hcheck : checkSegmentCoherence desc = .ok ())
    (hsame : desc = { s with generations := desc.generations, activeGeneration := desc.activeGeneration })
    (hactive : desc.activeGeneration < 2 ^ 32) (hgenerations : ∀ g ∈ desc.generations, WideGeneration g) :
    WideSegment desc := by
  have hlength := length_generations_lt (distinct_of_check hcheck) hgenerations
  rw [hsame]
  exact { hw with activeGeneration := hactive, length := hlength, generations := hgenerations }

theorem Changes.wide (h : Changes c id s desc) (hc : c.Wide) (hs : WideSegment s) (hcheck : checkSegmentCoherence desc = .ok ()) :
    WideSegment desc := by
  have hmodified : ∀ {n : Nat} {f : PhysicalGeneration → PhysicalGeneration}, (∀ g, WideGeneration g → WideGeneration (f g)) →
      ∀ g ∈ (s.modifyGeneration n f).generations, WideGeneration g := fun hf => forall_mem_modifyFirst hf hs.generations
  have hquarantine : ∀ {nowHlc : Nat}, nowHlc < 2 ^ 64 → ∀ g, WideGeneration g → WideGeneration (quarantine nowHlc g) :=
    fun hnow g hg => { hg with supersededHlc := hnow }
  cases h with
  | packed receipt targetLocation nowHlc =>
    refine hs.withGenerations hcheck rfl hc.generation (forall_mem_modifyFirst (fun g hg => ?_) ?_)
    · unfold supersede
      split
      · exact hg
      · exact { hg with supersededHlc := hc.createdHlc }
    · rw [List.forall_mem_append, List.forall_mem_singleton]
      exact ⟨hs.generations, hc⟩
  | quarantined => exact hs.withGenerations hcheck rfl hs.activeGeneration (hmodified (hquarantine hc))
  | replaced id n nowHlc _ g hg =>
    have hgenerations := hmodified (n := n) (hquarantine hc)
    refine hs.withGenerations hcheck rfl (hgenerations g hg).generation
      (forall_mem_modifyFirst (fun x hx => ?_) hgenerations)
    unfold reactivate
    split
    · exact { hx with supersededHlc := Nat.two_pow_pos 64 }
    · exact hx
  | sidecar => exact { hs with hrki := fun a ha => by cases ha; exact hc }
  | parquet => exact { hs with parquet := fun a ha => by cases ha; exact hc }
  | held => exact { hs with }
  | copied => exact hs.withGenerations hcheck rfl hs.activeGeneration (hmodified (fun g hg => { hg with verifiedCopies := hc }))

theorem contiguousExportedLsn_lt (h : ∀ s ∈ m.segmentsV2, s.lastLsn < 2 ^ 64) : contiguousExportedLsn m < 2 ^ 64 := by
  unfold contiguousExportedLsn
  cases hlast : (m.segmentsV2.takeWhile (fun s => s.parquet.any (fun p => p.logicalRoot == s.logicalRoot))).getLast? with
  | none => decide
  | some s => exact h s ((List.takeWhile_prefix _).subset (List.mem_of_getLast? hlast))

theorem wide_run (hm : Wellformed m) (hw : WideManifest m) (c : ManifestCall) (hc : c.Wide) :
    WideManifest (c.run m).2 ∧ (c.run m).2.manifestGeneration = m.manifestGeneration := by
  have hm' := (ruled hm c).wellformed
  have heffect := c.effect m
  generalize (c.run m).2 = m' at heffect hm' ⊢
  cases heffect with
  | refused => exact ⟨hw, rfl⟩
  | registered segmentId footer canonicalCodec location physicalSize physicalDigest nowHlc =>
    have htouches := touches_upsertSegment m
      (sealedDescriptor segmentId footer canonicalCodec location physicalSize physicalDigest nowHlc)
    refine ⟨⟨Nat.max_lt.2 ⟨hw.cumulativeWatermark, hc.lastLsn⟩, hw.exportedThroughLsn, hw.storageNamespaceId, fun s hs => ?_⟩, rfl⟩
    rcases htouches.mem s hs with hs | rfl
    · exact hw.segmentsV2 s hs
    · exact hc
  | changed _ id s desc haccepted hs hchanges =>
    have htouches := touches_modifySegment hs desc hchanges.segmentId
    have hself := mem_of_segment ((htouches.segment id).trans (if_pos rfl))
    have hdesc := hchanges.wide hc (hw.segmentsV2 s (mem_of_segment hs)) (hm' desc hself)
    have hsegments : ∀ x ∈ (m.modifySegment id (fun _ => desc)).segmentsV2, WideSegment x := by
      intro x hx
      rcases htouches.mem x hx with hx | rfl
      · exact hw.segmentsV2 x hx
      · exact hdesc
    refine ⟨⟨hw.cumulativeWatermark, ?_, hw.storageNamespaceId, hsegments⟩, rfl⟩
    show c.exportedBehind m.exportedThroughLsn s _ < 2 ^ 64
    unfold ManifestCall.exportedBehind
    split
    · have hcontiguous := contiguousExportedLsn_lt (fun x hx => (hsegments x hx).lastLsn)
      exact Nat.max_lt.2 ⟨hcontiguous, Nat.lt_of_le_of_lt (Nat.min_le_left _ _) hw.exportedThroughLsn⟩
    · exact hw.exportedThroughLsn

/-! ## Sequences of calls -/

theorem wide_runs {calls : List ManifestCall} (hm : Wellformed m) (hw : WideManifest m) (hcalls : ∀ c ∈ calls, c.Wide)
    {m' : DatabaseManifest} (h : runs ManifestCall.step m calls = some m') :
    WideManifest m' ∧ m'.manifestGeneration = m.manifestGeneration := by
  induction calls generalizing m with
  | nil =>
    cases h
    exact ⟨hw, rfl⟩
  | cons c calls ih =>
    obtain ⟨hc, hcalls⟩ := List.forall_mem_cons.1 hcalls
    obtain ⟨hw', hgeneration⟩ := wide_run hm hw c hc
    obtain ⟨hw'', hgeneration'⟩ := ih (ruled hm c).wellformed hw' hcalls h
    exact ⟨hw'', hgeneration'.trans hgeneration⟩

theorem wellformed_of_legible (h : legible m = true) : Wellformed m := by
  intro s hs
  have hsegment := (legible_iff.1 h).1 s hs
  rw [legibleSegment, Bool.and_eq_true] at hsegment
  cases hcheck : checkSegmentCoherence s with
  | ok u => rfl
  | error e =>
    rw [hcheck] at hsegment
    cases hsegment.1

/-- **A manifest is read back exactly when it is legible**, from its file and from a directory where a commit has published
it; and a sequence of calls goes through legible manifests exactly when every call of it meets the condition. -/
theorem reads_back_iff_legible (blake3 : Bytes → Digest) (hw : WideManifest m) (hgeneration : m.manifestGeneration < 2 ^ 64)
    (h : legible m = true) {calls : List ManifestCall} (hcalls : ∀ c ∈ calls, c.Wide) :
    ((∀ n m', runs ManifestCall.step m (calls.take n) = some m' → legible m' = true) ↔
      allOk ManifestCall.step ManifestCall.KeepsLegible m calls) ∧
    ∀ n m', runs ManifestCall.step m (calls.take n) = some m' →
      (∀ bytes, Hrkm.encodeManifest blake3 m' = .ok bytes →
        ((∃ r, decodeManifest blake3 bytes = .ok r ∧ KeptAs m' r) ↔ legible m' = true)) ∧
      ∀ dir x loaded dir' x', Hrkm.commit blake3 m' dir x = (.ok loaded, dir', x') →
        ((∃ l, load blake3 dir' = some l ∧ l.generation = loaded.generation ∧ KeptAs (stamp m' loaded.generation) l.manifest) ↔
          legible m' = true) := by
  have hm := wellformed_of_legible h
  refine ⟨?_, fun n m' hruns => ?_⟩
  · refine always_iff_allOk (I := Wellformed) (fun m c m' hm h hs => ?_) calls m hm h (isSome_runs calls m)
    cases hs
    exact legible_run_iff hm h c
  · obtain ⟨hw', hsame⟩ := wide_runs hm hw (fun c hc => hcalls c (List.mem_of_mem_take hc)) hruns
    refine ⟨fun bytes hencode => decodes_iff_legible hw' (hsame ▸ hgeneration) hencode, ?_⟩
    intro dir x loaded dir' x' hcommit
    have hpost := Hrkm.wp_commit blake3 m' dir x
    rw [hcommit] at hpost
    obtain ⟨bytes, hpublished⟩ := hpost.1
    exact loads_iff_legible hw' (nextGeneration_lt dir) hpublished

theorem wideManifest_empty : WideManifest {} where
  cumulativeWatermark := by decide
  exportedThroughLsn := by decide
  storageNamespaceId := rfl
  segmentsV2 _ hs := absurd hs List.not_mem_nil

/-- The segment of the sample, at another place. -/
def registerAt (location : String) : ManifestCall := .registerSealedRaw 0 sampleFooter 1 location 300 (Digest.replicate 1) 8

theorem wide_registerAt (location : String) : (registerAt location).Wide where
  segmentId := (by decide : 0 < 2 ^ 64)
  firstLsn := (by decide : 0 < 2 ^ 64)
  lastLsn := (by decide : 1 < 2 ^ 64)
  recordCount := (by decide : 2 < 2 ^ 64)
  canonicalCodec := (by decide : 1 < 2 ^ 16)
  minHlc := (by decide : 5 < 2 ^ 64)
  maxHlc := (by decide : 6 < 2 ^ 64)
  activeGeneration := (by decide : 0 < 2 ^ 32)
  length := (by decide : 1 < 2 ^ 64)
  generations := List.forall_mem_singleton.2 ⟨(by decide : 0 < 2 ^ 32), (by decide : 300 < 2 ^ 64), (by decide : 8 < 2 ^ 64),
    (by decide : 8 < 2 ^ 64), (by decide : 0 < 2 ^ 64), (by decide : 1 < 2 ^ 32)⟩
  hrki _ ha := by cases ha
  parquet _ ha := by cases ha
  gcGraceSeconds := (by decide : 86400 < 2 ^ 64)
  minVerifiedCopies := (by decide : 1 < 2 ^ 32)

theorem reads_back_iff_legible_sample :
    ((∀ n m', runs ManifestCall.step {} ([sampleRegister].take n) = some m' → legible m' = true) ↔
      allOk ManifestCall.step ManifestCall.KeepsLegible {} [sampleRegister]) ∧
    ∀ n m', runs ManifestCall.step {} ([sampleRegister].take n) = some m' →
      (∀ bytes, Hrkm.encodeManifest (fun _ => Digest.replicate 0) m' = .ok bytes →
        ((∃ r, decodeManifest (fun _ => Digest.replicate 0) bytes = .ok r ∧ KeptAs m' r) ↔ legible m' = true)) ∧
      ∀ dir x loaded dir' x', Hrkm.commit (fun _ => Digest.replicate 0) m' dir x = (.ok loaded, dir', x') →
        ((∃ l, load (fun _ => Digest.replicate 0) dir' = some l ∧ l.generation = loaded.generation ∧
          KeptAs (stamp m' loaded.generation) l.manifest) ↔ legible m' = true) :=
  reads_back_iff_legible (fun _ => Digest.replicate 0) wideManifest_empty (by decide) rfl
    (List.forall_mem_singleton.2 (wide_registerAt (rawLocation 0)))

/-! ## A location that is too long -/

theorem length_utf8 (s : String) : (utf8 s).length = s.utf8ByteSize := rfl

def longLocation : String := String.ofList (List.replicate 8193 'a')

theorem utf8ByteSize_replicate (n : Nat) : (String.ofList (List.replicate n 'a')).utf8ByteSize = n := by
  induction n with
  | zero => rfl
  | succ n ih =>
    rw [List.replicate_succ, String.ofList_cons, String.utf8ByteSize_append, ih, Nat.add_comm]
    rfl

theorem utf8ByteSize_longLocation : longLocation.utf8ByteSize = 8193 := utf8ByteSize_replicate 8193

def longRegister : ManifestCall := registerAt longLocation

theorem segments_registerAt (location : String) : ((registerAt location).run {}).2.segmentsV2
    = [sealedDescriptor 0 sampleFooter 1 location 300 (Digest.replicate 1) 8] := rfl

theorem not_legible_longRegister : ¬legible (longRegister.run {}).2 = true := by
  rw [(legible_run_iff (wellformed_of_legible (m := {}) rfl) rfl longRegister).2]
  intro hkeeps
  have hlong := (hkeeps ⟨(fun _ hs => by cases hs), rfl⟩).1 longLocation rfl
  rw [shortLocation, decide_eq_true_iff, length_utf8, utf8ByteSize_longLocation] at hlong
  exact absurd hlong (by decide)

theorem exists_encoded (blake3 : Bytes → Digest) (h : V6.encodeManifest m = .ok ()) :
    ∃ bytes, Hrkm.encodeManifest blake3 m = .ok bytes := by
  rw [← encodeManifest_map blake3] at h
  obtain ⟨bytes, hencode, -⟩ := map_eq_ok h
  exact ⟨bytes, hencode⟩

/-- The writer does not mind. -/
theorem fits_registerAt {location : String} (hsize : location.utf8ByteSize = 8193) :
    V6.encodeManifest ((registerAt location).run {}).2 = .ok () := by
  unfold V6.encodeManifest
  simp only [guard_eq_ok, segments_registerAt, List.map_cons, List.map_nil, List.sum_cons, List.sum_nil, segmentLen,
    sealedDescriptor, generationLen, stringLen, hsize, List.length_cons, List.length_nil]
  decide

/-- The manifest with the long location. -/
def longManifest : DatabaseManifest := (longRegister.run {}).2

theorem wide_longManifest : WideManifest longManifest ∧ longManifest.manifestGeneration = 0 :=
  wide_run (wellformed_of_legible (m := {}) rfl) wideManifest_empty longRegister (wide_registerAt longLocation)

/-- It is committed, and what is loaded then does not say what it said. -/
theorem commits_longManifest (blake3 : Bytes → Digest) : ∃ loaded dir', loaded.generation = 1 ∧
    Hrkm.commit blake3 longManifest .empty none = (.ok loaded, dir', none) ∧
      ¬∃ l, load blake3 dir' = some l ∧ l.generation = 1 ∧ KeptAs (stamp longManifest 1) l.manifest := by
  rcases (Hrkm.wp_commit blake3 longManifest .empty).run with
    ⟨loaded, dir', hcommit, bytes, hpublished⟩ | ⟨e, dir', x', -, hrefused⟩
  · have hgeneration : loaded.generation = 1 := by
      rw [hpublished.loaded]
      rfl
    refine ⟨loaded, dir', hgeneration, hcommit, fun hload => not_legible_longRegister ?_⟩
    rw [← hgeneration] at hload
    exact (loads_iff_legible wide_longManifest.1 (nextGeneration_lt _) hpublished).1 hload
  · rcases hrefused with htaken | hencode
    · cases htaken
    · have hstamped : V6.encodeManifest (stamp longManifest (nextGeneration .empty)) = .ok () :=
        fits_registerAt utf8ByteSize_longLocation
      obtain ⟨bytes, hok⟩ := exists_encoded blake3 hstamped
      cases hok.symm.trans hencode

/-- **A location of 8193 bytes is written and not read.** -/
theorem long_location_is_not_read : (longRegister.run {}).1 = .ok () ∧
    (∃ bytes, Hrkm.encodeManifest (fun _ => Digest.replicate 0) longManifest = .ok bytes ∧
      ¬∃ r, decodeManifest (fun _ => Digest.replicate 0) bytes = .ok r ∧ KeptAs longManifest r) ∧
    ∃ loaded dir', loaded.generation = 1 ∧
      Hrkm.commit (fun _ => Digest.replicate 0) longManifest .empty none = (.ok loaded, dir', none) ∧
      ¬∃ l, load (fun _ => Digest.replicate 0) dir' = some l ∧ l.generation = 1 ∧
        KeptAs (stamp longManifest 1) l.manifest := by
  obtain ⟨bytes, hencode⟩ := exists_encoded (fun _ => Digest.replicate 0) (fits_registerAt utf8ByteSize_longLocation)
  refine ⟨rfl, ⟨bytes, hencode, fun hread => not_legible_longRegister ?_⟩, commits_longManifest _⟩
  exact (decodes_iff_legible wide_longManifest.1 (wide_longManifest.2 ▸ by decide) hencode).1 hread

end V6
end Heraclitus
