import Heraclitus.V6Generations
/-!
# V6Changes — what the catalogue's calls leave of a manifest

A call that is not accepted leaves the manifest as it was.  Of the others one puts a descriptor in and six change the
descriptor of one segment; attaching a projection moves the export watermark as well.
-/
namespace Heraclitus
namespace V6

/-- The call finds what it names: the segment, its generation, its root. -/
def ManifestCall.Accepted (m : DatabaseManifest) : ManifestCall → Prop
  | .registerSealedRaw segmentId footer canonicalCodec location physicalSize physicalDigest nowHlc =>
    (∀ s, m.segment segmentId = some s → s.logicalRoot = footer.logicalRoot) ∧
      checkSegmentCoherence (sealedDescriptor segmentId footer canonicalCodec location physicalSize physicalDigest nowHlc)
        = .ok ()
  | .recordPack receipt _ _ => ∃ s, m.segment receipt.segmentId = some s ∧ s.logicalRoot = receipt.logicalRoot ∧
    s.generationAt receipt.targetGeneration = none
  | .attachSidecar segmentId artifact | .attachParquet segmentId artifact =>
    ∃ s, m.segment segmentId = some s ∧ artifact.logicalRoot = s.logicalRoot
  | .setLegalHold segmentId _ => ∃ s, m.segment segmentId = some s
  | .quarantineGeneration segmentId generation _ | .setVerifiedCopies segmentId generation _ =>
    ∃ s, m.segment segmentId = some s ∧ (s.generationAt generation).isSome = true

/-- What an accepted call makes of the descriptor of its segment. -/
inductive Changes : ManifestCall → Nat → SegmentDescriptorV2 → SegmentDescriptorV2 → Prop
  | packed (receipt : PackReceipt) (targetLocation : String) (nowHlc : Nat) (s : SegmentDescriptorV2)
      (hfresh : s.generationAt receipt.targetGeneration = none) :
      Changes (.recordPack receipt targetLocation nowHlc) receipt.segmentId s (packedDescriptor s receipt targetLocation nowHlc)
  | quarantined (id n nowHlc : Nat) (s : SegmentDescriptorV2) :
      Changes (.quarantineGeneration id n nowHlc) id s (s.modifyGeneration n (quarantine nowHlc))
  | replaced (id n nowHlc : Nat) (s : SegmentDescriptorV2) (g : PhysicalGeneration)
      (hg : g ∈ (s.modifyGeneration n (quarantine nowHlc)).generations) :
      Changes (.quarantineGeneration id n nowHlc) id s (reactivated (s.modifyGeneration n (quarantine nowHlc)) g.generation)
  | sidecar (id : Nat) (artifact : DerivedArtifactRef) (s : SegmentDescriptorV2) :
      Changes (.attachSidecar id artifact) id s { s with hrki := some artifact }
  | parquet (id : Nat) (artifact : DerivedArtifactRef) (s : SegmentDescriptorV2)
      (hroot : artifact.logicalRoot = s.logicalRoot) :
      Changes (.attachParquet id artifact) id s { s with parquet := some artifact }
  | held (id : Nat) (hold : Bool) (s : SegmentDescriptorV2) :
      Changes (.setLegalHold id hold) id s { s with retention := { s.retention with legalHold := hold } }
  | copied (id n copies : Nat) (s : SegmentDescriptorV2) :
      Changes (.setVerifiedCopies id n copies) id s (s.modifyGeneration n (fun g => { g with verifiedCopies := copies }))

/-- The export watermark that a call leaves behind it in `m`, a manifest with the descriptors that it has changed. -/
def ManifestCall.exportedBehind (exportedThroughLsn : Nat) (s : SegmentDescriptorV2) (m : DatabaseManifest) : ManifestCall → Nat
  | .attachParquet _ _ => max (contiguousExportedLsn m) (min exportedThroughLsn s.lastLsn)
  | _ => exportedThroughLsn

/-- **What a call can do.** -/
inductive Effect (m : DatabaseManifest) : ManifestCall → DatabaseManifest → Prop
  | refused (c : ManifestCall) (h : ¬c.Accepted m) : Effect m c m
  | registered (segmentId : Nat) (footer : FooterV6) (canonicalCodec : Nat) (location : String) (physicalSize : Nat)
      (physicalDigest : Digest) (nowHlc : Nat)
      (h : ManifestCall.Accepted m
        (.registerSealedRaw segmentId footer canonicalCodec location physicalSize physicalDigest nowHlc)) :
      Effect m (.registerSealedRaw segmentId footer canonicalCodec location physicalSize physicalDigest nowHlc)
        { m.upsertSegment (sealedDescriptor segmentId footer canonicalCodec location physicalSize physicalDigest nowHlc) with
          cumulativeWatermark := max m.cumulativeWatermark footer.maxLsn }
  | changed (c : ManifestCall) (id : Nat) (s desc : SegmentDescriptorV2) (haccepted : c.Accepted m)
      (hs : m.segment id = some s) (h : Changes c id s desc) :
      Effect m c { m.modifySegment id (fun _ => desc) with
        exportedThroughLsn := c.exportedBehind m.exportedThroughLsn s (m.modifySegment id (fun _ => desc)) }

section Inversion

variable (m : DatabaseManifest)

theorem effect_registerSealedRaw (segmentId : Nat) (footer : FooterV6) (canonicalCodec : Nat) (location : String)
    (physicalSize : Nat) (physicalDigest : Digest) (nowHlc : Nat) :
    Effect m (.registerSealedRaw segmentId footer canonicalCodec location physicalSize physicalDigest nowHlc)
      ((ManifestCall.registerSealedRaw segmentId footer canonicalCodec location physicalSize physicalDigest nowHlc).run m).2 := by
  have hany : (m.segment segmentId).any (fun existing => existing.logicalRoot != footer.logicalRoot) = false ↔
      ∀ s, m.segment segmentId = some s → s.logicalRoot = footer.logicalRoot := by
    cases m.segment segmentId with
    | none => exact iff_of_true rfl (fun s hs => by cases hs)
    | some s =>
      rw [Option.any_some, bne_eq_false_iff_eq]
      exact ⟨fun h s' hs' => Option.some.inj hs' ▸ h, fun h => h s rfl⟩
  rw [ManifestCall.run, registerSealedRaw]
  by_cases hroot : (m.segment segmentId).any (fun existing => existing.logicalRoot != footer.logicalRoot) = true
  · rw [if_pos hroot]
    refine .refused _ (fun h => ?_)
    rw [hany.2 h.1] at hroot
    cases hroot
  · rw [if_neg hroot]
    dsimp only
    cases hcheck : checkSegmentCoherence
        (sealedDescriptor segmentId footer canonicalCodec location physicalSize physicalDigest nowHlc) with
    | error e =>
      refine .refused _ (fun h => ?_)
      cases hcheck.symm.trans h.2
    | ok u => exact .registered _ _ _ _ _ _ _ ⟨hany.1 (Bool.eq_false_iff.2 hroot), hcheck⟩

theorem effect_recordPack (receipt : PackReceipt) (targetLocation : String) (nowHlc : Nat) :
    Effect m (.recordPack receipt targetLocation nowHlc) (recordPackInPlace m receipt targetLocation nowHlc).2 := by
  unfold recordPackInPlace
  dsimp only
  cases hs : m.segment receipt.segmentId with
  | none =>
    refine .refused _ (fun ⟨s, hs', _⟩ => ?_)
    cases hs.symm.trans hs'
  | some s =>
    dsimp only
    split
    · rename_i hroot
      refine .refused _ (fun ⟨s', hs', hroot', _⟩ => ?_)
      cases hs.symm.trans hs'
      exact hroot hroot'
    · rename_i hroot
      split
      · rename_i htarget
        refine .refused _ (fun ⟨s', hs', _, hfresh⟩ => ?_)
        cases hs.symm.trans hs'
        rw [hfresh] at htarget
        cases htarget
      · rename_i htarget
        have hfresh := Option.not_isSome_iff_eq_none.1 htarget
        exact .changed _ _ s _ ⟨s, hs, not_not.1 hroot, hfresh⟩ hs (.packed receipt targetLocation nowHlc s hfresh)

theorem effect_quarantineGeneration (segmentId generation nowHlc : Nat) :
    Effect m (.quarantineGeneration segmentId generation nowHlc) (quarantineGeneration m segmentId generation nowHlc).2 := by
  unfold quarantineGeneration
  dsimp only
  cases hs : m.segment segmentId with
  | none =>
    refine .refused _ (fun ⟨s, hs', _⟩ => ?_)
    cases hs.symm.trans hs'
  | some s =>
    dsimp only
    split
    · rename_i hnone
      refine .refused _ (fun ⟨s', hs', hsome⟩ => ?_)
      cases hs.symm.trans hs'
      rw [Option.isNone_iff_eq_none.1 hnone] at hsome
      cases hsome
    · rename_i hsome
      have haccepted : ManifestCall.Accepted m (.quarantineGeneration segmentId generation nowHlc) :=
        ⟨s, hs, Option.isSome_iff_ne_none.2 (by simpa using hsome)⟩
      cases hbest : bestAuthority (s.modifyGeneration generation (quarantine nowHlc)).generations with
      | none => exact .changed _ _ s _ haccepted hs (.quarantined segmentId generation nowHlc s)
      | some g =>
        exact .changed _ _ s _ haccepted hs (.replaced segmentId generation nowHlc s g (bestAuthority_mem hbest).1)

theorem effect_attachSidecar (segmentId : Nat) (artifact : DerivedArtifactRef) :
    Effect m (.attachSidecar segmentId artifact) (attachSidecar m segmentId artifact).2 := by
  unfold attachSidecar
  dsimp only
  cases hs : m.segment segmentId with
  | none =>
    refine .refused _ (fun ⟨s, hs', _⟩ => ?_)
    cases hs.symm.trans hs'
  | some s =>
    dsimp only
    split
    · rename_i hroot
      refine .refused _ (fun ⟨s', hs', hroot'⟩ => ?_)
      cases hs.symm.trans hs'
      exact hroot hroot'
    · rename_i hroot
      exact .changed _ _ s _ ⟨s, hs, not_not.1 hroot⟩ hs (.sidecar segmentId artifact s)

theorem effect_attachParquet (segmentId : Nat) (artifact : DerivedArtifactRef) :
    Effect m (.attachParquet segmentId artifact) (attachParquet m segmentId artifact).2 := by
  unfold attachParquet
  dsimp only
  cases hs : m.segment segmentId with
  | none =>
    refine .refused _ (fun ⟨s, hs', _⟩ => ?_)
    cases hs.symm.trans hs'
  | some s =>
    dsimp only
    split
    · rename_i hroot
      refine .refused _ (fun ⟨s', hs', hroot'⟩ => ?_)
      cases hs.symm.trans hs'
      exact hroot hroot'
    · rename_i hroot
      exact .changed _ _ s _ ⟨s, hs, not_not.1 hroot⟩ hs (.parquet segmentId artifact s (not_not.1 hroot))

theorem effect_setLegalHold (segmentId : Nat) (hold : Bool) :
    Effect m (.setLegalHold segmentId hold) (setLegalHold m segmentId hold).2 := by
  unfold setLegalHold
  cases hs : m.segment segmentId with
  | none =>
    refine .refused _ (fun ⟨s, hs'⟩ => ?_)
    cases hs.symm.trans hs'
  | some s => exact .changed _ _ s _ ⟨s, hs⟩ hs (.held segmentId hold s)

theorem effect_setVerifiedCopies (segmentId generation copies : Nat) :
    Effect m (.setVerifiedCopies segmentId generation copies) (setVerifiedCopies m segmentId generation copies).2 := by
  unfold setVerifiedCopies
  dsimp only
  cases hs : m.segment segmentId with
  | none =>
    refine .refused _ (fun ⟨s, hs', _⟩ => ?_)
    cases hs.symm.trans hs'
  | some s =>
    dsimp only
    split
    · rename_i hnone
      refine .refused _ (fun ⟨s', hs', hsome⟩ => ?_)
      cases hs.symm.trans hs'
      rw [Option.isNone_iff_eq_none.1 hnone] at hsome
      cases hsome
    · rename_i hsome
      exact .changed _ _ s _ ⟨s, hs, Option.isSome_iff_ne_none.2 (by simpa using hsome)⟩ hs (.copied segmentId generation copies s)

/-- **What each call leaves.** -/
theorem ManifestCall.effect (c : ManifestCall) : Effect m c (c.run m).2 := by
  cases c with
  | registerSealedRaw => exact effect_registerSealedRaw m ..
  | recordPack => exact effect_recordPack m ..
  | quarantineGeneration => exact effect_quarantineGeneration m ..
  | attachSidecar => exact effect_attachSidecar m ..
  | attachParquet => exact effect_attachParquet m ..
  | setLegalHold => exact effect_setLegalHold m ..
  | setVerifiedCopies => exact effect_setVerifiedCopies m ..

end Inversion

/-- No call stops a sequence. -/
theorem isSome_runs (calls : List ManifestCall) : ∀ m : DatabaseManifest, (runs ManifestCall.step m calls).isSome := by
  induction calls with
  | nil => exact fun _ => rfl
  | cons c calls ih => exact fun m => ih (c.run m).2

/-! ## Numbers of segments -/

variable {m m' : DatabaseManifest} {c : ManifestCall} {id : Nat} {s desc : SegmentDescriptorV2}

theorem Changes.segmentId (h : Changes c id s desc) : desc.segmentId = s.segmentId := by cases h <;> rfl

/-- A descriptor that agrees with the one that it replaces. -/
theorem map_modifySegment {β : Type} {f : SegmentDescriptorV2 → β} (hs : m.segment id = some s) (hf : f desc = f s) :
    (m.modifySegment id (fun _ => desc)).segmentsV2.map f = m.segmentsV2.map f := by
  show (modifyFirst _ _ m.segmentsV2).map f = _
  obtain ⟨segs, hsegs⟩ : ∃ segs, m.segmentsV2 = segs := ⟨_, rfl⟩
  replace hs : m.segmentsV2.find? (fun s => s.segmentId == id) = some s := hs
  rw [hsegs] at hs ⊢
  clear hsegs
  induction segs with
  | nil => rfl
  | cons x xs ih =>
    unfold modifyFirst
    by_cases hx : x.segmentId = id
    · rw [List.find?_cons_of_pos (by rwa [beq_iff_eq])] at hs
      cases hs
      rw [if_pos (by rwa [beq_iff_eq]), List.map_cons, List.map_cons, hf]
    · rw [List.find?_cons_of_neg (by rwa [beq_iff_eq])] at hs
      rw [if_neg (by rwa [beq_iff_eq]), List.map_cons, List.map_cons, ih hs]

theorem nodup_modifySegment (hs : m.segment id = some s) (hid : desc.segmentId = s.segmentId)
    (h : (m.segmentsV2.map (·.segmentId)).Nodup) :
    ((m.modifySegment id (fun _ => desc)).segmentsV2.map (·.segmentId)).Nodup := by
  rwa [map_modifySegment (f := (·.segmentId)) hs hid]

theorem nodup_upsertSegment (h : (m.segmentsV2.map (·.segmentId)).Nodup) (desc : SegmentDescriptorV2) :
    ((m.upsertSegment desc).segmentsV2.map (·.segmentId)).Nodup := by
  unfold DatabaseManifest.upsertSegment
  cases hfind : m.segmentsV2.findIdx? (fun s => s.segmentId == desc.segmentId) with
  | none =>
    have habsent : desc.segmentId ∉ m.segmentsV2.map (·.segmentId) := by
      intro hmem
      obtain ⟨s, hs, hid⟩ := List.mem_map.1 hmem
      simpa [hid] using List.findIdx?_eq_none_iff.1 hfind s hs
    have hle : partitionPoint (fun s => decide (s.firstLsn < desc.firstLsn)) m.segmentsV2 ≤ m.segmentsV2.length :=
      (List.takeWhile_prefix _).length_le
    exact ((List.perm_insertIdx desc m.segmentsV2 hle).map _).nodup_iff.2 (List.nodup_cons.2 ⟨habsent, h⟩)
  | some n =>
    obtain ⟨hlt, hp, -⟩ := List.findIdx?_eq_some_iff_getElem.1 hfind
    have hsame : (m.segmentsV2.set n desc).map (·.segmentId) = m.segmentsV2.map (·.segmentId) := by
      have hid : desc.segmentId = (m.segmentsV2.map (·.segmentId)).get ⟨n, by rwa [List.length_map]⟩ := by
        rw [List.get_eq_getElem, List.getElem_map, beq_iff_eq.1 hp]
      rw [List.map_set, hid, List.get_eq_getElem, List.set_getElem_self]
    dsimp only
    rwa [hsame]

end V6
end Heraclitus
