import Heraclitus.V6Changes
import Mathlib.Order.Bounds.Defs
/-!
# V6Exported — the export watermark (`heraclitus-log/src/v6/manifest.rs`, §104, §146)

The watermark says how far the Parquet projections reach without a hole.  Attaching one computes it anew from the front of
the catalogue, and keeps the old value where that is higher; no other call looks at it.  It stays true exactly while no
segment is registered at or below it and the segments at the front end before the others begin.
-/
namespace Heraclitus
namespace V6

/-- The segment has a projection of its records. -/
def exported (s : SegmentDescriptorV2) : Bool := s.parquet.any (fun p => p.logicalRoot == s.logicalRoot)

/-- Every segment that begins at `w` or below is exported. -/
def ExportedThrough (m : DatabaseManifest) (w : Nat) : Prop := ∀ s ∈ m.segmentsV2, s.firstLsn ≤ w → exported s = true

/-- **The watermark does not lie**: it is zero, as in a new manifest, or not above what is exported. -/
def Truthful (m : DatabaseManifest) : Prop := m.exportedThroughLsn = 0 ∨ ExportedThrough m m.exportedThroughLsn

theorem ExportedThrough.mono {m : DatabaseManifest} {v w : Nat} (h : ExportedThrough m w) (hvw : v ≤ w) : ExportedThrough m v :=
  fun s hs hle => h s hs (Nat.le_trans hle hvw)

/-- Segments at the front of the catalogue that are exported, segment `id` counted among them; the last one. -/
def lastInFront (m : DatabaseManifest) (id : Nat) : Option SegmentDescriptorV2 :=
  (m.segmentsV2.takeWhile (fun x => x.segmentId == id || exported x)).getLast?

/-- A segment is registered above the watermark; and with a projection for `id` the segments at the front of the catalogue
end before any other begins that has none. -/
def ManifestCall.KeepsExported (m : DatabaseManifest) (c : ManifestCall) : Prop :=
  c.Accepted m → match c with
  | .registerSealedRaw _ footer _ _ _ _ _ => m.exportedThroughLsn = 0 ∨ m.exportedThroughLsn < footer.minLsn
  | .attachParquet id _ => ∀ last ∈ lastInFront m id, last.lastLsn = 0 ∨
    ∀ x ∈ m.segmentsV2, x.segmentId ≠ id → exported x = false → last.lastLsn < x.firstLsn
  | _ => True

variable {m : DatabaseManifest} {c : ManifestCall} {id : Nat} {s desc : SegmentDescriptorV2}

/-! ## One call -/

theorem exportedThrough_of_extents {m' : DatabaseManifest} {w : Nat}
    (h : m'.segmentsV2.map (fun s => (s.firstLsn, exported s)) = m.segmentsV2.map (fun s => (s.firstLsn, exported s))) :
    ExportedThrough m' w ↔ ExportedThrough m w := by
  have hall : ∀ segs : List SegmentDescriptorV2, (∀ s ∈ segs, s.firstLsn ≤ w → exported s = true) ↔
      ∀ p ∈ segs.map (fun s => (s.firstLsn, exported s)), p.1 ≤ w → p.2 = true := fun segs => by
    rw [List.forall_mem_map]
  unfold ExportedThrough
  rw [hall, hall, h]

/-- Only the attaching of a projection changes what is exported of a segment that is there. -/
theorem Changes.extent (h : Changes c id s desc) (hc : ∀ artifact, c ≠ .attachParquet id artifact) :
    (desc.firstLsn, exported desc) = (s.firstLsn, exported s) ∧ (∀ w m', c.exportedBehind w s m' = w) ∧ c.KeepsExported m := by
  cases h with
  | parquet _ artifact => exact absurd rfl (hc artifact)
  | packed => exact ⟨rfl, fun _ _ => rfl, fun _ => trivial⟩
  | quarantined => exact ⟨rfl, fun _ _ => rfl, fun _ => trivial⟩
  | replaced => exact ⟨rfl, fun _ _ => rfl, fun _ => trivial⟩
  | sidecar => exact ⟨rfl, fun _ _ => rfl, fun _ => trivial⟩
  | held => exact ⟨rfl, fun _ _ => rfl, fun _ => trivial⟩
  | copied => exact ⟨rfl, fun _ _ => rfl, fun _ => trivial⟩

section Attach

variable {artifact : DerivedArtifactRef} (hids : (m.segmentsV2.map (·.segmentId)).Nodup)
  (hroot : artifact.logicalRoot = s.logicalRoot)
include hids hroot

omit hroot in
theorem segments_attached : (m.modifySegment id (fun _ => { s with parquet := some artifact })).segmentsV2
    = m.segmentsV2.map (fun x => if x.segmentId = id then { s with parquet := some artifact } else x) :=
  modifyFirst_eq_map hids

omit hids in
theorem exported_attached : exported { s with parquet := some artifact } = true := beq_iff_eq.2 hroot

/-- With the projection attached, the segment does not stand in the way any more. -/
theorem exportedThrough_attached {w : Nat} :
    ExportedThrough (m.modifySegment id (fun _ => { s with parquet := some artifact })) w ↔
      ∀ x ∈ m.segmentsV2, x.segmentId ≠ id → exported x = false → w < x.firstLsn := by
  unfold ExportedThrough
  rw [segments_attached hids, List.forall_mem_map]
  refine forall₂_congr (fun x _ => ?_)
  by_cases hx : x.segmentId = id
  · rw [if_pos hx]
    exact iff_of_true (fun _ => exported_attached hroot) (fun hne => absurd hx hne)
  · rw [if_neg hx]
    constructor
    · intro h _ hnot
      by_contra hle
      rw [h (Nat.not_lt.1 hle)] at hnot
      cases hnot
    · intro h hle
      by_contra hnot
      exact Nat.not_lt.2 hle (h hx (Bool.eq_false_iff.2 hnot))

theorem contiguousExportedLsn_attached (hs : m.segment id = some s) :
    contiguousExportedLsn (m.modifySegment id (fun _ => { s with parquet := some artifact }))
      = (lastInFront m id).elim 0 (·.lastLsn) := by
  have hfront : (exported ∘ fun x => if x.segmentId = id then { s with parquet := some artifact } else x)
      = fun x => x.segmentId == id || exported x := by
    funext x
    show exported (if x.segmentId = id then { s with parquet := some artifact } else x) = _
    by_cases hx : x.segmentId = id
    · rw [if_pos hx, exported_attached hroot, beq_iff_eq.2 hx, Bool.true_or]
    · rw [if_neg hx, beq_eq_false_iff_ne.2 hx, Bool.false_or]
  show (List.takeWhile exported _).getLast?.elim 0 _ = _
  rw [segments_attached hids, List.takeWhile_map, hfront, List.getLast?_map, lastInFront]
  cases hlast : (m.segmentsV2.takeWhile (fun x => x.segmentId == id || exported x)).getLast? with
  | none => rfl
  | some x =>
    show SegmentDescriptorV2.lastLsn (if x.segmentId = id then { s with parquet := some artifact } else x) = x.lastLsn
    by_cases hx : x.segmentId = id
    · have hmem : x ∈ m.segmentsV2 := (List.takeWhile_prefix _).subset (List.mem_of_getLast? hlast)
      have hfound : m.segment id = some x := find?_eq_some_of_nodup hids hmem hx
      cases hs.symm.trans hfound
      rw [if_pos hx]
    · rw [if_neg hx]

end Attach

/-- The higher of two marks does not lie just when the first does not, if the second does not. -/
theorem max_mark {P : Nat → Prop} (hP : ∀ {v w}, P w → v ≤ w → P v) {a b : Nat} (hb : b = 0 ∨ P b) :
    (max a b = 0 ∨ P (max a b)) ↔ (a = 0 ∨ P a) := by
  rcases Nat.le_total a b with hle | hle
  · rw [Nat.max_eq_right hle]
    refine iff_of_true hb ?_
    rcases hb with rfl | hb
    · exact .inl (Nat.le_zero.1 hle)
    · exact .inr (hP hb hle)
  · rw [Nat.max_eq_left hle]

/-- **A call keeps the watermark from lying exactly when it meets the condition.** -/
theorem truthful_run_iff (hids : (m.segmentsV2.map (·.segmentId)).Nodup) (h : Truthful m) (c : ManifestCall) :
    ((c.run m).2.segmentsV2.map (·.segmentId)).Nodup ∧ (Truthful (c.run m).2 ↔ c.KeepsExported m) := by
  have heffect := c.effect m
  generalize (c.run m).2 = m' at heffect ⊢
  cases heffect with
  | refused _ hrefused => exact ⟨hids, iff_of_true h (fun haccepted => absurd haccepted hrefused)⟩
  | registered segmentId footer canonicalCodec location physicalSize physicalDigest nowHlc haccepted =>
    refine ⟨nodup_upsertSegment hids _, ?_⟩
    have htouches := touches_upsertSegment m
      (sealedDescriptor segmentId footer canonicalCodec location physicalSize physicalDigest nowHlc)
    constructor
    · rintro (hzero | hthrough) -
      · exact .inl hzero
      · have hmem := mem_of_segment ((htouches.segment segmentId).trans (if_pos rfl))
        refine .inr (Nat.lt_of_not_le (fun hle => ?_))
        cases hthrough _ hmem hle
    · intro hkeeps
      rcases hkeeps haccepted with hzero | hlt
      · exact .inl hzero
      · refine h.imp_right (fun hthrough s hs hle => ?_)
        rcases htouches.mem s hs with hs | rfl
        · exact hthrough s hs hle
        · exact absurd hlt (Nat.not_lt.2 hle)
  | changed _ id s desc haccepted hs hchanges =>
    refine ⟨nodup_modifySegment hs hchanges.segmentId hids, ?_⟩
    by_cases hc : ∃ artifact, c = .attachParquet id artifact
    · obtain ⟨artifact, rfl⟩ := hc
      cases hchanges with
      | parquet _ _ _ hroot =>
        have hbefore : min m.exportedThroughLsn s.lastLsn = 0 ∨
            ExportedThrough (m.modifySegment id (fun _ => { s with parquet := some artifact }))
              (min m.exportedThroughLsn s.lastLsn) := by
          rcases h with hzero | hthrough
          · exact .inl (by rw [hzero, Nat.zero_min])
          · refine .inr ((exportedThrough_attached hids hroot).2 (fun x hx _ hnot => Nat.lt_of_not_le (fun hle => ?_)))
            rw [hthrough x hx (Nat.le_trans hle (Nat.min_le_left _ _))] at hnot
            cases hnot
        refine (max_mark (fun hw hvw => hw.mono hvw) hbefore).trans ?_
        rw [contiguousExportedLsn_attached hids hroot hs, exportedThrough_attached hids hroot]
        unfold ManifestCall.KeepsExported
        dsimp only
        cases lastInFront m id with
        | none => exact iff_of_true (.inl rfl) (fun _ _ hlast => by cases hlast)
        | some last =>
          refine ⟨fun hlast _ x hx => ?_, fun hlast => hlast haccepted last rfl⟩
          cases hx
          exact hlast
    · obtain ⟨hextent, hbehind, hkeeps⟩ := hchanges.extent (not_exists.1 hc)
      have hmap := map_modifySegment (f := fun s => (s.firstLsn, exported s)) hs hextent
      rw [hbehind]
      exact iff_of_true (h.imp_right (exportedThrough_of_extents hmap).2) hkeeps

/-! ## Sequences of calls -/

/-- **The watermark never lies exactly along the sequences whose every call meets the condition.** -/
theorem truthful_iff (h : Truthful m) (hids : (m.segmentsV2.map (·.segmentId)).Nodup) (calls : List ManifestCall) :
    (∀ n m', runs ManifestCall.step m (calls.take n) = some m' → Truthful m') ↔
      allOk ManifestCall.step ManifestCall.KeepsExported m calls := by
  refine always_iff_allOk (I := fun m => (m.segmentsV2.map (·.segmentId)).Nodup) (fun m c m' hids h hs => ?_) calls m hids h
    (isSome_runs calls m)
  cases hs
  exact truthful_run_iff hids h c

def sampleProjection : ManifestCall := .attachParquet 0 ⟨"exports/0.parquet", 90, Digest.replicate 3, Digest.replicate 7, 9⟩

theorem truthful_iff_sample :
    (∀ n m', runs ManifestCall.step {} ([sampleRegister, sampleProjection].take n) = some m' → Truthful m') ↔
      allOk ManifestCall.step ManifestCall.KeepsExported {} [sampleRegister, sampleProjection] :=
  truthful_iff (m := {}) (.inl rfl) List.nodup_nil _

/-- **A segment that is registered again loses its projection, and the watermark stays.** -/
theorem register_again_unexports : ∃ m,
    runs ManifestCall.step {} [sampleRegister, sampleProjection, sampleRegister] = some m ∧ m.exportedThroughLsn = 1 ∧
      ¬Truthful m := by
  refine ⟨_, rfl, by decide +kernel, ?_⟩
  rintro (hzero | hthrough)
  · exact absurd hzero (by decide +kernel)
  · exact absurd hthrough (by unfold ExportedThrough; decide +kernel)

end V6
end Heraclitus
