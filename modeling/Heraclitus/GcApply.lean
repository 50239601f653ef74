import Heraclitus.Gc
/-!
# GcApply — what survives a collection (§91, §184)

The two promises of the collector, each with the exact condition under which the code keeps it.  Both fail for the same
reason: `planGc` judges one generation at a time, against authorities and copies that the same plan removes.
-/
namespace Heraclitus
namespace Gc

section Apply

variable {m : DatabaseManifest} {pins : PinRegistry} {opts : GcOptions}

theorem assertSegment_eq_ok {s : SegmentDescriptorV2} :
    assertSegment (planGc m pins opts) s = .ok () ↔
      (s.canonicalAuthorities ≠ [] → ∃ a ∈ s.canonicalAuthorities, ¬Named m pins opts s.segmentId a.generation)
        ∧ ¬Named m pins opts s.segmentId s.activeGeneration := by
  have hmem : ∀ n, (((planGc m pins opts).generations.filter (fun c => c.segmentId == s.segmentId)).map
      (·.generation)).contains n = true ↔ Named m pins opts s.segmentId n := fun n => by
    rw [List.contains_iff_mem, mem_aRemover]
  have hkept : (s.canonicalAuthorities.filter (fun g => !(((planGc m pins opts).generations.filter
      (fun c => c.segmentId == s.segmentId)).map (·.generation)).contains g.generation)).length = 0
        ↔ ∀ a ∈ s.canonicalAuthorities, Named m pins opts s.segmentId a.generation := by
    rw [List.length_eq_zero_iff, List.filter_eq_nil_iff]
    refine forall₂_congr fun a _ => ?_
    rw [Bool.not_eq_true, Bool.not_eq_false', hmem]
  unfold assertSegment
  rw [guard_eq_ok, guard_eq_ok, hkept, hmem, gt_iff_lt, List.length_pos_iff, and_iff_left rfl]
  refine and_congr_left fun _ => ?_
  push Not
  rfl

variable (m pins opts)

/-- No segment has *all* its authorities collectable at once, and no descriptor makes another's active generation
collectable. -/
structure Sound : Prop where
  authority : ∀ s ∈ m.segmentsV2, s.canonicalAuthorities ≠ [] →
    ∃ a ∈ s.canonicalAuthorities, ¬Named m pins opts s.segmentId a.generation
  active : ∀ s ∈ m.segmentsV2, ¬Named m pins opts s.segmentId s.activeGeneration

theorem assertGcInvariant_planGc : assertGcInvariant m (planGc m pins opts) = .ok () ↔ Sound m pins opts := by
  unfold assertGcInvariant
  rw [forM_eq_ok]
  simp only [assertSegment_eq_ok]
  exact ⟨fun h => ⟨fun s hs => (h s hs).1, fun s hs => (h s hs).2⟩, fun h s hs => ⟨h.authority s hs, h.active s hs⟩⟩

/-- **The plan passes §91, and is applied, exactly when no segment has all its authorities collectable at once.** -/
theorem applyGc_planGc_ok_iff :
    assertGcInvariant m (planGc m pins opts) = .ok () ∧ (applyGc m (planGc m pins opts)).1 = .ok ()
      ↔ Sound m pins opts := by
  rw [← assertGcInvariant_planGc]
  refine ⟨And.left, fun h => ⟨h, ?_⟩⟩
  unfold applyGc
  rw [h]

end Apply

/-- A generation of segment 1 that went out of use one millisecond after the epoch. -/
def supersededGeneration (n copies : Nat) (state : GenerationState) : PhysicalGeneration :=
  { generation := n, layout := .raw, compression := .raw, location := "", physicalSize := 1000,
    physicalDigest := Digest.replicate 0, state := state, createdHlc := 0, verifiedHlc := 0, supersededHlc := 1 <<< 16,
    verifiedCopies := copies }

def oneSegment (activeGeneration minVerifiedCopies : Nat) (generations : List PhysicalGeneration) : DatabaseManifest :=
  let s : SegmentDescriptorV2 :=
    { segmentId := 1, firstLsn := 0, lastLsn := 9, recordCount := 10, canonicalCodec := 1,
      logicalRoot := Digest.replicate 0, minHlc := 0, maxHlc := 0, activeGeneration := activeGeneration,
      generations := generations, retention := { minVerifiedCopies := minVerifiedCopies } }
  { segmentsV2 := [s] }

/-- Two superseded authorities vouch for each other while the active generation sits in quarantine. -/
theorem planGc_removes_every_authority :
    let m := oneSegment 2 1
      [supersededGeneration 0 1 .superseded, supersededGeneration 1 1 .superseded, supersededGeneration 2 1 .quarantined]
    let plan := planGc m PinRegistry.new { nowHlc := 86401 * 1000 * 2 ^ 16 }
    assertGcInvariant m plan ≠ .ok () ∧ (applyGc m plan).1 ≠ .ok () := by
  decide

section Copies

variable {m : DatabaseManifest} {pins : PinRegistry} {opts : GcOptions}

/-- What the run of `retain` calls leaves of one descriptor. -/
def survivors (cs : List GcCandidate) (s : SegmentDescriptorV2) : List PhysicalGeneration :=
  s.generations.filter (fun g => decide (∀ c ∈ cs, c.segmentId = s.segmentId → g.generation ≠ c.generation))

theorem foldl_dropGeneration : ∀ (cs : List GcCandidate) (s : SegmentDescriptorV2),
    cs.foldl (fun s c => if s.segmentId = c.segmentId then dropGeneration c s else s) s
      = { s with generations := survivors cs s }
  | [], s => by simp [survivors]
  | c :: cs, s => by
    rw [List.foldl_cons, foldl_dropGeneration cs]
    by_cases hid : s.segmentId = c.segmentId
    · rw [if_pos hid]
      simp only [survivors, dropGeneration, List.filter_filter, List.forall_mem_cons, hid, true_implies]
      congr 2
      funext g
      rw [Bool.and_comm, Bool.decide_and]
      congr 1
      simp [bne, beq_eq_decide]
    · simp only [if_neg hid, survivors, List.forall_mem_cons, Ne.symm hid, false_implies, true_and]

theorem segmentsV2_foldl {β : Type} (k : β → Nat) (f : β → SegmentDescriptorV2 → SegmentDescriptorV2) :
    ∀ (bs : List β) (m : DatabaseManifest), (bs.foldl (fun m b => m.modifySegment (k b) (f b)) m).segmentsV2
      = bs.foldl (fun l b => modifyFirst (fun s => s.segmentId == k b) (f b) l) m.segmentsV2
  | [], _ => rfl
  | b :: bs, m => by rw [List.foldl_cons, segmentsV2_foldl k f bs]; rfl

/-- Dropping stale artifacts changes neither a segment's id nor its generations. -/
theorem foldl_dropArtifact_generations : ∀ (as : List StaleArtifact) (s : SegmentDescriptorV2),
    (as.foldl (fun s a => if s.segmentId = a.segmentId then dropArtifact a s else s) s).generations = s.generations
  | [], _ => rfl
  | a :: as, s => by
    rw [List.foldl_cons, foldl_dropArtifact_generations as]
    split
    · unfold dropArtifact
      split <;> rfl
    · rfl

/-- A collected segment keeps an authority with the copies its policy asks for (§184). -/
def KeepsCopies (s s' : SegmentDescriptorV2) : Prop :=
  s'.generations.length < s.generations.length →
    ∃ g ∈ s'.generations, g.isCanonicalAuthority = true ∧ s.retention.minVerifiedCopies ≤ g.verifiedCopies

instance (s s' : SegmentDescriptorV2) : Decidable (KeepsCopies s s') := by
  unfold KeepsCopies; infer_instance

/-- Among the generations that survive the *whole* plan, one satisfies the policy of the segment. -/
def PolicySurvives (m : DatabaseManifest) (pins : PinRegistry) (opts : GcOptions) : Prop :=
  ∀ id s, m.segment id = some s → (∃ g ∈ s.generations, Named m pins opts id g.generation) →
    ∃ a ∈ s.canonicalAuthorities, ¬Named m pins opts id a.generation ∧ s.retention.minVerifiedCopies ≤ a.verifiedCopies

theorem mem_survivors {s : SegmentDescriptorV2} {g : PhysicalGeneration} :
    g ∈ survivors (planGc m pins opts).generations s
      ↔ g ∈ s.generations ∧ ¬Named m pins opts s.segmentId g.generation := by
  unfold survivors
  rw [List.mem_filter, decide_eq_true_eq, ← mem_aRemover]
  simp only [List.mem_map, List.mem_filter, beq_iff_eq, not_exists, not_and, and_imp]
  exact and_congr_right fun _ => ⟨fun h c hc hid he => h c hc hid he.symm, fun h c hc hid he => h c hc hid he.symm⟩

theorem survivors_length_lt {s : SegmentDescriptorV2} :
    (survivors (planGc m pins opts).generations s).length < s.generations.length
      ↔ ∃ g ∈ s.generations, Named m pins opts s.segmentId g.generation := by
  have hle : (survivors (planGc m pins opts).generations s).length ≤ s.generations.length := List.length_filter_le _ _
  have heq : (survivors (planGc m pins opts).generations s).length = s.generations.length
      ↔ ∀ g ∈ s.generations, ¬Named m pins opts s.segmentId g.generation := by
    unfold survivors
    rw [List.length_filter_eq_length_iff]
    refine forall₂_congr fun g hg => ?_
    have hmem : g ∈ survivors (planGc m pins opts).generations s ↔ _ := mem_survivors
    unfold survivors at hmem
    rw [List.mem_filter] at hmem
    simpa [hg] using hmem
  rw [Nat.lt_iff_le_and_ne]
  simp only [hle, true_and, Ne, heq, not_forall, not_not, exists_prop]

/-- What a plan that passes §91 does to the first descriptor of each id. -/
def collect (plan : GcPlan) (s : SegmentDescriptorV2) : SegmentDescriptorV2 :=
  plan.staleArtifacts.foldl (fun s a => if s.segmentId = a.segmentId then dropArtifact a s else s)
    (plan.generations.foldl (fun s c => if s.segmentId = c.segmentId then dropGeneration c s else s) s)

theorem collect_generations (plan : GcPlan) (s : SegmentDescriptorV2) :
    (collect plan s).generations = survivors plan.generations s := by
  unfold collect
  rw [foldl_dropArtifact_generations, foldl_dropGeneration]

theorem applyGc_segmentsV2 {plan : GcPlan} (h : assertGcInvariant m plan = .ok ()) :
    (applyGc m plan).2.segmentsV2 = updateFirsts (·.segmentId) (collect plan) [] m.segmentsV2 := by
  have hgen : ∀ c s, (dropGeneration c s).segmentId = s.segmentId := fun _ _ => rfl
  have hart : ∀ a s, (dropArtifact a s).segmentId = s.segmentId := fun a s => by unfold dropArtifact; split <;> rfl
  have hout : (applyGc m plan).2 = plan.staleArtifacts.foldl (fun m a => m.modifySegment a.segmentId (dropArtifact a))
      (plan.generations.foldl (fun m c => m.modifySegment c.segmentId (dropGeneration c)) m) := by
    unfold applyGc
    rw [h]
    rfl
  rw [hout, segmentsV2_foldl, segmentsV2_foldl, foldl_modifyFirst _ _ hgen, foldl_modifyFirst _ _ hart,
    updateFirsts_comp]
  · rfl
  · intro s
    rw [foldl_dropGeneration]

variable (m pins opts)

/-- **A collected segment keeps enough copies exactly when the plan is refused, or the copies are held by generations
that the plan as a whole leaves alone.** -/
theorem applyGc_keeps_copies_iff :
    List.Forall₂ KeepsCopies m.segmentsV2 (applyGc m (planGc m pins opts)).2.segmentsV2
      ↔ (Sound m pins opts → PolicySurvives m pins opts) := by
  have hrefl : ∀ s, KeepsCopies s s := fun s h => absurd h (Nat.lt_irrefl _)
  by_cases hs : Sound m pins opts
  · rw [applyGc_segmentsV2 ((assertGcInvariant_planGc m pins opts).2 hs), forall₂_updateFirsts hrefl]
    simp only [hs, true_implies, List.not_mem_nil, not_false_eq_true, PolicySurvives]
    refine forall_congr' fun id => forall_congr' fun s => ?_
    refine forall_congr' fun hfind => ?_
    have hid : s.segmentId = id := by simpa using List.find?_some hfind
    subst hid
    simp only [KeepsCopies, collect_generations, survivors_length_lt, mem_survivors, mem_canonicalAuthorities]
    refine imp_congr_right fun _ => exists_congr fun g => ?_
    tauto
  · have herr : (applyGc m (planGc m pins opts)).2 = m := by
      unfold applyGc
      split
      · rfl
      · rename_i h; exact absurd ((assertGcInvariant_planGc m pins opts).1 h) hs
    rw [herr]
    exact ⟨fun _ h => absurd h hs, fun _ => List.forall₂_same.2 fun s _ => hrefl s⟩

end Copies

/-- Two superseded generations with three copies each are collected together, on the strength of one another: what is
left has one copy where the policy asks for three. -/
theorem applyGc_breaks_policy :
    let m := oneSegment 2 3
      [supersededGeneration 0 3 .superseded, supersededGeneration 1 3 .superseded, supersededGeneration 2 1 .active]
    ¬List.Forall₂ KeepsCopies m.segmentsV2
      (applyGc m (planGc m PinRegistry.new { nowHlc := 86401 * 1000 * 2 ^ 16 })).2.segmentsV2 := by
  intro m h
  cases h with
  | cons hseg _ => exact absurd hseg (by decide)

end Gc
end Heraclitus
