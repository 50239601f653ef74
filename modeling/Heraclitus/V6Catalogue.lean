import Heraclitus.V6Segment
/-!
# V6Catalogue — a manifest that describes a history

A descriptor stands for a segment: the same range, the same root, and every generation it lists is a file from which the
records of the segment are read.  What a manifest that describes a whole chain answers follows from the chain.
-/
namespace Heraclitus
namespace V6

/-! ## Files that stay -/

theorem find?_eq_of_unique {α : Type} {p : α → Bool} {l : List α} {x : α} (hx : x ∈ l) (hp : p x = true)
    (hunique : ∀ y ∈ l, p y = true → y = x) : l.find? p = some x := by
  cases h : l.find? p with
  | some y => rw [hunique y (List.mem_of_find?_eq_some h) (List.find?_some h)]
  | none => exact absurd hp (List.find?_eq_none.1 h x hx)

section Files

variable {d d' : Disk}

theorem fileAt_rawLocation (hids : ∀ e ∈ d.raw.entries, e.1 < 2 ^ 64) {id : Nat} (hid : id < 2 ^ 64) :
    d.fileAt (rawLocation id) = (d.raw.get? id).map SegmentBytes.raw := by
  have hmatch : ∀ e ∈ d.raw.entries, (rawLocation e.1 == rawLocation id) = true → e.1 = id := fun e he h =>
    rawLocation_injective (hids e he) hid (beq_iff_eq.1 h)
  unfold Disk.fileAt
  cases hget : d.raw.get? id with
  | some f =>
    have hfind : d.raw.entries.find? (fun e => rawLocation e.1 == rawLocation id) = some (id, f) := by
      refine find?_eq_of_unique (SortedMap.get?_eq_some.1 hget) (beq_self_eq_true (rawLocation id)) (fun e he h => ?_)
      have hf := SortedMap.get?_eq_some.2 (show (e.1, e.2) ∈ d.raw.entries from he)
      rw [hmatch e he h, hget] at hf
      exact Prod.ext (hmatch e he h) (Option.some.inj hf).symm
    rw [hfind]
    rfl
  | none =>
    have hnone : d.raw.entries.find? (fun e => rawLocation e.1 == rawLocation id) = none := by
      rw [List.find?_eq_none]
      intro e he h
      have hf := SortedMap.get?_eq_some.2 (show (e.1, e.2) ∈ d.raw.entries from he)
      rw [hmatch e he h, hget] at hf
      cases hf
    have hpacked : d.packed.find? (fun e => packedLocation e.1.1 e.1.2 == rawLocation id) = none := by
      rw [List.find?_eq_none]
      exact fun e _ h => rawLocation_ne_packedLocation _ _ _ (beq_iff_eq.1 h).symm
    rw [hnone, hpacked]
    rfl

theorem fileAt_packedLocation (d : Disk) (id n : Nat) : d.fileAt (packedLocation id n)
    = (d.packed.find? (fun e => packedLocation e.1.1 e.1.2 == packedLocation id n)).map (fun e => .packed e.2) := by
  have hnone : d.raw.entries.find? (fun e => rawLocation e.1 == packedLocation id n) = none := by
    rw [List.find?_eq_none]
    exact fun e _ h => rawLocation_ne_packedLocation _ _ _ (beq_iff_eq.1 h)
  rw [Disk.fileAt, hnone]

/-- Every file that is there stays under its location. -/
def Disk.Extends (d d' : Disk) : Prop := ∀ location file, d.fileAt location = some file → d'.fileAt location = some file

/-- Only the active files, the manifests or `CURRENT` change. -/
theorem Disk.extends_of_eq (hraw : d'.raw = d.raw) (hpacked : d'.packed = d.packed) : d.Extends d' := by
  intro location file h
  unfold Disk.fileAt at h ⊢
  rwa [hraw, hpacked]

/-- **New files hide no old ones.** -/
theorem Disk.extends_of_new (hraw : ∀ e ∈ d.raw.entries, d'.raw.get? e.1 = some e.2)
    (hids : ∀ e ∈ d'.raw.entries, e.1 < 2 ^ 64) {new : List ((Nat × Nat) × PackedFile)}
    (hpacked : d'.packed = d.packed ++ new) : d.Extends d' := by
  intro location file h
  unfold Disk.fileAt at h
  cases hfind : d.raw.entries.find? (fun e => rawLocation e.1 == location) with
  | some e =>
    rw [hfind] at h
    cases h
    have hget : d'.raw.get? e.1 = some e.2 := hraw e (List.mem_of_find?_eq_some hfind)
    have hid : e.1 < 2 ^ 64 := hids (e.1, e.2) (SortedMap.get?_eq_some.1 hget)
    have hlocation : rawLocation e.1 = location := by simpa using List.find?_some hfind
    rw [← hlocation, fileAt_rawLocation hids hid, hget, Option.map_some]
  | none =>
    rw [hfind] at h
    obtain ⟨e, he, hfile⟩ := Option.map_eq_some_iff.1 h
    have hlocation : packedLocation e.1.1 e.1.2 = location := by simpa using List.find?_some he
    rw [← hlocation] at he
    rw [← hlocation, fileAt_packedLocation, hpacked, List.find?_append, he, Option.some_or, Option.map_some, hfile]

end Files

/-! ## Descriptors -/

variable (env : Env)

/-- The generation is a file from which the records of the segment are read. -/
structure Serves (d : Disk) (ns : Bytes) (g : Segment) (x : PhysicalGeneration) : Prop where
  location : x.generation = 0 ∧ x.layout = .raw ∧ x.location = rawLocation g.header.segmentId ∨
    x.generation ≠ 0 ∧ x.layout = .packed ∧ x.location = packedLocation g.header.segmentId x.generation
  file : ∃ file, d.fileAt x.location = some file ∧
    (∃ h, file.header = .ok h ∧ checkHeaderIdentity h g.header.segmentId ns x.layout = .ok ()) ∧
    file.digest env = x.physicalDigest ∧ ∀ lsn, file.payloadAt lsn = .ok (findPayload lsn g.records)

/-- **The descriptor stands for the segment.** -/
structure Described (d : Disk) (ns : Bytes) (g : Segment) (desc : SegmentDescriptorV2) : Prop where
  segmentId : desc.segmentId = g.header.segmentId
  firstLsn : desc.firstLsn = g.header.firstLsn
  lastLsn : desc.lastLsn = g.header.firstLsn + (g.records.length - 1)
  recordCount : desc.recordCount = g.records.length
  logicalRoot : desc.logicalRoot = (g.footer env).logicalRoot
  coherent : checkSegmentCoherence desc = .ok ()
  raw : ∃ x, desc.generationAt 0 = some x ∧ x.location = rawLocation g.header.segmentId ∧
    x.physicalDigest = env.blake3 (g.bytes env) ∧ x.physicalSize = (g.bytes env).length
  serves : ∀ x ∈ desc.generations, Serves env d ns g x

variable {env} {d d' : Disk} {ns : Bytes} {g : Segment} {desc : SegmentDescriptorV2}

theorem Serves.mono {x : PhysicalGeneration} (h : Serves env d ns g x) (hd : d.Extends d') : Serves env d' ns g x := by
  obtain ⟨file, hfile, hrest⟩ := h.file
  exact ⟨h.location, file, hd _ _ hfile, hrest⟩

theorem Described.mono (h : Described env d ns g desc) (hd : d.Extends d') : Described env d' ns g desc :=
  ⟨h.segmentId, h.firstLsn, h.lastLsn, h.recordCount, h.logicalRoot, h.coherent, h.raw, fun x hx => (h.serves x hx).mono hd⟩

/-- A coherent descriptor with generations has the one that is in use. -/
theorem Described.active (h : Described env d ns g desc) : ∃ x ∈ desc.generations, desc.active = some x := by
  have hne : desc.generations ≠ [] := by
    obtain ⟨x, hx, -⟩ := h.raw
    intro hnil
    rw [SegmentDescriptorV2.generationAt, hnil] at hx
    cases hx
  have hsome : desc.active.isSome = true := by
    have hactive := ((checkSegmentCoherence_eq_ok desc).1 h.coherent).2.2.2.2
    exact Option.isSome_iff_ne_none.2 (by simpa using fun hnone => hactive ⟨hne, hnone⟩)
  obtain ⟨x, hx⟩ := Option.isSome_iff_exists.1 hsome
  exact ⟨x, List.mem_of_find?_eq_some hx, hx⟩

/-! ## Manifests -/

theorem not_u64Max_lt {n : Nat} (h : n < 2 ^ 64) : ¬u64Max < n := Nat.not_lt.2 (Nat.le_sub_one_of_lt h)

theorem exists_left_of_mem {α β : Type} {R : α → β → Prop} {l : List α} {l' : List β} (h : List.Forall₂ R l l') :
    ∀ y ∈ l', ∃ x ∈ l, R x y := by
  induction h with
  | nil => nofun
  | cons hxy _ ih =>
    intro z hz
    rcases List.mem_cons.1 hz with rfl | hz
    · exact ⟨_, List.mem_cons_self, hxy⟩
    · obtain ⟨x, hx, hxz⟩ := ih z hz
      exact ⟨x, List.mem_cons_of_mem _ hx, hxz⟩

variable (env) in
/-- **The manifest describes the history**, over the files of the disk. -/
structure Catalogued (d : Disk) (ns : Bytes) (segs : List Segment) (m : DatabaseManifest) : Prop where
  namespaceId : m.storageNamespaceId = ns
  length_ns : ns.length = 16
  described : List.Forall₂ (Described env d ns) segs m.segmentsV2
  watermark : m.cumulativeWatermark = (recordsOf segs).length - 1

theorem catalogued_empty (d : Disk) (hns : ns.length = 16) : Catalogued env d ns [] (emptyManifest ns) :=
  ⟨rfl, hns, .nil, rfl⟩

variable {segs : List Segment} {descs : List SegmentDescriptorV2} {m : DatabaseManifest} {id lsn : Nat}

theorem Catalogued.mono (h : Catalogued env d ns segs m) (hd : d.Extends d') : Catalogued env d' ns segs m :=
  ⟨h.namespaceId, h.length_ns, h.described.imp (fun _ _ hdesc => hdesc.mono hd), h.watermark⟩

theorem Catalogued.length_eq (h : Catalogued env d ns segs m) : m.segmentsV2.length = segs.length :=
  h.described.length_eq.symm

section Chains

variable (hchain : Chain env ns id lsn segs) (hdescs : List.Forall₂ (Described env d ns) segs descs)
include hchain hdescs

/-- The ids are the places. -/
theorem map_segmentId_described : descs.map (·.segmentId) = List.range' id segs.length := by
  induction hdescs generalizing id lsn with
  | nil => rfl
  | cons hdesc _ ih =>
    obtain ⟨hg, -, hsegs⟩ := hchain
    rw [List.map_cons, ih hsegs, hdesc.segmentId, hg.segmentId]
    rfl

/-- A later segment begins later. -/
theorem firstLsn_described : (∀ desc ∈ descs, lsn ≤ desc.firstLsn ∧ desc.firstLsn < lsn + (recordsOf segs).length) ∧
    descs.Pairwise (fun a b => a.firstLsn ≤ b.firstLsn) := by
  induction hdescs generalizing id lsn with
  | nil => exact ⟨nofun, .nil⟩
  | @cons g desc segs descs hdesc _ ih =>
    obtain ⟨hg, hne, hsegs⟩ := hchain
    obtain ⟨hbounds, hpairwise⟩ := ih hsegs
    have hpos := List.length_pos_iff.2 hne
    have hfirst : desc.firstLsn = lsn := hdesc.firstLsn.trans hg.firstLsn
    rw [recordsOf_cons, List.length_append]
    refine ⟨fun x hx => ?_, List.pairwise_cons.2 ⟨fun x hx => ?_, hpairwise⟩⟩
    · rcases List.mem_cons.1 hx with rfl | hx
      · omega
      · have := hbounds x hx
        omega
    · have := hbounds x hx
      omega

theorem validateRanges_described {ids : List Nat} (hids : ∀ i ∈ ids, i < id) :
    validateRanges ids lsn descs = .ok (lsn + (recordsOf segs).length) := by
  induction hdescs generalizing id lsn ids with
  | nil => rfl
  | @cons g desc segs descs hdesc _ ih =>
    obtain ⟨hg, hne, hsegs⟩ := hchain
    have hpos := List.length_pos_iff.2 hne
    have hid : desc.segmentId = id := hdesc.segmentId.trans hg.segmentId
    have hfirst : desc.firstLsn = lsn := hdesc.firstLsn.trans hg.firstLsn
    have hlast : desc.lastLsn + 1 = lsn + g.records.length := by
      rw [hdesc.lastLsn, hg.firstLsn]
      omega
    have hnotin : desc.segmentId ∉ ids := fun hmem => by
      have := hids _ hmem
      omega
    have hbound := hg.bound
    have hcount : desc.recordCount ≠ 0 := by
      rw [hdesc.recordCount]
      exact Nat.ne_of_gt hpos
    unfold validateRanges
    dsimp only
    rw [if_neg hnotin, if_neg hcount, if_neg (fun hne => hne hfirst),
      if_neg (not_u64Max_lt (by omega)), hlast]
    rw [ih hsegs (fun i hi => by
      rcases List.mem_cons.1 hi with rfl | hi
      · omega
      · have := hids i hi
        omega), recordsOf_cons, List.length_append, Nat.add_assoc]

theorem getLast?_described (hne : segs ≠ []) :
    ∃ desc, descs.getLast? = some desc ∧ desc.lastLsn + 1 = lsn + (recordsOf segs).length := by
  induction hdescs generalizing id lsn with
  | nil => exact absurd rfl hne
  | @cons g desc segs descs hdesc htail ih =>
    obtain ⟨hg, hrecords, hsegs⟩ := hchain
    have hpos := List.length_pos_iff.2 hrecords
    rw [recordsOf_cons, List.length_append]
    cases htail with
    | nil =>
      refine ⟨desc, rfl, ?_⟩
      rw [hdesc.lastLsn, hg.firstLsn, recordsOf_nil, List.length_nil]
      omega
    | cons hdesc' htail' =>
      obtain ⟨last, hlast, heq⟩ := ih hsegs (List.cons_ne_nil _ _)
      exact ⟨last, by rw [List.getLast?_cons_cons]; exact hlast, by omega⟩

/-- **A segment is found by its id.** -/
theorem find?_described {j : Nat} (hj : segs[j]? = some g) :
    ∃ desc, descs.find? (fun s => s.segmentId == id + j) = some desc ∧ Described env d ns g desc := by
  induction hdescs generalizing id lsn j with
  | nil => cases hj
  | @cons g' desc segs descs hdesc _ ih =>
    obtain ⟨hg, -, hsegs⟩ := hchain
    have hid : desc.segmentId = id := hdesc.segmentId.trans hg.segmentId
    cases j with
    | zero =>
      cases hj
      exact ⟨desc, List.find?_cons_of_pos (by simp [hid]), hdesc⟩
    | succ j =>
      obtain ⟨found, hfind, hfound⟩ := ih hsegs (j := j) hj
      refine ⟨found, ?_, hfound⟩
      rw [List.find?_cons_of_neg (by simp [hid]), ← hfind, Nat.add_right_comm, Nat.add_assoc]

theorem find?_described_none {i : Nat} (hi : id + segs.length ≤ i) : descs.find? (fun s => s.segmentId == i) = none := by
  rw [List.find?_eq_none]
  intro desc hdesc h
  have hmem : desc.segmentId ∈ List.range' id segs.length := by
    rw [← map_segmentId_described hchain hdescs]
    exact List.mem_map_of_mem hdesc
  have := List.mem_range'_1.1 hmem
  have := beq_iff_eq.1 h
  omega

/-- **The segment of an LSN** is where the search over the last LSNs ends. -/
theorem findSegment_described {n : Nat} (hle : lsn ≤ n) (hlt : n < lsn + (recordsOf segs).length) :
    ∃ g desc, g ∈ segs ∧ descs[partitionPoint (fun s => decide (s.lastLsn < n)) descs]? = some desc ∧
      Described env d ns g desc ∧ 0 < desc.recordCount ∧ desc.firstLsn ≤ n ∧ n ≤ desc.lastLsn ∧
      (recordsOf segs)[n - lsn]? = g.records[n - g.header.firstLsn]? := by
  induction hdescs generalizing id lsn with
  | nil => exact absurd hlt (by simpa using hle)
  | @cons g desc segs descs hdesc _ ih =>
    obtain ⟨hg, hne, hsegs⟩ := hchain
    have hpos := List.length_pos_iff.2 hne
    have hfirst := hg.firstLsn
    have hlast := hdesc.lastLsn
    rw [recordsOf_cons, List.length_append] at hlt
    by_cases hhere : n < lsn + g.records.length
    · refine ⟨g, desc, List.mem_cons_self, ?_, hdesc, by rw [hdesc.recordCount]; exact hpos,
        by rw [hdesc.firstLsn]; omega, by omega, ?_⟩
      · have hstop : ¬desc.lastLsn < n := by omega
        simp [partitionPoint, hstop]
      · rw [recordsOf_cons, List.getElem?_append_left (by omega), hfirst]
    · obtain ⟨g', desc', hmem, hfound, hdesc', hcount, hge, hle', hget⟩ := ih hsegs (by omega) (by omega)
      refine ⟨g', desc', List.mem_cons_of_mem _ hmem, ?_, hdesc', hcount, hge, hle', ?_⟩
      · have hon : desc.lastLsn < n := by omega
        simpa [partitionPoint, hon] using hfound
      · rw [recordsOf_cons, List.getElem?_append_right (by omega), ← hget, Nat.sub_sub]

end Chains

section Answers

variable (hchain : Chain env ns 0 0 segs) (h : Catalogued env d ns segs m)
include hchain h

theorem Catalogued.decodable : decodable m = true := by
  unfold V6.decodable
  rw [Bool.and_eq_true, List.all_eq_true, decide_eq_true_eq]
  refine ⟨fun desc hdesc => ?_, (firstLsn_described hchain h.described).2⟩
  obtain ⟨g, -, hg⟩ := exists_left_of_mem h.described desc hdesc
  rw [hg.coherent]
  rfl

theorem Catalogued.validateManifestRanges : validateManifestRanges m = .ok () := by
  unfold V6.validateManifestRanges
  rw [validateRanges_described hchain h.described (fun i hi => by cases hi)]
  dsimp only
  rw [if_neg]
  rintro ⟨-, hne⟩
  exact hne (by rw [h.watermark, Nat.zero_add])

/-- **The next LSN is the number of records.** -/
theorem Catalogued.nextLsn : nextLsnFromManifest m = .ok (recordsOf segs).length := by
  unfold nextLsnFromManifest
  rw [h.validateManifestRanges hchain]
  dsimp only
  by_cases hnil : segs = []
  · subst hnil
    have hdescs : m.segmentsV2 = [] := List.forall₂_nil_left_iff.1 h.described
    rw [hdescs]
    rfl
  · obtain ⟨desc, hlast, heq⟩ := getLast?_described hchain h.described hnil
    obtain ⟨g, hg⟩ : ∃ g, segs.getLast? = some g := ⟨_, List.getLast?_eq_some_getLast hnil⟩
    have hplace : segs[segs.length - 1]? = some g := by rwa [← List.getLast?_eq_getElem?]
    have hbound := (hchain.getElem? hplace).1.bound
    have hcount : (recordsOf segs).length = (recordsOf (segs.take (segs.length - 1))).length + g.records.length := by
      have hconcat : segs = segs.dropLast ++ [g] := (List.dropLast_append_getLast? g hg).symm
      conv_lhs => rw [hconcat]
      rw [recordsOf_append, List.length_append, ← List.dropLast_eq_take]
      simp
    rw [hlast]
    dsimp only
    rw [if_neg (not_u64Max_lt (by omega)), heq, Nat.zero_add]

theorem Catalogued.nextSegmentId (hlen : segs.length < 2 ^ 64) : nextSegmentId m = segs.length := by
  unfold V6.nextSegmentId
  by_cases hnil : m.segmentsV2 = []
  · rw [if_pos hnil, ← h.length_eq, hnil]
    rfl
  · have hpos : 0 < segs.length := by
      rw [← h.length_eq]
      exact List.length_pos_iff.2 hnil
    rw [if_neg hnil, map_segmentId_described hchain h.described]
    have hmax : maxOf (List.range' 0 segs.length) = segs.length - 1 := by
      refine Nat.le_antisymm (foldl_max_le _ _ (Nat.zero_le _) (fun x hx => ?_)) ((le_foldl_max _ _).2 _ ?_)
      · have := List.mem_range'_1.1 hx
        omega
      · exact List.mem_range'_1.2 ⟨Nat.zero_le _, by omega⟩
    rw [hmax, satAdd64, Nat.sub_add_cancel hpos]
    exact Nat.min_eq_left (Nat.le_sub_one_of_lt hlen)

theorem Catalogued.segment {j : Nat} (hj : segs[j]? = some g) :
    ∃ desc, m.segment j = some desc ∧ Described env d ns g desc := by
  have hfind := find?_described hchain h.described hj
  rwa [Nat.zero_add] at hfind

theorem Catalogued.segment_none {j : Nat} (hj : segs.length ≤ j) : m.segment j = none :=
  find?_described_none hchain h.described (by rwa [Nat.zero_add])

/-- **From an LSN to its segment.** -/
theorem Catalogued.findSegmentForLsn {n : Nat} (hn : n < (recordsOf segs).length) :
    ∃ g desc, g ∈ segs ∧ m.findSegmentForLsn n = some desc ∧ Described env d ns g desc ∧ g.header.firstLsn ≤ n ∧
      (recordsOf segs)[n]? = g.records[n - g.header.firstLsn]? := by
  obtain ⟨g, desc, hg, hfound, hdesc, hcount, hge, hle, hget⟩ :=
    findSegment_described hchain h.described (Nat.zero_le n) (by rwa [Nat.zero_add])
  refine ⟨g, desc, hg, ?_, hdesc, hdesc.firstLsn ▸ hge, by rwa [Nat.sub_zero] at hget⟩
  unfold DatabaseManifest.findSegmentForLsn
  rw [hfound]
  simp [hcount, hge, hle]

omit hchain in
theorem Catalogued.validateGenerations : validateCataloguedGenerations env d m = .ok () := by
  have hall : ∀ desc ∈ m.segmentsV2, forM desc.generations (validateGeneration env d m.storageNamespaceId desc.segmentId)
      = .ok () := fun desc hdesc => (forM_eq_ok _ _).2 (fun x hx => by
    obtain ⟨g, -, hg⟩ := exists_left_of_mem h.described desc hdesc
    obtain ⟨file, hfile, ⟨header, hheader, hidentity⟩, hdigest, -⟩ := (hg.serves x hx).file
    unfold validateGeneration
    rw [hfile]
    dsimp only
    rw [hheader, h.namespaceId, hg.segmentId]
    show (checkHeaderIdentity header g.header.segmentId ns x.layout >>= fun _ => _) = _
    rw [hidentity]
    exact if_neg (fun hne => hne hdigest))
  exact (forM_eq_ok _ _).2 hall

end Answers

/-! ## What enters the catalogue -/

variable (env) in
/-- The descriptor under which a sealed segment is registered. -/
def rawDescriptor (g : Segment) : SegmentDescriptorV2 :=
  sealedDescriptor g.header.segmentId (g.footer env) g.header.canonicalCodec (rawLocation g.header.segmentId)
    (g.bytes env).length (env.blake3 (g.bytes env)) (g.footer env).maxHlc

theorem coherent_rawDescriptor (hg : g.Valid env ns id lsn) (hne : g.records ≠ []) :
    checkSegmentCoherence (rawDescriptor env g) = .ok () := by
  have hcoherent := (hg.seals hne).coherent
  unfold FooterV6.checkCoherence at hcoherent
  dsimp only at hcoherent
  simp only [guard_eq_ok] at hcoherent
  obtain ⟨hlsn, hhlc, hspan, -⟩ := hcoherent
  exact (checkSegmentCoherence_eq_ok _).2 ⟨hlsn, hhlc, hspan, by simp [rawDescriptor, sealedDescriptor],
    by simp [rawDescriptor, sealedDescriptor, SegmentDescriptorV2.active]⟩

/-- **The descriptor of a sealed segment stands for it**, where its file is. -/
theorem described_rawDescriptor (hg : g.Valid env ns id lsn) (hne : g.records ≠ []) {f : File}
    (hfile : d.fileAt (rawLocation id) = some (.raw f)) (hf : f.data = g.bytes env) :
    Described env d ns g (rawDescriptor env g) := by
  obtain ⟨hcount, hmin, hmax, -, -⟩ := footer_written env.blake3 (hashOf env) hg.numbered' hg.bound' hne
  refine ⟨rfl, hmin, hmax, hcount, rfl, coherent_rawDescriptor hg hne, ⟨_, rfl, rfl, rfl, rfl⟩, fun x hx => ?_⟩
  cases List.mem_singleton.1 hx
  have hid := hg.segmentId
  refine ⟨.inl ⟨rfl, rfl, rfl⟩, .raw f, by dsimp only; rw [hid]; exact hfile, ⟨g.header, ?_, ?_⟩, ?_, fun n => ?_⟩
  · show readV6Header f.data = _
    rw [hf, hg.readHeader_bytes]
  · rw [hid]
    exact hg.checkHeaderIdentity
  · show env.blake3 f.data = _
    rw [hf]
  · show (scanRawBytes f.data).map _ = _
    rw [hf, hg.scan hne]
    rfl

/-- **A new segment is registered behind the others.** -/
theorem Catalogued.registerSealedRaw (hchain : Chain env ns 0 0 segs) (h : Catalogued env d ns segs m)
    (hg : g.Valid env ns segs.length (recordsOf segs).length) (hne : g.records ≠ []) {f : File}
    (hfile : d.fileAt (rawLocation segs.length) = some (.raw f)) (hf : f.data = g.bytes env) :
    registerSealedRaw m segs.length (g.footer env) g.header.canonicalCodec (rawLocation segs.length) (g.bytes env).length
        (env.blake3 (g.bytes env)) (g.footer env).maxHlc
      = .ok { m with
          segmentsV2 := m.segmentsV2 ++ [rawDescriptor env g]
          cumulativeWatermark := max m.cumulativeWatermark (g.footer env).maxLsn } ∧
    Catalogued env d ns (segs ++ [g]) { m with
      segmentsV2 := m.segmentsV2 ++ [rawDescriptor env g]
      cumulativeWatermark := max m.cumulativeWatermark (g.footer env).maxLsn } := by
  obtain ⟨-, hmin, hmax, -, -⟩ := footer_written env.blake3 (hashOf env) hg.numbered' hg.bound' hne
  have hmin : (g.footer env).minLsn = g.header.firstLsn := hmin
  have hmax : (g.footer env).maxLsn = g.header.firstLsn + (g.records.length - 1) := hmax
  have hpos := List.length_pos_iff.2 hne
  have hfirst := hg.firstLsn
  have hdescribed := described_rawDescriptor hg hne hfile hf
  have hnone := h.segment_none hchain (Nat.le_refl _)
  refine ⟨?_, h.namespaceId, h.length_ns, ?_, ?_⟩
  · have hidx : m.segmentsV2.findIdx? (fun s => s.segmentId == (rawDescriptor env g).segmentId) = none := by
      rw [List.findIdx?_eq_none_iff]
      intro x hx
      have hid : (rawDescriptor env g).segmentId = segs.length := hg.segmentId
      rw [hid]
      exact Bool.eq_false_iff.2 (List.find?_eq_none.1 hnone x hx)
    have hpoint : partitionPoint (fun s => decide (s.firstLsn < (rawDescriptor env g).firstLsn)) m.segmentsV2
        = m.segmentsV2.length := by
      refine partitionPoint_eq (fun i x hx => iff_of_true ?_ (List.getElem?_eq_some_iff.1 hx).1) (Nat.le_refl _)
      have hlt := ((firstLsn_described hchain h.described).1 x (List.mem_of_getElem? hx)).2
      have hdesc : (rawDescriptor env g).firstLsn = (g.footer env).minLsn := rfl
      rw [decide_eq_true_eq, hdesc, hmin]
      omega
    have hupsert : m.upsertSegment (rawDescriptor env g) = { m with segmentsV2 := m.segmentsV2 ++ [rawDescriptor env g] } := by
      unfold DatabaseManifest.upsertSegment
      rw [hidx]
      dsimp only
      rw [hpoint, List.insertIdx_length_self]
    have hdesc : sealedDescriptor segs.length (g.footer env) g.header.canonicalCodec (rawLocation segs.length)
        (g.bytes env).length (env.blake3 (g.bytes env)) (g.footer env).maxHlc = rawDescriptor env g := by
      rw [rawDescriptor, hg.segmentId]
    unfold V6.registerSealedRaw
    rw [hnone, if_neg (by simp), hdesc]
    dsimp only
    rw [coherent_rawDescriptor hg hne, hupsert]
  · exact List.rel_append h.described (.cons hdescribed .nil)
  · show max m.cumulativeWatermark (g.footer env).maxLsn = _
    rw [h.watermark, hmax, recordsOf_append, List.length_append, recordsOf_cons, recordsOf_nil, List.append_nil]
    omega

/-! ## What replaces a generation -/

/-- The same file under the same number. -/
structure SameFile (x y : PhysicalGeneration) : Prop where
  generation : y.generation = x.generation
  layout : y.layout = x.layout
  location : y.location = x.location
  physicalDigest : y.physicalDigest = x.physicalDigest
  physicalSize : y.physicalSize = x.physicalSize

theorem sameFile_supersede (nowHlc : Nat) (x : PhysicalGeneration) : SameFile x (supersede nowHlc x) := by
  unfold supersede
  split <;> exact ⟨rfl, rfl, rfl, rfl, rfl⟩

theorem Serves.sameFile {x y : PhysicalGeneration} (h : Serves env d ns g x) (hxy : SameFile x y) : Serves env d ns g y := by
  obtain ⟨file, hfile, hheader, hdigest, hpayload⟩ := h.file
  refine ⟨?_, file, by rw [hxy.location]; exact hfile, by rw [hxy.layout]; exact hheader,
    by rw [hxy.physicalDigest]; exact hdigest, hpayload⟩
  rw [hxy.generation, hxy.layout, hxy.location]
  exact h.location

/-- The generation that a packing publishes. -/
def PackReceipt.generation (receipt : PackReceipt) (location : String) (nowHlc : Nat) : PhysicalGeneration := {
  generation := receipt.targetGeneration, layout := .packed, compression := receipt.codec, location := location
  physicalSize := receipt.targetPhysicalSize, physicalDigest := receipt.targetPhysicalDigest, state := .active
  createdHlc := nowHlc, verifiedHlc := nowHlc, supersededHlc := 0, verifiedCopies := 1 }

theorem sameFile_packedDescriptor (desc : SegmentDescriptorV2) (receipt : PackReceipt) (location : String) (nowHlc : Nat) :
    List.Forall₂ SameFile (desc.generations ++ [receipt.generation location nowHlc])
      (packedDescriptor desc receipt location nowHlc).generations := by
  refine forall₂_modifyFirst (List.forall₂_same.2 fun _ _ => ⟨rfl, rfl, rfl, rfl, rfl⟩) (fun x _ y hxy _ => ?_)
  obtain ⟨h₁, h₂, h₃, h₄, h₅⟩ := sameFile_supersede nowHlc y
  exact ⟨h₁.trans hxy.generation, h₂.trans hxy.layout, h₃.trans hxy.location, h₄.trans hxy.physicalDigest,
    h₅.trans hxy.physicalSize⟩

section Packing

variable {receipt : PackReceipt} {nowHlc : Nat}
variable (hfresh : ∀ x ∈ desc.generations, x.generation ≠ receipt.targetGeneration)

include hfresh in
theorem Described.packed (h : Described env d ns g desc) {location : String}
    (hserves : Serves env d ns g (receipt.generation location nowHlc)) :
    Described env d ns g (packedDescriptor desc receipt location nowHlc) := by
  have hsame := sameFile_packedDescriptor desc receipt location nowHlc
  have hgenerations : (packedDescriptor desc receipt location nowHlc).generations.map (·.generation)
      = desc.generations.map (·.generation) ++ [receipt.targetGeneration] := by
    have heq := List.forall₂_map_left_iff.2 (List.forall₂_map_right_iff.2 (hsame.imp fun _ _ hxy => hxy.generation.symm))
    rw [List.forall₂_eq_eq_eq] at heq
    rw [← heq, List.map_append]
    rfl
  obtain ⟨hlsn, hhlc, hspan, hnodup, -⟩ := (checkSegmentCoherence_eq_ok desc).1 h.coherent
  refine ⟨h.segmentId, h.firstLsn, h.lastLsn, h.recordCount, h.logicalRoot, (checkSegmentCoherence_eq_ok _).2
    ⟨hlsn, hhlc, hspan, ?_, ?_⟩, ?_, fun y hy => ?_⟩
  · rw [hgenerations, List.nodup_append]
    refine ⟨hnodup, by simp, fun a ha b hb => ?_⟩
    obtain ⟨x, hx, rfl⟩ := List.mem_map.1 ha
    rw [List.mem_singleton.1 hb]
    exact hfresh x hx
  · rintro ⟨-, hnone⟩
    have hmem : receipt.targetGeneration ∈ (packedDescriptor desc receipt location nowHlc).generations.map (·.generation) := by
      rw [hgenerations]
      exact List.mem_append_right _ List.mem_cons_self
    obtain ⟨y, hy, hgeneration⟩ := List.mem_map.1 hmem
    have := List.find?_eq_none.1 (Option.isNone_iff_eq_none.1 hnone) y hy
    exact this (beq_iff_eq.2 hgeneration)
  · obtain ⟨x, hx, hlocation, hdigest, hsize⟩ := h.raw
    have hfind : (desc.generations ++ [receipt.generation location nowHlc]).find? (fun x => x.generation == 0) = some x := by
      rw [List.find?_append, show desc.generations.find? (fun x => x.generation == 0) = some x from hx, Option.some_or]
    have hsearch : ∀ b c, SameFile b c → (b.generation == 0) = (c.generation == 0) := fun b c hbc => by
      rw [hbc.generation]
    obtain ⟨y, hy, hxy⟩ := find?_forall₂ hsearch hsame hfind
    exact ⟨y, hy, hxy.location.trans hlocation, hxy.physicalDigest.trans hdigest, hxy.physicalSize.trans hsize⟩
  · obtain ⟨x, hx, hxy⟩ := exists_left_of_mem hsame y hy
    rcases List.mem_append.1 hx with hx | hx
    · exact (h.serves x hx).sameFile hxy
    · rw [List.mem_singleton.1 hx] at hxy
      exact hserves.sameFile hxy

include hfresh in
/-- **A packing is recorded**, and the manifest describes the same history. -/
theorem Catalogued.recordPack (hchain : Chain env ns 0 0 segs) (h : Catalogued env d ns segs m) {j : Nat}
    (hj : segs[j]? = some g) (hsegment : m.segment j = some desc) (hdesc : Described env d ns g desc) {location : String}
    (hserves : Serves env d ns g (receipt.generation location nowHlc))
    (hid : receipt.segmentId = j) (hroot : receipt.logicalRoot = (g.footer env).logicalRoot) :
    recordPack m receipt location nowHlc
      = .ok (m.modifySegment j (fun _ => packedDescriptor desc receipt location nowHlc)) ∧
    Catalogued env d ns segs (m.modifySegment j (fun _ => packedDescriptor desc receipt location nowHlc)) := by
  have hpacked := hdesc.packed hfresh hserves
  refine ⟨?_, h.namespaceId, h.length_ns, forall₂_modifyFirst h.described (fun g' hg' x hx hp => ?_), h.watermark⟩
  · have hnone : desc.generationAt receipt.targetGeneration = none :=
      List.find?_eq_none.2 (fun x hx hx' => hfresh x hx (beq_iff_eq.1 hx'))
    unfold V6.recordPack
    rw [hid, hsegment]
    dsimp only
    rw [if_neg (by rw [hdesc.logicalRoot, hroot]; exact fun hne => hne rfl), if_neg (by rw [hnone]; exact nofun),
      hpacked.coherent]
  · -- a chain has one segment of that id
    obtain ⟨i, hi⟩ := List.mem_iff_getElem?.1 hg'
    have hi' : i = j := (hchain.getElem? hi).1.segmentId.symm.trans (hx.segmentId.symm.trans (beq_iff_eq.1 hp))
    rw [hi', hj] at hi
    cases hi
    exact hpacked

end Packing

/-! ## The manifest that is loaded -/

theorem lt_nextGeneration (d : Disk) : ∀ e ∈ d.manifests.entries, e.1 < d.nextGeneration := by
  intro e he
  obtain ⟨last, hlast⟩ : ∃ last, d.manifests.entries.getLast? = some last :=
    ⟨_, List.getLast?_eq_some_getLast (List.ne_nil_of_mem he)⟩
  have hconcat := List.dropLast_append_getLast? last hlast
  have hsorted := d.manifests.sorted
  rw [← hconcat, List.pairwise_append] at hsorted
  rw [← hconcat] at he
  rw [Disk.nextGeneration, hlast]
  show e.1 < last.1 + 1
  rcases List.mem_append.1 he with he | he
  · have := hsorted.2.2 e he last List.mem_cons_self
    omega
  · rw [List.mem_singleton.1 he]
    omega

theorem get?_nextGeneration (d : Disk) : d.manifests.get? d.nextGeneration = none := by
  cases h : d.manifests.get? d.nextGeneration with
  | none => rfl
  | some m => exact absurd (lt_nextGeneration d _ (SortedMap.get?_eq_some.1 h)) (Nat.lt_irrefl _)

theorem load_eq (hmanifests : d'.manifests = d.manifests) (hcurrent : d'.current = d.current) : d'.load = d.load := by
  rw [Disk.load, hmanifests, hcurrent, Disk.load]

/-- **A new manifest is loaded** or what was loaded before it, until `CURRENT` names it. -/
theorem load_insert (hdecodable : decodable m = true) :
    Disk.load { d with manifests := d.manifests.insert d.nextGeneration m } = d.load ∨
      Disk.load { d with manifests := d.manifests.insert d.nextGeneration m } = some m := by
  have hentries : (d.manifests.insert d.nextGeneration m).entries = d.manifests.entries ++ [(d.nextGeneration, m)] :=
    SortedMap.alterList_of_lt _ (lt_nextGeneration d)
  have hscan : ((d.manifests.insert d.nextGeneration m).entries.reverse.find? (fun e => decodable e.2)).map Prod.snd
      = some m := by
    rw [hentries, List.reverse_concat, List.find?_cons_of_pos (by exact hdecodable)]
    rfl
  unfold Disk.load
  dsimp only
  rw [hscan]
  cases hcurrent : d.current with
  | none => exact .inr rfl
  | some c =>
    rw [Option.bind_some, Option.bind_some, SortedMap.get?_insert]
    by_cases hc : c = d.nextGeneration
    · rw [if_pos hc, Option.filter_some, if_pos hdecodable]
      exact .inr rfl
    · rw [if_neg hc]
      cases (d.manifests.get? c).filter decodable with
      | some m' => exact .inl rfl
      | none => exact .inr rfl

theorem load_current (hdecodable : decodable m = true) (manifests : SortedMap Nat DatabaseManifest) (c : Nat) :
    Disk.load { d with manifests := manifests.insert c m, current := some c } = some m := by
  unfold Disk.load
  dsimp only
  rw [Option.bind_some, SortedMap.get?_insert, if_pos rfl, Option.filter_some, if_pos hdecodable]

variable (env) in
/-- What is loaded describes the history; nothing is loaded from a log that never sealed a segment. -/
def Loaded (d : Disk) (ns : Bytes) (segs : List Segment) : Prop :=
  d.load = none ∧ segs = [] ∨ ∃ m, d.load = some m ∧ Catalogued env d ns segs m

theorem Loaded.mono (h : Loaded env d ns segs) (hload : d'.load = d.load) (hd : d.Extends d') : Loaded env d' ns segs := by
  rcases h with ⟨hnone, hnil⟩ | ⟨m, hm, hcatalogued⟩
  · exact .inl ⟨hload.trans hnone, hnil⟩
  · exact .inr ⟨m, hload.trans hm, hcatalogued.mono hd⟩

end V6
end Heraclitus
