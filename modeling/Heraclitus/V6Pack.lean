import Heraclitus.V6Append
/-!
# V6Pack — packing sealed segments

A packed generation is published beside the RAW one and then recorded; until it is recorded nothing names it.  So a packing
that fails, or dies, at any step leaves a log of the same history.
-/
namespace Heraclitus
namespace V6

variable {env : Env} {ns : Bytes} {segs : List Segment} {g : Segment} {low : Nat} {s t : State}

/-! ## Generations -/

/-- Every generation of the segment has a number below 9999, in the catalogue and in the directory. -/
structure Packable (s : State) (id : Nat) : Prop where
  files : ∀ e ∈ s.disk.packed, e.1.1 = id → e.1.2 < 9999
  generations : ∀ desc, s.manifest.segment id = some desc → ∀ x ∈ desc.generations, x.generation < 9999

/-- A number that no generation of the segment has. -/
structure Fresh (s : State) (desc : SegmentDescriptorV2) (id generation : Nat) : Prop where
  pos : generation ≠ 0
  lt : generation < 10 ^ 4
  generations : ∀ x ∈ desc.generations, x.generation ≠ generation
  files : ∀ e ∈ s.disk.packed, e.1.1 = id → e.1.2 ≠ generation

theorem le_maxOf {l : List Nat} {x : Nat} (hx : x ∈ l) : x ≤ maxOf l := (le_foldl_max l 0).2 x hx

theorem maxOf_lt {l : List Nat} {b : Nat} (hb : 0 < b) (h : ∀ x ∈ l, x < b) : maxOf l < b :=
  Nat.lt_of_le_pred hb (foldl_max_le l 0 (Nat.zero_le _) (fun x hx => Nat.le_pred_of_lt (h x hx)))

theorem wp_nextPhysicalGeneration {desc : SegmentDescriptorV2} {id : Nat} (hdiscover : discover s.disk = .ok ())
    (h : Packable s id) (hsegment : s.manifest.segment id = some desc) (hid : desc.segmentId = id) :
    (nextPhysicalGeneration desc).wp ⟨fun generation s' => Fresh s desc id generation ∧ s' = s, fun _ _ => False,
      fun _ _ s' => s' = s, fun s' => s' = s⟩ s := by
  unfold nextPhysicalGeneration
  refine Prog.wp_look_ok hdiscover (fun _ => rfl) rfl (Prog.wp_get_bind ?_)
  have hmem : ∀ x ∈ desc.generations.map (·.generation) ++
      (s.disk.packed.filter (fun e => e.1.1 == desc.segmentId)).map (fun e => e.1.2), x < 9999 := fun x hx => by
    rcases List.mem_append.1 hx with hx | hx
    · obtain ⟨y, hy, rfl⟩ := List.mem_map.1 hx
      exact h.generations desc hsegment y hy
    · obtain ⟨e, he, rfl⟩ := List.mem_map.1 hx
      obtain ⟨he, heq⟩ := List.mem_filter.1 he
      exact h.files e he ((beq_iff_eq.1 heq).trans hid)
  have hmax := maxOf_lt (by decide) hmem
  dsimp only
  rw [if_neg (by omega)]
  refine Prog.wp_pure ⟨⟨Nat.succ_ne_zero _, by omega, fun x hx heq => ?_, fun e he heid heq => ?_⟩, rfl⟩
  · have hle := le_maxOf (List.mem_append_left ((s.disk.packed.filter (fun e => e.1.1 == desc.segmentId)).map
      (fun e => e.1.2)) (List.mem_map_of_mem (f := fun x : PhysicalGeneration => x.generation) hx))
    omega
  · have he' : e ∈ s.disk.packed.filter (fun e => e.1.1 == desc.segmentId) :=
      List.mem_filter.2 ⟨he, beq_iff_eq.2 (heid.trans hid.symm)⟩
    have hle := le_maxOf (List.mem_append_right (desc.generations.map (·.generation))
      (List.mem_map_of_mem (f := fun e : (Nat × Nat) × PackedFile => e.1.2) he'))
    omega

/-! ## The packed file -/

/-- What a segment is packed into. -/
def Segment.packed (g : Segment) : PackedFile :=
  { header := { g.header with physicalLayout := .packed, flags := flagContiguousLsn }, records := g.records }

/-- The packed file has its name. -/
def State.published (s : State) (id generation : Nat) (g : Segment) : State :=
  s.mapDisk (fun d => { d with packed := d.packed ++ [((id, generation), g.packed)] })

section Published

variable {k : Nat} {rest : Option Rest} (h : Wreck env ns segs k rest s.disk) {id generation : Nat}
include h

theorem Wreck.extends_published : s.disk.Extends (s.published id generation g).disk :=
  Disk.extends_of_new (fun _ he => SortedMap.get?_eq_some.2 he) h.raw_lt_pow rfl

theorem Wreck.published (hid : id < 2 ^ 64) (hgeneration : generation < 10 ^ 4) :
    Wreck env ns segs k rest (s.published id generation g).disk := by
  refine ⟨h.chain, h.raw, fun e he => ?_, h.loaded.mono rfl h.extends_published, ?_⟩
  · rcases List.mem_append.1 he with he | he
    · exact h.names e he
    · rw [List.mem_singleton.1 he]
      exact ⟨hid, hgeneration⟩
  · cases rest with
    | none => exact h.active
    | some r => exact ⟨h.active.valid, h.active.file, h.active.size_le, h.active.complete⟩

/-- **The packed file serves the records of the segment.** -/
theorem Wreck.serves_published {desc : SegmentDescriptorV2} (hg : Segment.Valid env g ns id (recordsOf (segs.take id)).length)
    (hfresh : Fresh s desc id generation) {x : PhysicalGeneration} (hx : x.generation = generation)
    (hlayout : x.layout = .packed) (hlocation : x.location = packedLocation id generation)
    (hdigest : x.physicalDigest = env.packedDigest g.packed) : Serves env (s.published id generation g).disk ns g x := by
  have hnone : s.disk.packed.find? (fun e => packedLocation e.1.1 e.1.2 == packedLocation id generation) = none := by
    rw [List.find?_eq_none]
    intro e he heq
    obtain ⟨heid, hegeneration⟩ := packedLocation_injective (h.names e he).1 hg.id_lt (h.names e he).2 hfresh.lt
      (beq_iff_eq.1 heq)
    exact hfresh.files e he heid hegeneration
  have hfind : (s.published id generation g).disk.packed.find?
      (fun e => packedLocation e.1.1 e.1.2 == packedLocation id generation) = some ((id, generation), g.packed) := by
    show (s.disk.packed ++ [_]).find? _ = _
    rw [List.find?_append, hnone, Option.none_or]
    exact List.find?_cons_of_pos (beq_self_eq_true (packedLocation id generation))
  refine ⟨.inr ⟨by rw [hx]; exact hfresh.pos, hlayout, by rw [hlocation, hg.segmentId, hx]⟩, .packed g.packed, ?_,
    ⟨g.packed.header, rfl, ?_⟩, hdigest.symm, fun _ => rfl⟩
  · rw [hlocation, fileAt_packedLocation, hfind]
    rfl
  · unfold checkHeaderIdentity
    rw [if_neg]
    rintro (h' | h' | h' | h')
    · exact h' rfl
    · exact h' hg.namespaceId
    · exact h' hlayout.symm
    · exact h' hg.codec

end Published

/-- Nothing that the calls use has changed but the files. -/
theorem Steady.published {id generation : Nat} (h : Steady env ns segs g low s) (hid : id < 2 ^ 64)
    (hgeneration : generation < 10 ^ 4) (g' : Segment) : Steady env ns segs g low (s.published id generation g') :=
  ⟨h.wreck.published hid hgeneration, h.catalogue.mono h.wreck.extends_published, h.active, h.head⟩

theorem Steady.with_manifest {m : DatabaseManifest} (h : Steady env ns segs g low s) (hm : Catalogued env s.disk ns segs m) :
    Steady env ns segs g low { s with manifest := m } := ⟨h.wreck, hm, h.active, h.head⟩

/-- **A commit keeps the log steady** at every step. -/
theorem Steady.committing (h : Steady env ns segs g low t) (ht : Committing t s) : Steady env ns segs g low s := by
  have hstamped : Catalogued env t.disk ns segs t.stamped.manifest := h.catalogue.congr rfl rfl rfl
  have hdecodable := hstamped.decodable h.wreck.chain
  have hknown : ∀ {d : Disk}, d.raw = t.disk.raw → d.packed = t.disk.packed → d.active = t.disk.active →
      d.load = t.disk.load ∨ d.load = some t.stamped.manifest →
      Wreck env ns segs segs.length (some ⟨g, low, g.bodyLen⟩) d := fun {d} hraw hpacked hactive hload => by
    refine ⟨h.wreck.chain, by rw [hraw]; exact h.wreck.raw, by rw [hpacked]; exact h.wreck.names, ?_, ?_⟩
    · rcases hload with hload | hload
      · exact h.wreck.loaded.mono hload (Disk.extends_of_eq hraw hpacked)
      · rw [List.take_length]
        exact .inr ⟨_, hload, hstamped.mono (Disk.extends_of_eq hraw hpacked)⟩
    · obtain ⟨hvalid, hfile, hsize, hcomplete⟩ := h.wreck.active
      exact ⟨hvalid, by rw [hactive]; exact hfile, hsize, hcomplete⟩
  cases ht with
  | start => exact h
  | stamped => exact ⟨h.wreck, hstamped, h.active, h.head⟩
  | written =>
    exact ⟨hknown rfl rfl rfl (load_insert hdecodable), hstamped.mono (Disk.extends_of_eq rfl rfl), h.active, h.head⟩
  | committed =>
    exact ⟨hknown rfl rfl rfl (.inr (load_current hdecodable _ _)), hstamped.mono (Disk.extends_of_eq rfl rfl), h.active,
      h.head⟩

/-- Afterwards the disk has what the memory has. -/
theorem Steady.committed (h : Steady env ns segs g low t) : Steady env ns segs g low t.committed ∧ InSync t.committed := by
  have hstamped : Catalogued env t.disk ns segs t.stamped.manifest := h.catalogue.congr rfl rfl rfl
  refine ⟨h.committing .committed, ?_⟩
  have hload : t.committed.disk.load = some t.stamped.manifest :=
    load_current (hstamped.decodable h.wreck.chain) t.disk.manifests t.disk.nextGeneration
  rw [InSync, Disk.descriptors, hload]
  rfl

/-! ## Packing one segment -/

/-- Why a packing is refused. -/
inductive PackRefusal (env : Env) (profile : PackingProfile) : HeraclitusError → Prop
  | blocks {records : List RawRecord} {e : HeraclitusError} : env.packBlocks profile records = .error e →
      PackRefusal env profile e
  | size {m : DatabaseManifest} {e : HeraclitusError} : encodeManifest m = .error e → PackRefusal env profile e

/-- What is recorded of a packing. -/
structure Receipt (env : Env) (g : Segment) (id generation : Nat) (receipt : PackReceipt) : Prop where
  segmentId : receipt.segmentId = id
  targetGeneration : receipt.targetGeneration = generation
  targetPhysicalDigest : receipt.targetPhysicalDigest = env.packedDigest g.packed
  logicalRoot : receipt.logicalRoot = (g.footer env).logicalRoot

/-- **A sealed segment is packed**, and its packed file published. -/
theorem wp_packSegment {k : Nat} {rest : Option Rest} (h : Wreck env ns segs k rest s.disk) {id generation : Nat}
    (hg : segs[id]? = some g) {desc : SegmentDescriptorV2} (hfresh : Fresh s desc id generation) (profile : PackingProfile)
    (sourceGeneration : Nat) : (packSegment env profile (rawLocation id) sourceGeneration id generation).wp
      ⟨fun receipt s' => Receipt env g id generation receipt ∧ s' = s.published id generation g,
        fun e s' => PackRefusal env profile e ∧ s' = s, fun _ _ s' => s' = s ∨ s' = s.published id generation g,
        fun s' => s' = s ∨ s' = s.published id generation g⟩ s := by
  obtain ⟨hvalid, hne⟩ := h.chain.getElem? hg
  obtain ⟨f, -, hdata, -, hat⟩ := h.rawFile hg
  have hscan := hvalid.scan hne
  rw [← hdata] at hscan
  have hcount := (footer_written env.blake3 (hashOf env) hvalid.numbered' hvalid.bound' hne).1
  have hnew : (s.disk.packedAt id generation).isSome = false := by
    have hnone : s.disk.packed.find? (fun e => e.1 == (id, generation)) = none :=
      List.find?_eq_none.2 (fun e he heq => by
        have heq : e.1 = (id, generation) := beq_iff_eq.1 heq
        exact hfresh.files e he (congrArg Prod.fst heq) (congrArg Prod.snd heq))
    rw [Disk.packedAt, hnone]
    rfl
  have hat' : (s.published id generation g).disk.fileAt (rawLocation id) = some (.raw f) :=
    h.extends_published _ _ hat
  have hthere : ((s.published id generation g).disk.packedAt id generation).isSome = true := by
    rw [Disk.packedAt, Option.isSome_map, List.find?_isSome]
    exact ⟨_, List.mem_append_right _ List.mem_cons_self, beq_self_eq_true _⟩
  unfold packSegment
  refine Prog.wp_look_ok (by rw [hat]; exact hscan) (fun _ => .inl rfl) (.inl rfl) ?_
  dsimp only
  refine Prog.wp_get_bind ?_
  rw [if_neg nofun, if_neg (by rw [hvalid.codec]; exact fun hne => hne rfl), if_neg (by rw [Segment.footer, Segment.writer, hcount]; exact fun hne => hne rfl),
    if_neg (by rw [hnew]; exact nofun)]
  refine Prog.wp_step_bind (fun _ => .inl rfl) (.inl rfl) (Prog.wp_ofExcept_ok hvalid.recomputeRoot ?_)
  refine Prog.wp_ofExcept_bind (fun blocks _ => ?_) (fun e he => ⟨.blocks he, rfl⟩)
  rw [if_neg (fun hne => hne rfl)]
  refine Prog.wp_step_bind (fun _ => .inl rfl) (.inl rfl) (Prog.wp_step_bind (fun _ => .inl rfl) (.inl rfl) ?_)
  refine Prog.wp_step_bind (fun _ => .inr rfl) (.inr rfl) ?_
  change Prog.wp _ _ (s.published id generation g)
  refine Prog.wp_look_ok (by rw [hat']; rfl) (fun _ => .inr rfl) (.inr rfl) ?_
  refine Prog.wp_look_ok (by rw [hat']) (fun _ => .inr rfl) (.inr rfl) ?_
  refine Prog.wp_look_ok (if_pos hthere) (fun _ => .inr rfl) (.inr rfl) ?_
  exact Prog.wp_pure ⟨⟨hvalid.segmentId, rfl, rfl, rfl⟩, rfl⟩

/-! ## Packing the queue -/

/-- A packing touches one segment only. -/
structure PacksOnly (id : Nat) (s s' : State) : Prop where
  files : ∀ e ∈ s'.disk.packed, e ∈ s.disk.packed ∨ e.1.1 = id
  segment : ∀ i, i ≠ id → s'.manifest.segment i = s.manifest.segment i

theorem PacksOnly.packable {id i : Nat} {s s' : State} (h : PacksOnly id s s') (hi : i ≠ id) (hs : Packable s i) :
    Packable s' i := by
  refine ⟨fun e he heq => ?_, fun desc hdesc => hs.generations desc (by rw [← h.segment i hi]; exact hdesc)⟩
  rcases h.files e he with he | heid
  · exact hs.files e he heq
  · exact absurd (heq.symm.trans heid) hi

theorem segment_modifySegment {m : DatabaseManifest} {id i : Nat} {desc : SegmentDescriptorV2} (hi : i ≠ id)
    (hid : desc.segmentId = id) : (m.modifySegment id (fun _ => desc)).segment i = m.segment i := by
  show List.find? _ (modifyFirst _ _ m.segmentsV2) = List.find? _ m.segmentsV2
  induction m.segmentsV2 with
  | nil => rfl
  | cons x xs ih =>
    rw [modifyFirst]
    split
    · rename_i hx
      rw [List.find?_cons_of_neg (by rw [hid, beq_iff_eq]; exact Ne.symm hi),
        List.find?_cons_of_neg (by rw [beq_iff_eq.1 hx, beq_iff_eq]; exact Ne.symm hi)]
    · rw [List.find?_cons, List.find?_cons, ih]

/-- What a packing does to a log that is steady. -/
def packPost (env : Env) (ns : Bytes) (segs : List Segment) (g : Segment) (low : Nat) (profile : PackingProfile) (s : State)
    {α : Type} (ok : State → Prop) : Post Site State HeraclitusError α where
  ok _ s' := Steady env ns segs g low s' ∧ ok s'
  refused e s' := PackRefusal env profile e ∧ Steady env ns segs g low s' ∧ (InSync s → InSync s')
  failed _ _ s' := Steady env ns segs g low s'
  died s' := ∃ m, Steady env ns segs g low { s' with manifest := m }

/-- **One turn**: the segment is packed, published and recorded. -/
theorem Steady.wp_packOne (h : Steady env ns segs g low s) {id : Nat} {g' : Segment} (hg : segs[id]? = some g')
    (hpackable : Packable s id) (profile : PackingProfile) : (packOne env profile id).wp
      (packPost env ns segs g low profile s (fun s' => InSync s' ∧ PacksOnly id s s')) s := by
  obtain ⟨desc, hsegment, hdesc⟩ := h.catalogue.segment h.wreck.chain hg
  obtain ⟨hvalid, hne⟩ := h.wreck.chain.getElem? hg
  have hid : desc.segmentId = id := hdesc.segmentId.trans hvalid.segmentId
  have hdied : ∀ {s' : State}, Steady env ns segs g low s' → ∃ m, Steady env ns segs g low { s' with manifest := m } :=
    fun {s'} hs' => ⟨s'.manifest, hs'⟩
  -- the RAW generation is the source
  obtain ⟨source, hsource, hlocation⟩ : ∃ source, desc.generations.find? (fun g => g.layout == .raw) = some source ∧
      source.location = rawLocation id := by
    obtain ⟨x, hx, -⟩ := hdesc.raw
    have hmem := List.mem_of_find?_eq_some hx
    have hzero : x.generation = 0 := by simpa using List.find?_some hx
    have hlayout : x.layout = .raw := by
      rcases (hdesc.serves x hmem).location with hloc | hloc
      · exact hloc.2.1
      · exact absurd hzero hloc.1
    obtain ⟨source, hsource⟩ := Option.isSome_iff_exists.1
      (List.find?_isSome.2 ⟨x, hmem, beq_iff_eq.2 hlayout⟩ : (desc.generations.find? (fun g => g.layout == .raw)).isSome)
    have hraw : source.layout = .raw := by simpa using List.find?_some hsource
    refine ⟨source, hsource, ?_⟩
    rcases (hdesc.serves source (List.mem_of_find?_eq_some hsource)).location with hloc | hloc
    · rw [hloc.2.2, hvalid.segmentId]
    · rw [hraw] at hloc
      cases hloc.2.1
  unfold packOne
  refine Prog.wp_get_bind ?_
  rw [hsegment]
  dsimp only
  rw [hsource]
  dsimp only
  rw [hlocation]
  refine Prog.wp_bind ((wp_nextPhysicalGeneration h.wreck.discover_ok hpackable hsegment hid).mono ?_ (fun _ _ hf => hf.elim)
    (fun _ _ s' hs' => by cases hs'; exact h) (fun s' hs' => by cases hs'; exact hdied h))
  rintro generation s ⟨hfresh, rfl⟩
  have hpublished := h.published hvalid.id_lt hfresh.lt g'
  refine Prog.wp_bind ((wp_packSegment h.wreck hg hfresh profile source.generation).mono ?_ ?_ ?_ ?_)
  rotate_left
  · rintro e s' ⟨he, rfl⟩
    exact ⟨he, h, fun hs => hs⟩
  · rintro - - s' (rfl | rfl)
    · exact h
    · exact hpublished
  · rintro s' (rfl | rfl)
    · exact hdied h
    · exact hdied hpublished
  rintro receipt s' ⟨hreceipt, rfl⟩
  -- it is recorded
  refine Prog.wp_eval_bind rfl ?_
  have hserves := fun nowHlc => h.wreck.serves_published hvalid hfresh
    (x := receipt.generation (packedLocation id generation) nowHlc) hreceipt.targetGeneration rfl rfl
    hreceipt.targetPhysicalDigest
  have hnew : ∀ x ∈ desc.generations, x.generation ≠ receipt.targetGeneration := by
    rw [hreceipt.targetGeneration]
    exact hfresh.generations
  have hrecord := fun nowHlc => hpublished.catalogue.recordPack hnew h.wreck.chain hg hsegment
    (hdesc.mono h.wreck.extends_published) (hserves nowHlc) hreceipt.segmentId hreceipt.logicalRoot
  refine Prog.wp_ofExcept_ok (hrecord _).1 (Prog.wp_modify_bind ?_)
  change Prog.wp _ _ ({ State.ticked env (s.published id generation g') with manifest := _ } : State)
  generalize ht : ({ State.ticked env (s.published id generation g') with manifest := _ } : State) = t
  have hbefore : Steady env ns segs g low (State.ticked env (s.published id generation g')) :=
    hpublished.congr rfl rfl rfl rfl
  have hrecorded : Steady env ns segs g low t := by
    rw [← ht]
    exact hbefore.with_manifest (hrecord (s.clock.now (env.wall s.ticks)).1).2
  have hrestore : ∀ {s' : State}, Committing t s' → Steady env ns segs g low { s' with manifest := s.manifest } :=
    fun {s'} hs' => by
      refine (hrecorded.committing hs').with_manifest ?_
      have hcatalogue : Catalogued env t.disk ns segs s.manifest := by
        rw [← ht]
        exact h.catalogue.mono h.wreck.extends_published
      refine hcatalogue.mono ?_
      cases hs' <;> exact Disk.extends_of_eq rfl rfl
  refine Prog.wp_bind (Prog.wp_onError ((wp_commit t).mono ?_ ?_ (fun _ _ _ hs' => hrestore hs'.2)
    (fun s' hs' => hdied (hrecorded.committing hs'))))
  · rintro - s' ⟨rfl, -⟩
    obtain ⟨hsteady, hsync⟩ := hrecorded.committed
    refine Prog.wp_pure ⟨hsteady, hsync, ⟨fun e he => ?_, fun i hi => ?_⟩⟩
    · rw [← ht] at he
      rcases List.mem_append.1 he with he | he
      · exact .inl he
      · exact .inr (congrArg (fun e => e.1.1) (List.mem_singleton.1 he))
    · rw [← ht]
      exact segment_modifySegment hi hid
  · rintro e s' ⟨rfl, hencode⟩
    refine ⟨.size hencode, hrestore .stamped, fun hsync => ?_⟩
    rw [← ht]
    exact hsync

/-- **The queue**, one segment after another. -/
theorem Steady.wp_packAll (profile : PackingProfile) : ∀ {ids : List Nat} {s : State}, Steady env ns segs g low s →
    ids.Nodup → (∀ id ∈ ids, id < segs.length ∧ Packable s id) → (packAll env profile ids).wp
      (packPost env ns segs g low profile s (fun s' => InSync s → InSync s')) s
  | [], s, h, _, _ => Prog.wp_pure ⟨h, fun hs => hs⟩
  | id :: ids, s, h, hnodup, hids => by
    obtain ⟨hnotin, hnodup⟩ := List.nodup_cons.1 hnodup
    obtain ⟨hlt, hpackable⟩ := hids id List.mem_cons_self
    refine Prog.wp_bind ((h.wp_packOne (List.getElem?_eq_getElem hlt) hpackable profile).mono ?_ (fun _ _ hr => hr)
      (fun _ _ _ hf => hf) (fun _ hd => hd))
    rintro receipt t ⟨hsteady, hsync, hpacks⟩
    have hrest : ∀ i ∈ ids, i < segs.length ∧ Packable t i := fun i hi => by
      obtain ⟨hi', hpackable'⟩ := hids i (List.mem_cons_of_mem _ hi)
      exact ⟨hi', hpacks.packable (fun heq => hnotin (heq ▸ hi)) hpackable'⟩
    refine Prog.wp_bind ((hsteady.wp_packAll profile hnodup hrest).mono ?_ ?_ (fun _ _ _ hf => hf) (fun _ hd => hd))
    · rintro receipts u ⟨hsteady', hsync'⟩
      exact Prog.wp_pure ⟨hsteady', fun _ => hsync' hsync⟩
    · rintro e u ⟨he, hsteady', hsync'⟩
      exact ⟨he, hsteady', fun _ => hsync' hsync⟩

theorem Steady.mem_packingQueue (h : Steady env ns segs g low s) : s.manifest.packingQueue.Nodup ∧
    ∀ id ∈ s.manifest.packingQueue, id < segs.length := by
  have hsublist : s.manifest.packingQueue.Sublist (List.range' 0 segs.length) := by
    rw [← map_segmentId_described h.wreck.chain h.catalogue.described]
    exact List.filter_sublist.map _
  refine ⟨hsublist.nodup List.nodup_range', fun id hid => ?_⟩
  have hmem := List.mem_range'_1.1 (hsublist.subset hid)
  omega

variable {hist : List RawRecord} {synced : Nat} {sync : Prop}

/-- **Packing keeps the history.**  A step that fails may leave a manifest on the disk that the memory does not have. -/
theorem Alive.wp_packPending (h : Alive env ns hist synced sync s) (hpackable : ∀ id ∈ s.manifest.packingQueue, Packable s id)
    (profile : PackingProfile) : (packPending env profile).wp ⟨fun _ s' => Alive env ns hist synced sync s',
      fun e s' => PackRefusal env profile e ∧ Alive env ns hist synced sync s',
      fun _ _ s' => Alive env ns hist synced False s', fun s' => ∀ fits, Dies env ns hist synced fits s'.disk⟩ s := by
  obtain ⟨segs, g, low, hsteady, rfl, hsafe, hsync⟩ := h
  obtain ⟨hnodup, hlt⟩ := hsteady.mem_packingQueue
  unfold packPending
  refine Prog.wp_get_bind ((hsteady.wp_packAll profile hnodup (fun id hid => ⟨hlt id hid, hpackable id hid⟩)).mono ?_ ?_ ?_ ?_)
  · rintro - s' ⟨hsteady', hsync'⟩
    exact ⟨segs, g, low, hsteady', rfl, hsafe, fun hs => hsync' (hsync hs)⟩
  · rintro e s' ⟨he, hsteady', hsync'⟩
    exact ⟨he, segs, g, low, hsteady', rfl, hsafe, fun hs => hsync' (hsync hs)⟩
  · intro _ _ s' hsteady'
    exact ⟨segs, g, low, hsteady', rfl, hsafe, False.elim⟩
  · rintro s' ⟨m, hsteady'⟩ fits
    exact ⟨segs, segs.length, _, hsteady'.leaves hsafe fits⟩

end V6
end Heraclitus
