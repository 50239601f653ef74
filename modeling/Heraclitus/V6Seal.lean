import Heraclitus.V6Steady
/-!
# V6Seal — sealing the active segment

The active segment leaves the state before its footer is written, so that every failing step leaves the log without one.
What a crash leaves is, at every step, a directory of the same history.
-/
namespace Heraclitus
namespace V6

variable {env : Env} {ns : Bytes} {segs : List Segment} {g : Segment} {low : Nat} {s t : State}

/-- The steps that `seal_active_locked` takes. -/
def Site.inSeal : Site → Bool
  | .footer | .reconcile | .commit | .create => true
  | _ => false

variable (env) in
/-- What is left is a directory of the history. -/
def Dies (ns : Bytes) (hist : List RawRecord) (synced : Nat) (fits : Prop) (d : Disk) : Prop :=
  ∃ segs k rest, Leaves env ns hist synced fits d segs k rest

/-! ## A new active file -/

/-- The segment that begins behind a history. -/
theorem valid_nextHeader (hns : t.manifest.storageNamespaceId = ns) (hlen : ns.length = 16) {id : Nat} (hid : id < 2 ^ 64)
    (hlsn : t.nextLsn < 2 ^ 64) : Segment.Valid env ⟨t.nextHeader env id, []⟩ ns id t.nextLsn := by
  have hstamp : (t.clock.now (env.wall t.ticks)).1 < 2 ^ 64 := by
    have := Hlc.now_le t.clock (env.wall t.ticks)
    unfold u64Max at this
    omega
  have hepoch : satAdd64 t.manifest.manifestGeneration 1 < 2 ^ 64 :=
    Nat.lt_of_le_of_lt (Nat.min_le_right _ _) (by decide)
  exact ⟨⟨⟨(by decide : canonicalCodecV1 < 2 ^ 8), (by decide : flagContiguousLsn < 2 ^ 16), hid, hstamp, hlsn, hepoch, by rw [State.nextHeader, SegmentInit.header, hns]; exact hlen⟩,
    rfl⟩, rfl, rfl, rfl, hns, trivial, nofun, hlsn⟩

/-- The active file while its header is written. -/
theorem active_creating (hvalid : Segment.Valid env ⟨t.nextHeader env segs.length, []⟩ ns segs.length (recordsOf segs).length)
    (hnil : t.disk.active.entries = []) (part : Nat) :
    Rest.On env ns segs ⟨⟨t.nextHeader env segs.length, []⟩, 0, min part fileHeaderLen⟩
      (t.creating env segs.length part).disk := by
  have hlength : (Segment.bytes env ⟨t.nextHeader env segs.length, []⟩).length = fileHeaderLen + 128 := hvalid.length_bytes
  have hheader := hvalid.length_header
  refine ⟨hvalid, ⟨_, entries_insert_active hnil _ _, ?_, Nat.le_refl _, Nat.zero_le _⟩, ?_, fun hfull => ?_⟩
  · show (t.nextHeader env segs.length).encode.take part = _
    rw [Segment.bytes, List.take_append_of_le_length (by rw [hheader]; exact Nat.min_le_right _ _), ← hheader,
      ← List.take_eq_take_min]
  · exact Nat.le_trans (Nat.min_le_right _ _) (by rw [hlength]; exact Nat.le_add_right _ _)
  · have hle : (Segment.bytes env ⟨t.nextHeader env segs.length, []⟩).length ≤ fileHeaderLen :=
      hfull ▸ Nat.min_le_right _ _
    omega

/-- **The next active file**, behind a history that is sealed and catalogued. -/
theorem wp_create (hwreck : Wreck env ns segs segs.length none t.disk) (hcatalogued : Catalogued env t.disk ns segs t.manifest)
    (hhead : t.nextLsn = (recordsOf segs).length) (hbound : (recordsOf segs).length < 2 ^ 64) {synced : Nat}
    (hsynced : synced ≤ (recordsOf segs).length) (fits : Prop) :
    (createActive env segs.length).wp ⟨fun _ s' => ∃ g, g.records = [] ∧ Steady env ns segs g 0 s' ∧
        s'.disk.descriptors = t.disk.descriptors ∧ s'.manifest = t.manifest,
      fun _ _ => False, fun k _ _ => k = .create, fun s' => Dies env ns (recordsOf segs) synced fits s'.disk⟩ t := by
  have hnil : t.disk.active.entries = [] := hwreck.active
  have hvalid : Segment.Valid env ⟨t.nextHeader env segs.length, []⟩ ns segs.length (recordsOf segs).length := by
    have hvalid : Segment.Valid env ⟨t.nextHeader env segs.length, []⟩ ns segs.length t.nextLsn :=
      valid_nextHeader hcatalogued.namespaceId hcatalogued.length_ns hwreck.chain.length_lt (by rw [hhead]; exact hbound)
    rwa [hhead] at hvalid
  have hcreating : ∀ part, Wreck env ns segs segs.length
      (some ⟨⟨t.nextHeader env segs.length, []⟩, 0, min part fileHeaderLen⟩) (t.creating env segs.length part).disk :=
    fun part => hwreck.with_active rfl rfl rfl rfl (active_creating hvalid hnil part)
  refine (wp_createActive env (contains_active_of_nil hnil _)).mono ?_ (fun _ _ h => h) (fun _ _ _ h => h.1) ?_
  · rintro - s' rfl
    have hwhole : (t.creating env segs.length fileHeaderLen).disk = (t.created env segs.length).disk := by
      have htake : (t.nextHeader env segs.length).encode.take fileHeaderLen = (t.nextHeader env segs.length).encode :=
        List.take_of_length_le (Nat.le_of_eq hvalid.length_header)
      show Disk.mk _ _ _ _ _ = Disk.mk _ _ _ _ _
      rw [htake]
    refine ⟨⟨t.nextHeader env segs.length, []⟩, rfl, ⟨?_, ?_, rfl, hhead⟩, rfl, rfl⟩
    · have hw := hcreating fileHeaderLen
      rw [hwhole, Nat.min_self] at hw
      exact hw
    · exact hcatalogued.mono (Disk.extends_of_eq rfl rfl)
  · rintro s' (_ | part)
    · refine ⟨segs, segs.length, none, hwreck.with_active rfl rfl rfl rfl hnil, List.append_nil _, hsynced, fun _ hne => ?_⟩
      rw [uncatalogued, List.drop_length] at hne
      exact absurd rfl hne
    · refine ⟨segs, segs.length, _, hcreating part, List.append_nil _, .inl hsynced, fun _ hne => ?_⟩
      have hlength : (Segment.bytes env ⟨t.nextHeader env segs.length, []⟩).length = fileHeaderLen + 128 :=
        hvalid.length_bytes
      have hcomplete : Rest.complete env ⟨⟨t.nextHeader env segs.length, []⟩, 0, min part fileHeaderLen⟩ = false := by
        refine beq_false_of_ne (fun heq => ?_)
        have hle : (Segment.bytes env ⟨t.nextHeader env segs.length, []⟩).length ≤ fileHeaderLen :=
          heq ▸ Nat.min_le_right _ _
        omega
      rw [uncatalogued, List.drop_length, Option.filter_some, hcomplete] at hne
      exact absurd rfl hne

/-! ## The final name -/

/-- The files of the old history stay. -/
theorem Wreck.extends_rename {d : Disk} {k : Nat} {rest : Option Rest} (h : Wreck env ns segs k rest d) :
    d.Extends (d.rename segs.length) := by
  have hraw : ∀ j, (d.rename segs.length).raw.get? j
      = if j = segs.length then (d.active.get? segs.length).or (d.raw.get? segs.length) else d.raw.get? j := fun j => by
    show (d.raw.alter segs.length _).get? j = _
    rw [SortedMap.get?_alter]
  refine Disk.extends_of_new (fun e he => ?_) (fun e he => ?_) (List.append_nil _).symm
  · rw [hraw, if_neg (Nat.ne_of_lt (h.raw_lt e he))]
    exact SortedMap.get?_eq_some.2 he
  · have hsome := SortedMap.get?_eq_some.2 (show (e.1, e.2) ∈ (d.rename segs.length).raw.entries from he)
    rw [hraw] at hsome
    split at hsome
    · rename_i heq
      rw [heq]
      exact h.chain.length_lt
    · exact h.raw_lt_pow (e.1, e.2) (SortedMap.get?_eq_some.1 hsome)

/-- **A complete active file becomes a sealed segment** by its new name. -/
theorem Wreck.rename {d : Disk} {k : Nat} {r : Rest} (h : Wreck env ns segs k (some r) d) (hk : k ≤ segs.length)
    (hfull : r.size = (r.segment.bytes env).length) : Wreck env ns (segs ++ [r.segment]) k none (d.rename segs.length) := by
  have hon : r.On env ns segs d := h.active
  obtain ⟨f, hentries, hdata, -⟩ := hon.file
  have hget : d.active.get? segs.length = some f := SortedMap.get?_eq_some.2 (by rw [hentries]; exact List.mem_cons_self)
  have hraw : ∀ j, (d.rename segs.length).raw.get? j = if j = segs.length then some f else d.raw.get? j := fun j => by
    show (d.raw.alter segs.length _).get? j = _
    rw [SortedMap.get?_alter, hget, Option.some_or]
  have hchain := h.chain.concat hon.valid (hon.complete hfull)
  refine ⟨hchain, fun j => ?_, h.names, ?_, entries_erase_active hentries⟩
  · rw [hraw]
    split
    · rename_i heq
      rw [heq, List.getElem?_concat_length, Option.map_some, Option.map_some, hdata, hfull, List.take_length]
    · rename_i hne
      rw [h.raw j]
      by_cases hlt : j < segs.length
      · rw [List.getElem?_append_left hlt]
      · rw [List.getElem?_eq_none (Nat.not_lt.1 hlt), List.getElem?_eq_none (by simp; omega)]
  · rw [List.take_append_of_le_length hk]
    exact h.loaded.mono rfl h.extends_rename

/-! ## Sealing -/

theorem Catalogued.congr {d : Disk} {m m' : DatabaseManifest} (h : Catalogued env d ns segs m)
    (hns : m'.storageNamespaceId = m.storageNamespaceId) (hsegments : m'.segmentsV2 = m.segmentsV2)
    (hwatermark : m'.cumulativeWatermark = m.cumulativeWatermark) : Catalogued env d ns segs m' :=
  ⟨hns.trans h.namespaceId, h.length_ns, hsegments ▸ h.described, hwatermark.trans h.watermark⟩

/-- Records that no crash takes are records. -/
theorem Safe.le {n : Nat} {rest : Option Rest} (h : Safe n segs rest) : n ≤ (recordsOf segs ++ restRecords rest).length := by
  rw [List.length_append]
  cases rest with
  | none => exact Nat.le_trans h (Nat.le_add_right _ _)
  | some r =>
    rcases h with h | ⟨h, -⟩
    · exact Nat.le_trans h (Nat.le_add_right _ _)
    · exact Nat.sub_le_iff_le_add'.1 h

section Sealing

variable (h : Steady env ns segs g low s)
include h

/-- The active file while its footer is written. -/
theorem Steady.active_footer (hne : g.records ≠ []) (part : Nat) :
    Rest.On env ns segs ⟨g, low, g.bodyLen + min part footerLen⟩
      (s.disk.modifyActive segs.length (.append ((g.footer env).encode.take part))) := by
  obtain ⟨f, hentries, hdata, hlow, hdurable⟩ := h.file
  refine ⟨h.valid, ⟨_, entries_modifyActive hentries _, ?_, hlow, Nat.le_trans hdurable (Nat.le_add_right _ _)⟩, ?_,
    fun _ => hne⟩
  · show f.data ++ (g.footer env).encode.take part = _
    rw [hdata, ← h.valid.take_footer, ← (g.footer env).length_encode, ← List.take_eq_take_min]
  · show g.bodyLen + min part footerLen ≤ _
    rw [h.valid.length_bytes]
    omega

/-- What a crash leaves of a segment that is being sealed. -/
theorem Steady.leaves_footer {synced : Nat} (hsafe : Safe synced segs (some ⟨g, low, g.bodyLen⟩)) (hne : g.records ≠ [])
    {size : Nat} {d : Disk} (hwreck : Wreck env ns segs segs.length (some ⟨g, low, size⟩) d)
    (hload : d.load = s.disk.load) : Leaves env ns (recordsOf segs ++ g.records) synced (InSync s ∧ s.fits env = true) d
      segs segs.length (some ⟨g, low, size⟩) := by
  refine ⟨hwreck, rfl, hsafe, fun ⟨hsync, hfits⟩ hsome => ?_⟩
  have hsync : d.descriptors = s.manifest.segmentsV2 := by
    rw [Disk.descriptors, hload]
    exact hsync
  unfold uncatalogued at hsome ⊢
  rw [List.drop_length, List.nil_append] at hsome ⊢
  cases hcomplete : Rest.complete env ⟨g, low, size⟩ with
  | false =>
    rw [Option.filter_some, hcomplete] at hsome
    exact absurd rfl hsome
  | true =>
    rw [Option.filter_some, hcomplete]
    exact h.fits_sealed hfits hne _ (congrArg (· ++ [rawDescriptor env g]) hsync)

/-- What a crash leaves of a segment that is sealed and not yet catalogued. -/
theorem Steady.leaves_renamed {synced : Nat} (hsafe : Safe synced segs (some ⟨g, low, g.bodyLen⟩)) (hne : g.records ≠ [])
    {d : Disk} (hwreck : Wreck env ns (segs ++ [g]) segs.length none d) (hload : d.load = s.disk.load) :
    Leaves env ns (recordsOf segs ++ g.records) synced (InSync s ∧ s.fits env = true) d (segs ++ [g]) segs.length none := by
  have hrecords : recordsOf (segs ++ [g]) = recordsOf segs ++ g.records := by
    rw [recordsOf_append, recordsOf_cons, recordsOf_nil, List.append_nil]
  refine ⟨hwreck, by rw [hrecords]; exact List.append_nil _, ?_, fun ⟨hsync, hfits⟩ _ => ?_⟩
  · show synced ≤ (recordsOf (segs ++ [g])).length
    rw [hrecords]
    exact hsafe.le
  · have hsync : d.descriptors = s.manifest.segmentsV2 := by
      rw [Disk.descriptors, hload]
      exact hsync
    have huncatalogued : uncatalogued env (segs ++ [g]) segs.length none = [g] := by
      rw [uncatalogued, List.drop_left]
      rfl
    rw [huncatalogued]
    exact h.fits_sealed hfits hne _ (congrArg (· ++ [rawDescriptor env g]) hsync)

omit h in
/-- What a crash leaves once the manifest knows the sealed segment. -/
theorem leaves_catalogued {synced : Nat} (hsafe : Safe synced segs (some ⟨g, low, g.bodyLen⟩)) {fits : Prop} {d : Disk}
    (hwreck : Wreck env ns (segs ++ [g]) (segs ++ [g]).length none d) :
    Leaves env ns (recordsOf segs ++ g.records) synced fits d (segs ++ [g]) (segs ++ [g]).length none := by
  have hrecords : recordsOf (segs ++ [g]) = recordsOf segs ++ g.records := by
    rw [recordsOf_append, recordsOf_cons, recordsOf_nil, List.append_nil]
  refine ⟨hwreck, by rw [hrecords]; exact List.append_nil _, ?_, fun _ hsome => ?_⟩
  · show synced ≤ (recordsOf (segs ++ [g])).length
    rw [hrecords]
    exact hsafe.le
  · rw [uncatalogued, List.drop_length] at hsome
    exact absurd rfl hsome

/-- Sealing a segment without records begins it anew. -/
theorem Steady.wp_seal_empty (hnil : g.records = []) {synced : Nat} (hsafe : Safe synced segs (some ⟨g, low, g.bodyLen⟩))
    (fits : Prop) : (sealActiveLocked env).wp ⟨fun _ s' => ∃ g', g'.records = [] ∧ Steady env ns segs g' 0 s' ∧
        s'.disk.descriptors = s.disk.descriptors ∧ s'.manifest = s.manifest,
      fun _ _ => False, fun k _ _ => k.inSeal = true,
      fun s' => Dies env ns (recordsOf segs ++ g.records) synced fits s'.disk⟩ s := by
  obtain ⟨f, hentries, -⟩ := h.file
  have hleaves := h.leaves hsafe fits
  have hsynced : synced ≤ (recordsOf segs).length := by
    have hle := hsafe.le
    rwa [show restRecords (some ⟨g, low, g.bodyLen⟩) = [] from hnil, List.append_nil] at hle
  have hwreck : Wreck env ns segs segs.length none { s.disk with active := s.disk.active.erase segs.length } :=
    h.wreck.with_active rfl rfl rfl rfl (entries_erase_active hentries)
  unfold sealActiveLocked
  refine Prog.wp_eval_bind (by rw [h.active]) ?_
  dsimp only
  rw [if_pos (by rw [Segment.writer_recordCount, hnil]; rfl)]
  refine Prog.wp_step_bind (fun _ => rfl) ⟨_, _, _, hleaves⟩ ?_
  have hcreate := wp_create (t := State.mapDisk (fun d => { d with active := d.active.erase segs.length })
    { s with active := none }) hwreck (h.catalogue.mono (Disk.extends_of_eq rfl rfl))
    (h.head.trans (by rw [hnil]; rfl)) (Nat.lt_of_le_of_lt (Nat.le_add_right _ _) h.valid.bound) hsynced fits
  refine hcreate.mono (fun _ _ hok => hok) (fun _ _ hf => hf) (fun k _ _ hk => by rw [hk]; rfl) (fun s' hs' => ?_)
  rwa [hnil, List.append_nil]

/-- The parts of a commit that registers the sealed segment leave a directory that knows it, or one that does not. -/
theorem Steady.leaves_committing {synced : Nat} (hsafe : Safe synced segs (some ⟨g, low, g.bodyLen⟩)) (hne : g.records ≠ [])
    {t : State} (hwreck : Wreck env ns (segs ++ [g]) segs.length none t.disk) (hload : t.disk.load = s.disk.load)
    (hcatalogued : Catalogued env t.disk ns (segs ++ [g]) t.manifest) {s' : State} (hs' : Committing t s') :
    Dies env ns (recordsOf segs ++ g.records) synced (InSync s ∧ s.fits env = true) s'.disk := by
  have hbefore := h.leaves_renamed hsafe hne hwreck hload
  have hstamped : Catalogued env t.disk ns (segs ++ [g]) t.stamped.manifest := hcatalogued.congr rfl rfl rfl
  have hdecodable := hstamped.decodable hwreck.chain
  have hknown : ∀ {d : Disk}, d.raw = t.disk.raw → d.packed = t.disk.packed → d.active = t.disk.active →
      d.load = some t.stamped.manifest → Wreck env ns (segs ++ [g]) (segs ++ [g]).length none d :=
    fun {d} hraw hpacked hactive hd => by
      refine ⟨hwreck.chain, by rw [hraw]; exact hwreck.raw, by rw [hpacked]; exact hwreck.names, ?_, ?_⟩
      · rw [List.take_length]
        exact .inr ⟨_, hd, hstamped.mono (Disk.extends_of_eq hraw hpacked)⟩
      · show d.active.entries = []
        rw [hactive]
        exact hwreck.active
  cases hs' with
  | start => exact ⟨_, _, _, hbefore⟩
  | stamped => exact ⟨_, _, _, hbefore⟩
  | written =>
    rcases load_insert (d := t.disk) hdecodable with hold | hnew
    · refine ⟨_, _, _, h.leaves_renamed hsafe hne ?_ (hold.trans hload)⟩
      exact ⟨hwreck.chain, hwreck.raw, hwreck.names, hwreck.loaded.mono hold (Disk.extends_of_eq rfl rfl), hwreck.active⟩
    · exact ⟨_, _, _, leaves_catalogued hsafe (hknown rfl rfl rfl hnew)⟩
  | committed => exact ⟨_, _, _, leaves_catalogued hsafe (hknown rfl rfl rfl (load_current hdecodable _ _))⟩

/-- The file under its final name is registered. -/
theorem Steady.wp_publishSealed (hne : g.records ≠ []) {synced : Nat} (hsafe : Safe synced segs (some ⟨g, low, g.bodyLen⟩)) {t : State}
    (hwreck : Wreck env ns (segs ++ [g]) segs.length none t.disk) (hextends : s.disk.Extends t.disk)
    (hload : t.disk.load = s.disk.load) (hmanifest : t.manifest = s.manifest) (hhead : t.nextLsn = s.nextLsn) :
    (publishSealed env segs.length (g.footer env).logicalRoot).wp
      ⟨fun _ s' => ∃ g', g'.records = [] ∧ Steady env ns (segs ++ [g]) g' 0 s' ∧ InSync s',
        fun _ _ => s.fits env = false, fun k _ _ => k.inSeal = true,
        fun s' => Dies env ns (recordsOf segs ++ g.records) synced (InSync s ∧ s.fits env = true) s'.disk⟩ t := by
  have hbefore := h.leaves_renamed hsafe hne hwreck hload
  have hrecords : recordsOf (segs ++ [g]) = recordsOf segs ++ g.records := by
    rw [recordsOf_append, recordsOf_cons, recordsOf_nil, List.append_nil]
  have hlength : (segs ++ [g]).length = segs.length + 1 := by rw [List.length_append, List.length_singleton]
  have hcatalogue : Catalogued env t.disk ns ((segs ++ [g]).take segs.length) t.manifest := by
    rw [List.take_left, hmanifest]
    exact h.catalogue.mono hextends
  unfold publishSealed
  refine Prog.wp_get_bind (Prog.wp_bind ?_)
  refine (wp_reconcileRaw hwreck (List.getElem?_concat_length ..) hcatalogue (Nat.le_refl _)).mono ?_
    (fun _ _ hf => hf.elim) (fun k _ _ hk => by rw [hk.1]; rfl) (fun s' hs' => by cases hs'; exact ⟨_, _, _, hbefore⟩)
  rintro changed t' ⟨rfl, hcatalogued, rfl⟩
  rw [if_pos rfl] at hcatalogued ⊢
  have hcatalogued : Catalogued env t.disk ns (segs ++ [g]) (t.registered env g).manifest := by
    rwa [Nat.max_eq_right (Nat.le_succ _), List.take_of_length_le (Nat.le_of_eq hlength)] at hcatalogued
  obtain ⟨desc, hsegment, hdesc⟩ := hcatalogued.segment hwreck.chain (List.getElem?_concat_length ..)
  have hroot : ((t.registered env g).manifest.segment segs.length).map (·.logicalRoot) = some (g.footer env).logicalRoot := by
    rw [hsegment, Option.map_some, hdesc.logicalRoot]
  refine Prog.wp_get_bind ?_
  rw [hroot, if_neg (by simp)]
  refine Prog.wp_bind (Prog.wp_onError ((wp_commit _).mono ?_ ?_ (fun k _ _ hk => by rw [hk.1]; rfl)
    (fun s' hs' => h.leaves_committing (t := t.registered env g) hsafe hne hwreck hload hcatalogued hs')))
  · rintro - u ⟨rfl, -⟩
    have hstamped : Catalogued env t.disk ns (segs ++ [g]) (t.registered env g).stamped.manifest := hcatalogued.congr rfl rfl rfl
    have hdecodable := hstamped.decodable hwreck.chain
    have hcurrent := load_current (d := t.disk) hdecodable t.disk.manifests t.disk.nextGeneration
    have hknown : Wreck env ns (segs ++ [g]) (segs ++ [g]).length none (t.registered env g).committed.disk := by
      refine ⟨hwreck.chain, hwreck.raw, hwreck.names, ?_, hwreck.active⟩
      rw [List.take_length]
      exact .inr ⟨_, hcurrent, hstamped.mono (Disk.extends_of_eq rfl rfl)⟩
    have hid : satAdd64 segs.length 1 = (segs ++ [g]).length := by
      have hlt := hwreck.chain.length_lt
      rw [hlength] at hlt ⊢
      exact Nat.min_eq_left (Nat.le_sub_one_of_lt hlt)
    have hlsn : (t.registered env g).committed.nextLsn = (recordsOf (segs ++ [g])).length := by
      rw [hrecords, List.length_append, ← h.head]
      exact hhead
    have hbound : (recordsOf (segs ++ [g])).length < 2 ^ 64 := by
      rw [hrecords, List.length_append]
      exact h.valid.bound
    rw [hid]
    have hsynced : synced ≤ (recordsOf (segs ++ [g])).length := by
      rw [hrecords]
      exact hsafe.le
    refine (wp_create hknown (hstamped.mono (Disk.extends_of_eq rfl rfl)) hlsn hbound hsynced
      (InSync s ∧ s.fits env = true)).mono ?_ (fun _ _ hf => hf.elim)
      (fun k _ _ hk => by rw [hk]; rfl) (fun s' hs' => by rwa [hrecords] at hs')
    rintro - s' ⟨g', hg', hsteady, hdescriptors, hmanifest'⟩
    refine ⟨g', hg', hsteady, ?_⟩
    rw [InSync, hdescriptors, hmanifest', Disk.descriptors, show (t.registered env g).committed.disk.load = _ from hcurrent]
    rfl
  · rintro e u ⟨-, hencode⟩
    refine Bool.eq_false_iff.2 (fun hfits => ?_)
    have hok := h.fits_sealed hfits hne (t.registered env g).manifest (by rw [← hmanifest]; rfl)
    cases hok.symm.trans hencode

/-- **Sealing a segment with records** publishes it and begins the next one. -/
theorem Steady.wp_seal_records (hne : g.records ≠ []) {synced : Nat} (hsafe : Safe synced segs (some ⟨g, low, g.bodyLen⟩)) :
    (sealActiveLocked env).wp ⟨fun _ s' => ∃ g', g'.records = [] ∧ Steady env ns (segs ++ [g]) g' 0 s' ∧ InSync s',
      fun _ _ => s.fits env = false, fun k _ _ => k.inSeal = true,
      fun s' => Dies env ns (recordsOf segs ++ g.records) synced (InSync s ∧ s.fits env = true) s'.disk⟩ s := by
  obtain ⟨f, hentries, hdata, hlow, hdurable⟩ := h.file
  have hfull : (g.footer env).encode.take footerLen = (g.footer env).encode :=
    List.take_of_length_le (Nat.le_of_eq (FooterV6.length_encode _))
  have hleaves := h.leaves hsafe (InSync s ∧ s.fits env = true)
  have htorn : ∀ part, Dies env ns (recordsOf segs ++ g.records) synced (InSync s ∧ s.fits env = true)
      (s.disk.modifyActive segs.length (.append ((g.footer env).encode.take part))) := fun part =>
    ⟨_, _, _, h.leaves_footer hsafe hne (h.wreck.with_active rfl rfl rfl rfl (h.active_footer hne part)) rfl⟩
  have hwhole := h.active_footer hne footerLen
  rw [hfull, Nat.min_self, ← h.valid.length_bytes] at hwhole
  -- the file with its footer, before and after it is synced
  have hwritten : Wreck env ns segs segs.length (some ⟨g, low, (g.bytes env).length⟩)
      (s.disk.modifyActive segs.length (.append (g.footer env).encode)) := h.wreck.with_active rfl rfl rfl rfl hwhole
  have hsynced : Wreck env ns segs segs.length (some ⟨g, low, (g.bytes env).length⟩)
      ((s.disk.modifyActive segs.length (.append (g.footer env).encode)).modifyActive segs.length .sync) := by
    obtain ⟨f', hentries', hdata', hlow', hdurable'⟩ := hwhole.file
    have hlength : f'.data.length = (g.bytes env).length := by
      rw [hdata', List.take_length]
    refine hwritten.with_active rfl rfl rfl rfl
      ⟨hwhole.valid, ⟨_, entries_modifyActive hentries' _, hdata', ?_, Nat.le_of_eq hlength⟩, Nat.le_refl _, fun _ => hne⟩
    exact Nat.le_trans (Nat.le_trans hlow' hdurable') (Nat.le_of_eq hlength.symm)
  have hrenamed := hsynced.rename (Nat.le_refl _) rfl
  have hextends : s.disk.Extends (((s.disk.modifyActive segs.length (.append (g.footer env).encode)).modifyActive
      segs.length .sync).rename segs.length) := fun location file hfile =>
    hsynced.extends_rename location file (Disk.extends_of_eq (d := s.disk) rfl rfl location file hfile)
  unfold sealActiveLocked
  refine Prog.wp_eval_bind (by rw [h.active]) ?_
  dsimp only
  rw [if_neg (by rw [Segment.writer_recordCount]; exact fun h0 => hne (List.length_eq_zero_iff.1 h0))]
  refine Prog.wp_write_bind (fun _ => rfl) htorn ?_
  refine Prog.wp_step_bind (fun _ => rfl) ⟨_, _, _, h.leaves_footer hsafe hne hwritten rfl⟩ ?_
  refine Prog.wp_get_bind ?_
  change (if s.disk.raw.contains segs.length = true then _ else _ : Engine Unit).wp _ _
  rw [if_neg (by rw [h.wreck.raw_contains (Nat.le_refl _)]; exact nofun)]
  refine Prog.wp_step_bind (fun _ => rfl) ⟨_, _, _, h.leaves_footer hsafe hne hsynced rfl⟩ ?_
  exact h.wp_publishSealed hne hsafe hrenamed hextends rfl rfl rfl

end Sealing

end V6
end Heraclitus
