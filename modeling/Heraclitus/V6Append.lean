import Heraclitus.V6Seal
/-!
# V6Append — what the calls do to the history

`Alive` is the invariant of the calls in terms of the history.  An append adds one record, or none; a failing step leaves
the log alive unless it is one that leaves a part of a record, or a record that the state does not count.
-/
namespace Heraclitus
namespace V6

variable (env : Env)

/-- What the payload codec promises. -/
def Env.RoundTrips : Prop :=
  ∀ opaqueMeta e payload, env.encodePayload opaqueMeta e = .ok payload → env.decodePayload payload = .ok (opaqueMeta, e)

/-- **The log works and holds the history**, whose first `synced` records no crash takes. -/
def Alive (ns : Bytes) (hist : List RawRecord) (synced : Nat) (sync : Prop) (s : State) : Prop :=
  ∃ segs g low, Steady env ns segs g low s ∧ recordsOf segs ++ g.records = hist ∧
    Safe synced segs (some ⟨g, low, g.bodyLen⟩) ∧ (sync → InSync s)

variable {env} {ns : Bytes} {hist : List RawRecord} {synced : Nat} {sync : Prop} {s s' : State} {segs : List Segment}
  {g : Segment} {low : Nat}

/-! ## Frames -/

theorem sizes_take_le {rs : List RawRecord} {i j : Nat} (h : i ≤ j) : sizes (rs.take i) ≤ sizes (rs.take j) := by
  rw [← List.take_append_drop i (rs.take j), List.take_take, Nat.min_eq_left h, sizes_append]
  exact Nat.le_add_right _ _

theorem Safe.mono {n n' : Nat} {rest : Option Rest} (h : Safe n segs rest) (hn : n' ≤ n) : Safe n' segs rest := by
  cases rest with
  | none => exact Nat.le_trans hn h
  | some r =>
    rcases h with h | ⟨hle, hlow⟩
    · exact .inl (Nat.le_trans hn h)
    · have hsub : n' - (recordsOf segs).length ≤ n - (recordsOf segs).length := Nat.sub_le_sub_right hn _
      exact .inr ⟨Nat.le_trans hsub hle, Nat.le_trans (Nat.add_le_add_left (sizes_take_le hsub) _) hlow⟩

theorem Steady.congr (h : Steady env ns segs g low s) (hdisk : s'.disk = s.disk) (hmanifest : s'.manifest = s.manifest)
    (hactive : s'.active = s.active) (hhead : s'.nextLsn = s.nextLsn) : Steady env ns segs g low s' :=
  ⟨hdisk ▸ h.wreck, hdisk ▸ hmanifest ▸ h.catalogue, hactive.trans h.active, hhead.trans h.head⟩

theorem Alive.congr (h : Alive env ns hist synced sync s) (hdisk : s'.disk = s.disk) (hmanifest : s'.manifest = s.manifest)
    (hactive : s'.active = s.active) (hhead : s'.nextLsn = s.nextLsn) : Alive env ns hist synced sync s' := by
  obtain ⟨segs, g, low, hsteady, hhist, hsafe, hsync⟩ := h
  refine ⟨segs, g, low, hsteady.congr hdisk hmanifest hactive hhead, hhist, hsafe, fun h => ?_⟩
  rw [InSync, hdisk, hmanifest]
  exact hsync h

theorem Alive.mono {synced' : Nat} (h : Alive env ns hist synced sync s) (hle : synced' ≤ synced) :
    Alive env ns hist synced' sync s := by
  obtain ⟨segs, g, low, hsteady, hhist, hsafe, hsync⟩ := h
  exact ⟨segs, g, low, hsteady, hhist, hsafe.mono hle, hsync⟩

theorem Alive.synced_le (h : Alive env ns hist synced sync s) : synced ≤ hist.length := by
  obtain ⟨segs, g, low, -, rfl, hsafe, -⟩ := h
  exact hsafe.le

theorem Alive.head (h : Alive env ns hist synced sync s) : s.nextLsn = hist.length := by
  obtain ⟨segs, g, low, hsteady, rfl, -⟩ := h
  rw [hsteady.head, List.length_append]

theorem Dies.mono {fits fits' : Prop} {d : Disk} (h : Dies env ns hist synced fits d) (hfits : fits' → fits) :
    Dies env ns hist synced fits' d := by
  obtain ⟨segs, k, rest, hleaves⟩ := h
  exact ⟨segs, k, rest, hleaves.wreck, hleaves.hist, hleaves.safe, fun hf => hleaves.fitting (hfits hf)⟩

theorem Alive.dies (h : Alive env ns hist synced sync s) (fits : Prop) : Dies env ns hist synced fits s.disk := by
  obtain ⟨segs, g, low, hsteady, rfl, hsafe, -⟩ := h
  exact ⟨segs, segs.length, _, hsteady.leaves hsafe fits⟩

/-! ## Sealing -/

/-- **Sealing keeps the history**, and no crash takes any of it then. -/
theorem Alive.wp_seal (h : Alive env ns hist synced sync s) : (sealActiveLocked env).wp
    ⟨fun _ s' => Alive env ns hist hist.length sync s', fun _ _ => s.fits env = false, fun k _ _ => k.inSeal = true,
      fun s' => Dies env ns hist synced (sync ∧ s.fits env = true) s'.disk⟩ s := by
  obtain ⟨segs, g, low, hsteady, rfl, hsafe, hsync⟩ := h
  by_cases hnil : g.records = []
  · refine (hsteady.wp_seal_empty hnil hsafe (sync ∧ s.fits env = true)).mono ?_ (fun _ _ hf => hf.elim)
      (fun _ _ _ hk => hk) (fun _ hs' => hs')
    rintro - s' ⟨g', hg', hsteady', hdescriptors, hmanifest⟩
    refine ⟨segs, g', 0, hsteady', by rw [hg', hnil], .inl ?_, fun hs => ?_⟩
    · rw [hnil, List.append_nil]
    · rw [InSync, hdescriptors, hmanifest]
      exact hsync hs
  · refine (hsteady.wp_seal_records hnil hsafe).mono ?_ (fun _ _ hf => hf) (fun _ _ _ hk => hk)
      (fun _ hs' => hs'.mono (And.imp_left hsync))
    rintro - s' ⟨g', hg', hsteady', hsync'⟩
    have hrecords : recordsOf (segs ++ [g]) = recordsOf segs ++ g.records := by
      rw [recordsOf_append, recordsOf_cons, recordsOf_nil, List.append_nil]
    refine ⟨segs ++ [g], g', 0, hsteady', by rw [hg', List.append_nil, hrecords], .inl ?_, fun _ => hsync'⟩
    rw [hrecords]

/-- A step that fails here leaves a log that is not as it was before the append. -/
def Site.harms : Site → Nat → Bool
  | .record, part => decide (0 < part)
  | .recordSync, _ => true
  | k, _ => k.inSeal

theorem Site.harms_of_inSeal {k : Site} {part : Nat} (h : k.inSeal = true) : k.harms part = true := by
  cases k <;> first | rfl | cases h

variable (env) in
/-- Does the active segment have to be sealed before the episode is written? -/
def State.rolls (s : State) (episode : Episode) : Bool :=
  (env.encodePayload (ulidBytes episode.id) episode).toOption.any (fun payload =>
    s.needsRoll env (rawRecordHeaderLen + payload.length))

/-- A segment that is full is sealed first. -/
theorem Alive.wp_rollFor (h : Alive env ns hist synced sync s) {recordLen : Nat}
    (hfits : s.needsRoll env recordLen = true → s.fits env = true) : (rollFor env recordLen).wp
    ⟨fun _ s' => Alive env ns hist synced sync s', fun _ _ => False, fun k _ _ => k.inSeal = true,
      fun s' => Dies env ns hist synced sync s'.disk⟩ s := by
  unfold rollFor
  refine Prog.wp_get_bind ?_
  split
  · rename_i hroll
    refine h.wp_seal.mono (fun _ _ hs' => hs'.mono h.synced_le) (fun _ _ hf => ?_) (fun _ _ _ hk => hk)
      (fun _ hs' => hs'.mono (fun hs => ⟨hs, hfits hroll⟩))
    exact absurd ((hfits hroll).symm.trans hf) nofun
  · exact Prog.wp_pure h

/-! ## Appending -/

/-- The record that an episode becomes. -/
def recordFor (hist : List RawRecord) (episode : Episode) (payload : Bytes) : RawRecord :=
  { lsn := hist.length, hlc := episode.tsHlc, payload := payload }

section Record

variable (h : Steady env ns segs g low s) {r : RawRecord} (hlsn : r.lsn = s.nextLsn) (hr : Stored env r)
  (hbound : s.nextLsn + 1 < 2 ^ 64)
include h hlsn hr hbound

theorem Steady.valid_concat : (g.concat r).Valid env ns segs.length (recordsOf segs).length := by
  have hhead := h.head
  exact h.valid.concat (by rw [hlsn, hhead]) hr (by rw [← hhead]; exact hbound)

/-- The active file while a record is written. -/
theorem Steady.active_record (part : Nat) : Rest.On env ns segs ⟨g.concat r, low, g.bodyLen + min part r.size⟩
    (s.disk.modifyActive segs.length (.append (r.encode.take part))) := by
  obtain ⟨f, hentries, hdata, hlow, hdurable⟩ := h.file
  have hvalid := h.valid_concat hlsn hr hbound
  have hlength := hvalid.length_bytes
  have hfooter : footerLen = 128 := rfl
  rw [Segment.bodyLen_concat] at hlength
  refine ⟨hvalid, ⟨_, entries_modifyActive hentries _, ?_, hlow, Nat.le_trans hdurable (Nat.le_add_right _ _)⟩, ?_,
    fun _ hnil => ?_⟩
  · show f.data ++ r.encode.take part = _
    rw [hdata, ← h.valid.take_record r (Nat.min_le_right _ _), ← r.length_encode, ← List.take_eq_take_min]
  · show g.bodyLen + min part r.size ≤ ((g.concat r).bytes env).length
    omega
  · exact List.cons_ne_nil _ _ (List.append_eq_nil_iff.1 hnil).2

/-- What a crash leaves of a record that is being written. -/
theorem Steady.leaves_record (hsafe : Safe synced segs (some ⟨g, low, g.bodyLen⟩)) (part : Nat) (fits : Prop) :
    Leaves env ns ((recordsOf segs ++ g.records) ++ [r]) synced fits
      (s.disk.modifyActive segs.length (.append (r.encode.take part))) segs segs.length
      (some ⟨g.concat r, low, g.bodyLen + min part r.size⟩) := by
  refine ⟨h.wreck.with_active rfl rfl rfl rfl (h.active_record hlsn hr hbound part), (List.append_assoc _ _ _).symm, ?_,
    fun _ hne => absurd ?_ hne⟩
  · rcases hsafe with hle | ⟨hle, hlow⟩
    · exact .inl hle
    · refine .inr ⟨Nat.le_trans hle (by simp [Segment.concat]), ?_⟩
      show fileHeaderLen + sizes ((g.records ++ [r]).take _) ≤ _
      rw [List.take_append_of_le_length hle]
      exact hlow
  · have hlength := (h.valid_concat hlsn hr hbound).length_bytes
    have hfooter : footerLen = 128 := rfl
    have hcomplete : Rest.complete env ⟨g.concat r, low, g.bodyLen + min part r.size⟩ = false := by
      refine beq_false_of_ne (fun heq => ?_)
      have heq : g.bodyLen + min part r.size = ((g.concat r).bytes env).length := heq
      rw [Segment.bodyLen_concat] at hlength
      omega
    rw [uncatalogued, List.drop_length, Option.filter_some, hcomplete]
    rfl

omit hlsn hr in
/-- **The record is written**, and the writer counts it. -/
theorem Steady.recorded {low' : Nat} {d : Disk} (hactive : Rest.On env ns segs ⟨g.concat r, low', (g.concat r).bodyLen⟩ d)
    (hraw : d.raw = s.disk.raw) (hpacked : d.packed = s.disk.packed) (hmanifests : d.manifests = s.disk.manifests)
    (hcurrent : d.current = s.disk.current) : Steady env ns segs (g.concat r) low' { s with
      disk := d
      active := some ⟨segs.length, (g.writer env).record env.blake3 r.lsn r.hlc r.encode.length (hashOf env r)⟩
      nextLsn := satAdd64 s.nextLsn 1 } := by
  refine ⟨h.wreck.with_active hraw hpacked hmanifests hcurrent hactive, h.catalogue.mono (Disk.extends_of_eq hraw hpacked), ?_,
    ?_⟩
  · rw [r.length_encode]
    exact congrArg (fun w => some (ActiveSegment.mk segs.length w)) (written_concat env.blake3 (hashOf env) g.header g.records r).symm
  · have hnext : satAdd64 s.nextLsn 1 = s.nextLsn + 1 := Nat.min_eq_left (Nat.le_sub_one_of_lt hbound)
    show satAdd64 s.nextLsn 1 = _ + (g.records ++ [r]).length
    rw [hnext, h.head, List.length_append]
    rfl

end Record

/-- Why an append is refused that has a log to go to. -/
inductive AppendRefusal (env : Env) (head : Nat) (episode : Episode) (expectedLsn : Option Nat) : HeraclitusError → Prop
  | encode {msg : String} : env.encodePayload (ulidBytes episode.id) episode = .error msg →
      AppendRefusal env head episode expectedLsn (.serialization msg)
  | expected {expected : Nat} : expectedLsn = some expected → expected ≠ head →
      AppendRefusal env head episode expectedLsn (.casConflict expected head)
  | size {payload : Bytes} : env.encodePayload (ulidBytes episode.id) episode = .ok payload →
      hardMaxRecordBytes < payload.length →
      AppendRefusal env head episode expectedLsn (corrupt "hrkl v6 raw writer" "record exceeds hard maximum")

/-- What an append does to a log that is alive. -/
def appendPost (env : Env) (ns : Bytes) (hist : List RawRecord) (synced : Nat) (sync : Prop) (episode : Episode)
    (expectedLsn : Option Nat) (elapsedMs : Nat) : Post Site State HeraclitusError Nat where
  ok lsn s' := lsn = hist.length ∧ (∀ expected ∈ expectedLsn, expected = hist.length) ∧
    ∃ payload, env.encodePayload (ulidBytes episode.id) episode = .ok payload ∧
      Alive env ns (hist ++ [recordFor hist episode payload])
        (if shouldSync env elapsedMs then hist.length + 1 else synced) sync s'
  refused e s' := AppendRefusal env hist.length episode expectedLsn e ∧ Alive env ns hist synced sync s'
  failed k part s' := k.harms part = true ∨ Alive env ns hist synced sync s'
  died s' := Dies env ns hist synced sync s'.disk ∨
    ∃ payload, env.encodePayload (ulidBytes episode.id) episode = .ok payload ∧
      Dies env ns (hist ++ [recordFor hist episode payload]) synced sync s'.disk

/-- **The record goes to the active segment.** -/
theorem Steady.wp_record (h : Steady env ns segs g low s) {episode : Episode} {expectedLsn : Option Nat} {elapsedMs : Nat}
    {payload : Bytes} (hcodec : env.RoundTrips) (hsafe : Safe synced segs (some ⟨g, low, g.bodyLen⟩))
    (hsync : sync → InSync s) (hexpected : ∀ expected ∈ expectedLsn, expected = (recordsOf segs ++ g.records).length)
    (hpayload : env.encodePayload (ulidBytes episode.id) episode = .ok payload) (hhlc : episode.tsHlc < 2 ^ 64)
    (hbound : s.nextLsn + 1 < 2 ^ 64) {hash : Digest}
    (hhash : hash = hashOf env (recordFor (recordsOf segs ++ g.records) episode payload)) :
    (do
      writeRecord env ⟨segs.length, g.writer env⟩ (recordsOf segs ++ g.records).length episode.tsHlc payload hash
      syncIfDue env segs.length elapsedMs
      .modify (fun s => { s with nextLsn := satAdd64 s.nextLsn 1 })
      pure (recordsOf segs ++ g.records).length : Engine Nat).wp
      (appendPost env ns (recordsOf segs ++ g.records) synced sync episode expectedLsn elapsedMs) s := by
  have halive : Alive env ns (recordsOf segs ++ g.records) synced sync s := ⟨segs, g, low, h, rfl, hsafe, hsync⟩
  have hhead := halive.head
  generalize hr : recordFor (recordsOf segs ++ g.records) episode payload = r at *
  have hlsn : r.lsn = s.nextLsn := by rw [← hr, hhead]; rfl
  unfold writeRecord
  by_cases hsize : hardMaxRecordBytes < payload.length
  · rw [if_pos hsize]
    exact Prog.wp_bind (Prog.wp_refuse ⟨.size hpayload hsize, halive⟩)
  have hstored : Stored env r := by
    rw [← hr]
    exact ⟨⟨(show (recordsOf segs ++ g.records).length < 2 ^ 64 by omega), hhlc, Nat.not_lt.1 hsize⟩, ⟨_, hcodec _ _ _ hpayload⟩⟩
  have hencode : encodeRawRecord (recordsOf segs ++ g.records).length episode.tsHlc payload = r.encode := by rw [← hr]; rfl
  have hrlsn : (recordsOf segs ++ g.records).length = r.lsn := by rw [← hr]; rfl
  have hrhlc : episode.tsHlc = r.hlc := by rw [← hr]; rfl
  have hleaves : ∀ part, ∃ payload, env.encodePayload (ulidBytes episode.id) episode = .ok payload ∧
      Dies env ns ((recordsOf segs ++ g.records) ++ [recordFor (recordsOf segs ++ g.records) episode payload]) synced
        sync (s.disk.modifyActive segs.length (.append (r.encode.take part))) := fun part =>
    ⟨payload, hpayload, by rw [hr]; exact ⟨_, _, _, h.leaves_record hlsn hstored hbound hsafe part _⟩⟩
  have hwhole := h.active_record hlsn hstored hbound r.size
  have hfull : r.encode.take r.size = r.encode := List.take_of_length_le (Nat.le_of_eq r.length_encode)
  rw [hfull, Nat.min_self, ← Segment.bodyLen_concat] at hwhole
  rw [if_neg hsize]
  dsimp only
  rw [hencode]
  refine Prog.wp_bind (Prog.wp_write_bind (fun part => ?_) (fun part => .inr (hleaves part)) (Prog.wp_modify ?_))
  · -- nothing of the record was written
    by_cases hpart : 0 < part
    · exact .inl (decide_eq_true hpart)
    · right
      rw [Nat.eq_zero_of_not_pos hpart, List.take_zero]
      obtain ⟨f, hentries, hdata, hlow, hdurable⟩ := h.file
      refine ⟨segs, g, low, ⟨h.wreck.with_active rfl rfl rfl rfl ⟨h.valid, ⟨_, entries_modifyActive hentries _, ?_, hlow,
        hdurable⟩, h.wreck.active.size_le, h.wreck.active.complete⟩, h.catalogue.mono (Disk.extends_of_eq rfl rfl), h.active,
        h.head⟩, rfl, hsafe, hsync⟩
      show f.data ++ [] = _
      rw [List.append_nil, hdata, h.valid.take_bodyLen]
  · -- the record is there; it may have to be synced
    have hdone : ∀ {low' : Nat} {d : Disk} {synced' : Nat}, Rest.On env ns segs ⟨g.concat r, low', (g.concat r).bodyLen⟩ d →
        d.raw = s.disk.raw → d.packed = s.disk.packed → d.manifests = s.disk.manifests → d.current = s.disk.current →
        Safe synced' segs (some ⟨g.concat r, low', (g.concat r).bodyLen⟩) →
        Alive env ns (recordsOf segs ++ g.records ++ [r]) synced' sync { s with
          disk := d
          active := some ⟨segs.length, (g.writer env).record env.blake3 r.lsn r.hlc r.encode.length (hashOf env r)⟩
          nextLsn := satAdd64 s.nextLsn 1 } := fun hactive hraw hpacked hmanifests hcurrent hsafe' =>
      ⟨segs, g.concat r, _, h.recorded hbound hactive hraw hpacked hmanifests hcurrent, (List.append_assoc _ _ _).symm, hsafe',
        fun hs => by
          rw [InSync, Disk.descriptors, load_eq hmanifests hcurrent]
          exact hsync hs⟩
    have hsafe' : Safe synced segs (some ⟨g.concat r, low, (g.concat r).bodyLen⟩) :=
      (h.leaves_record hlsn hstored hbound hsafe 0 True).safe
    rw [hrlsn, hrhlc, hhash]
    unfold syncIfDue
    by_cases hdue : shouldSync env elapsedMs = true
    · rw [if_pos hdue]
      have hdied := hleaves r.size
      rw [hfull] at hdied
      refine Prog.wp_bind (Prog.wp_step ?_ (fun _ => .inl rfl) (.inr hdied))
      obtain ⟨f, hentries, hdata, hlow, hdurable⟩ := hwhole.file
      have hlength : f.data.length = (g.concat r).bodyLen := by
        rw [hdata, List.length_take]
        exact Nat.min_eq_left hwhole.size_le
      have hon : Rest.On env ns segs ⟨g.concat r, (g.concat r).bodyLen, (g.concat r).bodyLen⟩
          ((s.disk.modifyActive segs.length (.append r.encode)).modifyActive segs.length .sync) :=
        ⟨hwhole.valid, ⟨f.sync, entries_modifyActive hentries _, hdata, Nat.le_of_eq hlength.symm, Nat.le_of_eq hlength⟩,
          hwhole.size_le, hwhole.complete⟩
      refine Prog.wp_modify_bind (Prog.wp_pure ⟨hrlsn.symm, hexpected, payload, hpayload, ?_⟩)
      rw [if_pos hdue, hr]
      have hcount : (recordsOf segs ++ g.records).length + 1 - (recordsOf segs).length = (g.concat r).records.length := by
        show _ = (g.records ++ [r]).length
        rw [List.length_append, List.length_append, List.length_singleton]
        omega
      refine hdone hon rfl rfl rfl rfl (.inr ⟨Nat.le_of_eq hcount, ?_⟩)
      show fileHeaderLen + sizes ((g.concat r).records.take _) ≤ (g.concat r).bodyLen
      rw [hcount, List.take_length]
      exact Nat.le_refl _
    · rw [if_neg hdue]
      refine Prog.wp_bind (Prog.wp_pure (Prog.wp_modify_bind (Prog.wp_pure ⟨hrlsn.symm, hexpected, payload, hpayload, ?_⟩)))
      rw [if_neg hdue, hr]
      exact hdone hwhole rfl rfl rfl rfl hsafe'

/-- **An append** writes one record, or is refused for what it is. -/
theorem Alive.wp_appendInner (h : Alive env ns hist synced sync s) (hcodec : env.RoundTrips) {episode : Episode}
    (hhlc : episode.tsHlc < 2 ^ 64) (hbound : hist.length + 1 < 2 ^ 64)
    (hfits : s.rolls env episode = true → s.fits env = true) (expectedLsn : Option Nat) (elapsedMs : Nat) :
    (appendInner env episode expectedLsn elapsedMs).wp
      (appendPost env ns hist synced sync episode expectedLsn elapsedMs) s := by
  unfold appendInner
  refine Prog.wp_ofExcept_bind (fun payload hpayload => ?_) (fun e he => ?_)
  · have hpayload : env.encodePayload (ulidBytes episode.id) episode = .ok payload := by
      cases hencode : env.encodePayload (ulidBytes episode.id) episode with
      | ok b =>
        rw [hencode] at hpayload
        cases hpayload
        rfl
      | error e =>
        rw [hencode] at hpayload
        cases hpayload
    refine Prog.wp_get_bind ?_
    rw [h.head]
    dsimp only
    cases hfilter : expectedLsn.filter (fun expected => decide (expected ≠ hist.length)) with
    | some expected =>
      obtain ⟨hexpected, hne⟩ := Option.filter_eq_some_iff.1 hfilter
      exact Prog.wp_refuse ⟨.expected hexpected (of_decide_eq_true hne), h⟩
    | none =>
      have hexpected : ∀ expected ∈ expectedLsn, expected = hist.length := fun expected hmem => by
        have := Option.filter_eq_none_iff.1 hfilter expected hmem
        simpa using this
      have hhash : persistedHasher env hist.length episode.tsHlc payload
          = .ok (hashOf env (recordFor hist episode payload)) := by
        have hdecode := hcodec _ _ _ hpayload
        unfold hashOf persistedHasher
        rw [show (recordFor hist episode payload).payload = payload from rfl, hdecode]
        rfl
      refine Prog.wp_ofExcept_ok hhash ?_
      refine Prog.wp_bind ?_
      refine (h.wp_rollFor (fun hroll => hfits (by rw [State.rolls, hpayload]; exact hroll))).mono ?_ (fun _ _ hf => hf.elim)
        (fun _ _ _ hk => .inl (Site.harms_of_inSeal hk)) (fun _ hs' => .inl hs')
      rintro - s' ⟨segs, g, low, hsteady, rfl, hsafe, hsync⟩
      refine Prog.wp_get_bind ?_
      rw [hsteady.active]
      dsimp only
      have hnext : (recordsOf segs ++ g.records).length = s'.nextLsn := by rw [hsteady.head, List.length_append]
      rw [if_neg (by rw [hsteady.nextExpectedLsn, hnext]; exact fun hne => hne rfl)]
      exact hsteady.wp_record hcodec hsafe hsync hexpected hpayload hhlc (hnext ▸ hbound) rfl
  · cases hencode : env.encodePayload (ulidBytes episode.id) episode with
    | ok b =>
      rw [hencode] at he
      cases he
    | error msg =>
      rw [hencode] at he
      cases he
      exact ⟨.encode hencode, h⟩

end V6
end Heraclitus
