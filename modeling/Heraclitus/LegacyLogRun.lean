import Heraclitus.LegacyLogRead
import Heraclitus.Lib.Run
import Mathlib.Tactic.NormNum
/-!
# LegacyLogRun — what the worker of the v5 log keeps

Every command of a batch keeps `Layout`, with the offsets not yet published still in the batch; the end of the batch
restores `Steady`.  So after every batch the log reads as what was acknowledged (`acked_reads_iff`).
-/
namespace Heraclitus
namespace Legacy

variable {env : Env} {log : Log} {segs : List (List Rec)} {act : List Rec}

@[simp] theorem get?_writeAll (dir : SortedMap Nat Bytes) (id : Nat) (bytes : Bytes) (i : Nat) :
    (writeAll dir id bytes).get? i = if i = id then some ((dir.get? id).getD [] ++ bytes) else dir.get? i :=
  SortedMap.get?_alter dir id _ i

theorem SealedAt.of_get?_eq {dir dir' : SortedMap Nat Bytes} {i lsn : Nat} {c : SegmentContainer} {rs : List Rec}
    (h : SealedAt env dir i lsn c rs) (heq : dir'.get? i = dir.get? i) : SealedAt env dir' i lsn c rs := by
  obtain ⟨hlc, count, root, hcount, hfile⟩ := h.file
  exact { h with file := ⟨hlc, count, root, hcount, heq.trans hfile⟩ }

/-- A file that is there and not empty is the whole active segment. -/
theorem Layout.solid_file (h : Layout env log segs act) (hsolid : log.dir.get? segs.length ≠ some []) :
    ∃ hlc, log.dir.get? segs.length = some (segmentBytes env segs.length hlc segs.flatten.length act) :=
  h.file.resolve_right (fun hempty => hsolid hempty.2)

variable (env) in
theorem segmentBytes_ne_nil (i hlc lsn : Nat) (rs : List Rec) : segmentBytes env i hlc lsn rs ≠ [] := by
  intro h
  have := congrArg List.length h
  rw [segmentBytes, List.length_append, SegmentHeader.length_encode] at this
  exact absurd this (by simp [headerLen])

/-- The files after rolling. -/
theorem Layout.roll_dir (h : Layout env log segs act) {hlc : Nat}
    (hfile : log.dir.get? segs.length = some (segmentBytes env segs.length hlc segs.flatten.length act)) (i : Nat) :
    (rollSegment env log (segs.flatten ++ act).length).dir.get? i
      = if i = segs.length + 1 then some (segmentBytes env (segs.length + 1) (env.createdHlc (segs.length + 1))
          (segs.flatten ++ act).length [])
        else if i = segs.length then some (sealedBytes env segs.length hlc segs.flatten.length act
          log.active.recordHashes.length (merkleRoot env.toHashes log.active.recordHashes))
        else log.dir.get? i := by
  have hfooter : sealingFooter env log.active = ⟨log.active.recordHashes.length, segs.flatten.length,
      segs.flatten.length + (act.length - 1), merkleRoot env.toHashes log.active.recordHashes⟩ := by
    rw [sealingFooter, h.minLsn, h.maxLsn]
  unfold rollSegment newActive sealedBytes
  simp only [get?_writeAll, h.segmentId, hfooter, hfile, Option.getD_some, if_neg (Nat.succ_ne_self segs.length),
    h.no_more_files _ (Nat.lt_succ_self _), Option.getD_none, List.nil_append, segmentBytes, recordBytes,
    List.append_nil]

/-- **Rolling seals the active records and starts an empty segment behind them.** -/
theorem Layout.roll (h : Layout env log segs act) (hsolid : log.dir.get? segs.length ≠ some [])
    (hlt : act.length < 2 ^ 64)
    (hentries : log.catalog.active.entries = indexFrom segs.flatten.length headerLen act) :
    Layout env (rollSegment env log (segs.flatten ++ act).length) (segs ++ [act]) [] ∧
      (rollSegment env log (segs.flatten ++ act).length).dir.get? (segs ++ [act]).length ≠ some [] := by
  obtain ⟨hlc, hfile⟩ := h.solid_file hsolid
  have hflat : (segs ++ [act]).flatten = segs.flatten ++ act := by
    rw [List.flatten_append, List.flatten_singleton]
  have hlen : (segs ++ [act]).length = segs.length + 1 := by
    rw [List.length_append, List.length_singleton]
  have hdir := h.roll_dir hfile
  have hnew : (rollSegment env log (segs.flatten ++ act).length).dir.get? (segs ++ [act]).length
      = some (segmentBytes env (segs.length + 1) (env.createdHlc (segs.length + 1)) (segs.flatten ++ act).length []) := by
    rw [hlen, hdir, if_pos rfl]
  refine ⟨⟨?_, ?_, fun i c rs hc hrs => ?_, ?_, ?_, rfl, rfl, .inl ⟨env.createdHlc (segs.length + 1), ?_⟩, ?_, rfl,
    Nat.le_refl _, ?_, ?_, fun i hi => ?_⟩, ?_⟩
  · rw [hflat, List.append_nil]
    exact h.readable
  · rw [hlen, ← h.length_sealed]
    exact List.length_append
  · have hsealed : (rollSegment env log (segs.flatten ++ act).length).catalog.sealedSegments
        = log.catalog.sealedSegments ++ [_] := rfl
    by_cases hi : i < segs.length
    · rw [hsealed, List.getElem?_append_left (h.length_sealed ▸ hi)] at hc
      rw [List.getElem?_append_left hi] at hrs
      rw [start_append [act] (Nat.le_of_lt hi)]
      refine (h.sealedAt i c rs hc hrs).of_get?_eq ?_
      rw [hdir, if_neg (by omega), if_neg (by omega)]
    · have hieq : i = segs.length := by
        have := (List.getElem?_eq_some_iff.1 hrs).1
        omega
      subst hieq
      rw [hsealed, ← h.length_sealed, List.getElem?_concat_length] at hc
      rw [List.getElem?_concat_length] at hrs
      cases hc
      cases hrs
      rw [start_append [act] (Nat.le_refl _), start_length]
      refine ⟨h.segmentId, h.minLsn, h.maxLsn, rfl, rfl, hentries, hlc, log.active.recordHashes.length,
        merkleRoot env.toHashes log.active.recordHashes, Nat.lt_of_le_of_lt h.recordHashes hlt, ?_⟩
      rw [hdir, if_neg (Nat.ne_of_lt (Nat.lt_succ_self _)), if_pos rfl]
  · rw [hlen, ← h.segmentId]
    rfl
  · rw [hflat]
    rfl
  · rw [hnew, hlen, hflat]
  · rw [hlen, ← h.segmentId]
    rfl
  · rw [hflat]
    rfl
  · rw [hflat]
    rfl
  · rw [hlen] at hi
    rw [hdir, if_neg (by omega), if_neg (by omega)]
    exact h.no_more_files i (by omega)
  · rw [hnew]
    exact fun hnil => segmentBytes_ne_nil env _ _ _ _ (Option.some.inj hnil)

variable (env) in
/-- In the middle of a batch that has written `done`: the layout holds, the missing offsets are still stashed. -/
structure InBatch (b : Batch) (segs : List (List Rec)) (act before done : List Rec) : Prop where
  layout : Layout env b.log segs act
  solid : b.log.dir.get? segs.length ≠ some []
  records : segs.flatten ++ act = before ++ done
  committed : b.log.committedLsn = before.length
  tentative : b.tentativeLsn = (before ++ done).length
  entries : b.log.catalog.active.entries ++ (b.stashed.drop b.pendingIndexStart).map StashedUpdate.entry
    = indexFrom segs.flatten.length headerLen act
  pending : b.pendingIndexStart ≤ b.stashed.length
  stashed : b.stashed.map (fun u => (u.lsn, u.episode)) = number before.length (done.map Rec.episode)
  replies : ∀ lsn e, Reply.appended lsn e ∉ b.replies

variable {b : Batch} {before done : List Rec}

theorem InBatch.publish (h : InBatch env b segs act before done) : InBatch env b.publish segs act before done ∧
    b.publish.log.catalog.active.entries = indexFrom segs.flatten.length headerLen act := by
  have hentries := h.entries
  unfold Batch.publish
  by_cases hlt : b.pendingIndexStart < b.stashed.length
  · rw [if_pos hlt]
    refine ⟨⟨?_, h.solid, h.records, h.committed, h.tentative, ?_, Nat.le_refl _, h.stashed, h.replies⟩, hentries⟩
    · exact { h.layout with }
    · dsimp only
      rw [List.drop_length, List.map_nil, List.append_nil]
      exact hentries
  · rw [if_neg hlt]
    refine ⟨h, ?_⟩
    rwa [List.drop_eq_nil_of_le (Nat.not_lt.1 hlt), List.map_nil, List.append_nil] at hentries

/-- **In the middle of a batch** a reader finds every committed record. -/
theorem InBatch.seen (h : InBatch env b segs act before done) (hlsns : (before ++ done).length < 2 ^ 64) :
    ∃ seen, Seen env b.log segs act seen ∧ before <+: segs.flatten ++ seen := by
  have hstashed : b.stashed.length = done.length := by
    have := congrArg List.length h.stashed
    rwa [List.length_map, length_number, List.length_map] at this
  have hcount := congrArg List.length h.entries
  rw [List.length_append, List.length_map, List.length_drop, length_indexFrom] at hcount
  have hrecords := congrArg List.length h.records
  rw [List.length_append, List.length_append] at hrecords
  rw [List.length_append] at hlsns
  generalize hk : b.log.catalog.active.entries.length = k at hcount
  have htake : (act.take k).length = k := List.length_take_of_le (by omega)
  have hentries : b.log.catalog.active.entries = indexFrom segs.flatten.length headerLen (act.take k) := by
    have hsplit := h.entries
    rw [← List.take_append_drop k act, indexFrom_append] at hsplit
    exact (List.append_inj hsplit (by rw [length_indexFrom, htake, hk])).1
  have hprefix : segs.flatten ++ act.take k <+: before ++ done := by
    rw [← h.records]
    exact (List.prefix_append_right_inj _).2 (List.take_prefix k act)
  refine ⟨act.take k, ⟨h.layout, hentries, List.take_prefix k act, ?_⟩, ?_⟩
  · rw [List.length_append, htake]
    omega
  · refine List.prefix_of_prefix_length_le (List.prefix_append before done) hprefix ?_
    rw [List.length_append, htake]
    omega

variable (env) in
/-- A relation of files and worker to the records that rolling and writing keep. -/
structure KeptByWorker (Q : SortedMap Nat Bytes → Active → List (List Rec) → List Rec → Prop) : Prop where
  roll : ∀ {log : Log} {segs : List (List Rec)} {act : List Rec}, Layout env log segs act →
    log.dir.get? segs.length ≠ some [] → Q log.dir log.active segs act →
    Q (rollSegment env log (segs.flatten ++ act).length).dir (rollSegment env log (segs.flatten ++ act).length).active
      (segs ++ [act]) []
  write : ∀ {b : Batch} {segs : List (List Rec)} {act before done : List Rec} {r : Rec},
    InBatch env b segs act before done → Q b.log.dir b.log.active segs act →
    Q (b.write env r.opaqueMeta r.episode (r.bytes env b.tentativeLsn)).log.dir
      (b.write env r.opaqueMeta r.episode (r.bytes env b.tentativeLsn)).log.active segs (act ++ [r])

theorem keptByWorker_true : KeptByWorker env (fun _ _ _ _ => True) := ⟨fun _ _ _ => trivial, fun _ _ => trivial⟩

theorem keptByWorker_extends (segs₀ : List (List Rec)) : KeptByWorker env (fun _ _ segs _ => segs₀ <+: segs) :=
  ⟨fun _ _ h => h.trans (List.prefix_append _ _), fun _ h => h⟩

theorem publish_dir (b : Batch) : b.publish.log.dir = b.log.dir := by
  unfold Batch.publish
  split <;> rfl

theorem publish_active (b : Batch) : b.publish.log.active = b.log.active := by
  unfold Batch.publish
  split <;> rfl

section Keeping

variable {Q : SortedMap Nat Bytes → Active → List (List Rec) → List Rec → Prop}

theorem InBatch.makeRoom (h : InBatch env b segs act before done) (hQ : KeptByWorker env Q)
    (hq : Q b.log.dir b.log.active segs act) (hlsns : (before ++ done).length < 2 ^ 64)
    (segmentMaxBytes : Nat) (record : Bytes) : ∃ segs' act',
      InBatch env (b.makeRoom env segmentMaxBytes record) segs' act' before done ∧
        Q (b.makeRoom env segmentMaxBytes record).log.dir (b.makeRoom env segmentMaxBytes record).log.active segs' act' := by
  unfold Batch.makeRoom
  split
  · obtain ⟨hp, hentries⟩ := h.publish
    have hact : act.length < 2 ^ 64 := by
      have := congrArg List.length h.records
      rw [List.length_append] at this
      omega
    have hroll := hp.layout.roll hp.solid hact hentries
    have hq' := hQ.roll hp.layout hp.solid (by rwa [publish_dir, publish_active])
    rw [hp.records, ← hp.tentative] at hroll hq'
    refine ⟨segs ++ [act], [], ⟨hroll.1, hroll.2, ?_, hp.committed, hp.tentative, ?_, hp.pending, hp.stashed, hp.replies⟩, hq'⟩
    · rw [List.flatten_append, List.flatten_singleton, List.append_nil, hp.records]
    · have hdrop : b.publish.stashed.drop b.publish.pendingIndexStart = [] := by
        unfold Batch.publish
        split
        · exact List.drop_length
        · rename_i hlt
          exact List.drop_eq_nil_of_le (Nat.not_lt.1 hlt)
      dsimp only
      rw [hdrop]
      rfl
  · exact ⟨segs, act, h, hq⟩

end Keeping

/-- **Writing a record puts it behind the others**, in the file, in the worker's view and in the batch. -/
theorem InBatch.write (h : InBatch env b segs act before done) {r : Rec} (hr : r.Readable env) :
    InBatch env (b.write env r.opaqueMeta r.episode (r.bytes env b.tentativeLsn)) segs (act ++ [r]) before
      (done ++ [r]) := by
  obtain ⟨hlc, hfile⟩ := h.layout.solid_file h.solid
  have hlsn : b.tentativeLsn = segs.flatten.length + act.length := by
    rw [h.tentative, ← h.records, List.length_append]
  have hrecords : recordBytes env segs.flatten.length (act ++ [r])
      = recordBytes env segs.flatten.length act ++ r.bytes env b.tentativeLsn := by
    rw [recordBytes_append, ← hlsn, recordBytes, recordBytes, List.append_nil]
  have hsizes : sizes (act ++ [r]) = sizes act + (r.bytes env b.tentativeLsn).length := by
    rw [length_bytes]
    simp [sizes, Rec.size]
  have hdir : ∀ i, (b.write env r.opaqueMeta r.episode (r.bytes env b.tentativeLsn)).log.dir.get? i
      = if i = segs.length then some (segmentBytes env segs.length hlc segs.flatten.length (act ++ [r]))
        else b.log.dir.get? i := fun i => by
    have : (b.write env r.opaqueMeta r.episode (r.bytes env b.tentativeLsn)).log.dir
        = writeAll b.log.dir b.log.active.segmentId (r.bytes env b.tentativeLsn) := rfl
    rw [this, get?_writeAll, h.layout.segmentId, hfile, Option.getD_some, segmentBytes, segmentBytes, hrecords,
      List.append_assoc]
  refine ⟨⟨fun s hs => ?_, h.layout.length_sealed, fun i c rs hc hrs => ?_, h.layout.id, h.layout.baseLsn,
    h.layout.isSealed, h.layout.version, .inl ⟨hlc, ?_⟩, h.layout.segmentId, ?_, ?_, h.layout.minLsn, ?_, fun i hi => ?_⟩,
    ?_, ?_, h.committed, ?_, ?_, ?_, ?_, h.replies⟩
  · rw [← List.append_assoc] at hs
    rcases List.mem_append.1 hs with hs | hs
    · exact h.layout.readable s hs
    · rw [List.mem_singleton.1 hs]
      exact hr
  · have hi : i < segs.length := (List.getElem?_eq_some_iff.1 hrs).1
    refine (h.layout.sealedAt i c rs hc hrs).of_get?_eq ?_
    rw [hdir, if_neg (Nat.ne_of_lt hi)]
  · rw [hdir, if_pos rfl]
  · show b.log.active.bytesWritten + _ = _
    rw [h.layout.bytesWritten, hsizes, Nat.add_assoc]
  · show (b.log.active.recordHashes ++ [_]).length ≤ _
    rw [List.length_append, List.length_append]
    exact Nat.add_le_add_right h.layout.recordHashes 1
  · show max b.log.active.maxLsn b.tentativeLsn = _
    rw [h.layout.maxLsn, List.length_append, List.length_singleton, Nat.add_sub_cancel, hlsn]
    exact Nat.max_eq_right (by omega)
  · rw [hdir, if_neg (Nat.ne_of_gt hi)]
    exact h.layout.no_more_files i hi
  · rw [hdir, if_pos rfl]
    exact fun hnil => segmentBytes_ne_nil env _ _ _ _ (Option.some.inj hnil)
  · rw [← List.append_assoc, h.records, List.append_assoc]
  · show b.tentativeLsn + 1 = _
    simp only [h.tentative, List.length_append, List.length_singleton, Nat.add_assoc]
  · show b.log.catalog.active.entries ++ ((b.stashed ++ [_]).drop b.pendingIndexStart).map StashedUpdate.entry = _
    rw [List.drop_append_of_le_length h.pending, List.map_append, ← List.append_assoc, h.entries, indexFrom_append,
      h.layout.bytesWritten, hlsn]
    rfl
  · show b.pendingIndexStart ≤ (b.stashed ++ [_]).length
    rw [List.length_append]
    exact Nat.le_add_right_of_le h.pending
  · show (b.stashed ++ [_]).map _ = _
    rw [List.map_append, h.stashed, List.map_append, number_append, List.length_map]
    rw [h.tentative, List.length_append]
    rfl

variable (env) in
/-- What the payload codec promises. -/
def Env.RoundTrips : Prop :=
  ∀ opaqueMeta e payload, env.encodePayload opaqueMeta e = .ok payload →
    env.decodePayload formatVersion payload = .ok e ∧ env.decodeMeta formatVersion payload = .ok opaqueMeta

variable (env) in
/-- The command writes no payload that the readers refuse. -/
def LogCommand.Bounded : LogCommand → Prop
  | .append opaqueMeta e _ => ∀ payload, env.encodePayload opaqueMeta e = .ok payload → payload.length ≤ maxPayloadLen
  | .flush => True

instance : ∀ cmd : LogCommand, Decidable (cmd.Bounded env)
  | .append opaqueMeta e _ =>
    inferInstanceAs (Decidable (∀ payload, env.encodePayload opaqueMeta e = .ok payload → payload.length ≤ maxPayloadLen))
  | .flush => isTrue trivial

theorem InBatch.refuse (h : InBatch env b segs act before done) (e : HeraclitusError) :
    InBatch env (b.refuse e) segs act before done := by
  refine { h with replies := fun lsn ep hmem => ?_ }
  rcases List.mem_append.1 hmem with hmem | hmem
  · exact h.replies lsn ep hmem
  · cases List.mem_singleton.1 hmem

section Keeping

variable {Q : SortedMap Nat Bytes → Active → List (List Rec) → List Rec → Prop}

theorem InBatch.command (h : InBatch env b segs act before done) (hQ : KeptByWorker env Q)
    (hq : Q b.log.dir b.log.active segs act) (hlsns : (before ++ done).length < 2 ^ 64)
    (hcodec : env.RoundTrips) (segmentMaxBytes : Nat) {cmd : LogCommand} (hcmd : cmd.Bounded env) : ∃ segs' act' done',
      InBatch env (b.command env segmentMaxBytes cmd) segs' act' before done' ∧ done'.length ≤ done.length + 1 ∧
        Q (b.command env segmentMaxBytes cmd).log.dir (b.command env segmentMaxBytes cmd).log.active segs' act' := by
  cases cmd with
  | flush => exact ⟨segs, act, done, { h with }, Nat.le_succ _, hq⟩
  | append opaqueMeta e expectedLsn =>
    simp only [Batch.command, Batch.append]
    cases expectedLsn.filter (fun l => decide (l ≠ b.tentativeLsn)) with
    | some expected => exact ⟨segs, act, done, h.refuse _, Nat.le_succ _, hq⟩
    | none =>
      cases hencode : env.encodePayload opaqueMeta e with
      | error err => exact ⟨segs, act, done, h.refuse _, Nat.le_succ _, hq⟩
      | ok payload =>
        let r : Rec := { opaqueMeta := opaqueMeta, episode := e, payload := payload }
        have hr : r.Readable env :=
          ⟨(hcodec _ _ _ hencode).1, (hcodec _ _ _ hencode).2, hcmd payload hencode⟩
        obtain ⟨segs', act', hroom, hq'⟩ := h.makeRoom hQ hq hlsns segmentMaxBytes (r.bytes env b.tentativeLsn)
        have hwrite := hroom.write hr
        have hq'' := hQ.write (r := r) hroom hq'
        rw [hroom.tentative, ← h.tentative] at hwrite hq''
        refine ⟨segs', act' ++ [r], done ++ [r], hwrite, ?_, hq''⟩
        rw [List.length_append]
        exact Nat.le_refl _

theorem InBatch.commands (hQ : KeptByWorker env Q) (hcodec : env.RoundTrips) (segmentMaxBytes : Nat) :
    ∀ (cmds : List LogCommand) {b : Batch} {segs : List (List Rec)} {act done : List Rec},
    InBatch env b segs act before done → Q b.log.dir b.log.active segs act →
    (before ++ done).length + cmds.length < 2 ^ 64 → (∀ cmd ∈ cmds, cmd.Bounded env) → ∃ segs' act' done',
      InBatch env (cmds.foldl (Batch.command env segmentMaxBytes) b) segs' act' before done' ∧
        done'.length ≤ done.length + cmds.length ∧
        Q (cmds.foldl (Batch.command env segmentMaxBytes) b).log.dir
          (cmds.foldl (Batch.command env segmentMaxBytes) b).log.active segs' act'
  | [], _, segs, act, done, h, hq, _, _ => ⟨segs, act, done, h, Nat.le_refl _, hq⟩
  | cmd :: cmds, _, segs, act, done, h, hq, hlsns, hcmds => by
    rw [List.length_append, List.length_cons] at hlsns
    obtain ⟨segs₁, act₁, done₁, h₁, hle₁, hq₁⟩ :=
      h.command hQ hq (by rw [List.length_append]; omega) hcodec segmentMaxBytes (hcmds cmd List.mem_cons_self)
    obtain ⟨segs₂, act₂, done₂, h₂, hle₂, hq₂⟩ := InBatch.commands hQ hcodec segmentMaxBytes cmds h₁ hq₁
      (by rw [List.length_append]; omega) (fun c hc => hcmds c (List.mem_cons_of_mem cmd hc))
    refine ⟨segs₂, act₂, done₂, h₂, ?_, hq₂⟩
    rw [List.length_cons]
    omega

end Keeping

/-- The acknowledgments among the replies, with what the clients appended. -/
def acks (replies : List Reply) : List (Nat × Episode) :=
  replies.filterMap (fun
    | .appended lsn e => some (lsn, e)
    | _ => none)

/-- The event a command appends. -/
def LogCommand.event : LogCommand → Option Episode
  | .append _ e _ => some e
  | .flush => none

variable (env) in
theorem makeRoom_stashed (b : Batch) (segmentMaxBytes : Nat) (record : Bytes) :
    (b.makeRoom env segmentMaxBytes record).stashed = b.stashed ∧ (b.makeRoom env segmentMaxBytes record).replies = b.replies := by
  unfold Batch.makeRoom Batch.publish
  split <;> [split; skip] <;> exact ⟨rfl, rfl⟩

variable (env) in
/-- What commands stash is of what they append, in that order; nobody is told yet. -/
theorem stashed_commands (segmentMaxBytes : Nat) : ∀ (cmds : List LogCommand) (b : Batch), acks b.replies = [] →
    ((cmds.foldl (Batch.command env segmentMaxBytes) b).stashed.map (·.episode)).Sublist
        (b.stashed.map (·.episode) ++ cmds.filterMap LogCommand.event) ∧
      acks (cmds.foldl (Batch.command env segmentMaxBytes) b).replies = []
  | [], b, h => by
    rw [List.filterMap_nil, List.append_nil]
    exact ⟨List.Sublist.refl _, h⟩
  | .flush :: cmds, b, h => stashed_commands segmentMaxBytes cmds _ h
  | .append opaqueMeta e expectedLsn :: cmds, b, h => by
    rw [List.foldl_cons, List.filterMap_cons]
    simp only [Batch.command, LogCommand.event]
    have hrefused : ∀ err, acks (b.refuse err).replies = [] := by
      intro err
      show acks (b.replies ++ [.refused err]) = []
      rw [acks, List.filterMap_append]
      exact List.append_eq_nil_iff.2 ⟨h, rfl⟩
    have hskip : (b.stashed.map (·.episode) ++ cmds.filterMap LogCommand.event).Sublist
        (b.stashed.map (·.episode) ++ e :: cmds.filterMap LogCommand.event) :=
      (List.Sublist.refl _).append (List.sublist_cons_self _ _)
    unfold Batch.append
    cases expectedLsn.filter (· ≠ b.tentativeLsn) with
    | some expected =>
      obtain ⟨hsub, hacks⟩ := stashed_commands segmentMaxBytes cmds (b.refuse _) (hrefused _)
      exact ⟨hsub.trans hskip, hacks⟩
    | none =>
      cases env.encodePayload opaqueMeta e with
      | error err =>
        obtain ⟨hsub, hacks⟩ := stashed_commands segmentMaxBytes cmds (b.refuse _) (hrefused _)
        exact ⟨hsub.trans hskip, hacks⟩
      | ok payload =>
        dsimp only
        generalize hrecord : encodeRecord env.toHashes formatVersion b.tentativeLsn e.tsHlc payload = record
        obtain ⟨hstashed, hreplies⟩ := makeRoom_stashed env b segmentMaxBytes record
        obtain ⟨hsub, hacks⟩ := stashed_commands segmentMaxBytes cmds
          ((b.makeRoom env segmentMaxBytes record).write env opaqueMeta e record) (by rw [← hreplies] at h; exact h)
        have hwrite : ((b.makeRoom env segmentMaxBytes record).write env opaqueMeta e record).stashed.map (·.episode)
            = b.stashed.map (·.episode) ++ [e] := by simp [Batch.write, hstashed]
        rw [hwrite, List.append_assoc] at hsub
        exact ⟨hsub, hacks⟩

variable (env) in
/-- **What a batch acknowledges** is of what its commands append, in that order. -/
theorem acks_sublist (log : Log) (segmentMaxBytes : Nat) (cmds : List LogCommand) :
    ((acks (log.batch env segmentMaxBytes cmds).2).map Prod.snd).Sublist (cmds.filterMap LogCommand.event) := by
  obtain ⟨hsub, hacks⟩ := stashed_commands env segmentMaxBytes cmds (.start log) rfl
  have hflushes : ∀ n, acks (List.replicate n Reply.flushed) = [] := fun n =>
    List.filterMap_eq_nil_iff.2 (fun r hr => by rw [List.eq_of_mem_replicate hr])
  have happend : ∀ x y : List Reply, acks (x ++ y) = acks x ++ acks y := fun _ _ => List.filterMap_append
  have hstashed : ∀ us : List StashedUpdate, (acks (us.map (fun u => Reply.appended u.lsn u.episode))).map Prod.snd
      = us.map (·.episode) := by
    intro us
    induction us with
    | nil => rfl
    | cons u us ih => exact congrArg (u.episode :: ·) ih
  rw [Log.batch, Batch.finish, happend, happend, hacks, hflushes, List.nil_append, List.append_nil, hstashed]
  exact hsub

theorem InBatch.finish (h : InBatch env b segs act before done) (hlsns : (before ++ done).length < 2 ^ 64) :
    Steady env b.finish.1 segs act ∧ b.finish.1.dir.get? segs.length ≠ some [] ∧
      acks b.finish.2 = number before.length (done.map Rec.episode) := by
  obtain ⟨hp, hentries⟩ := h.publish
  have hcommitted : b.finish.1.committedLsn = (segs.flatten ++ act).length := by
    have hlast : (b.stashed.map (fun u => (u.lsn, u.episode))).getLast?.map Prod.fst = b.stashed.getLast?.map (·.lsn) := by
      rw [List.getLast?_map, Option.map_map]
      rfl
    rw [h.stashed, getLast?_number, List.length_map] at hlast
    rw [h.records, List.length_append, Batch.finish]
    dsimp only
    cases hget : b.stashed.getLast? with
    | none =>
      rw [hget] at hlast
      split at hlast
      · rename_i hnil
        rw [List.map_eq_nil_iff.1 hnil]
        exact hp.committed
      · cases hlast
    | some u =>
      rw [hget] at hlast
      split at hlast
      · cases hlast
      · rename_i hne
        have : 0 < done.length := List.length_pos_iff.2 (fun h0 => hne (by rw [h0]; rfl))
        have hu : before.length + done.length - 1 = u.lsn := Option.some.inj hlast
        show u.lsn + 1 = _
        omega
  refine ⟨⟨{ hp.layout with }, hentries, hcommitted, h.records ▸ hlsns⟩, hp.solid, ?_⟩
  have hreplies : acks b.replies = [] := List.filterMap_eq_nil_iff.2 (fun r hr => by
    cases r with
    | appended lsn e => exact absurd hr (h.replies lsn e)
    | refused e => rfl
    | flushed => rfl)
  have hflushes : acks (List.replicate b.stashedFlushes Reply.flushed) = [] :=
    List.filterMap_eq_nil_iff.2 (fun r hr => by rw [List.eq_of_mem_replicate hr])
  have hstashed : acks (b.stashed.map (fun u => Reply.appended u.lsn u.episode))
      = b.stashed.map (fun u => (u.lsn, u.episode)) := by
    rw [acks, List.filterMap_map]
    exact congrFun List.filterMap_eq_map b.stashed
  have happend : ∀ x y : List Reply, acks (x ++ y) = acks x ++ acks y := fun _ _ => List.filterMap_append
  rw [Batch.finish, happend, happend, hreplies, hstashed, hflushes, h.stashed, List.nil_append, List.append_nil]

theorem Steady.inBatch_start (h : Steady env log segs act) (hsolid : log.dir.get? segs.length ≠ some []) :
    InBatch env (.start log) segs act (segs.flatten ++ act) [] := by
  refine ⟨h.toLayout, hsolid, (List.append_nil _).symm, h.committed, ?_, ?_, Nat.le_refl _, rfl, fun _ _ hmem => (by cases hmem)⟩
  · rw [List.append_nil, ← h.committed]
    rfl
  · rw [← h.entries]
    exact List.append_nil _

/-- One batch keeps the log steady, and whatever rolling and writing keep. -/
theorem Steady.batch_keeps {Q : SortedMap Nat Bytes → Active → List (List Rec) → List Rec → Prop}
    (h : Steady env log segs act) (hQ : KeptByWorker env Q) (hq : Q log.dir log.active segs act) (hcodec : env.RoundTrips)
    (segmentMaxBytes : Nat) {cmds : List LogCommand} (hsolid : log.dir.get? segs.length ≠ some [])
    (hcmds : ∀ cmd ∈ cmds, cmd.Bounded env) (hlsns : log.committedLsn + cmds.length < 2 ^ 64) :
    ∃ segs' act' done, Steady env (log.batch env segmentMaxBytes cmds).1 segs' act' ∧
      (log.batch env segmentMaxBytes cmds).1.dir.get? segs'.length ≠ some [] ∧
      segs'.flatten ++ act' = (segs.flatten ++ act) ++ done ∧
      acks (log.batch env segmentMaxBytes cmds).2 = number log.committedLsn (done.map Rec.episode) ∧
      Q (log.batch env segmentMaxBytes cmds).1.dir (log.batch env segmentMaxBytes cmds).1.active segs' act' := by
  have hstart := h.inBatch_start hsolid
  have hroom : (segs.flatten ++ act ++ []).length + cmds.length < 2 ^ 64 := by
    rwa [List.append_nil, ← h.committed]
  obtain ⟨segs', act', done, hdone, hle, hq'⟩ := hstart.commands hQ hcodec segmentMaxBytes cmds hq hroom hcmds
  have hlen : (segs.flatten ++ act ++ done).length < 2 ^ 64 := by
    rw [List.length_append, ← h.committed]
    rw [List.length_nil] at hle
    omega
  obtain ⟨hsteady, hsolid', hacks⟩ := hdone.finish hlen
  refine ⟨segs', act', done, hsteady, hsolid', hdone.records, h.committed ▸ hacks, ?_⟩
  rw [← publish_dir, ← publish_active] at hq'
  exact hq'

/-- **One batch keeps the log steady and acknowledges what it added**, under the next LSNs. -/
theorem Steady.batch (h : Steady env log segs act) (hcodec : env.RoundTrips) (segmentMaxBytes : Nat)
    {cmds : List LogCommand} (hsolid : log.dir.get? segs.length ≠ some []) (hcmds : ∀ cmd ∈ cmds, cmd.Bounded env)
    (hlsns : log.committedLsn + cmds.length < 2 ^ 64) :
    ∃ segs' act' done, Steady env (log.batch env segmentMaxBytes cmds).1 segs' act' ∧
      (log.batch env segmentMaxBytes cmds).1.dir.get? segs'.length ≠ some [] ∧
      segs'.flatten ++ act' = (segs.flatten ++ act) ++ done ∧
      acks (log.batch env segmentMaxBytes cmds).2 = number log.committedLsn (done.map Rec.episode) := by
  obtain ⟨segs', act', done, hsteady, hsolid', hrecords, hacks, -⟩ :=
    h.batch_keeps keptByWorker_true trivial hcodec segmentMaxBytes hsolid hcmds hlsns
  exact ⟨segs', act', done, hsteady, hsolid', hrecords, hacks⟩

/-! ## Runs -/

variable (env) in
/-- `Log::open` of an empty directory. -/
def Log.create : Log :=
  let fresh := newActive env .empty 0 0
  { dir := fresh.1, catalog := { sealedSegments := [], active := emptyActive 0 0 }, active := fresh.2, committedLsn := 0 }

/-- A log and what it has acknowledged so far. -/
structure Session where
  log : Log
  acked : List (Nat × Episode)

variable (env) in
/-- The worker takes a batch; how the commands fall into batches is not its choice. -/
def Session.step (segmentMaxBytes : Nat) (s : Session) (cmds : List LogCommand) : Option Session :=
  if 1 ≤ cmds.length ∧ cmds.length ≤ 128 then
    let done := s.log.batch env segmentMaxBytes cmds
    some { log := done.1, acked := s.acked ++ acks done.2 }
  else none

variable (env) in
/-- No payload over the readers' bound, and LSNs that fit their type. -/
def Log.BatchOk (log : Log) (cmds : List LogCommand) : Prop :=
  (∀ cmd ∈ cmds, cmd.Bounded env) ∧ log.committedLsn + cmds.length < 2 ^ 64

instance (log : Log) (cmds : List LogCommand) : Decidable (log.BatchOk env cmds) := inferInstanceAs (Decidable (_ ∧ _))

variable (env) in
def StepOk (s : Session) (cmds : List LogCommand) : Prop := s.log.BatchOk env cmds

variable (env) in
def Session.start : Session := { log := Log.create env, acked := [] }

theorem steady_create : Steady env (Log.create env) [] [] := by
  refine ⟨⟨fun r hr => (by cases hr), rfl, fun i c rs hc => (by cases hc), rfl, rfl, rfl, rfl,
    .inl ⟨env.createdHlc 0, ?_⟩, rfl, rfl, Nat.le_refl _, rfl, rfl, fun i hi => ?_⟩, rfl, rfl, by decide⟩
  · show (writeAll .empty 0 _).get? 0 = _
    rw [get?_writeAll, if_pos rfl, segmentBytes, recordBytes, List.append_nil]
    rfl
  · show (writeAll .empty 0 _).get? i = none
    rw [get?_writeAll, if_neg (show i ≠ 0 from Nat.ne_of_gt hi)]
    rfl

theorem solid_create : (Log.create env).dir.get? ([] : List (List Rec)).length ≠ some [] := by
  show (writeAll .empty 0 _).get? 0 ≠ _
  rw [get?_writeAll, if_pos rfl]
  exact fun h => segmentBytes_ne_nil env 0 (env.createdHlc 0) 0 [] (by
    rw [segmentBytes, recordBytes, List.append_nil]
    exact Option.some.inj h)

variable (env) in
/-- The session's log is steady and holds what was acknowledged. -/
def Session.Inv (s : Session) : Prop :=
  ∃ segs act, Steady env s.log segs act ∧ s.log.dir.get? segs.length ≠ some [] ∧ s.acked = number 0 ((segs.flatten ++ act).map Rec.episode)

theorem Session.inv_step (hcodec : env.RoundTrips) {segmentMaxBytes : Nat} {s s' : Session} {cmds : List LogCommand}
    (h : s.Inv env) (hok : StepOk env s cmds) (hs : s.step env segmentMaxBytes cmds = some s') : s'.Inv env := by
  obtain ⟨segs, act, hsteady, hsolid, hacked⟩ := h
  obtain ⟨segs', act', done, hsteady', hsolid', hrecords, hacks⟩ :=
    hsteady.batch hcodec segmentMaxBytes hsolid hok.1 hok.2
  unfold Session.step at hs
  split at hs
  · cases hs
    refine ⟨segs', act', hsteady', hsolid', ?_⟩
    have hsplit : ((segs.flatten ++ act) ++ done).map Rec.episode
        = (segs.flatten ++ act).map Rec.episode ++ done.map Rec.episode := List.map_append
    dsimp only
    rw [hacked, hacks, hrecords, hsplit, number_append, hsteady.committed, List.length_map, Nat.zero_add]
  · cases hs

/-- **After every batch the log reads as what it acknowledged, exactly when no search hits an empty segment.** -/
theorem acked_reads_iff (hS : IsBinarySearch env.binarySearch) (hcodec : env.RoundTrips) {segmentMaxBytes : Nat}
    {batches : List (List LogCommand)} {s : Session}
    (h : Run (Session.step env segmentMaxBytes) (StepOk env) (Session.start env) batches s) :
    s.acked = number 0 (s.acked.map Prod.snd) ∧
      (s.log.ReadsAs env (s.acked.map Prod.snd) ↔ s.log.catalog.NoEmptyHit env) := by
  have hinv : s.Inv env := h.invariant ⟨[], [], steady_create, solid_create, rfl⟩
    (fun s cmds s' hi hok hs => Session.inv_step hcodec hi hok hs)
  obtain ⟨segs, act, hsteady, -, hacked⟩ := hinv
  rw [hacked, map_snd_number]
  exact ⟨rfl, hsteady.readsAs_iff hS⟩

/-! ## A concrete environment -/

def plainEpisode (tsHlc : Nat) (content : Bytes) : Episode :=
  { Episode.new 0 "a".toList .observation content with tsHlc := tsHlc }

/-- The bincode of a `StoragePayload` with small numbers and few fields: every length is one byte, the ULID is text. -/
def plainPayload (opaqueMeta : Bytes) (tsHlc : Nat) (content : Bytes) : Bytes :=
  (opaqueMeta ++ 26 :: List.replicate 26 0x30 ++ [1, 97, 0]) ++
    (leBytes 1 tsHlc ++ (0 :: leBytes 1 content.length ++ (content ++ [0, 0, 0, 0, 0])))

def plainEncode (opaqueMeta : Bytes) (e : Episode) : Except String Bytes :=
  if opaqueMeta.length = 16 ∧ e = plainEpisode e.tsHlc e.content ∧ e.tsHlc < 251 ∧ e.content.length < 251 then
    .ok (plainPayload opaqueMeta e.tsHlc e.content)
  else .error "not plain"

def plainDecodeMeta (_version : Nat) (payload : Bytes) : Except HeraclitusError Bytes := .ok (payload.take 16)

def plainDecode (_version : Nat) (payload : Bytes) : Except HeraclitusError Episode :=
  .ok (plainEpisode (leNat ((payload.drop 46).take 1)) ((payload.drop 49).take (leNat ((payload.drop 48).take 1))))

/-- The leaves of the records `sampleAppend 0` and `sampleAppend 1` under LSN 0 and 1. -/
def sampleBlake3 (input : Bytes) : Digest :=
  if (input.drop 4).take 1 = [0] then
    ⟨[71, 160, 155, 184, 113, 129, 220, 17, 246, 255, 92, 243, 100, 136, 154, 243, 119, 131, 28, 151, 21, 21, 207, 152, 22,
      247, 211, 145, 53, 34, 1, 19], rfl⟩
  else
    ⟨[231, 186, 183, 162, 97, 127, 172, 251, 13, 214, 135, 199, 149, 251, 214, 172, 84, 196, 138, 154, 178, 146, 11, 189,
      191, 186, 49, 60, 60, 163, 187, 41], rfl⟩

def sampleEnv : Env where
  crc32 _ := 0
  blake3 := sampleBlake3
  encodePayload := plainEncode
  decodePayload := plainDecode
  decodeMeta := plainDecodeMeta
  binarySearch := searchFirst
  createdHlc _ := 1

def sampleEpisode (n : Nat) : Episode := plainEpisode (n + 1) [120]

def sampleAppend (n : Nat) : LogCommand := .append (List.replicate 16 0) (sampleEpisode n) none

theorem sampleEnv_roundTrips : sampleEnv.RoundTrips := by
  intro opaqueMeta e payload h
  unfold sampleEnv plainEncode at h
  dsimp only at h
  split at h
  · rename_i hplain
    obtain ⟨hmeta, he, hts, hlen⟩ := hplain
    cases h
    have hpre : (opaqueMeta ++ 26 :: List.replicate 26 0x30 ++ [1, 97, 0]).length = 46 := by simp [hmeta]
    have hts' : leNat (((plainPayload opaqueMeta e.tsHlc e.content).drop 46).take 1) = e.tsHlc := by
      rw [plainPayload, take_drop_field hpre (length_leBytes 1 _), leNat_leBytes_of_lt (by omega)]
    have hcount : leNat (((plainPayload opaqueMeta e.tsHlc e.content).drop 48).take 1) = e.content.length := by
      have : plainPayload opaqueMeta e.tsHlc e.content
          = (opaqueMeta ++ 26 :: List.replicate 26 0x30 ++ [1, 97, 0] ++ leBytes 1 e.tsHlc ++ [0]) ++
            (leBytes 1 e.content.length ++ (e.content ++ [0, 0, 0, 0, 0])) := by simp [plainPayload]
      rw [this, take_drop_field (by rw [List.length_append, List.length_append, hpre]; simp) (length_leBytes 1 _),
        leNat_leBytes_of_lt (by omega)]
    have hcontent : ((plainPayload opaqueMeta e.tsHlc e.content).drop 49).take e.content.length = e.content := by
      have : plainPayload opaqueMeta e.tsHlc e.content
          = (opaqueMeta ++ 26 :: List.replicate 26 0x30 ++ [1, 97, 0] ++ leBytes 1 e.tsHlc ++
            (0 :: leBytes 1 e.content.length)) ++ (e.content ++ [0, 0, 0, 0, 0]) := by simp [plainPayload]
      rw [this]
      exact take_drop_field (by rw [List.length_append, List.length_append, hpre]; simp) rfl
    have hmeta' : (plainPayload opaqueMeta e.tsHlc e.content).take 16 = opaqueMeta := by
      rw [plainPayload, List.append_assoc, List.append_assoc]
      exact List.take_left' hmeta
    refine ⟨?_, congrArg Except.ok hmeta'⟩
    show Except.ok _ = _
    rw [hts', hcount, hcontent, ← he]
  · cases h

theorem sampleAppend_bounded (n : Nat) : (sampleAppend n).Bounded sampleEnv := by
  intro payload h
  unfold sampleEnv plainEncode at h
  dsimp only at h
  split at h
  · cases h
    simp [plainPayload, sampleEpisode, plainEpisode, Episode.new, maxPayloadLen]
  · cases h

theorem sample_stepOk : StepOk sampleEnv (.start sampleEnv) [sampleAppend 0, sampleAppend 1] := by
  refine ⟨fun cmd hcmd => ?_, by decide⟩
  simp only [List.mem_cons, List.not_mem_nil, or_false] at hcmd
  rcases hcmd with rfl | rfl <;> exact sampleAppend_bounded _

/-- Two records in one segment: the log reads as both. -/
theorem acked_reads_iff_sample : ∃ s : Session, s.acked = [(0, sampleEpisode 0), (1, sampleEpisode 1)] ∧
    (s.log.ReadsAs sampleEnv (s.acked.map Prod.snd) ↔ s.log.catalog.NoEmptyHit sampleEnv) := by
  have h₀ : Run (Session.step sampleEnv 4096) (StepOk sampleEnv) (.start sampleEnv) [] (.start sampleEnv) := .start
  have h₁ := h₀.next [sampleAppend 0, sampleAppend 1] sample_stepOk rfl
  exact ⟨_, by decide +kernel, (acked_reads_iff isBinarySearch_searchFirst sampleEnv_roundTrips h₁).2⟩

/-- **The first record, larger than its segment, is lost to readers** once a second record rolls again: segment 0 is
sealed empty under the same base as the next one, and the search may find it. -/
theorem read_skips_first_record : IsBinarySearch sampleEnv.binarySearch ∧ sampleEnv.RoundTrips ∧
    (runs (Session.step sampleEnv 64) (.start sampleEnv) [[sampleAppend 0], [sampleAppend 1]]).map
        (fun s => (s.acked, s.log.read sampleEnv 0))
      = some ([(0, sampleEpisode 0), (1, sampleEpisode 1)], .ok none) :=
  ⟨isBinarySearch_searchFirst, sampleEnv_roundTrips, by decide +kernel⟩

end Legacy
end Heraclitus
