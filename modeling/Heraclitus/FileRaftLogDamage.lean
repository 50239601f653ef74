import Heraclitus.FileRaftLogRun
/-!
# FileRaftLogDamage — a raft log whose file is damaged

There is no checksum, neither on a record nor on its length.  A reader goes from length to length, so a damaged length can
take it past whole records, or past the end of the file, where it takes what is left for a record that was cut short.
-/
namespace Heraclitus
namespace RaftLog

open Raft (LogId Entry)

variable {env : Codec}

/-! ## The last record of an index -/

/-- Does the record say what stands at index `k`? -/
def LogRecord.touches (k : Nat) : LogRecord → Bool
  | .insert e => decide (e.logId.index = k)
  | .truncate index => decide (index ≤ k)
  | .purge id => decide (k < (id.index + 1) % 2 ^ 64)

/-- The records leave `e` at index `k`: one inserts it, and none behind that one touches the index. -/
def Leaves (recs : List LogRecord) (k : Nat) (e : Entry) : Prop :=
  ∃ front back, recs = front ++ .insert e :: back ∧ e.logId.index = k ∧ ∀ rec ∈ back, rec.touches k = false

theorem get?_filter_eq_some (m : SortedMap Nat Entry) (p : Nat → Bool) (k : Nat) (e : Entry) :
    (m.filter p).get? k = some e ↔ p k = true ∧ m.get? k = some e := by
  rw [SortedMap.get?_filter]
  by_cases hp : p k = true <;> simp [hp]

theorem get?_apply (c : Contents) (rec : LogRecord) (k : Nat) (e : Entry) :
    (c.apply rec).entries.get? k = some e ↔ (rec = .insert e ∧ e.logId.index = k) ∨
      rec.touches k = false ∧ c.entries.get? k = some e := by
  cases rec with
  | insert e' =>
    rw [Contents.apply, Contents.insert, SortedMap.get?_insert, LogRecord.touches, decide_eq_false_iff_not]
    by_cases hk : k = e'.logId.index
    · rw [if_pos hk]
      constructor
      · intro h
        cases h
        exact .inl ⟨rfl, hk.symm⟩
      · rintro (⟨h, -⟩ | ⟨hne, -⟩)
        · cases h
          rfl
        · exact absurd hk.symm hne
    · rw [if_neg hk]
      constructor
      · exact fun h => .inr ⟨fun h' => hk h'.symm, h⟩
      · rintro (⟨h, hindex⟩ | ⟨-, h⟩)
        · cases h
          exact absurd hindex.symm hk
        · exact h
  | truncate index =>
    rw [Contents.apply, Contents.truncate, get?_filter_eq_some, LogRecord.touches, decide_eq_false_iff_not, Nat.not_le,
      decide_eq_true_iff]
    exact ⟨.inr, fun h => h.resolve_left (fun h => by cases h.1)⟩
  | purge id =>
    rw [Contents.apply, Contents.purge, get?_filter_eq_some, LogRecord.touches, decide_eq_false_iff_not, Nat.not_lt,
      decide_eq_true_iff]
    exact ⟨.inr, fun h => h.resolve_left (fun h => by cases h.1)⟩

/-- **What stands at an index** is what the last record that touches it inserts, or what stood there before. -/
theorem get?_foldl_apply (k : Nat) (e : Entry) : ∀ (recs : List LogRecord) (c : Contents),
    (recs.foldl Contents.apply c).entries.get? k = some e ↔
      Leaves recs k e ∨ (∀ rec ∈ recs, rec.touches k = false) ∧ c.entries.get? k = some e
  | [], c => by simp [Leaves]
  | rec :: recs, c => by
    rw [List.foldl_cons, get?_foldl_apply k e recs, get?_apply]
    constructor
    · rintro (⟨front, back, rfl, hindex, hback⟩ | ⟨hrest, ⟨rfl, hindex⟩ | ⟨hrec, hget⟩⟩)
      · exact .inl ⟨rec :: front, back, rfl, hindex, hback⟩
      · exact .inl ⟨[], recs, rfl, hindex, hrest⟩
      · exact .inr ⟨List.forall_mem_cons.2 ⟨hrec, hrest⟩, hget⟩
    · rintro (⟨front, back, heq, hindex, hback⟩ | ⟨hall, hget⟩)
      · cases front with
        | nil =>
          obtain ⟨rfl, rfl⟩ := List.cons.inj heq
          exact .inr ⟨hback, .inl ⟨rfl, hindex⟩⟩
        | cons q front =>
          obtain ⟨rfl, rfl⟩ := List.cons.inj heq
          exact .inl ⟨front, back, rfl, hindex, hback⟩
      · exact .inr ⟨(List.forall_mem_cons.1 hall).2, .inr ⟨(List.forall_mem_cons.1 hall).1, hget⟩⟩

theorem get?_foldl_apply_empty (k : Nat) (e : Entry) (recs : List LogRecord) :
    (recs.foldl Contents.apply {}).entries.get? k = some e ↔ Leaves recs k e := by
  rw [get?_foldl_apply]
  exact ⟨fun h => h.resolve_right (fun h => by cases h.2), .inl⟩

theorem Leaves.append {recs : List LogRecord} {k : Nat} {e : Entry} (h : Leaves recs k e) (front : List LogRecord) :
    Leaves (front ++ recs) k e := by
  obtain ⟨front', back, rfl, hindex, hback⟩ := h
  exact ⟨front ++ front', back, by rw [List.append_assoc], hindex, hback⟩

/-! ## Opening any file -/

variable (env) in
/-- What `bincode` can read it can write. -/
def Codec.Reencodes : Prop := ∀ b rec, env.decodeRecord b = .ok rec → ∃ b', env.encodeRecord rec = .ok b'

theorem keyed_foldl {ok : LogRecord → Prop} : ∀ (recs : List LogRecord) (c : Contents), Keyed ok c → (∀ rec ∈ recs, ok rec) →
    Keyed ok (recs.foldl Contents.apply c)
  | [], _, h, _ => h
  | rec :: recs, _, h, hok =>
    keyed_foldl recs _ (h.apply (hok rec List.mem_cons_self)) (fun r hr => hok r (List.mem_cons_of_mem rec hr))

theorem Decodes.encodes (henc : env.Reencodes) {ps : List Bytes} {recs : List LogRecord} (h : Decodes env ps recs) :
    ∀ rec ∈ recs, ∃ b, env.encodeRecord rec = .ok b := by
  induction h with
  | nil => simp
  | cons hp _ ih => exact List.forall_mem_cons.2 ⟨henc _ _ hp, ih⟩

theorem Decodes.unique {ps : List Bytes} {recs recs' : List LogRecord} (h : Decodes env ps recs) (h' : Decodes env ps recs') :
    recs = recs' := by
  induction h generalizing recs' with
  | nil =>
    cases h'
    rfl
  | cons hp _ ih =>
    cases h' with
    | cons hp' hrest =>
      cases hp.symm.trans hp'
      rw [ih hrest]

/-- **A log that replays opens**, with what the replay found. -/
theorem openLog_of_replay {s : Node} {r : Replayed} {info : Meta} (hreplay : replay env s.disk.wal = .ok r)
    (hinfo : loadMeta env s.disk.metaFile = .ok info)
    (hkeyed : Keyed (fun rec => ∃ b, env.encodeRecord rec = .ok b) r.toContents) :
    ∃ s', openLog env s none = (.ok (), s', none) ∧ s'.inner = { toContents := r.toContents, info := info } := by
  have hwp : (openLog env).wp ⟨fun _ s' => s'.inner = { toContents := r.toContents, info := info }, fun _ _ => False,
      fun _ _ _ => True, fun _ => True⟩ s := by
    refine Prog.wp_get_bind (Prog.wp_ofExcept_ok hreplay (Prog.wp_step_bind (fun _ => trivial) trivial
      (Prog.wp_ofExcept_ok hinfo (Prog.wp_modify_bind ?_))))
    split
    · refine Prog.wp_step_bind (fun _ => trivial) trivial (Prog.wp_get_bind (Prog.wp_bind ?_))
      exact wp_writeTmp _ _ [] hkeyed.live rfl (fun s' hs _ => Prog.wp_step hs (fun _ => trivial) trivial)
        (fun _ _ _ => trivial) (fun _ _ _ => trivial)
    · exact Prog.wp_pure rfl
  rcases hwp.run with ⟨_, s', hrun, hinner⟩ | ⟨_, _, _, -, ⟨⟩⟩
  exact ⟨s', hrun, hinner⟩

/-! ## The vote file -/

variable (env) in
/-- The vote file, if there is one, can be read. -/
def MetaReadable (s : Node) : Prop := ∃ info, loadMeta env s.disk.metaFile = .ok info

/-- However the program stops, `M` holds. -/
def always (M : Node → Prop) : Post Site Node StorageError Unit := ⟨fun _ => M, fun _ => M, fun _ _ => M, M⟩

theorem holds_always {M : Node → Prop} {m : Option (Mishap Site)} :
    ∀ {r : Except (Stop StorageError) Unit × Node × Option (Mishap Site)}, (always M).Holds m r → M r.2.1
  | (.ok _, _, _), h => h.1
  | (.error (.refused _), _, _), h => h
  | (.error .failed, _, _), ⟨_, _, _, h⟩ => h
  | (.error .died, _, _), h => h.2

section MetaReadable

variable {s : Node}

theorem MetaReadable.of_metaFile {s s' : Node} (h : MetaReadable env s) (heq : s'.disk.metaFile = s.disk.metaFile) :
    MetaReadable env s' := by
  unfold MetaReadable
  rw [heq]
  exact h

theorem MetaReadable.appendRecord (h : MetaReadable env s) (rec : LogRecord) :
    (appendRecord env rec).wp (always (MetaReadable env)) s :=
  Prog.wp_ofExcept_bind (fun _ _ => Prog.wp_write h (fun _ => h) (fun _ => h)) (fun _ _ => h)

theorem MetaReadable.writeTmp : ∀ (recs : List LogRecord) {s : Node}, MetaReadable env s →
    (writeTmp env recs).wp (always (MetaReadable env)) s
  | [], _, h => Prog.wp_pure h
  | _ :: recs, _, h => Prog.wp_ofExcept_bind (fun _ _ => Prog.wp_write_bind (fun _ => h) (fun _ => h)
      (MetaReadable.writeTmp recs (h.of_metaFile rfl))) (fun _ _ => h)

theorem MetaReadable.rewriteWal (h : MetaReadable env s) : (rewriteWal env).wp (always (MetaReadable env)) s := by
  refine Prog.wp_step_bind (fun _ => h) h (Prog.wp_get_bind (Prog.wp_bind ?_))
  refine (MetaReadable.writeTmp _ (s := { s with disk := { s.disk with walTmp := some [] } }) (h.of_metaFile rfl)).mono (fun _ s' hs => ?_) (fun _ _ hs => hs) (fun _ _ _ hs => hs)
    (fun _ hs => hs)
  exact Prog.wp_step (hs.of_metaFile rfl) (fun _ => hs) hs

theorem MetaReadable.writeMeta (hcodec : env.RoundTrips) (h : MetaReadable env s) :
    (writeMeta env).wp (always (MetaReadable env)) s := by
  refine Prog.wp_get_bind (Prog.wp_ofExcept_bind (fun b hb => Prog.wp_write_bind (fun _ => h) (fun _ => h)
    (Prog.wp_step ⟨s.inner.info, ?_⟩ (fun _ => h) h)) (fun _ _ => h))
  have henc : env.encodeMeta s.inner.info = .ok b := by
    cases hm : env.encodeMeta s.inner.info with
    | ok b' =>
      rw [hm] at hb
      cases hb
      rfl
    | error e =>
      rw [hm] at hb
      cases hb
  rw [loadMeta, hcodec.info _ _ henc]
  rfl

theorem MetaReadable.openLog (h : MetaReadable env s) : (openLog env).wp (always (MetaReadable env)) s := by
  refine Prog.wp_get_bind (Prog.wp_ofExcept_bind (fun r _ => Prog.wp_step_bind (fun _ => h) h
    (Prog.wp_ofExcept_bind (fun _ _ => Prog.wp_modify_bind ?_) (fun _ _ => h))) (fun _ _ => h))
  split
  · exact MetaReadable.rewriteWal (h.of_metaFile rfl)
  · exact Prog.wp_pure h

theorem MetaReadable.appendSync : ∀ (es : List Entry) {s : Node}, MetaReadable env s →
    (appendSync env es).wp (always (MetaReadable env)) s
  | [], _, h => Prog.wp_pure h
  | e :: es, _, h => Prog.wp_bind ((h.appendRecord (.insert e)).mono
      (fun _ _ hs => Prog.wp_modify_bind (MetaReadable.appendSync es (hs.of_metaFile rfl))) (fun _ _ hs => hs)
      (fun _ _ _ hs => hs) (fun _ hs => hs))

theorem MetaReadable.call (hcodec : env.RoundTrips) (h : MetaReadable env s) :
    ∀ c : Call, (c.run env).wp (always (MetaReadable env)) s
  | .appendSync es => MetaReadable.appendSync es h
  | .truncate id => Prog.wp_bind ((h.appendRecord (.truncate id.index)).mono
      (fun _ _ hs => Prog.wp_modify (hs.of_metaFile rfl)) (fun _ _ hs => hs) (fun _ _ _ hs => hs) (fun _ hs => hs))
  | .purge id => Prog.wp_bind ((h.appendRecord (.purge id)).mono
      (fun _ _ hs => Prog.wp_modify_bind (MetaReadable.rewriteWal (hs.of_metaFile rfl))) (fun _ _ hs => hs)
      (fun _ _ _ hs => hs) (fun _ hs => hs))
  | .saveVote _ => Prog.wp_modify_bind (MetaReadable.writeMeta hcodec (h.of_metaFile rfl))
  | .saveCommitted _ => Prog.wp_modify_bind (MetaReadable.writeMeta hcodec (h.of_metaFile rfl))

end MetaReadable

theorem World.called_metaReadable {w : World} {c : Call} :
    ∀ {r : Except (Stop StorageError) Unit × Node × Option (Mishap Site)}, MetaReadable env r.2.1 →
      MetaReadable env (w.called c r).node
  | (.ok _, _, _), h => h
  | (.error (.refused _), _, _), h => h
  | (.error .failed, _, _), h => h
  | (.error .died, _, _), h => h

theorem World.opened_metaReadable {w : World} :
    ∀ {r : Except (Stop StorageError) Unit × Node × Option (Mishap Site)}, MetaReadable env r.2.1 →
      MetaReadable env (w.opened r).node
  | (.ok _, _, _), h => h
  | (.error _, _, _), h => h

/-- **The vote file can always be read.** -/
theorem metaReadable_of_run (hcodec : env.RoundTrips) {ok : World → Act → Prop} {acts : List Act} {w : World}
    (h : Run (World.step env) ok {} acts w) : MetaReadable env w.node := by
  induction h with
  | start => exact ⟨{}, rfl⟩
  | @next _ w w' a _ _ hstep hw =>
    cases a with
    | call c x =>
      rw [World.step] at hstep
      split at hstep
      · cases hstep
        exact World.called_metaReadable (holds_always (hw.call hcodec c _))
      · cases hstep
    | stop =>
      rw [World.step] at hstep
      split at hstep
      · cases hstep
        exact hw
      · cases hstep
    | reopen x =>
      rw [World.step] at hstep
      split at hstep
      · cases hstep
      · cases hstep
        exact World.opened_metaReadable (holds_always (MetaReadable.openLog (s := w.node.gone) hw _))

/-! ## Damage -/

variable (env) in
/-- **Nothing behind the damage is dropped**: opening this file instead of the log's own fails, or nothing is cut from the file
and the entries that the later records leave are in the log. -/
def World.Keeps (w : World) (file : Bytes) (after : List LogRecord) : Prop :=
  ∀ s m, openLog env { disk := { w.node.disk with wal := some file } } none = (.ok (), s, m) →
    (∀ r, replay env (some file) = .ok r → r.validLen = file.length) ∧
    ∀ k e, Leaves after k e → s.inner.entries.get? k = some e

variable (env) in
/-- Going from length to length, the reader meets a payload that does not decode; or it ends where the file ends, and reads
every entry that the later records leave without reading anything that touches its index behind it. -/
def Reread (file : Bytes) (after : List LogRecord) : Prop :=
  (∃ p ∈ (frames file).1, ∃ e, env.decodeRecord p = .error e) ∨
    (frames file).2 = [] ∧ ∃ recs, Decodes env (frames file).1 recs ∧ ∀ k e, Leaves after k e → Leaves recs k e

theorem keeps_iff_reread (henc : env.Reencodes) {w : World} (hmeta : MetaReadable env w.node) (file : Bytes)
    (after : List LogRecord) : w.Keeps env file after ↔ Reread env file after := by
  rcases decodes_or env (frames file).1 with ⟨recs, hrecs⟩ | ⟨p, hp, e, he⟩
  · obtain ⟨r, hread, hcontents, hlen⟩ := ({} : Replayed).readAll_of_decodes hrecs
    have hreplay : replay env (some file) = .ok r := replay_eq.trans hread
    have hkeyed : Keyed (fun rec => ∃ b, env.encodeRecord rec = .ok b) r.toContents := by
      rw [hcontents]
      exact keyed_foldl recs _ keyed_empty (Decodes.encodes henc hrecs)
    obtain ⟨info, hinfo⟩ := hmeta
    obtain ⟨s, hopen, hinner⟩ := openLog_of_replay (s := { disk := { w.node.disk with wal := some file } }) hreplay hinfo
      hkeyed
    have hentries : ∀ k e, s.inner.entries.get? k = some e ↔ Leaves recs k e := fun k e => by
      rw [hinner]
      show r.entries.get? k = some e ↔ _
      rw [hcontents]
      exact get?_foldl_apply_empty k e recs
    have hwhole : r.validLen = file.length ↔ (frames file).2 = [] := by
      have hsum := length_frames _ file (Nat.le_refl _)
      have hvalid : r.validLen = ((frames file).1.map (fun p => 4 + p.length)).sum := hlen.trans (Nat.zero_add _)
      rw [hvalid, ← List.length_eq_zero_iff]
      omega
    constructor
    · intro hkeeps
      obtain ⟨hcut, hall⟩ := hkeeps s none hopen
      exact .inr ⟨hwhole.1 (hcut r hreplay), recs, hrecs, fun k e hleaves => (hentries k e).1 (hall k e hleaves)⟩
    · rintro (⟨p, hp, e, he⟩ | ⟨hrest, recs', hrecs', hall⟩) s' m hopen'
      · obtain ⟨e', he'⟩ := Replayed.readAll_of_undecodable he hp {}
        cases hread.symm.trans he'
      · cases hopen.symm.trans hopen'
        rw [Decodes.unique hrecs' hrecs] at hall
        refine ⟨fun r' hr' => ?_, fun k e hleaves => (hentries k e).2 (hall k e hleaves)⟩
        cases hreplay.symm.trans hr'
        exact hwhole.2 hrest
  · obtain ⟨e', he'⟩ := Replayed.readAll_of_undecodable he hp {}
    refine ⟨fun _ => .inl ⟨p, hp, e, he⟩, fun _ s m hopen => ?_⟩
    rw [openLog_of_corrupt (s := { disk := { w.node.disk with wal := some file } }) (replay_eq.trans he')] at hopen
    cases hopen

/-- **Damage that the reader leaves at its end does no harm.** -/
theorem reread_of_boundary (hcodec : env.RoundTrips) {before after : List LogRecord} (hbefore : ∀ rec ∈ before, small env rec = true)
    (hafter : ∀ rec ∈ after, small env rec = true) {damaged : Bytes} (hdamaged : (frames damaged).2 = []) :
    Reread env (walBytes env before ++ (damaged ++ walBytes env after)) after := by
  have hsmall : ∀ recs : List LogRecord, (∀ rec ∈ recs, small env rec = true) →
      ∀ p ∈ recs.map (payload env), p.length < 2 ^ 32 := by
    intro recs hrecs p hp
    obtain ⟨rec, hrec, rfl⟩ := List.mem_map.1 hp
    exact (encodeRecord_of_small env (hrecs rec hrec)).2
  have hdecodes : ∀ recs : List LogRecord, (∀ rec ∈ recs, small env rec = true) → Decodes env (recs.map (payload env)) recs := by
    intro recs hrecs
    rw [Decodes, List.forall₂_map_left_iff, List.forall₂_same]
    exact fun rec hrec => hcodec.record _ _ (encodeRecord_of_small env (hrecs rec hrec)).1
  have hframes : frames (walBytes env before ++ (damaged ++ walBytes env after))
      = (before.map (payload env) ++ ((frames damaged).1 ++ after.map (payload env)), []) := by
    rw [walBytes, frames_append (hsmall before hbefore), frames_append_of_whole _ _ _ (Nat.le_refl _) hdamaged, walBytes,
      frames_flatMap (hsmall after hafter)]
  rcases decodes_or env (frames damaged).1 with ⟨recs, hrecs⟩ | ⟨p, hp, e, he⟩
  · refine .inr ⟨by rw [hframes], before ++ (recs ++ after), ?_, fun k e hleaves => (hleaves.append recs).append before⟩
    rw [hframes]
    exact List.rel_append (hdecodes before hbefore) (List.rel_append hrecs (hdecodes after hafter))
  · refine .inl ⟨p, ?_, e, he⟩
    rw [hframes]
    exact List.mem_append_right _ (List.mem_append_left _ hp)

/-- **Damage that spares the length prefix does no harm.** -/
theorem reread_of_payload (hcodec : env.RoundTrips) {before after : List LogRecord} (hbefore : ∀ rec ∈ before, small env rec = true)
    (hafter : ∀ rec ∈ after, small env rec = true) {rec : LogRecord} (hrec : small env rec = true) {damaged : Bytes}
    (hdamaged : damaged.length = (payload env rec).length) :
    Reread env (walBytes env before ++ (leBytes 4 (payload env rec).length ++ damaged ++ walBytes env after)) after := by
  have hlen : damaged.length < 2 ^ 32 := hdamaged ▸ (encodeRecord_of_small env hrec).2
  refine reread_of_boundary hcodec hbefore hafter ?_
  have hframe : leBytes 4 (payload env rec).length ++ damaged = [damaged].flatMap frame := by
    rw [List.flatMap_singleton, frame, hdamaged]
  rw [hframe, frames_flatMap (by simpa using hlen)]

/-! ## A damaged length -/

theorem readFixed_lt {w n : Nat} {bytes rest : Bytes} (h : readFixed w bytes = .ok (n, rest)) : n < 256 ^ w := by
  rw [readFixed] at h
  split at h
  · cases h
  · rename_i hw
    cases h
    have hlen : (bytes.take w).length = w := by
      rw [List.length_take]
      omega
    have hlt := leNat_lt (bytes.take w)
    rwa [hlen] at hlt

theorem readVarint_lt {bytes : Bytes} {x : Nat × Bytes} (h : readVarint bytes = .ok x) : x.1 < 2 ^ 64 := by
  cases bytes with
  | nil => cases h
  | cons b bytes =>
    rw [readVarint] at h
    split at h
    · exact Nat.lt_trans (readFixed_lt h) (by decide)
    · split at h
      · exact Nat.lt_trans (readFixed_lt h) (by decide)
      · split at h
        · exact readFixed_lt h
        · cases h
          exact Nat.lt_trans b.toNat_lt (by decide)

theorem readId_wide {bytes : Bytes} {x : LogId × Bytes} (h : readId bytes = .ok x) : wideId x.1 = true := by
  obtain ⟨term, hterm, h⟩ := ok_of_bind h
  obtain ⟨node, hnode, h⟩ := ok_of_bind h
  obtain ⟨index, hindex, h⟩ := ok_of_bind h
  cases h
  simp only [wideId, Bool.and_eq_true, decide_eq_true_eq]
  exact ⟨⟨readVarint_lt hterm, readVarint_lt hnode⟩, readVarint_lt hindex⟩

theorem readPayload_encodes {bytes : Bytes} {payload : Raft.EntryPayload} (h : readPayload bytes = .ok payload) {id : LogId}
    (hid : wideId id = true) : ∃ b, sampleEncodeRecord (.insert { logId := id, payload := payload }) = .ok b := by
  unfold readPayload at h
  split at h
  · cases h
    exact ⟨_, if_pos hid⟩
  · obtain ⟨len, hlen, h⟩ := ok_of_bind h
    obtain ⟨hle, h⟩ := guard_eq_ok.1 h
    cases h
    have hbytes : (len.2.take len.1).length < 2 ^ 64 := by
      have := readVarint_lt hlen
      rw [List.length_take]
      omega
    exact ⟨_, (if_pos hid).trans (if_pos hbytes)⟩
  · cases h

theorem sampleCodec_reencodes : sampleCodec.Reencodes := by
  intro b rec h
  change sampleDecodeRecord b = .ok rec at h
  show ∃ b', sampleEncodeRecord rec = .ok b'
  unfold sampleDecodeRecord at h
  split at h
  · obtain ⟨id, hid, h⟩ := ok_of_bind h
    obtain ⟨payload, hpayload, h⟩ := ok_of_bind h
    cases h
    exact readPayload_encodes hpayload (readId_wide hid)
  · obtain ⟨index, hindex, h⟩ := ok_of_bind h
    cases h
    exact ⟨_, if_pos (readVarint_lt hindex)⟩
  · obtain ⟨id, hid, h⟩ := ok_of_bind h
    cases h
    exact ⟨_, if_pos (readId_wide hid)⟩
  · cases h

/-- A log of three entries. -/
def sampleAppends : List Act := [.reopen none, .call (.appendSync [sampleEntry 1, sampleEntry 2, sampleEntry 3]) none]

def sampleAfter : List LogRecord := [.insert (sampleEntry 2), .insert (sampleEntry 3)]

/-- The first record with one bit of its length flipped. -/
def sampleDamaged : Bytes := [8, 0, 0, 1] ++ payload sampleCodec (.insert (sampleEntry 1))

theorem sampleAppends_runs : ∃ w : World, runs (World.step sampleCodec) {} sampleAppends = some w ∧ w.node.disk.wal
    = some ([] ++ (frame (payload sampleCodec (.insert (sampleEntry 1))) ++ walBytes sampleCodec sampleAfter)) := by
  have h : ∃ w ∈ runs (World.step sampleCodec) {} sampleAppends, w.node.disk.wal = some ([] ++ (frame (payload sampleCodec
      (.insert (sampleEntry 1))) ++ walBytes sampleCodec sampleAfter)) := by
    decide +kernel
  exact h

/-- The first record with its payload overwritten. -/
theorem reread_of_payload_sample :
    Reread sampleCodec (walBytes sampleCodec [] ++ (leBytes 4 (payload sampleCodec (.insert (sampleEntry 1))).length ++
      List.replicate (payload sampleCodec (.insert (sampleEntry 1))).length 255 ++ walBytes sampleCodec sampleAfter)) sampleAfter := by
  have hafter : ∀ rec ∈ sampleAfter, small sampleCodec rec = true := by decide +kernel
  have hrec : small sampleCodec (.insert (sampleEntry 1)) = true := by decide +kernel
  exact reread_of_payload sampleCodec_roundTrips (fun _ h => absurd h List.not_mem_nil) hafter hrec List.length_replicate

end RaftLog
end Heraclitus
