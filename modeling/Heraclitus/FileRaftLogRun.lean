import Heraclitus.FileRaftLog
import Heraclitus.Lib.Run
/-!
# FileRaftLogRun — the raft log over calls, crashes and openings

The file holds records one after another and, behind them, at most a piece of one.  Replaying them gives what the mirror
held.  So a log that is opened, whatever write the crash cut short, is what the last call left or what the call in progress
was about to leave.
-/
namespace Heraclitus
namespace RaftLog

open Raft (LogId Entry)

variable (env : Codec)

/-- What `bincode` writes, it reads back. -/
structure Codec.RoundTrips : Prop where
  record : ∀ rec b, env.encodeRecord rec = .ok b → env.decodeRecord b = .ok rec
  info : ∀ m b, env.encodeMeta m = .ok b → env.decodeMeta b = .ok m

/-- The encoded record's length fits the four bytes in front of it. -/
def small (rec : LogRecord) : Bool :=
  match env.encodeRecord rec with
  | .ok b => decide (b.length < 2 ^ 32)
  | .error _ => false

def payload (rec : LogRecord) : Bytes :=
  match env.encodeRecord rec with
  | .ok b => b
  | .error _ => []

/-- The file that holds these records. -/
def walBytes (recs : List LogRecord) : Bytes := (recs.map (payload env)).flatMap frame

theorem encodeRecord_of_small {rec : LogRecord} (h : small env rec = true) :
    env.encodeRecord rec = .ok (payload env rec) ∧ (payload env rec).length < 2 ^ 32 := by
  unfold small at h
  unfold payload
  cases henc : env.encodeRecord rec with
  | ok b =>
    rw [henc] at h
    exact ⟨rfl, of_decide_eq_true h⟩
  | error e =>
    rw [henc] at h
    cases h

@[simp] theorem walBytes_append (recs recs' : List LogRecord) :
    walBytes env (recs ++ recs') = walBytes env recs ++ walBytes env recs' := by
  simp [walBytes]

@[simp] theorem walBytes_singleton (rec : LogRecord) : walBytes env [rec] = frame (payload env rec) := by
  simp [walBytes]

/-! ## What a file holds -/

/-- These bytes are records, and the records leave these contents. -/
def Recorded (bytes : Bytes) (c : Contents) : Prop :=
  ∃ recs, (∀ rec ∈ recs, small env rec = true) ∧ bytes = walBytes env recs ∧ recs.foldl Contents.apply {} = c

variable {env}

theorem recorded_nil : Recorded env [] {} := ⟨[], by simp, rfl, rfl⟩

theorem Recorded.append {bytes : Bytes} {c : Contents} (h : Recorded env bytes c) {rec : LogRecord}
    (hrec : small env rec = true) : Recorded env (bytes ++ frame (payload env rec)) (c.apply rec) := by
  obtain ⟨recs, hsmall, rfl, rfl⟩ := h
  refine ⟨recs ++ [rec], ?_, by simp, by simp⟩
  intro r hr
  rcases List.mem_append.1 hr with hr | hr
  · exact hsmall r hr
  · exact List.mem_singleton.1 hr ▸ hrec

/-- **Records are replayed**, and what is left of one behind them is not counted. -/
theorem Recorded.replay {bytes tail : Bytes} {c : Contents} (hcodec : env.RoundTrips) (h : Recorded env bytes c)
    (htail : splitFrame tail = none) : ∃ r, RaftLog.replay env (some (bytes ++ tail)) = .ok r ∧ r.toContents = c ∧
      r.validLen = bytes.length := by
  obtain ⟨recs, hsmall, rfl, rfl⟩ := h
  have hlens : ∀ p ∈ recs.map (payload env), p.length < 2 ^ 32 := by
    intro p hp
    obtain ⟨rec, hrec, rfl⟩ := List.mem_map.1 hp
    exact (encodeRecord_of_small env (hsmall rec hrec)).2
  have hframes : frames (walBytes env recs ++ tail) = (recs.map (payload env), tail) := by
    rw [walBytes, frames_append hlens, frames_of_none htail, List.append_nil]
  have hdecodes : Decodes env (recs.map (payload env)) recs := by
    rw [Decodes, List.forall₂_map_left_iff, List.forall₂_same]
    exact fun rec hrec => hcodec.record _ _ (encodeRecord_of_small env (hsmall rec hrec)).1
  obtain ⟨r, hread, hcontents, hlen⟩ := ({} : Replayed).readAll_of_decodes hdecodes
  refine ⟨r, ?_, hcontents, ?_⟩
  · rw [replay_eq, hframes]
    exact hread
  · have hsum := length_frames _ (walBytes env recs ++ tail) (Nat.le_refl _)
    rw [hframes, List.length_append] at hsum
    rw [hlen]
    exact (Nat.zero_add _).trans (Nat.add_right_cancel hsum)

/-- Every entry stands at its own index, and whatever a compaction writes meets `ok`. -/
structure Keyed (ok : LogRecord → Prop) (c : Contents) : Prop where
  index : ∀ x ∈ c.entries.entries, x.2.logId.index = x.1
  entries : ∀ x ∈ c.entries.entries, ok (.insert x.2)
  purged : ∀ id ∈ c.lastPurged, ok (.purge id)

theorem keyed_empty {ok : LogRecord → Prop} : Keyed ok {} := ⟨by simp [SortedMap.empty], by simp [SortedMap.empty], by simp⟩

theorem Keyed.apply {ok : LogRecord → Prop} {c : Contents} (h : Keyed ok c) {rec : LogRecord} (hrec : ok rec) :
    Keyed ok (c.apply rec) := by
  cases rec with
  | insert e =>
    have hcases : ∀ x ∈ (c.insert e).entries.entries, x = (e.logId.index, e) ∨ x ∈ c.entries.entries := by
      intro x hx
      have hget := SortedMap.get?_eq_some.2 hx
      rw [Contents.insert, SortedMap.get?_insert] at hget
      split at hget
      · rename_i hk
        cases hget
        exact .inl (Prod.ext hk rfl)
      · exact .inr (SortedMap.get?_eq_some.1 hget)
    refine ⟨fun x hx => ?_, fun x hx => ?_, h.purged⟩
    · rcases hcases x hx with rfl | hx
      · rfl
      · exact h.index x hx
    · rcases hcases x hx with rfl | hx
      · exact hrec
      · exact h.entries x hx
  | truncate index =>
    exact ⟨fun x hx => h.index x (List.mem_filter.1 hx).1, fun x hx => h.entries x (List.mem_filter.1 hx).1, h.purged⟩
  | purge id =>
    refine ⟨fun x hx => h.index x (List.mem_filter.1 hx).1, fun x hx => h.entries x (List.mem_filter.1 hx).1, ?_⟩
    intro id' hid
    cases hid
    exact hrec

theorem foldl_insert (p : Option LogId) : ∀ (l : List (Nat × Entry)), (∀ x ∈ l, x.2.logId.index = x.1) →
    ∀ m : SortedMap Nat Entry, (l.map (fun x => LogRecord.insert x.2)).foldl Contents.apply { entries := m, lastPurged := p }
      = { entries := l.foldl (fun m x => m.insert x.1 x.2) m, lastPurged := p }
  | [], _, _ => rfl
  | x :: l, h, m => by
    rw [List.map_cons, List.foldl_cons, Contents.apply, Contents.insert, h x List.mem_cons_self,
      foldl_insert p l (fun y hy => h y (List.mem_cons_of_mem x hy)), List.foldl_cons]

theorem Keyed.live {ok : LogRecord → Prop} {c : Contents} (h : Keyed ok c) : ∀ rec ∈ c.live, ok rec := by
  intro rec hrec
  rcases List.mem_append.1 hrec with hrec | hrec
  · obtain ⟨id, hid, rfl⟩ := List.mem_map.1 hrec
    exact h.purged id (Option.mem_toList.1 hid)
  · obtain ⟨x, hx, rfl⟩ := List.mem_map.1 hrec
    exact h.entries x hx

/-- **A compacted file holds what is live.** -/
theorem Keyed.recorded_live {c : Contents} (h : Keyed (small env · = true) c) : Recorded env (walBytes env c.live) c := by
  have hmap : SortedMap.extend .empty c.entries = c.entries := by
    ext1 k
    rw [SortedMap.get?_extend, SortedMap.get?_empty, Option.or_none]
  have hpurge : (c.lastPurged.toList.map LogRecord.purge).foldl Contents.apply {}
      = { entries := .empty, lastPurged := c.lastPurged } := by
    cases c.lastPurged <;> rfl
  refine ⟨c.live, h.live, rfl, ?_⟩
  rw [Contents.live, List.foldl_append, hpurge, foldl_insert _ _ h.index]
  exact congrArg (fun m => ({ entries := m, lastPurged := c.lastPurged } : Contents)) hmap

variable (env) in
/-- The directory holds this log, and `tail` is left of a record that was cut short. -/
structure Stored (d : Disk) (tail : Bytes) (inner : Inner) : Prop where
  wal : ∃ bytes, d.wal.getD [] = bytes ++ tail ∧ Recorded env bytes inner.toContents
  torn : splitFrame tail = none
  info : loadMeta env d.metaFile = .ok inner.info
  keyed : Keyed (small env · = true) inner.toContents

variable (env) in
/-- The process died, and the directory holds one of these logs. -/
def Left (logs : Inner → Prop) (s : Node) : Prop := ∃ tail inner, logs inner ∧ Stored env s.disk tail inner

/-- The temporary files are of no account. -/
theorem Stored.of_disk {d d' : Disk} {tail : Bytes} {inner : Inner} (h : Stored env d tail inner) (hwal : d'.wal = d.wal)
    (hmeta : d'.metaFile = d.metaFile) : Stored env d' tail inner := by
  refine ⟨?_, h.torn, ?_, h.keyed⟩
  · rw [hwal]
    exact h.wal
  · rw [hmeta]
    exact h.info

/-! ## One write after another -/

section Writes

variable {s : Node} {S : Post Site Node StorageError Unit}

theorem encodeRecord_eq {rec : LogRecord} (h : ∃ b, env.encodeRecord rec = .ok b) :
    encodeRecord env rec = .ok (frame (payload env rec)) := by
  obtain ⟨b, hb⟩ := h
  simp only [encodeRecord, payload, hb]

theorem Stored.appended {d : Disk} {inner : Inner} (h : Stored env d [] inner) {rec : LogRecord}
    (hrec : small env rec = true) : Stored env (d.appendWal (frame (payload env rec))) []
      { inner with toContents := inner.toContents.apply rec } := by
  obtain ⟨bytes, hwal, hrecorded⟩ := h.wal
  rw [List.append_nil] at hwal
  refine ⟨⟨bytes ++ frame (payload env rec), ?_, hrecorded.append hrec⟩, h.torn, h.info, h.keyed.apply hrec⟩
  rw [Disk.appendWal, hwal, Option.getD_some, List.append_nil]

/-- **A record that is cut short is not there, or all of it is.** -/
theorem Stored.torn_append {d : Disk} {inner : Inner} (h : Stored env d [] inner) {rec : LogRecord}
    (hrec : small env rec = true) (n : Nat) :
    (∃ tail, Stored env (d.appendWal ((frame (payload env rec)).take n)) tail inner) ∨
      Stored env (d.appendWal ((frame (payload env rec)).take n)) []
        { inner with toContents := inner.toContents.apply rec } := by
  by_cases hn : n < (frame (payload env rec)).length
  · obtain ⟨bytes, hwal, hrecorded⟩ := h.wal
    rw [List.append_nil] at hwal
    refine .inl ⟨(frame (payload env rec)).take n, ⟨bytes, ?_, hrecorded⟩,
      splitFrame_take (encodeRecord_of_small env hrec).2 hn, h.info, h.keyed⟩
    rw [Disk.appendWal, hwal, Option.getD_some]
  · rw [List.take_of_length_le (Nat.not_lt.1 hn)]
    exact .inr (h.appended hrec)

theorem wp_appendRecord {rec : LogRecord} (h : Stored env s.disk [] s.inner) (hrec : small env rec = true)
    (hok : ∀ s', s'.inner = s.inner → Stored env s'.disk [] { s.inner with toContents := s.inner.toContents.apply rec } →
      S.ok () s')
    (hfailed : ∀ k part s', S.failed k part s')
    (hdied : ∀ s', Left env (fun inner => inner = s.inner ∨
      inner = { s.inner with toContents := s.inner.toContents.apply rec }) s' → S.died s') :
    (appendRecord env rec).wp S s := by
  refine Prog.wp_ofExcept_ok (encodeRecord_eq ⟨_, (encodeRecord_of_small env hrec).1⟩) (Prog.wp_write (hok _ rfl (h.appended hrec)) (fun _ => hfailed _ _ _) ?_)
  intro n
  rcases h.torn_append hrec n with ⟨tail, hstored⟩ | hstored
  · exact hdied _ ⟨tail, _, .inl rfl, hstored⟩
  · exact hdied _ ⟨[], _, .inr rfl, hstored⟩

/-- The temporary file takes the records, and nothing else changes. -/
theorem wp_writeTmp : ∀ (recs : List LogRecord) (s : Node) (done : Bytes),
    (∀ rec ∈ recs, ∃ b, env.encodeRecord rec = .ok b) → s.disk.walTmp = some done →
    (∀ s', s'.inner = s.inner → s'.disk = { s.disk with walTmp := some (done ++ walBytes env recs) } → S.ok () s') →
    (∀ k part s', S.failed k part s') →
    (∀ s', s'.disk.wal = s.disk.wal → s'.disk.metaFile = s.disk.metaFile → S.died s') →
    (writeTmp env recs).wp S s
  | [], s, done, _, htmp, hok, _, _ => by
    refine Prog.wp_pure (hok s rfl ?_)
    rw [walBytes, List.map_nil, List.flatMap_nil, List.append_nil, ← htmp]
  | rec :: recs, s, done, henc, htmp, hok, hfailed, hdied => by
    refine Prog.wp_ofExcept_ok (encodeRecord_eq (henc rec List.mem_cons_self)) (Prog.wp_write_bind
      (fun _ => hfailed _ _ _) (fun n => hdied _ rfl rfl) ?_)
    refine wp_writeTmp recs _ (done ++ frame (payload env rec)) (fun r hr => henc r (List.mem_cons_of_mem rec hr)) ?_ ?_
      hfailed (fun s' hwal hmeta => hdied s' hwal hmeta)
    · rw [Disk.appendTmp, htmp]
      rfl
    · intro s' hinner hdisk
      refine hok s' hinner ?_
      rw [hdisk, ← List.singleton_append, walBytes_append, walBytes_singleton, List.append_assoc]
      rfl

/-- **A compaction keeps the log**, wherever it is cut short. -/
theorem wp_rewriteWal (h : Stored env s.disk [] s.inner)
    (hok : ∀ s', s'.inner = s.inner → Stored env s'.disk [] s.inner → S.ok () s') (hfailed : ∀ k part s', S.failed k part s')
    (hdied : ∀ s', Stored env s'.disk [] s.inner → S.died s') : (rewriteWal env).wp S s := by
  have hlive := h.keyed.recorded_live
  have henc : ∀ rec ∈ s.inner.live, ∃ b, env.encodeRecord rec = .ok b := fun rec hrec =>
    ⟨_, (encodeRecord_of_small env (h.keyed.live rec hrec)).1⟩
  refine Prog.wp_step_bind (fun _ => hfailed _ _ _) (hdied s h) (Prog.wp_get_bind (Prog.wp_bind ?_))
  refine wp_writeTmp _ _ [] henc rfl (fun s' hinner hdisk => ?_) hfailed
    (fun s' hwal hmeta => hdied s' (h.of_disk hwal hmeta))
  have hunrenamed : Stored env s'.disk [] s.inner := h.of_disk (by rw [hdisk]) (by rw [hdisk])
  refine Prog.wp_step (hok _ hinner ⟨⟨walBytes env s.inner.live, ?_, hlive⟩, h.torn, ?_, h.keyed⟩)
    (fun _ => hfailed _ _ _) (hdied s' hunrenamed)
  · rw [hdisk, List.append_nil]
    rfl
  · rw [hdisk]
    exact h.info

/-- **The vote and the commit position are replaced whole.** -/
theorem wp_writeMeta (hcodec : env.RoundTrips) {old : Inner} (h : Stored env s.disk [] old)
    (hcontents : s.inner.toContents = old.toContents) {b : Bytes} (hb : env.encodeMeta s.inner.info = .ok b)
    (hok : ∀ s', s'.inner = s.inner → Stored env s'.disk [] s.inner → S.ok () s') (hfailed : ∀ k part s', S.failed k part s')
    (hdied : ∀ s', Stored env s'.disk [] old → S.died s') : (writeMeta env).wp S s := by
  have henc : (env.encodeMeta s.inner.info).mapError StorageError.writeVote = .ok b := by
    rw [hb]
    rfl
  refine Prog.wp_get_bind (Prog.wp_ofExcept_ok henc (Prog.wp_write_bind (fun _ => hfailed _ _ _)
    (fun n => hdied _ (h.of_disk rfl rfl)) (Prog.wp_step (hok _ rfl ⟨?_, h.torn, ?_, ?_⟩) (fun _ => hfailed _ _ _)
      (hdied _ (h.of_disk rfl rfl)))))
  · rw [hcontents]
    exact h.wal
  · rw [loadMeta, hcodec.info _ _ hb]
    rfl
  · rw [hcontents]
    exact h.keyed

end Writes

/-! ## Opening and the calls -/

/-- How a program must end that leads to the log `after`, or dies with one of `logs` in the directory. -/
def leads (env : Codec) (after : Inner) (logs : Inner → Prop) : Post Site Node StorageError Unit where
  ok _ s := s.inner = after ∧ Stored env s.disk [] after
  refused _ _ := False
  failed _ _ _ := True
  died s := Left env logs s

/-- **Opening finds the log.** -/
theorem wp_openLog (hcodec : env.RoundTrips) {s : Node} {tail : Bytes} {inner : Inner} (h : Stored env s.disk tail inner) :
    (openLog env).wp (leads env inner (· = inner)) s := by
  obtain ⟨bytes, hwal, hrecorded⟩ := h.wal
  obtain ⟨r, hreplay, hcontents, hlen⟩ := hrecorded.replay hcodec h.torn
  have hfound : ∃ r : Replayed, replay env s.disk.wal = .ok r ∧ r.toContents = inner.toContents ∧
      (s.disk.wal.getD []).take r.validLen = bytes := by
    cases hfile : s.disk.wal with
    | some wal =>
      rw [hfile, Option.getD_some] at hwal
      refine ⟨r, by rw [hwal, hreplay], hcontents, ?_⟩
      rw [Option.getD_some, hwal, hlen]
      exact List.take_left
    | none =>
      rw [hfile, Option.getD_none] at hwal
      have hbytes : bytes = [] := (List.append_eq_nil_iff.1 hwal.symm).1
      have htail : tail = [] := (List.append_eq_nil_iff.1 hwal.symm).2
      rw [hbytes, htail, List.append_nil] at hreplay
      refine ⟨{}, rfl, ?_, by rw [hbytes]; rfl⟩
      cases hreplay
      exact hcontents
  obtain ⟨r, hr, hcontents, htake⟩ := hfound
  have hcut : Stored env { s.disk with wal := some ((s.disk.wal.getD []).take r.validLen) } [] inner := by
    refine ⟨⟨bytes, ?_, hrecorded⟩, rfl, h.info, h.keyed⟩
    rw [Option.getD_some, htake, List.append_nil]
  have hinner : ({ toContents := r.toContents, info := inner.info } : Inner) = inner := by rw [hcontents]
  refine Prog.wp_get_bind (Prog.wp_ofExcept_ok hr (Prog.wp_step_bind (fun _ => trivial) ⟨tail, inner, rfl, h⟩
    (Prog.wp_ofExcept_ok h.info (Prog.wp_modify_bind ?_))))
  dsimp only
  rw [hinner]
  split
  · exact wp_rewriteWal hcut (fun s' hs hstored => ⟨hs, hstored⟩) (fun _ _ _ => trivial)
      (fun s' hstored => ⟨[], inner, rfl, hstored⟩)
  · exact Prog.wp_pure ⟨rfl, hcut⟩

/-- The records a call writes. -/
def Call.records : Call → List LogRecord
  | .appendSync es => es.map .insert
  | .truncate id => [.truncate id.index]
  | .purge id => [.purge id]
  | _ => []

/-- The vote and commit position that a call saves. -/
def Call.saved (info : Meta) : Call → Option Meta
  | .saveVote vote => some { info with vote := some vote }
  | .saveCommitted committed => some { info with committed := committed }
  | _ => none

/-- The log a call leaves. -/
def Call.after (inner : Inner) (c : Call) : Inner :=
  { toContents := c.records.foldl Contents.apply inner.toContents, info := (c.saved inner.info).getD inner.info }

variable (env) in
/-- Every record of the call is short enough for its length prefix. -/
def Call.Fits (inner : Inner) (c : Call) : Prop :=
  (∀ rec ∈ c.records, small env rec = true) ∧ ∀ info ∈ c.saved inner.info, (env.encodeMeta info).isOk = true

instance (inner : Inner) (c : Call) : Decidable (c.Fits env inner) := inferInstanceAs (Decidable (_ ∧ _))

/-- What a call has done when it is cut short: for several entries, the first of them. -/
def Call.prefixes : Call → List Call
  | .appendSync es => (List.range (es.length + 1)).map (fun k => .appendSync (es.take k))
  | c => [c]

/-- The logs that may be found when the call is cut short. -/
def Call.Partly (inner : Inner) (c : Call) (found : Inner) : Prop :=
  found = inner ∨ ∃ c' ∈ c.prefixes, found = c'.after inner

theorem wp_appendSync : ∀ (es : List Entry) (s : Node) (logs : Inner → Prop), Stored env s.disk [] s.inner →
    (∀ e ∈ es, small env (.insert e) = true) →
    (∀ k, k ≤ es.length → logs ((Call.appendSync (es.take k)).after s.inner)) →
    (appendSync env es).wp (leads env ((Call.appendSync es).after s.inner) logs) s
  | [], s, _, h, _, _ => Prog.wp_pure ⟨rfl, h⟩
  | e :: es, s, logs, h, hsmall, hlogs => by
    refine Prog.wp_bind (wp_appendRecord h (hsmall e List.mem_cons_self) (fun s' hinner hstored => ?_)
      (fun _ _ _ => trivial) (fun s' hleft => ?_))
    · refine Prog.wp_modify_bind ?_
      have hafter : ({ s'.inner with toContents := s'.inner.insert e } : Inner)
          = { s.inner with toContents := s.inner.toContents.apply (.insert e) } := by
        rw [hinner]
        rfl
      rw [hafter]
      refine wp_appendSync es _ logs hstored (fun x hx => hsmall x (List.mem_cons_of_mem e hx)) (fun k hk => ?_)
      exact hlogs (k + 1) (Nat.succ_le_succ hk)
    · obtain ⟨tail, inner, hinner, hstored⟩ := hleft
      refine ⟨tail, inner, ?_, hstored⟩
      rcases hinner with rfl | rfl
      · exact hlogs 0 (Nat.zero_le _)
      · exact hlogs 1 (Nat.succ_le_succ (Nat.zero_le _))

/-- **Every call leads to its log**, or is cut short on the way. -/
theorem wp_call (hcodec : env.RoundTrips) {s : Node} {c : Call} (h : Stored env s.disk [] s.inner)
    (hfits : c.Fits env s.inner) : (c.run env).wp (leads env (c.after s.inner) (c.Partly s.inner)) s := by
  have hmeta : ∀ info : Meta, (env.encodeMeta info).isOk = true → ∃ b, env.encodeMeta info = .ok b := fun info hok => by
    cases henc : env.encodeMeta info with
    | ok b => exact ⟨b, rfl⟩
    | error e =>
      rw [henc] at hok
      cases hok
  cases c with
  | appendSync es =>
    refine wp_appendSync es s _ h (fun e he => hfits.1 _ (List.mem_map_of_mem he)) (fun k hk => ?_)
    refine .inr ⟨.appendSync (es.take k), ?_, rfl⟩
    exact List.mem_map_of_mem (List.mem_range.2 (Nat.lt_succ_of_le hk))
  | truncate id =>
    refine Prog.wp_bind (wp_appendRecord h (hfits.1 _ List.mem_cons_self) (fun s' hinner hstored => ?_)
      (fun _ _ _ => trivial) (fun s' hleft => ?_))
    · refine Prog.wp_modify ⟨?_, hstored⟩
      rw [hinner]
      rfl
    · obtain ⟨tail, inner, hinner, hstored⟩ := hleft
      exact ⟨tail, inner, hinner.imp_right (fun hi => ⟨.truncate id, List.mem_cons_self, hi⟩), hstored⟩
  | purge id =>
    refine Prog.wp_bind (wp_appendRecord h (hfits.1 _ List.mem_cons_self) (fun s' hinner hstored => ?_)
      (fun _ _ _ => trivial) (fun s' hleft => ?_))
    · refine Prog.wp_modify_bind ?_
      have hafter : ({ s'.inner with toContents := s'.inner.purge id } : Inner) = (Call.purge id).after s.inner := by
        rw [hinner]
        rfl
      rw [hafter]
      refine wp_rewriteWal hstored (fun s' hs hstored' => ⟨hs, hstored'⟩) (fun _ _ _ => trivial) (fun s' hstored' => ?_)
      exact ⟨[], _, .inr ⟨.purge id, List.mem_cons_self, rfl⟩, hstored'⟩
    · obtain ⟨tail, inner, hinner, hstored⟩ := hleft
      exact ⟨tail, inner, hinner.imp_right (fun hi => ⟨.purge id, List.mem_cons_self, hi⟩), hstored⟩
  | saveVote vote =>
    obtain ⟨b, hb⟩ := hmeta _ (hfits.2 _ rfl)
    refine Prog.wp_modify_bind (wp_writeMeta hcodec h rfl hb (fun s' hs hstored => ⟨hs, hstored⟩) (fun _ _ _ => trivial)
      (fun s' hstored => ⟨[], _, .inl rfl, hstored⟩))
  | saveCommitted committed =>
    obtain ⟨b, hb⟩ := hmeta _ (hfits.2 _ rfl)
    refine Prog.wp_modify_bind (wp_writeMeta hcodec h rfl hb (fun s' hs hstored => ⟨hs, hstored⟩) (fun _ _ _ => trivial)
      (fun s' hstored => ⟨[], _, .inl rfl, hstored⟩))

/-! ## Runs -/

/-- The process and its directory, beside what is expected of them. -/
structure World where
  node : Node := {}
  up : Bool := false
  /-- What the last call that returned left. -/
  last : Inner := {}
  /-- What the call in progress, if one was cut short, may have left. -/
  pending : List Inner := []
  deriving DecidableEq

/-- A call or an opening may be cut short at one of its writes. -/
inductive Act where
  | call (c : Call) (x : Option (Mishap Site))
  | stop
  | reopen (x : Option (Mishap Site))

def fatal (x : Mishap Site) : Mishap Site := { x with fatal := true }

/-- What is left of a process that is gone. -/
def Node.gone (s : Node) : Node := { disk := s.disk }

def World.called (w : World) (c : Call) : Except (Stop StorageError) Unit × Node × Option (Mishap Site) → World
  | (.ok _, s, _) => { node := s, up := true, last := c.after w.last, pending := [] }
  | (.error .died, s, _) =>
    { node := s.gone, up := false, last := w.last, pending := c.prefixes.map (fun c => c.after w.last) }
  | (.error _, s, _) => { w with node := s }

def World.opened (w : World) : Except (Stop StorageError) Unit × Node × Option (Mishap Site) → World
  | (.ok _, s, _) => { node := s, up := true, last := s.inner, pending := [] }
  | (.error _, s, _) => { w with node := s.gone }

variable (env) in
def World.step (w : World) : Act → Option World
  | .call c x => if w.up then some (w.called c (c.run env w.node (x.map fatal))) else none
  | .stop => if w.up then some { w with node := w.node.gone, up := false } else none
  | .reopen x => if w.up then none else some (w.opened (openLog env w.node.gone (x.map fatal)))

variable (env) in
/-- The records of the calls fit their length prefixes. -/
def World.Fits (w : World) : Act → Prop
  | .call c _ => c.Fits env w.last
  | _ => True

instance (w : World) : (a : Act) → Decidable (w.Fits env a)
  | .call _ _ => inferInstanceAs (Decidable (Call.Fits _ _ _))
  | .stop => inferInstanceAs (Decidable True)
  | .reopen _ => inferInstanceAs (Decidable True)

/-- The state that is reported is that of the highest entry, or of the last purge where there is none. -/
structure LogState.Agrees (st : LogState) (c : Contents) : Prop where
  purged : st.lastPurgedLogId = c.lastPurged
  empty : c.entries.entries = [] → st.lastLogId = c.lastPurged
  last : ∀ k e, c.entries.get? k = some e → ∃ id, st.lastLogId = some id ∧ k ≤ id.index ∧
    ∃ e', c.entries.get? id.index = some e' ∧ e'.logId = id

variable (env) in
/-- **The log is durable**: the directory opens, on what the last call left or the call in progress was about to leave, the
state reported agrees with that, and so does the mirror of a process that runs. -/
structure World.Durable (w : World) : Prop where
  opens : ∃ s, openLog env w.node.gone none = (.ok (), s, none) ∧ s.inner ∈ w.last :: w.pending ∧
    (getLogState s.inner).Agrees s.inner.toContents
  mirror : w.up = true → w.node.inner = w.last ∧ w.pending = []

theorem Keyed.agrees {ok : LogRecord → Prop} {inner : Inner} (h : Keyed ok inner.toContents) : (getLogState inner).Agrees inner.toContents := by
  refine ⟨rfl, fun hnil => ?_, fun k e hget => ?_⟩
  · show ((inner.entries.entries.getLast?).map (·.2.logId)).or inner.lastPurged = _
    rw [hnil]
    rfl
  · have hmem := SortedMap.get?_eq_some.1 hget
    cases hlast : inner.entries.entries.getLast? with
    | none =>
      rw [List.getLast?_eq_none_iff.1 hlast] at hmem
      cases hmem
    | some x =>
      obtain ⟨front, hfront⟩ := List.getLast?_eq_some_iff.1 hlast
      have hx : x ∈ inner.entries.entries := List.mem_of_getLast? hlast
      have hindex := h.index x hx
      refine ⟨x.2.logId, ?_, ?_, x.2, ?_, rfl⟩
      · show ((inner.entries.entries.getLast?).map (·.2.logId)).or inner.lastPurged = _
        rw [hlast]
        rfl
      · rw [hindex]
        have hsorted := inner.entries.sorted
        rw [hfront] at hsorted hmem
        rcases List.mem_append.1 hmem with hmem | hmem
        · exact Nat.le_of_lt ((List.pairwise_append.1 hsorted).2.2 _ hmem x List.mem_cons_self)
        · exact Nat.le_of_eq (congrArg Prod.fst (List.mem_singleton.1 hmem))
      · rw [hindex]
        exact SortedMap.get?_eq_some.2 hx

variable (env) in
/-- The invariant of the runs. -/
structure World.Inv (w : World) : Prop where
  running : w.up = true → w.node.inner = w.last ∧ w.pending = [] ∧ Stored env w.node.disk [] w.last
  stopped : w.up = false → Left env (fun inner => inner ∈ w.last :: w.pending) w.node

theorem World.Inv.left {w : World} (h : w.Inv env) : Left env (fun inner => inner ∈ w.last :: w.pending) w.node := by
  cases hup : w.up with
  | false => exact h.stopped hup
  | true => exact ⟨[], w.last, List.mem_cons_self, (h.running hup).2.2⟩

theorem World.Inv.durable {w : World} (h : w.Inv env) (hcodec : env.RoundTrips) : w.Durable env := by
  obtain ⟨tail, inner, hmem, hstored⟩ := h.left
  refine ⟨?_, fun hup => ⟨(h.running hup).1, (h.running hup).2.1⟩⟩
  rcases (wp_openLog hcodec (s := w.node.gone) hstored).run with ⟨_, s, hopen, hinner, -⟩ | ⟨_, _, _, -, ⟨⟩⟩
  rw [← hinner] at hmem hstored
  exact ⟨s, hopen, hmem, hstored.keyed.agrees⟩

theorem World.inv_fresh : ({} : World).Inv env := by
  refine ⟨fun hup => absurd hup (by decide), fun _ => ⟨[], {}, List.mem_cons_self, ⟨[], rfl, recorded_nil⟩, rfl, rfl, keyed_empty⟩⟩

theorem World.Inv.called {w : World} {c : Call} {x : Option (Mishap Site)} :
    ∀ {r : Except (Stop StorageError) Unit × Node × Option (Mishap Site)},
      (leads env (c.after w.last) (c.Partly w.last)).Holds (x.map fatal) r → (w.called c r).Inv env
  | (.ok _, s, _), ⟨⟨hinner, hstored⟩, _⟩ =>
    ⟨fun _ => ⟨hinner, rfl, hstored⟩, fun hup => absurd hup (by simp [World.called])⟩
  | (.error (.refused _), _, _), h => h.elim
  | (.error .died, s, _), ⟨_, tail, inner, hpartly, hstored⟩ => by
    refine ⟨fun hup => absurd hup Bool.false_ne_true, fun _ => ⟨tail, inner, ?_, hstored⟩⟩
    rcases hpartly with rfl | ⟨c', hc', rfl⟩
    · exact List.mem_cons_self
    · exact List.mem_cons_of_mem _ (List.mem_map_of_mem hc')
  | (.error .failed, _, _), ⟨_, _, hk, _⟩ => by
    cases x with
    | none => cases hk
    | some m => cases hk

theorem World.Inv.opened {w : World} {inner : Inner} {x : Option (Mishap Site)} (hup : w.up = false)
    (hmem : inner ∈ w.last :: w.pending) : ∀ {r : Except (Stop StorageError) Unit × Node × Option (Mishap Site)},
      (leads env inner (· = inner)).Holds (x.map fatal) r → (w.opened r).Inv env
  | (.ok _, s, _), ⟨⟨hinner, hstored⟩, _⟩ => by
    refine ⟨fun _ => ⟨rfl, rfl, ?_⟩, fun hup => absurd hup (by simp [World.opened])⟩
    show Stored env s.disk [] s.inner
    rw [hinner]
    exact hstored
  | (.error (.refused _), _, _), h => h.elim
  | (.error .died, s, _), ⟨_, tail, _, rfl, hstored⟩ =>
    ⟨fun h => absurd (hup.symm.trans h) Bool.false_ne_true, fun _ => ⟨tail, _, hmem, hstored⟩⟩
  | (.error .failed, _, _), ⟨_, _, hk, _⟩ => by
    cases x with
    | none => cases hk
    | some m => cases hk

/-- **Every step keeps the invariant.** -/
theorem World.Inv.step {w w' : World} (hcodec : env.RoundTrips) {a : Act} (h : w.Inv env) (hfits : w.Fits env a)
    (hstep : w.step env a = some w') : w'.Inv env := by
  cases hup : w.up with
  | true =>
    obtain ⟨hinner, hpending, hstored⟩ := h.running hup
    cases a with
    | call c x =>
      rw [World.step, if_pos hup] at hstep
      cases hstep
      rw [← hinner] at hstored
      have hcall := wp_call hcodec hstored (by rw [hinner]; exact hfits) (x.map fatal)
      rw [hinner] at hcall
      exact World.Inv.called hcall
    | stop =>
      rw [World.step, if_pos hup] at hstep
      cases hstep
      exact ⟨fun hup => absurd hup Bool.false_ne_true, fun _ => ⟨[], w.last, List.mem_cons_self, hstored⟩⟩
    | reopen x =>
      rw [World.step, if_pos hup] at hstep
      cases hstep
  | false =>
    have hdown : ¬w.up = true := by
      rw [hup]
      exact Bool.false_ne_true
    cases a with
    | call c x =>
      rw [World.step, if_neg hdown] at hstep
      cases hstep
    | stop =>
      rw [World.step, if_neg hdown] at hstep
      cases hstep
    | reopen x =>
      rw [World.step, if_neg hdown] at hstep
      cases hstep
      obtain ⟨tail, inner, hmem, hstored⟩ := h.stopped hup
      exact World.Inv.opened hup hmem (wp_openLog hcodec (s := w.node.gone) hstored (x.map fatal))

/-- **The raft log is durable**: in every run of calls, crashes and openings whose records fit their length prefixes, it is in
every state. -/
theorem durable_of_fits (hcodec : env.RoundTrips) {acts : List Act} {w : World}
    (h : Run (World.step env) (World.Fits env) {} acts w) : w.Durable env :=
  (h.invariant World.inv_fresh (fun _ _ _ hinv hfits hstep => hinv.step hcodec hfits hstep)).durable hcodec

/-! ## A codec -/

/-- `bincode`'s variable-length integers. -/
def varint (n : Nat) : Bytes :=
  if n < 251 then [UInt8.ofNat n]
  else if n < 2 ^ 16 then 251 :: leBytes 2 n
  else if n < 2 ^ 32 then 252 :: leBytes 4 n
  else 253 :: leBytes 8 n

def readFixed (w : Nat) (bytes : Bytes) : Except String (Nat × Bytes) :=
  if bytes.length < w then .error "UnexpectedEnd" else .ok (leNat (bytes.take w), bytes.drop w)

def readVarint : Bytes → Except String (Nat × Bytes)
  | [] => .error "UnexpectedEnd"
  | b :: bytes =>
    if b = 251 then readFixed 2 bytes
    else if b = 252 then readFixed 4 bytes
    else if b = 253 then readFixed 8 bytes
    else .ok (b.toNat, bytes)

theorem readFixed_leBytes {w n : Nat} (h : n < 256 ^ w) (rest : Bytes) : readFixed w (leBytes w n ++ rest) = .ok (n, rest) := by
  rw [readFixed, if_neg (by simp), List.take_left' (length_leBytes w n), List.drop_left' (length_leBytes w n),
    leNat_leBytes_of_lt h]

theorem readVarint_varint {n : Nat} (h : n < 2 ^ 64) (rest : Bytes) : readVarint (varint n ++ rest) = .ok (n, rest) := by
  unfold varint
  split
  · rename_i hn
    have hb : (UInt8.ofNat n).toNat = n := by
      rw [UInt8.toNat_ofNat']
      omega
    have hne : ∀ k : UInt8, 251 ≤ k.toNat → UInt8.ofNat n ≠ k := by
      intro k hk heq
      rw [← heq, hb] at hk
      omega
    rw [List.singleton_append, readVarint, if_neg (hne 251 (by decide)), if_neg (hne 252 (by decide)),
      if_neg (hne 253 (by decide)), hb]
  · split
    · rename_i hn
      exact readFixed_leBytes (w := 2) hn rest
    · split
      · rename_i hn
        exact readFixed_leBytes (w := 4) hn rest
      · exact readFixed_leBytes (w := 8) h rest

def idBytes (id : LogId) : Bytes := varint id.term ++ (varint id.node ++ varint id.index)

def wideId (id : LogId) : Bool := decide (id.term < 2 ^ 64) && decide (id.node < 2 ^ 64) && decide (id.index < 2 ^ 64)

def readId (bytes : Bytes) : Except String (LogId × Bytes) := do
  let term ← readVarint bytes
  let node ← readVarint term.2
  let index ← readVarint node.2
  pure ({ term := term.1, node := node.1, index := index.1 }, index.2)

theorem readId_bytes {id : LogId} (h : wideId id = true) (rest : Bytes) :
    readId (idBytes id ++ rest) = .ok (id, rest) := by
  simp only [wideId, Bool.and_eq_true, decide_eq_true_eq] at h
  rw [readId, idBytes, List.append_assoc, List.append_assoc, readVarint_varint h.1.1]
  show (readVarint (varint id.node ++ (varint id.index ++ rest)) >>= _) = _
  rw [readVarint_varint h.1.2]
  show (readVarint (varint id.index ++ rest) >>= _) = _
  rw [readVarint_varint h.2]
  rfl

/-- Records and votes as `bincode` lays them out; memberships are left out. -/
def sampleEncodeRecord : LogRecord → Except String Bytes
  | .insert e =>
    if wideId e.logId then
      match e.payload with
      | .blank => .ok (0 :: (idBytes e.logId ++ [0]))
      | .normal bytes =>
        if bytes.length < 2 ^ 64 then .ok (0 :: (idBytes e.logId ++ (1 :: (varint bytes.length ++ bytes))))
        else .error "too long"
      | .membership _ => .error "membership"
    else .error "too wide"
  | .truncate index => if index < 2 ^ 64 then .ok (1 :: varint index) else .error "too wide"
  | .purge id => if wideId id then .ok (2 :: idBytes id) else .error "too wide"

def readPayload : Bytes → Except String Raft.EntryPayload
  | 0 :: _ => .ok .blank
  | 1 :: bytes => do
    let len ← readVarint bytes
    if len.2.length < len.1 then .error "UnexpectedEnd" else .ok (.normal (len.2.take len.1))
  | _ => .error "UnexpectedVariant"

/-- What follows the last field is not looked at. -/
def sampleDecodeRecord : Bytes → Except String LogRecord
  | 0 :: bytes => do
    let id ← readId bytes
    let payload ← readPayload id.2
    pure (.insert { logId := id.1, payload := payload })
  | 1 :: bytes => do
    let index ← readVarint bytes
    pure (.truncate index.1)
  | 2 :: bytes => do
    let id ← readId bytes
    pure (.purge id.1)
  | _ => .error "UnexpectedVariant"

def optionBytes (o : Option LogId) : Bytes :=
  match o with
  | none => [0]
  | some id => 1 :: idBytes id

def readOption : Bytes → Except String (Option LogId)
  | 0 :: _ => .ok none
  | 1 :: bytes => do
    let id ← readId bytes
    pure (some id.1)
  | _ => .error "UnexpectedVariant"

def sampleEncodeMeta (m : Meta) : Except String Bytes :=
  if (m.committed.all wideId) then
    match m.vote with
    | none => .ok (0 :: optionBytes m.committed)
    | some v =>
      if v.term < 2 ^ 64 ∧ v.node < 2 ^ 64 then
        .ok (1 :: (varint v.term ++ (varint v.node ++ ((if v.committed then 1 else 0) :: optionBytes m.committed))))
      else .error "too wide"
  else .error "too wide"

def sampleDecodeMeta : Bytes → Except String Meta
  | 0 :: bytes => do
    let committed ← readOption bytes
    pure { committed := committed }
  | 1 :: bytes => do
    let term ← readVarint bytes
    let node ← readVarint term.2
    match node.2 with
    | [] => .error "UnexpectedEnd"
    | b :: rest => do
      let committed ← readOption rest
      pure { vote := some { term := term.1, node := node.1, committed := b == 1 }, committed := committed }
  | _ => .error "UnexpectedVariant"

def sampleCodec : Codec :=
  { encodeRecord := sampleEncodeRecord, decodeRecord := sampleDecodeRecord, encodeMeta := sampleEncodeMeta,
    decodeMeta := sampleDecodeMeta }

theorem readOption_bytes {o : Option LogId} (h : o.all wideId = true) : readOption (optionBytes o) = .ok o := by
  cases o with
  | none => rfl
  | some id =>
    have hid := readId_bytes h []
    rw [List.append_nil] at hid
    rw [optionBytes, readOption, hid]
    rfl

theorem sampleCodec_roundTrips : sampleCodec.RoundTrips := by
  constructor
  · intro rec b h
    show sampleDecodeRecord b = .ok rec
    change sampleEncodeRecord rec = .ok b at h
    cases rec with
    | insert e =>
      obtain ⟨id, payload⟩ := e
      rw [sampleEncodeRecord] at h
      dsimp only at h
      split at h
      · rename_i hid
        cases payload with
        | blank =>
          cases h
          rw [sampleDecodeRecord, readId_bytes hid]
          rfl
        | normal bytes =>
          dsimp only at h
          split at h
          · rename_i hlen
            cases h
            rw [sampleDecodeRecord, readId_bytes hid]
            show (readPayload (1 :: (varint bytes.length ++ bytes)) >>= _) = _
            rw [readPayload, readVarint_varint hlen]
            show ((if bytes.length < bytes.length then _ else _) >>= _) = _
            rw [if_neg (Nat.lt_irrefl _), List.take_length]
            rfl
          · cases h
        | membership m => cases h
      · cases h
    | truncate index =>
      rw [sampleEncodeRecord] at h
      split at h
      · rename_i hindex
        cases h
        have hread := readVarint_varint hindex []
        rw [List.append_nil] at hread
        rw [sampleDecodeRecord, hread]
        rfl
      · cases h
    | purge id =>
      rw [sampleEncodeRecord] at h
      split at h
      · rename_i hid
        cases h
        have hread := readId_bytes hid []
        rw [List.append_nil] at hread
        rw [sampleDecodeRecord, hread]
        rfl
      · cases h
  · intro m b h
    show sampleDecodeMeta b = .ok m
    change sampleEncodeMeta m = .ok b at h
    obtain ⟨vote, committed⟩ := m
    rw [sampleEncodeMeta] at h
    split at h
    · rename_i hcommitted
      cases vote with
      | none =>
        cases h
        rw [sampleDecodeMeta, readOption_bytes hcommitted]
        rfl
      | some v =>
        dsimp only at h
        split at h
        · rename_i hv
          cases h
          rw [sampleDecodeMeta, readVarint_varint hv.1]
          show (readVarint (varint v.node ++ ((if v.committed then 1 else 0) :: optionBytes committed)) >>= _) = _
          rw [readVarint_varint hv.2]
          show (readOption (optionBytes committed) >>= _) = _
          rw [readOption_bytes hcommitted]
          obtain ⟨term, node, flag⟩ := v
          cases flag <;> rfl
        · cases h
    · cases h

/-! ## A run, and a record that is too long -/

def sampleEntry (index : Nat) : Entry :=
  { logId := { term := 1, node := 0, index := index }, payload := .normal [7, 7] }

/-- Three entries, of which the crash lets through one and a half; a purge that dies before its rename; a vote. -/
def sampleActs : List Act :=
  [.reopen none, .call (.appendSync [sampleEntry 1, sampleEntry 2, sampleEntry 3]) (some ⟨.wal, 1, 6, true⟩),
    .reopen (some ⟨.setLen, 0, 0, true⟩), .reopen none, .call (.purge ⟨1, 0, 1⟩) (some ⟨.walRename, 0, 0, true⟩),
    .reopen none, .call (.saveVote ⟨3, 1, false⟩) none, .stop]

theorem durable_of_fits_sample : ∃ w : World, runs (World.step sampleCodec) {} sampleActs = some w ∧
    w.last.lastPurged = some ⟨1, 0, 1⟩ ∧ w.last.info.vote = some ⟨3, 1, false⟩ ∧ w.Durable sampleCodec := by
  have hfits : allOk (World.step sampleCodec) (World.Fits sampleCodec) {} sampleActs := by decide +kernel
  have hruns : ∃ w ∈ runs (World.step sampleCodec) {} sampleActs, w.last.lastPurged = some ⟨1, 0, 1⟩ ∧
      w.last.info.vote = some ⟨3, 1, false⟩ := by
    decide +kernel
  obtain ⟨w, hw, hpurged, hvote⟩ := hruns
  exact ⟨w, hw, hpurged, hvote, durable_of_fits sampleCodec_roundTrips (run_of_runs hw hfits)⟩

theorem run_appendRecord {rec : LogRecord} {b : Bytes} (h : env.encodeRecord rec = .ok b) (s : Node) :
    appendRecord env rec s none = (.ok (), { s with disk := s.disk.appendWal (frame b) }, none) := by
  have henc : encodeRecord env rec = .ok (frame b) := by rw [encodeRecord, h]
  show Prog.bind (Prog.ofExcept (encodeRecord env rec)) _ s none = _
  rw [henc]
  rfl

theorem openLog_of_corrupt {s : Node} {e : StorageError} (h : replay env s.disk.wal = .error e) :
    openLog env s none = (.error (.refused e), s, none) := by
  show Prog.bind (Prog.ofExcept (replay env s.disk.wal)) _ s none = _
  rw [h]
  rfl

def longEntry (bytes : Bytes) : Entry := { logId := { term := 1, node := 0, index := 1 }, payload := .normal bytes }

/-- What stands in front of the bytes of an entry of four gibibytes. -/
def longHeader : Bytes := [0, 1, 0, 1, 1, 253, 0, 0, 0, 0, 1, 0, 0, 0]

theorem encode_longEntry {bytes : Bytes} (h : bytes.length = 2 ^ 32) :
    sampleCodec.encodeRecord (.insert (longEntry bytes)) = .ok (longHeader ++ bytes) := by
  show sampleEncodeRecord (.insert (longEntry bytes)) = _
  rw [sampleEncodeRecord, longEntry]
  dsimp only
  rw [if_pos (by decide), h, if_pos (by decide)]
  rfl

/-- The reader takes the low four bytes of the length, which are those of the header. -/
theorem frames_long {bytes : Bytes} (h : bytes.length = 2 ^ 32) :
    longHeader ∈ (frames (frame (longHeader ++ bytes))).1 := by
  have hsplit := splitFrame_wraps (longHeader ++ bytes) []
  have hmod : (longHeader ++ bytes).length % 2 ^ 32 = longHeader.length := by
    rw [List.length_append, h]
    rfl
  rw [hmod, List.append_nil, List.append_nil, List.take_left] at hsplit
  rw [frames_of_some hsplit]
  exact List.mem_cons_self

theorem append_longEntry {bytes : Bytes} (h : bytes.length = 2 ^ 32) :
    runs (World.step sampleCodec) {} [.reopen none, .call (.appendSync [longEntry bytes]) none] = some
      { node := { disk := { wal := some (frame (longHeader ++ bytes)) }
                  inner := { toContents := ({} : Contents).insert (longEntry bytes) } }
        up := true
        last := { toContents := ({} : Contents).insert (longEntry bytes) } } := by
  have hstart : World.step sampleCodec {} (.reopen none) = some { node := { disk := { wal := some [] } }, up := true } := by
    decide +kernel
  have hcall : (Call.appendSync [longEntry bytes]).run sampleCodec { disk := { wal := some [] } } none
      = (.ok (), { disk := { wal := some (frame (longHeader ++ bytes)) }
                   inner := { toContents := ({} : Contents).insert (longEntry bytes) } }, none) := by
    show Prog.bind (appendRecord sampleCodec (.insert (longEntry bytes))) _ _ none = _
    rw [Prog.bind, run_appendRecord (encode_longEntry h)]
    rfl
  rw [runs, hstart, Option.bind_some, runs, World.step, if_pos rfl]
  dsimp only [Option.map_none]
  rw [hcall]
  rfl

theorem not_durable_longEntry {bytes : Bytes} (h : bytes.length = 2 ^ 32) {w : World}
    (hw : w.node.disk.wal = some (frame (longHeader ++ bytes))) : ¬w.Durable sampleCodec := by
  intro hdurable
  have hcorrupt : sampleCodec.decodeRecord longHeader = .error "UnexpectedEnd" := by decide
  obtain ⟨e, he⟩ := Replayed.readAll_of_undecodable hcorrupt (frames_long h) {}
  obtain ⟨s, hopen, -⟩ := hdurable.opens
  have hreplay : replay sampleCodec w.node.gone.disk.wal = .error e := by
    show replay sampleCodec w.node.disk.wal = _
    rw [hw, replay_eq, he]
  rw [openLog_of_corrupt hreplay] at hopen
  cases hopen

/-- **A record too long for its length prefix ends the log**: the append returns, and the directory does not open. -/
theorem long_record_ends_log : sampleCodec.RoundTrips ∧ ∃ w : World,
    runs (World.step sampleCodec) {} [.reopen none, .call (.appendSync [longEntry (List.replicate (2 ^ 32) 0)]) none] = some w ∧
      ¬w.Durable sampleCodec :=
  ⟨sampleCodec_roundTrips, _, append_longEntry List.length_replicate, not_durable_longEntry List.length_replicate rfl⟩

end RaftLog
end Heraclitus
