import Heraclitus.LegacyResume
/-!
# LegacySealed — what a v5 log has sealed stays sealed

The worker only adds to the sealed segments, and every one of them ends in its file with the root the catalog has of it.
Opening reads the roots back from there, and refuses a directory whose footers do not agree with their records: so a log
that opens has the sealed segments it was closed with.
-/
namespace Heraclitus
namespace Legacy

variable {env : Env}

/-! ## The worker -/

/-- The last bytes of a file written by sealing. -/
theorem decode_appended (file : Bytes) (f : SegmentFooter) : ∃ g,
    SegmentFooter.decode ((file ++ f.encode).drop ((file ++ f.encode).length - footerLen)) = some g ∧
      g.blake3Root = f.blake3Root := by
  have hlen : (file ++ f.encode).length - footerLen = file.length := by
    rw [List.length_append, f.length_encode, Nat.add_sub_cancel]
  rw [hlen, List.drop_left]
  exact ⟨_, f.decode_encode_eq, rfl⟩

/-- Container `c` has the root in the last bytes of its file. -/
def StoredIn (dir : SortedMap Nat Bytes) (c : SegmentContainer) : Prop :=
  ∃ file f, dir.get? c.id = some file ∧ SegmentFooter.decode (file.drop (file.length - footerLen)) = some f ∧
    c.blake3Root = some f.blake3Root

theorem StoredIn.of_get?_eq {dir dir' : SortedMap Nat Bytes} {c : SegmentContainer} (h : StoredIn dir c)
    (heq : dir'.get? c.id = dir.get? c.id) : StoredIn dir' c := by
  obtain ⟨file, f, hfile, hroot⟩ := h
  exact ⟨file, f, heq.trans hfile, hroot⟩

/-- Two containers of one id with their root in the same file have the same root. -/
theorem StoredIn.root_eq {dir : SortedMap Nat Bytes} {c d : SegmentContainer} (hc : StoredIn dir c) (hd : StoredIn dir d)
    (hid : c.id = d.id) : c.blake3Root = d.blake3Root := by
  obtain ⟨file, f, hfile, hf, hroot⟩ := hc
  obtain ⟨file', f', hfile', hf', hroot'⟩ := hd
  rw [hid] at hfile
  cases hfile.symm.trans hfile'
  cases hf.symm.trans hf'
  exact hroot.trans hroot'.symm

/-- The sealed segments lie below the active one, which begins above them all and, without a record, at 0. -/
structure Sealing (log : Log) (next : Nat) : Prop where
  below : ∀ c ∈ log.catalog.sealedSegments, c.id < log.active.segmentId
  stored : ∀ c ∈ log.catalog.sealedSegments, StoredIn log.dir c
  apart : ∀ c ∈ log.catalog.sealedSegments, c.maxLsn < log.active.baseLsn ∨ log.active.baseLsn = 0 ∧ c.maxLsn = 0
  base_le : log.active.baseLsn ≤ log.active.maxLsn
  tail : headerLen < log.active.bytesWritten ∧ log.active.maxLsn + 1 = next ∨
    log.active.bytesWritten = headerLen ∧ log.active.baseLsn = 0 ∧ log.active.maxLsn = 0 ∧ next = 0

/-- A segment that has room for the next record: `Sealing` but for `tail`. -/
structure Roomy (log : Log) (next : Nat) : Prop where
  below : ∀ c ∈ log.catalog.sealedSegments, c.id < log.active.segmentId
  stored : ∀ c ∈ log.catalog.sealedSegments, StoredIn log.dir c
  apart : ∀ c ∈ log.catalog.sealedSegments, c.maxLsn < log.active.baseLsn ∨ log.active.baseLsn = 0 ∧ c.maxLsn = 0
  base_le : log.active.baseLsn ≤ next
  max_le : log.active.maxLsn ≤ next
  headed : headerLen ≤ log.active.bytesWritten

theorem Sealing.roomy {log : Log} {next : Nat} (h : Sealing log next) : Roomy log next := by
  obtain ⟨hbelow, hstored, hapart, hbase, htail⟩ := h
  exact ⟨hbelow, hstored, hapart, by omega, by omega, by omega⟩

/-- **Rolling puts the active segment behind the sealed ones**, with its root in its file. -/
theorem Sealing.roll {log : Log} {next : Nat} (h : Sealing log next) : Roomy (rollSegment env log next) next := by
  have hdir : ∀ i, (rollSegment env log next).dir.get? i
      = if i = log.active.segmentId + 1 then some ((log.dir.get? (log.active.segmentId + 1)).getD [] ++ SegmentHeader.encode
          ⟨formatVersion, log.active.segmentId + 1, env.createdHlc (log.active.segmentId + 1)⟩)
        else if i = log.active.segmentId then
          some ((log.dir.get? log.active.segmentId).getD [] ++ (sealingFooter env log.active).encode)
        else log.dir.get? i := fun i => by
    unfold rollSegment newActive
    simp only [get?_writeAll, if_neg (Nat.succ_ne_self log.active.segmentId)]
  have hmem : ∀ c ∈ (rollSegment env log next).catalog.sealedSegments, c ∈ log.catalog.sealedSegments ∨
      c.id = log.active.segmentId ∧ c.maxLsn = log.active.maxLsn ∧
        c.blake3Root = some (sealingFooter env log.active).blake3Root := fun c hc => by
    rcases List.mem_append.1 hc with hc | hc
    · exact .inl hc
    · rw [List.mem_singleton.1 hc]
      exact .inr ⟨rfl, rfl, rfl⟩
  refine ⟨fun c hc => ?_, fun c hc => ?_, fun c hc => ?_, Nat.le_refl _, Nat.le_refl _, Nat.le_refl _⟩
  · show c.id < log.active.segmentId + 1
    rcases hmem c hc with hc | ⟨hid, -, -⟩
    · exact Nat.lt_succ_of_lt (h.below c hc)
    · rw [hid]
      exact Nat.lt_succ_self _
  · rcases hmem c hc with hc | ⟨hid, -, hroot⟩
    · refine (h.stored c hc).of_get?_eq ?_
      have := h.below c hc
      rw [hdir, if_neg (by omega), if_neg (by omega)]
    · obtain ⟨g, hg, hgroot⟩ := decode_appended ((log.dir.get? log.active.segmentId).getD []) (sealingFooter env log.active)
      refine ⟨_, g, ?_, hg, by rw [hroot, hgroot]⟩
      rw [hid, hdir, if_neg (Nat.ne_of_lt (Nat.lt_succ_self _)), if_pos rfl]
  · have htail := h.tail
    have hbase := h.base_le
    show c.maxLsn < next ∨ next = 0 ∧ c.maxLsn = 0
    rcases hmem c hc with hc | ⟨-, hmax, -⟩
    · have := h.apart c hc
      omega
    · omega

theorem Sealing.publish {b : Batch} {next : Nat} (h : Sealing b.log next) : Sealing b.publish.log next := by
  unfold Batch.publish
  split
  · exact { h with }
  · exact h

theorem publish_sealed (b : Batch) : b.publish.log.catalog.sealedSegments = b.log.catalog.sealedSegments := by
  unfold Batch.publish
  split <;> rfl

/-- A record in a segment with room for it. -/
theorem Roomy.write {b : Batch} (h : Roomy b.log b.tentativeLsn) (opaqueMeta : Bytes) (episode : Episode) {record : Bytes}
    (hrecord : 0 < record.length) :
    Sealing (b.write env opaqueMeta episode record).log (b.write env opaqueMeta episode record).tentativeLsn := by
  have hdir : ∀ i, i ≠ b.log.active.segmentId →
      (b.write env opaqueMeta episode record).log.dir.get? i = b.log.dir.get? i := fun i hi => by
    show (writeAll b.log.dir b.log.active.segmentId record).get? i = _
    rw [get?_writeAll, if_neg hi]
  refine ⟨h.below, fun c hc => ?_, h.apart, ?_, .inl ⟨?_, ?_⟩⟩
  · exact (h.stored c hc).of_get?_eq (hdir c.id (Nat.ne_of_lt (h.below c hc)))
  · show b.log.active.baseLsn ≤ max b.log.active.maxLsn b.tentativeLsn
    exact Nat.le_trans h.base_le (Nat.le_max_right _ _)
  · show headerLen < b.log.active.bytesWritten + record.length
    have := h.headed
    omega
  · show max b.log.active.maxLsn b.tentativeLsn + 1 = b.tentativeLsn + 1
    rw [Nat.max_eq_right h.max_le]

variable (env) in
/-- **A command adds to the sealed segments at most.** -/
theorem Sealing.command {b : Batch} (h : Sealing b.log b.tentativeLsn) (segmentMaxBytes : Nat) (cmd : LogCommand) :
    Sealing (b.command env segmentMaxBytes cmd).log (b.command env segmentMaxBytes cmd).tentativeLsn ∧
      b.log.catalog.sealedSegments <+: (b.command env segmentMaxBytes cmd).log.catalog.sealedSegments := by
  cases cmd with
  | flush => exact ⟨{ h with }, List.prefix_rfl⟩
  | append opaqueMeta e expectedLsn =>
    simp only [Batch.command, Batch.append]
    cases expectedLsn.filter (fun l => decide (l ≠ b.tentativeLsn)) with
    | some expected => exact ⟨{ h with }, List.prefix_rfl⟩
    | none =>
      cases env.encodePayload opaqueMeta e with
      | error err => exact ⟨{ h with }, List.prefix_rfl⟩
      | ok payload =>
        dsimp only
        generalize hrecord : encodeRecord env.toHashes formatVersion b.tentativeLsn e.tsHlc payload = record
        have hpos : 0 < record.length := by
          rw [← hrecord, length_encodeRecord]
          unfold recordHeaderLen
          omega
        have hroom : Roomy (b.makeRoom env segmentMaxBytes record).log (b.makeRoom env segmentMaxBytes record).tentativeLsn ∧
            b.log.catalog.sealedSegments <+: (b.makeRoom env segmentMaxBytes record).log.catalog.sealedSegments := by
          unfold Batch.makeRoom
          split
          · have htentative : b.publish.tentativeLsn = b.tentativeLsn := by
              unfold Batch.publish
              split <;> rfl
            refine ⟨Sealing.roll (htentative ▸ h.publish), ?_⟩
            show _ <+: b.publish.log.catalog.sealedSegments ++ _
            rw [publish_sealed]
            exact List.prefix_append _ _
          · exact ⟨h.roomy, List.prefix_rfl⟩
        exact ⟨hroom.1.write opaqueMeta e hpos, hroom.2⟩

variable (env) in
theorem Sealing.commands (segmentMaxBytes : Nat) : ∀ (cmds : List LogCommand) {b : Batch}, Sealing b.log b.tentativeLsn →
    Sealing (cmds.foldl (Batch.command env segmentMaxBytes) b).log
        (cmds.foldl (Batch.command env segmentMaxBytes) b).tentativeLsn ∧
      b.log.catalog.sealedSegments
        <+: (cmds.foldl (Batch.command env segmentMaxBytes) b).log.catalog.sealedSegments
  | [], _, h => ⟨h, List.prefix_rfl⟩
  | cmd :: cmds, b, h => by
    obtain ⟨h₁, hpre₁⟩ := h.command env segmentMaxBytes cmd
    obtain ⟨h₂, hpre₂⟩ := Sealing.commands segmentMaxBytes cmds h₁
    exact ⟨h₂, hpre₁.trans hpre₂⟩

variable {log : Log} {segs : List (List Rec)} {act : List Rec}

theorem sizes_pos (h : act ≠ []) : 0 < sizes act := by
  have hle := le_sizes act
  have hpos := List.length_pos_iff.2 h
  have hheader : recordHeaderLen = 24 := rfl
  rw [hheader] at hle
  omega

/-- Between two batches the next LSN is the head. -/
theorem Sealing.next_eq {next : Nat} (h : Sealing log next) (hs : Steady env log segs act) : next = log.committedLsn := by
  have htail := h.tail
  rw [hs.bytesWritten, hs.maxLsn, hs.minLsn] at htail
  rw [hs.committed, List.length_append]
  by_cases hnil : act = []
  · have hzero : sizes [] = 0 := rfl
    rw [hnil, hzero, List.length_nil] at htail
    rw [hnil, List.length_nil]
    omega
  · have hpos := sizes_pos hnil
    have hlen := List.length_pos_iff.2 hnil
    omega

/-- **A batch adds to the sealed segments at most.** -/
theorem Sealing.batch (h : Sealing log log.committedLsn) (segmentMaxBytes : Nat) (cmds : List LogCommand)
    (hs : Steady env (log.batch env segmentMaxBytes cmds).1 segs act) :
    Sealing (log.batch env segmentMaxBytes cmds).1 (log.batch env segmentMaxBytes cmds).1.committedLsn ∧
      log.catalog.sealedSegments <+: (log.batch env segmentMaxBytes cmds).1.catalog.sealedSegments := by
  obtain ⟨hdone, hpre⟩ := Sealing.commands env segmentMaxBytes cmds (b := .start log) h
  have hlog : Sealing (log.batch env segmentMaxBytes cmds).1 (cmds.foldl (Batch.command env segmentMaxBytes) (.start log)).tentativeLsn :=
    { hdone.publish with }
  refine ⟨hlog.next_eq hs ▸ hlog, ?_⟩
  show _ <+: (cmds.foldl (Batch.command env segmentMaxBytes) (.start log)).publish.log.catalog.sealedSegments
  rw [publish_sealed]
  exact hpre

theorem sealing_create : Sealing (Log.create env) (Log.create env).committedLsn :=
  ⟨fun c hc => (by cases hc), fun c hc => (by cases hc), fun c hc => (by cases hc), Nat.le_refl _, .inr ⟨rfl, rfl, rfl, rfl⟩⟩

/-! ## Opening -/

theorem scanSegments_get : ∀ {files : List (Nat × Bytes)} {scans : List ((Nat × Bytes) × SegmentScan)},
    scanSegments env files = .ok scans → scans.length = files.length ∧ ∀ (j : Nat) (p : Nat × Bytes), files[j]? = some p →
      ∃ s, scans[j]? = some (p, s) ∧ scanSegmentFile env p.2 (!temRodapeSelado p.2) = .ok s
  | [], _, h => by
    cases h
    exact ⟨rfl, fun j p hp => (by cases hp)⟩
  | (id, file) :: files, scans, h => by
    rw [scanSegments] at h
    split at h
    · cases h
    · rename_i s hs
      split at h
      · cases h
      · rename_i rest hrest
        cases h
        obtain ⟨hlength, hget⟩ := scanSegments_get hrest
        refine ⟨congrArg (· + 1) hlength, fun j p hp => ?_⟩
        cases j with
        | zero =>
          cases hp
          exact ⟨s, rfl, hs⟩
        | succ j => exact hget j p hp

/-- What one segment that opening takes was found to be. -/
theorem Opening.segment_ok {o o' : Opening} {isLast : Bool} {id : Nat} {file : Bytes} {scan : SegmentScan}
    (h : o.segment env isLast id file scan = .ok o') (hsealed : scan.isSealed = true ∨ isLast = true ∧ scan.version = formatVersion) :
    (scan.corruptionDetected = false ∨ isLast = true) ∧
      (o'.initialSealed = o.initialSealed ∨ scan.isSealed = true ∧
        ∃ base, o'.initialSealed = o.initialSealed ++ [sealedContainer id base scan.blake3Root scan]) := by
  unfold Opening.segment at h
  dsimp only at h
  generalize (if (scan.corruptionDetected || decide (scan.validLen < scan.fileLen)) = true then
    executePhysicalRepair id file scan.validLen else file) = repaired at h
  split_ifs at h with hbroken hs hlast
  · refine ⟨?_, .inr ⟨hs, _, by cases h; rfl⟩⟩
    cases hc : scan.corruptionDetected with
    | false => exact .inl rfl
    | true => exact .inr (by simpa [hc] using hbroken)
  · cases h
    exact ⟨.inr (Bool.and_eq_true_iff.1 hlast).1, .inl rfl⟩
  · rcases hsealed with hsealed | ⟨hl, hv⟩
    · exact absurd hsealed hs
    · exact absurd (by simp [hl, hv]) hlast

/-- **What opening takes as sealed was scanned as sealed**, and only the newest file may be unsound. -/
theorem openSegments_ok : ∀ {scans : List ((Nat × Bytes) × SegmentScan)} {o o' : Opening},
    (∀ (j : Nat) (p : Nat × Bytes) (s : SegmentScan), scans[j]? = some (p, s) →
      s.isSealed = true ∨ j + 1 = scans.length ∧ s.version = formatVersion) →
    openSegments env scans o = .ok o' →
    (∀ (j : Nat) (p : Nat × Bytes) (s : SegmentScan), scans[j]? = some (p, s) →
      s.corruptionDetected = false ∨ j + 1 = scans.length) ∧
      ∀ c ∈ o'.initialSealed, c ∈ o.initialSealed ∨
        ∃ p s base, (p, s) ∈ scans ∧ s.isSealed = true ∧ c = sealedContainer p.1 base s.blake3Root s
  | [], o, o', _, h => by
    cases h
    exact ⟨fun j p s hj => (by cases hj), fun c hc => .inl hc⟩
  | ((id, file), scan) :: rest, o, o', hkinds, h => by
    rw [openSegments] at h
    split at h
    · cases h
    · rename_i o₁ ho₁
      have hlast : rest.isEmpty = true ↔ 0 + 1 = (((id, file), scan) :: rest).length := by
        rw [List.isEmpty_iff, List.length_cons, Nat.add_right_cancel_iff, ← List.length_eq_zero_iff, eq_comm]
      obtain ⟨hsound, hnew⟩ := Opening.segment_ok ho₁ ((hkinds 0 _ _ rfl).imp_right
        (fun hl => ⟨hlast.2 hl.1, hl.2⟩))
      obtain ⟨hrest, hmem⟩ := openSegments_ok (fun j p s hj => by
        simpa using hkinds (j + 1) p s hj) h
      refine ⟨fun j p s hj => ?_, fun c hc => ?_⟩
      · cases j with
        | zero =>
          cases hj
          exact hsound.imp_right hlast.1
        | succ j => simpa using hrest j p s hj
      · rcases hmem c hc with hc | ⟨p, s, base, hp, hs, rfl⟩
        · rcases hnew with heq | ⟨hs, base, heq⟩
          · exact .inl (heq ▸ hc)
          · rw [heq] at hc
            refine (List.mem_append.1 hc).imp_right (fun hc => ?_)
            exact ⟨_, _, base, List.mem_cons_self, hs, List.mem_singleton.1 hc⟩
        · exact .inr ⟨p, s, base, List.mem_cons_of_mem _ hp, hs, rfl⟩

/-- The files of a closed log, in the order in which they are scanned. -/
theorem Steady.files (h : Steady env log segs act) (hsolid : log.dir.get? segs.length ≠ some []) :
    ∃ f : Nat → Bytes, log.dir.entries = (List.range (segs.length + 1)).map (fun i => (i, f i)) ∧
      (∀ i rs, segs[i]? = some rs → log.dir.get? i = some (f i) ∧
        ∃ hlc count root, count < 2 ^ 64 ∧ f i = sealedBytes env i hlc (start segs i) rs count root) ∧
      ∃ hlc, f segs.length = segmentBytes env segs.length hlc segs.flatten.length act := by
  let f : Nat → Bytes := fun i => (log.dir.get? i).getD []
  have hf : ∀ i file, log.dir.get? i = some file → f i = file := fun i file hfile => by
    show (log.dir.get? i).getD [] = file
    rw [hfile]
    rfl
  obtain ⟨hlc, hlast⟩ := h.solid_file hsolid
  have hsealed : ∀ i rs, segs[i]? = some rs → log.dir.get? i = some (f i) ∧
      ∃ hlc count root, count < 2 ^ 64 ∧ f i = sealedBytes env i hlc (start segs i) rs count root := fun i rs hseg => by
    obtain ⟨c, -, hc⟩ := h.container hseg
    obtain ⟨hlc, count, root, hcount, hfile⟩ := hc.file
    rw [hf i _ hfile]
    exact ⟨hfile, hlc, count, root, hcount, rfl⟩
  refine ⟨f, entries_of_get? (fun i => ?_), hsealed, hlc, hf _ _ hlast⟩
  by_cases hi : i < segs.length
  · rw [if_pos (by omega)]
    exact (hsealed i _ (List.getElem?_eq_getElem hi)).1
  · by_cases heq : i = segs.length
    · rw [heq, if_pos (Nat.lt_succ_self _), hf _ _ hlast]
      exact hlast
    · rw [if_neg (by omega)]
      exact h.no_more_files i (by omega)

/-- **A log that opens was closed with footers that agree**, and takes the roots from them. -/
theorem Steady.open_stored (h : Steady env log segs act) (hsolid : log.dir.get? segs.length ≠ some []) {log' : Log}
    (hopen : openLog env log.dir = .ok log') :
    log.FootersAgree ∧ ∀ c ∈ log'.catalog.sealedSegments, StoredIn log.dir c := by
  obtain ⟨f, hentries, hsealed, hlc, hactive⟩ := h.files hsolid
  have hlsns := h.lsns
  rw [List.length_append] at hlsns
  unfold openLog at hopen
  split at hopen
  · cases hopen
  · rename_i scans hscans
    split at hopen
    · cases hopen
    · rename_i o ho
      obtain ⟨hlength, hget⟩ := scanSegments_get hscans
      rw [hentries, List.length_map, List.length_range] at hlength
      have hscan : ∀ j p s, scans[j]? = some (p, s) → j ≤ segs.length ∧ p = (j, f j) ∧
          scanSegmentFile env (f j) (!temRodapeSelado (f j)) = .ok s := fun j p s hj => by
        have hlt := (List.getElem?_eq_some_iff.1 hj).1
        have hfile : log.dir.entries[j]? = some (j, f j) := by
          rw [hentries, List.getElem?_map, List.getElem?_range (by omega)]
          rfl
        obtain ⟨s', hs', hok⟩ := hget j _ hfile
        cases hj.symm.trans hs'
        exact ⟨by omega, rfl, hok⟩
      have hfooter : ∀ j p s rs, segs[j]? = some rs → scans[j]? = some (p, s) → ∃ hlc count root, count < 2 ^ 64 ∧
          f j = sealedBytes env j hlc (start segs j) rs count root ∧ s.isSealed = true ∧ s.blake3Root = some root ∧
            (s.corruptionDetected = false → count = rs.length) := fun j p s rs hseg hj => by
        obtain ⟨-, -, hok⟩ := hscan j p s hj
        obtain ⟨-, hlc, count, root, hcount, hfile⟩ := hsealed j rs hseg
        obtain ⟨s₀, hs₀, hlen, hs⟩ := scanSegmentFile_footer j hlc root (h.sealed_readable hseg) hcount
          (h.sealed_lsns hseg) (!temRodapeSelado (f j))
        rw [← hfile] at hs
        cases hok.symm.trans hs
        exact ⟨hlc, count, root, hcount, hfile, rfl, rfl, (hs₀.footer_sound_iff hlen).1⟩
      have hnewest : ∀ p s, scans[segs.length]? = some (p, s) → s.isSealed = false ∧ s.version = formatVersion := fun p s hj => by
        obtain ⟨-, -, hok⟩ := hscan _ p s hj
        obtain ⟨s₀, hs₀, hwhole, -⟩ := resumed_of_whole segs.length hlc segs.flatten.length
          (fun r hr => h.readable r (List.mem_append_right _ hr)) (Nat.le_of_lt hlsns) (!temRodapeSelado (f segs.length))
        rw [← hactive] at hs₀
        cases hok.symm.trans hs₀
        exact ⟨hwhole.isSealed, hwhole.version⟩
      have hcases : ∀ j p s, scans[j]? = some (p, s) → j < segs.length ∨ j = segs.length := fun j p s hj =>
        Nat.lt_or_eq_of_le (hscan j p s hj).1
      have hkinds : ∀ j p s, scans[j]? = some (p, s) → s.isSealed = true ∨ j + 1 = scans.length ∧ s.version = formatVersion :=
        fun j p s hj => by
          rcases hcases j p s hj with hlt | rfl
          · obtain ⟨-, -, -, -, -, hs, -⟩ := hfooter j p s _ (List.getElem?_eq_getElem hlt) hj
            exact .inl hs
          · exact .inr ⟨hlength.symm, (hnewest p s hj).2⟩
      obtain ⟨hsound, hmem⟩ := openSegments_ok hkinds ho
      refine ⟨fun c file g hc hfile hdecode => ?_, fun c hc => ?_⟩
      · obtain ⟨i, hi, rfl⟩ := List.getElem_of_mem hc
        have hi' : i < segs.length := h.length_sealed ▸ hi
        have hseg : segs[i]? = some segs[i] := List.getElem?_eq_getElem hi'
        have hsealedAt := h.sealedAt i _ _ (List.getElem?_eq_getElem hi) hseg
        have hscanned : i < scans.length := by omega
        obtain ⟨hlc, count, root, hcount, hfi, -, -, hagree⟩ := hfooter i _ _ _ hseg (List.getElem?_eq_getElem hscanned)
        rw [hsealedAt.id] at hfile
        cases hfile.symm.trans (hsealed i _ hseg).1
        rw [hfi, decode_sealedBytes hcount (h.sealed_lsns hseg)] at hdecode
        cases hdecode
        rw [hsealedAt.entries, length_indexFrom]
        refine hagree ((hsound i _ _ (List.getElem?_eq_getElem hscanned)).resolve_right ?_)
        omega
      · cases hopen
        have hc' : c ∈ o.initialSealed := by
          unfold Opening.finish at hc
          split at hc
          · exact (List.mem_insertionSort _).1 hc
          · exact (List.mem_insertionSort _).1 hc
        rcases hmem c hc' with hnil | ⟨p, s, base, hp, hs, rfl⟩
        · cases hnil
        · obtain ⟨j, hj⟩ := List.mem_iff_getElem?.1 hp
          obtain ⟨-, rfl, -⟩ := hscan j p s hj
          rcases hcases j _ s hj with hlt | rfl
          · have hseg : segs[j]? = some segs[j] := List.getElem?_eq_getElem hlt
            obtain ⟨hlc, count, root, hcount, hfj, -, hroot, -⟩ := hfooter j _ s _ hseg hj
            have hfile := (hsealed j _ hseg).1
            rw [hfj] at hfile
            exact ⟨_, _, hfile, decode_sealedBytes hcount (h.sealed_lsns hseg), hroot⟩
          · exact absurd (hs.symm.trans (hnewest _ s hj).1) (by decide)

/-- **A log that opens has the sealed segments it was closed with**, and goes on in the same active one. -/
theorem Sealing.reopen (hq : Sealing log log.committedLsn) (h : Steady env log segs act)
    (hsolid : log.dir.get? segs.length ≠ some []) {log' : Log} (hopen : openLog env log.dir = .ok log') :
    Steady env log' segs act ∧ log'.dir = log.dir ∧ Sealing log' log'.committedLsn ∧
      log'.catalog.sealedSegments = log.catalog.sealedSegments := by
  obtain ⟨hfooters, hstored⟩ := h.open_stored hsolid hopen
  obtain ⟨file, scan, log₁, -, -, hopen', hsteady, hdir, -⟩ := h.reopen hfooters hsolid
  cases hopen.symm.trans hopen'
  have heq : log'.catalog.sealedSegments = log.catalog.sealedSegments := by
    refine List.ext_getElem (hsteady.length_sealed.trans h.length_sealed.symm) (fun i hi hi' => ?_)
    have hlt : i < segs.length := h.length_sealed ▸ hi'
    have hseg : segs[i]? = some segs[i] := List.getElem?_eq_getElem hlt
    have hc := hsteady.sealedAt i _ _ (List.getElem?_eq_getElem hi) hseg
    have hd := h.sealedAt i _ _ (List.getElem?_eq_getElem hi') hseg
    have hroot := (hstored _ (List.getElem_mem hi)).root_eq (hq.stored _ (List.getElem_mem hi')) (hc.id.trans hd.id.symm)
    generalize log'.catalog.sealedSegments[i] = c at hc hroot
    generalize log.catalog.sealedSegments[i] = d at hd hroot
    cases c
    cases d
    simp only [SegmentContainer.mk.injEq]
    exact ⟨hc.id.trans hd.id.symm, hc.baseLsn.trans hd.baseLsn.symm, hc.maxLsn.trans hd.maxLsn.symm,
      hc.isSealed.trans hd.isSealed.symm, hroot, hc.version.trans hd.version.symm, hc.entries.trans hd.entries.symm⟩
  refine ⟨hsteady, hdir, ⟨?_, ?_, ?_, ?_, ?_⟩, heq⟩
  · rw [heq, hsteady.segmentId, ← h.segmentId]
    exact hq.below
  · rw [heq, hdir]
    exact hq.stored
  · rw [heq, hsteady.minLsn, ← h.minLsn]
    exact hq.apart
  · rw [hsteady.minLsn, hsteady.maxLsn]
    exact Nat.le_add_right _ _
  · rw [hsteady.bytesWritten, hsteady.maxLsn, hsteady.minLsn, hsteady.committed, ← h.bytesWritten, ← h.maxLsn, ← h.minLsn,
      ← h.committed]
    exact hq.tail

end Legacy
end Heraclitus
