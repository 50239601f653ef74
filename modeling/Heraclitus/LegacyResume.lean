import Heraclitus.LegacyRecovery
import Heraclitus.LegacyVerify
/-!
# LegacyResume — the Merkle state of a v5 log that is closed and opened again

The worker keeps one leaf hash a record and seals a segment with their count and root.  Opening rebuilds the hashes of the
active segment by a scan, unless the last bytes of the file decode as a footer: then it takes the file for sealed and
hashes nothing, also where these bytes belong to a record.
-/
namespace Heraclitus
namespace Legacy

variable (env : Env)

/-- The records as a reader finds them in the file. -/
def foundFrom : Nat → List Rec → List Found
  | _, [] => []
  | lsn, r :: rs => { lsn := lsn, bytes := r.bytes env lsn } :: foundFrom (lsn + 1) rs

/-- One leaf hash a record. -/
def leavesFrom (lsn : Nat) (rs : List Rec) : List Digest :=
  (foundFrom env lsn rs).map (fun r => recordLeaf env.toHashes formatVersion r.bytes)

variable {env}

@[simp] theorem length_foundFrom : ∀ (rs : List Rec) (lsn : Nat), (foundFrom env lsn rs).length = rs.length
  | [], _ => rfl
  | r :: rs, lsn => by rw [foundFrom, List.length_cons, List.length_cons, length_foundFrom rs]

@[simp] theorem length_leavesFrom (lsn : Nat) (rs : List Rec) : (leavesFrom env lsn rs).length = rs.length := by
  simp [leavesFrom]

theorem leavesFrom_concat (r : Rec) : ∀ (rs : List Rec) (lsn : Nat), leavesFrom env lsn (rs ++ [r])
    = leavesFrom env lsn rs ++ [recordLeaf env.toHashes formatVersion (r.bytes env (lsn + rs.length))]
  | [], lsn => rfl
  | q :: rs, lsn => by
    have ih := leavesFrom_concat r rs (lsn + 1)
    rw [Nat.add_assoc, Nat.add_comm 1] at ih
    exact congrArg (recordLeaf env.toHashes formatVersion (q.bytes env lsn) :: ·) ih

theorem foundFrom_concat (r : Rec) : ∀ (rs : List Rec) (lsn : Nat), foundFrom env lsn (rs ++ [r])
    = foundFrom env lsn rs ++ [{ lsn := lsn + rs.length, bytes := r.bytes env (lsn + rs.length) }]
  | [], lsn => rfl
  | q :: rs, lsn => by
    have ih := foundFrom_concat r rs (lsn + 1)
    rw [Nat.add_assoc, Nat.add_comm 1] at ih
    exact congrArg ({ lsn := lsn, bytes := q.bytes env lsn } :: ·) ih

/-! ## What the files of a log hold -/

/-- **Records are found as they were written.** -/
theorem reads_recordBytes (tail : Bytes) : ∀ (rs : List Rec) (lsn : Nat) (last : Option Nat),
    (∀ r ∈ rs, r.Readable env) → lsn + rs.length ≤ 2 ^ 64 → (∀ l ∈ last, l < lsn) →
    Reads env formatVersion last (recordBytes env lsn rs ++ tail) (foundFrom env lsn rs) tail
  | [], _, _, _, _, _ => .done _ _
  | r :: rs, lsn, last, hread, hlsn, hlast => by
    have hr := hread r List.mem_cons_self
    rw [List.length_cons] at hlsn
    have hdecode := decodeRecord_encodeRecord env.toHashes formatVersion r.episode.tsHlc
      (recordBytes env (lsn + 1) rs ++ tail) (show lsn < 2 ^ 64 by omega) hr.bounded
    have ih := reads_recordBytes tail rs (lsn + 1) (some lsn) (fun q hq => hread q (List.mem_cons_of_mem r hq)) (by omega)
      (fun l hl => by cases hl; exact Nat.lt_succ_self _)
    rw [recordBytes, List.append_assoc]
    exact .record ⟨rfl, ⟨_, _, _, (length_bytes r lsn).symm ▸ hdecode, hr.decodesMeta⟩, hlast⟩ ih

theorem holds_segment (i hlc : Nat) {lsn : Nat} {rs : List Rec} {tail : Bytes} {ending : Ending}
    (hread : ∀ r ∈ rs, r.Readable env) (hlsn : lsn + rs.length ≤ 2 ^ 64)
    (hends : EndsWith env formatVersion (lastLsn none (foundFrom env lsn rs)) tail ending) :
    Holds env (segmentBytes env i hlc lsn rs ++ tail) formatVersion (foundFrom env lsn rs) tail ending := by
  let header : SegmentHeader := { version := formatVersion, segmentId := i, createdHlc := hlc }
  have htake : (segmentBytes env i hlc lsn rs ++ tail).take headerLen = header.encode := by
    rw [segmentBytes, List.append_assoc]
    exact List.take_left' (SegmentHeader.length_encode header)
  refine ⟨?_, ?_, hends⟩
  · rw [htake]
    exact header.decode_encode (Nat.le_refl _)
  · rw [segmentBytes_drop]
    exact reads_recordBytes tail rs lsn none hread hlsn (fun l hl => by cases hl)

theorem decodeRecord_footer (f : SegmentFooter) (hcount : f.recordCount < 2 ^ 64) (hmin : f.minLsn < 2 ^ 64)
    (hmax : f.maxLsn < 2 ^ 64) (H : Hashes) (version : Nat) : decodeRecord H version f.encode = .footer f := by
  have hmagic : f.encode.take 4 = footerMagic := by
    rw [SegmentFooter.encode, List.append_assoc, List.append_assoc, List.append_assoc]
    exact List.take_left' (by rfl)
  rw [decodeRecord, if_pos hmagic, f.decode_encode hcount hmin hmax]

theorem consecutive_foundFrom : ∀ (rs : List Rec) (lsn : Nat),
    (foundFrom env lsn rs).IsChain (fun r q => q.lsn = r.lsn + 1)
  | [], _ => .nil
  | [_], _ => .singleton _
  | _ :: q :: rs, lsn => .cons_cons rfl (consecutive_foundFrom (q :: rs) (lsn + 1))

/-- A sealed segment is its records and its footer. -/
theorem holds_sealed (i hlc : Nat) {lsn count : Nat} {rs : List Rec} (root : Digest) (hread : ∀ r ∈ rs, r.Readable env)
    (hcount : count < 2 ^ 64) (hlsn : lsn + rs.length < 2 ^ 64) :
    Holds env (sealedBytes env i hlc lsn rs count root) formatVersion (foundFrom env lsn rs)
      (SegmentFooter.encode ⟨count, lsn, lsn + (rs.length - 1), root⟩) (.footer ⟨count, lsn, lsn + (rs.length - 1), root⟩) :=
  holds_segment i hlc hread (Nat.le_of_lt hlsn) (.footer (decodeRecord_footer _ hcount (by show lsn < _; omega)
    (by show lsn + (rs.length - 1) < _; omega) _ _))

/-- **A segment that was sealed with its own count and root is as it should be.** -/
theorem intact_sealed (i hlc : Nat) {lsn : Nat} {rs : List Rec} (hread : ∀ r ∈ rs, r.Readable env)
    (hlsn : lsn + rs.length < 2 ^ 64) : Intact env
      (sealedBytes env i hlc lsn rs rs.length (merkleRoot env.toHashes (leavesFrom env lsn rs))) := by
  refine ⟨formatVersion, foundFrom env lsn rs, _, _, holds_sealed i hlc _ hread (by omega) hlsn,
    ⟨SegmentFooter.length_encode _, length_foundFrom rs lsn, ?_, ?_, consecutive_foundFrom rs lsn⟩, rfl⟩
  · intro r hr
    cases rs with
    | nil => cases hr
    | cons q rs => cases hr; rfl
  · intro r hr
    rcases List.eq_nil_or_concat rs with rfl | ⟨init, q, rfl⟩
    · cases hr
    · rw [List.concat_eq_append, foundFrom_concat, List.getLast?_concat] at hr
      cases hr
      simp

/-! ## What the worker keeps -/

variable {log : Log} {segs : List (List Rec)} {act : List Rec}

variable (env) in
/-- The worker has a leaf hash for every record of the active segment, and every sealed footer is that of its records. -/
structure Hashed (dir : SortedMap Nat Bytes) (active : Active) (segs : List (List Rec)) (act : List Rec) : Prop where
  sealedFile : ∀ i rs, segs[i]? = some rs → ∃ hlc, dir.get? i = some (sealedBytes env i hlc (start segs i) rs rs.length
    (merkleRoot env.toHashes (leavesFrom env (start segs i) rs)))
  recordHashes : active.recordHashes = leavesFrom env segs.flatten.length act

/-- **Rolling and writing keep the leaf hashes.** -/
theorem hashed_keptByWorker : KeptByWorker env (Hashed env) := by
  constructor
  · intro log segs act h hsolid hq
    obtain ⟨hlc, hfile⟩ := h.solid_file hsolid
    refine ⟨fun i rs hrs => ?_, rfl⟩
    have hi : i < segs.length + 1 := by
      have := (List.getElem?_eq_some_iff.1 hrs).1
      rwa [List.length_append] at this
    rw [h.roll_dir hfile, if_neg (Nat.ne_of_lt hi), start_append [act] (Nat.le_of_lt_succ hi)]
    by_cases hlast : i = segs.length
    · subst hlast
      rw [List.getElem?_concat_length] at hrs
      cases hrs
      rw [if_pos rfl, hq.recordHashes, length_leavesFrom, start_length]
      exact ⟨hlc, rfl⟩
    · rw [List.getElem?_append_left (by omega)] at hrs
      rw [if_neg hlast]
      exact hq.sealedFile i rs hrs
  · intro b segs act before done r h hq
    have hlsn : b.tentativeLsn = segs.flatten.length + act.length := by
      rw [h.tentative, ← h.records, List.length_append]
    refine ⟨fun i rs hrs => ?_, ?_⟩
    · have hi : i ≠ b.log.active.segmentId := by
        rw [h.layout.segmentId]
        exact Nat.ne_of_lt (List.getElem?_eq_some_iff.1 hrs).1
      have hother : (b.write env r.opaqueMeta r.episode (r.bytes env b.tentativeLsn)).log.dir.get? i = b.log.dir.get? i := by
        show (writeAll b.log.dir b.log.active.segmentId _).get? i = _
        rw [get?_writeAll, if_neg hi]
      rw [hother]
      exact hq.sealedFile i rs hrs
    · show b.log.active.recordHashes ++ [recordLeaf env.toHashes formatVersion _] = _
      rw [hq.recordHashes, leavesFrom_concat, hlsn]

theorem hashed_create : Hashed env (Log.create env).dir (Log.create env).active [] [] :=
  ⟨fun i rs hrs => (by cases hrs), rfl⟩

/-- The footer of a hashed segment counts its records. -/
theorem Hashed.footersAgree (hq : Hashed env log.dir log.active segs act) (h : Steady env log segs act) :
    log.FootersAgree := by
  intro c file f hc hfile hdecode
  obtain ⟨i, hi, rfl⟩ := List.getElem_of_mem hc
  have hi' : i < segs.length := h.length_sealed ▸ hi
  have hsealed := h.sealedAt i _ _ (List.getElem?_eq_getElem hi) (List.getElem?_eq_getElem hi')
  obtain ⟨hlc, hget⟩ := hq.sealedFile i _ (List.getElem?_eq_getElem hi')
  have hlsn := h.sealed_lsns (List.getElem?_eq_getElem hi')
  rw [hsealed.id] at hfile
  cases hget.symm.trans hfile
  rw [decode_sealedBytes (by omega) hlsn] at hdecode
  cases hdecode
  rw [hsealed.entries, length_indexFrom]

/-! ## Closing and opening -/

/-- The scan of a whole active file. -/
theorem resumed_of_whole (i hlc lsn : Nat) {rs : List Rec} (hread : ∀ r ∈ rs, r.Readable env)
    (hlsn : lsn + rs.length ≤ 2 ^ 64) (com : Bool) :
    ∃ s, scanSegmentFile env (segmentBytes env i hlc lsn rs) com = .ok s ∧
      Scanned s (segmentBytes env i hlc lsn rs).length lsn rs ∧ s.validLen = s.fileLen := by
  obtain ⟨s, fuel, hs, -, hdrop, hscan⟩ := scanSegmentFile_records i hlc [] hread hlsn com
  rw [List.append_nil] at hs hdrop hscan
  have hend : s.validLen = s.fileLen := by
    rw [hs.validLen, hs.fileLen, length_segmentBytes]
  refine ⟨s, hscan.trans ?_, hs, hend⟩
  cases fuel with
  | zero => rfl
  | succ fuel => exact if_pos (Nat.le_of_eq hend.symm)

/-- **A closed log opens as it was**, with the leaf hashes that the scan of the active file gives. -/
theorem Steady.reopen (h : Steady env log segs act) (hfooters : log.FootersAgree)
    (hsolid : log.dir.get? segs.length ≠ some []) :
    ∃ file scan log', log.dir.get? segs.length = some file ∧
      scanSegmentFile env file (!temRodapeSelado file) = .ok scan ∧ openLog env log.dir = .ok log' ∧
      Steady env log' segs act ∧ log'.dir = log.dir ∧ log'.active.recordHashes = scan.recordHashes := by
  obtain ⟨hlc, hfile⟩ := h.solid_file hsolid
  have hlsns := h.lsns
  have hcrash : log.crash env false (segmentBytes env segs.length hlc segs.flatten.length act).length = log.dir := by
    unfold Log.crash
    rw [h.segmentId, hfile, Option.getD_some]
    dsimp only
    rw [if_neg (by decide), List.take_length]
    exact SortedMap.insert_of_get? hfile
  obtain ⟨cut, last, scans, hd⟩ := h.dirScanned hfooters false
    (segmentBytes env segs.length hlc segs.flatten.length act).length (fun h => absurd h (by decide))
  rw [hcrash] at hd
  cases hd.newest.symm.trans hfile
  rw [List.length_append] at hlsns
  obtain ⟨s, hok, hs, hend⟩ := resumed_of_whole segs.length hlc segs.flatten.length
    (fun r hr => h.readable r (List.mem_append_right _ hr)) (Nat.le_of_lt hlsns) (!temRodapeSelado
      (segmentBytes env segs.length hlc segs.flatten.length act))
  cases hd.lastScan.symm.trans hok
  have hunbroken : (last.corruptionDetected || decide (last.validLen < last.fileLen)) = false := by
    rw [hs.sound, hend]
    simp
  obtain ⟨log', hopen, hsteady, hhashes, hdir⟩ := hd.open_resumed
    ⟨⟨last, hs, rfl⟩, .inl ⟨hlc, by rw [hunbroken]; rfl⟩⟩ h.readable h.lsns
  refine ⟨_, last, log', hfile, hd.lastScan, hopen, hsteady, SortedMap.ext (fun i => ?_), hhashes⟩
  rw [hdir, hunbroken]
  split
  · rename_i hi
    rw [hi, hfile]
    rfl
  · rfl

/-! ## The Merkle state -/

variable (env) in
/-- Segment `c` is sealed with the count and the root of all its records, and `verifySegment` says so. -/
def Log.SealedSound (log : Log) (c : SegmentContainer) : Prop :=
  ∃ file scan f report, log.dir.get? c.id = some file ∧ scanSegmentFile env file true = .ok scan ∧
    scan.locs = c.entries ∧ scan.recordHashes.length = c.entries.length ∧
    SegmentFooter.decode (file.drop (file.length - footerLen)) = some f ∧ f.recordCount = c.entries.length ∧
    f.blake3Root = merkleRoot env.toHashes scan.recordHashes ∧
    log.verifySegment env c.id = .ok (some report) ∧ report.valid = true

variable (env) in
/-- The worker has one leaf hash for each record in the active segment's file. -/
def Log.ActiveSound (log : Log) : Prop :=
  ∃ file scan, log.dir.get? log.active.segmentId = some file ∧ scanSegmentFile env file true = .ok scan ∧
    scan.locs = log.catalog.active.entries ∧ log.active.recordHashes = scan.recordHashes ∧
    log.active.recordHashes.length = log.catalog.active.entries.length

variable (env) in
/-- The Merkle state of the log is that of its records, of which there are `n`. -/
structure Log.MerkleSound (log : Log) (n : Nat) : Prop where
  records : (log.catalog.containers.map (·.entries.length)).sum = n
  sealedSound : ∀ c ∈ log.catalog.sealedSegments, log.SealedSound env c
  activeSound : log.ActiveSound env

/-- A sealed segment that is as it should be is verified, whichever container is found for it. -/
theorem verifySegment_of_intact {c : SegmentContainer} {file : Bytes} (hc : c ∈ log.catalog.containers)
    (hfile : log.dir.get? c.id = some file) (h : Intact env file) :
    ∃ report, log.verifySegment env c.id = .ok (some report) ∧ report.valid = true := by
  obtain ⟨s, hs, hsealed, hsound, hroot⟩ := h.scan
  have hfind : (log.catalog.containers.find? (·.id = c.id)).isSome := by
    rw [List.find?_isSome]
    exact ⟨c, hc, decide_eq_true rfl⟩
  obtain ⟨d, hd⟩ := Option.isSome_iff_exists.1 hfind
  unfold Log.verifySegment Log.scanSegmentOf
  rw [hd, hfile]
  dsimp only
  rw [hs]
  refine ⟨_, rfl, ?_⟩
  rw [hsound, hroot]
  simp

/-- The scan of a sealed file finds the leaf hashes of its records. -/
theorem scan_sealed (i hlc : Nat) {lsn count : Nat} {rs : List Rec} (root : Digest) (hread : ∀ r ∈ rs, r.Readable env)
    (hcount : count < 2 ^ 64) (hlsn : lsn + rs.length < 2 ^ 64) :
    ∃ scan, scanSegmentFile env (sealedBytes env i hlc lsn rs count root) true = .ok scan ∧
      scan.locs = indexFrom lsn headerLen rs ∧ scan.recordHashes = leavesFrom env lsn rs := by
  obtain ⟨s, hs, -, hgives⟩ := (holds_sealed i hlc root hread hcount hlsn).scan
  generalize hfile : sealedBytes env i hlc lsn rs count root = file at hs hgives
  obtain ⟨scan, hok, hscan, -⟩ := scanSegmentFile_sealed hfile.symm hread hcount hlsn true
  refine ⟨scan, hok, hscan.locs, ?_⟩
  cases hok.symm.trans hgives
  exact hs.recordHashes

/-- The scan of an active file finds the leaf hashes of its records. -/
theorem scan_active (i hlc : Nat) {lsn : Nat} {rs : List Rec} (hread : ∀ r ∈ rs, r.Readable env)
    (hlsn : lsn + rs.length ≤ 2 ^ 64) : ∃ scan, scanSegmentFile env (segmentBytes env i hlc lsn rs) true = .ok scan ∧
      scan.locs = indexFrom lsn headerLen rs ∧ scan.recordHashes = leavesFrom env lsn rs := by
  obtain ⟨scan, hok, hscan, -⟩ := resumed_of_whole i hlc lsn hread hlsn true
  refine ⟨scan, hok, hscan.locs, ?_⟩
  have htorn : decodeRecord env.toHashes formatVersion [] = .torn := by simp [decodeRecord, footerMagic, recordHeaderLen]
  have hholds := holds_segment i hlc hread hlsn (.torn htorn)
  rw [List.append_nil] at hholds
  obtain ⟨s, hs, -, hgives⟩ := hholds.scan
  rcases hgives with heq | heq
  · cases hok.symm.trans heq
    exact hs.recordHashes
  · cases hok.symm.trans heq
    exact hs.recordHashes

theorem Hashed.sealedSound (hq : Hashed env log.dir log.active segs act) (h : Steady env log segs act)
    {c : SegmentContainer} (hc : c ∈ log.catalog.sealedSegments) : log.SealedSound env c := by
  obtain ⟨i, hi, rfl⟩ := List.getElem_of_mem hc
  have hi' : i < segs.length := h.length_sealed ▸ hi
  have hseg : segs[i]? = some segs[i] := List.getElem?_eq_getElem hi'
  have hsealed := h.sealedAt i _ _ (List.getElem?_eq_getElem hi) hseg
  have hread := h.sealed_readable hseg
  have hlsn := h.sealed_lsns hseg
  obtain ⟨hlc, hget⟩ := hq.sealedFile i _ hseg
  have hcount : segs[i].length < 2 ^ 64 := by omega
  obtain ⟨scan, hscan, hlocs, hhashes⟩ := scan_sealed i hlc (merkleRoot env.toHashes (leavesFrom env (start segs i) segs[i]))
    hread hcount hlsn
  have hget' := (congrArg log.dir.get? hsealed.id).trans hget
  obtain ⟨report, hreport, hvalid⟩ := verifySegment_of_intact (List.mem_append_left _ hc) hget'
    (intact_sealed i hlc hread hlsn)
  refine ⟨_, scan, _, report, hget', hscan, hlocs.trans hsealed.entries.symm, ?_,
    decode_sealedBytes hcount hlsn, ?_, ?_, hreport, hvalid⟩
  · rw [hhashes, length_leavesFrom, hsealed.entries, length_indexFrom]
  · rw [hsealed.entries, length_indexFrom]
  · rw [hhashes]

theorem Hashed.activeSound (hq : Hashed env log.dir log.active segs act) (h : Steady env log segs act)
    (hsolid : log.dir.get? segs.length ≠ some []) : log.ActiveSound env := by
  obtain ⟨hlc, hfile⟩ := h.solid_file hsolid
  have hlsns := h.lsns
  rw [List.length_append] at hlsns
  obtain ⟨scan, hscan, hlocs, hhashes⟩ := scan_active segs.length hlc
    (fun r hr => h.readable r (List.mem_append_right _ hr)) (Nat.le_of_lt hlsns)
  refine ⟨_, scan, h.segmentId ▸ hfile, hscan, hlocs.trans h.entries.symm, hq.recordHashes.trans hhashes.symm, ?_⟩
  rw [hq.recordHashes, h.entries, length_leavesFrom, length_indexFrom]

theorem Steady.records (h : Steady env log segs act) :
    (log.catalog.containers.map (·.entries.length)).sum = (segs.flatten ++ act).length := by
  have hsealed : log.catalog.sealedSegments.map (·.entries.length) = segs.map List.length := by
    refine List.ext_getElem (by simp [h.length_sealed]) (fun i hi hi' => ?_)
    rw [List.length_map] at hi hi'
    rw [List.getElem_map, List.getElem_map,
      (h.sealedAt i _ _ (List.getElem?_eq_getElem hi) (List.getElem?_eq_getElem hi')).entries, length_indexFrom]
  rw [LogCatalog.containers, List.map_append, List.sum_append, hsealed, List.length_append, List.length_flatten]
  simp [h.entries, length_indexFrom]

theorem Hashed.merkleSound (hq : Hashed env log.dir log.active segs act) (h : Steady env log segs act)
    (hsolid : log.dir.get? segs.length ≠ some []) : log.MerkleSound env (segs.flatten ++ act).length :=
  ⟨h.records, fun _ hc => hq.sealedSound h hc, hq.activeSound h hsolid⟩

/-- A scan without leaf hashes collects none. -/
theorem scanRecords_no_hashes {file : Bytes} : ∀ (fuel : Nat) (s s' : SegmentScan), s.recordHashes = [] →
    scanRecords env file false fuel s = .ok s' → s'.recordHashes = []
  | 0, s, s', h, heq => by
    cases heq
    exact h
  | fuel + 1, s, s', h, heq => by
    rw [scanRecords] at heq
    dsimp only at heq
    split_ifs at heq with hend hshort hmagic hfooter hlen
    · cases heq
      exact h
    · cases heq
      exact h
    · cases heq
      exact h
    · split at heq
      · cases heq
        exact h
      · cases heq
        exact h
    · cases heq
      exact h
    · split at heq
      · split_ifs at heq
        · cases heq
          exact h
        · split at heq
          · cases heq
          · refine scanRecords_no_hashes fuel _ s' ?_ heq
            exact h
      · cases heq
        exact h

theorem scanSegmentFile_no_hashes {file : Bytes} {s : SegmentScan} (h : scanSegmentFile env file false = .ok s) :
    s.recordHashes = [] := by
  unfold scanSegmentFile at h
  split at h
  · cases h
    rfl
  · split at h
    · cases h
    · exact scanRecords_no_hashes _ _ _ rfl h

/-- **A log that is closed and opened has its leaf hashes again exactly when its active file does not end like a sealed
one.** -/
theorem Steady.reopen_hashed_iff (h : Steady env log segs act) (hq : Hashed env log.dir log.active segs act)
    (hsolid : log.dir.get? segs.length ≠ some []) {file : Bytes} (hfile : log.dir.get? segs.length = some file) :
    ∃ log', openLog env log.dir = .ok log' ∧ Steady env log' segs act ∧ log'.dir = log.dir ∧
      (Hashed env log'.dir log'.active segs act ↔ temRodapeSelado file = false) := by
  obtain ⟨file', scan, log', hfile', hscan, hopen, hsteady, hdir, hhashes⟩ := h.reopen (hq.footersAgree h) hsolid
  obtain ⟨hlc, hsegment⟩ := h.solid_file hsolid
  cases hfile.symm.trans hfile'
  cases hfile.symm.trans hsegment
  have hlsns := h.lsns
  rw [List.length_append] at hlsns
  refine ⟨log', hopen, hsteady, hdir, ?_⟩
  cases hend : temRodapeSelado (segmentBytes env segs.length hlc segs.flatten.length act) with
  | false =>
    refine iff_of_true ⟨fun i rs hrs => ?_, ?_⟩ rfl
    · rw [hdir]
      exact hq.sealedFile i rs hrs
    · obtain ⟨scan', hscan', -, hleaves⟩ := scan_active segs.length hlc
        (fun r hr => h.readable r (List.mem_append_right _ hr)) (Nat.le_of_lt hlsns)
      rw [hend] at hscan
      cases hscan.symm.trans hscan'
      exact hhashes.trans hleaves
  | true =>
    refine iff_of_false (fun hq' => ?_) (fun h => absurd h.symm Bool.false_ne_true)
    rw [hend] at hscan
    have hnone : (leavesFrom env segs.flatten.length act).length = 0 := by
      rw [← hq'.recordHashes, hhashes, scanSegmentFile_no_hashes hscan]
      rfl
    rw [length_leavesFrom] at hnone
    have hshort : (segmentBytes env segs.length hlc segs.flatten.length act).length < headerLen + footerLen := by
      rw [length_segmentBytes, List.length_eq_zero_iff.1 hnone]
      decide
    rw [temRodapeSelado, if_pos hshort] at hend
    exact Bool.false_ne_true hend

/-! ## Runs -/

/-- A batch, or closing the log and opening it again. -/
inductive Visit where
  | batch (cmds : List LogCommand)
  | reopen

variable (env) in
def Lifetime.visit (segmentMaxBytes : Nat) (s : Lifetime) : Visit → Option Lifetime
  | .batch cmds => s.step env segmentMaxBytes (.batch cmds)
  | .reopen =>
    match s.log with
    | .error _ => none
    | .ok log => some { s with log := openLog env log.dir }

/-- The file of the active segment does not end like a sealed one. -/
def Log.Unsealed (log : Log) : Prop := ∀ file, log.dir.get? log.active.segmentId = some file → temRodapeSelado file = false

instance (log : Log) : Decidable log.Unsealed :=
  inferInstanceAs (Decidable (∀ file, log.dir.get? log.active.segmentId = some file → temRodapeSelado file = false))

variable (env) in
/-- Batches are bounded, and a log is closed when its active file does not end like a sealed one. -/
def VisitOk (s : Lifetime) : Visit → Prop
  | .batch cmds => ∀ log, s.log = .ok log → log.BatchOk env cmds
  | .reopen => ∀ log, s.log = .ok log → log.Unsealed

instance (s : Lifetime) : ∀ v : Visit, Decidable (VisitOk env s v)
  | .batch cmds => inferInstanceAs (Decidable (∀ log, s.log = .ok log → log.BatchOk env cmds))
  | .reopen => inferInstanceAs (Decidable (∀ log, s.log = .ok log → log.Unsealed))

variable (env) in
def Lifetime.HashedInv (s : Lifetime) : Prop :=
  ∃ log segs act, s.log = .ok log ∧ Steady env log segs act ∧ Hashed env log.dir log.active segs act ∧
    log.dir.get? segs.length ≠ some [] ∧ s.history = (segs.flatten ++ act).map Rec.episode

theorem Lifetime.hashedInv_visit (hcodec : env.RoundTrips) {segmentMaxBytes : Nat} {s s' : Lifetime} {v : Visit}
    (h : s.HashedInv env) (hok : VisitOk env s v) (hs : s.visit env segmentMaxBytes v = some s') : s'.HashedInv env := by
  obtain ⟨log, segs, act, hlog, hsteady, hq, hsolid, hhistory⟩ := h
  cases v with
  | batch cmds =>
    obtain ⟨hbounded, hlsns⟩ := hok log hlog
    obtain ⟨segs', act', done, hsteady', hsolid', hrecords, hacks, hq'⟩ :=
      hsteady.batch_keeps hashed_keptByWorker hq hcodec segmentMaxBytes hsolid hbounded hlsns
    simp only [Lifetime.visit, Lifetime.step, hlog] at hs
    split at hs
    · cases hs
      refine ⟨_, segs', act', rfl, hsteady', hq', hsolid', ?_⟩
      dsimp only
      rw [hhistory, hacks, hrecords, map_snd_number]
      exact List.map_append.symm
    · cases hs
  | reopen =>
    obtain ⟨hlc, hfile⟩ := hsteady.solid_file hsolid
    have hunsealed := hok log hlog _ ((congrArg log.dir.get? hsteady.segmentId).trans hfile)
    obtain ⟨log', hopen, hsteady', hdir, hiff⟩ := hsteady.reopen_hashed_iff hq hsolid hfile
    simp only [Lifetime.visit, hlog, Option.some.injEq] at hs
    cases hs
    exact ⟨log', segs, act, hopen, hsteady', hiff.2 hunsealed, hdir ▸ hsolid, hhistory⟩

theorem hashedInv_of_run (hcodec : env.RoundTrips) {segmentMaxBytes : Nat} {visits : List Visit} {s : Lifetime}
    (h : Run (Lifetime.visit env segmentMaxBytes) (VisitOk env) (Lifetime.start env) visits s) : s.HashedInv env :=
  h.invariant ⟨Log.create env, [], [], rfl, steady_create, hashed_create, solid_create, rfl⟩
    (fun _ _ _ hi hok hs => Lifetime.hashedInv_visit hcodec hi hok hs)

/-- **Opening rebuilds the Merkle state**: in every run of batches and reopenings whose steps are all fine, the log is open,
holds the whole history, has one leaf hash for each record of the active segment, and every sealed segment has the count
and the root of its records. -/
theorem merkle_state_resumed (hcodec : env.RoundTrips) {segmentMaxBytes : Nat} {visits : List Visit} {s : Lifetime}
    (h : Run (Lifetime.visit env segmentMaxBytes) (VisitOk env) (Lifetime.start env) visits s) :
    ∃ log, s.log = .ok log ∧ log.MerkleSound env s.history.length := by
  obtain ⟨log, segs, act, hlog, hsteady, hq, hsolid, hhistory⟩ := hashedInv_of_run hcodec h
  refine ⟨log, hlog, ?_⟩
  rw [hhistory, List.length_map]
  exact hq.merkleSound hsteady hsolid

def sampleVisits : List Visit := [.batch [sampleAppend 0], .reopen, .batch [sampleAppend 1]]

set_option maxRecDepth 20000 in
/-- A record, a reopening, and a roll. -/
theorem merkle_state_resumed_sample : ∃ s : Lifetime, s.history = [sampleEpisode 0, sampleEpisode 1] ∧
    ∃ log, s.log = .ok log ∧ log.MerkleSound sampleEnv s.history.length := by
  have hhistory : (runs (Lifetime.visit sampleEnv 110) (.start sampleEnv) sampleVisits).map Lifetime.history
      = some [sampleEpisode 0, sampleEpisode 1] := by decide +kernel
  obtain ⟨s, hs, hhistory⟩ := Option.map_eq_some_iff.1 hhistory
  have hok : allOk (Lifetime.visit sampleEnv 110) (VisitOk sampleEnv) (.start sampleEnv) sampleVisits := by decide +kernel
  exact ⟨s, hhistory, merkle_state_resumed sampleEnv_roundTrips (run_of_runs hs hok)⟩

/-! ## A record that ends like a footer -/

/-- The leaves of `imitation` under LSN 0 and of `sampleAppend 1` under LSN 1. -/
def imitationBlake3 (input : Bytes) : Digest :=
  if input.length = 129 then
    ⟨[165, 173, 183, 115, 121, 49, 225, 179, 93, 225, 92, 96, 91, 181, 142, 156, 113, 134, 124, 172, 6, 193, 251, 58, 125,
      144, 91, 106, 94, 205, 227, 105], rfl⟩
  else sampleBlake3 input

def imitationEnv : Env := { sampleEnv with blake3 := imitationBlake3 }

/-- A record whose content, with the empty fields behind it, is as long as a footer and begins like one. -/
def imitation : LogCommand :=
  .append (List.replicate 16 0) (plainEpisode 1 (footerMagic ++ List.replicate 51 0)) none

/-- What a log says of its segment 0, and whether its directory opens again. -/
structure Verdict where
  isSealed : Bool
  records : Nat
  valid : Bool
  opens : Bool
  deriving DecidableEq

def Log.verdict (log : Log) : Option Verdict :=
  (log.verifySegment imitationEnv 0).toOption.join.map (fun r =>
    { isSealed := r.isSealed, records := r.records, valid := r.valid
      opens := (openLog imitationEnv log.dir).toOption.isSome })

set_option maxRecDepth 20000 in
/-- **A record that ends like a footer loses its leaf hash**: the log is closed behind it and opened, and the next record
rolls the segment.  Its footer counts no record, `verifySegment` finds one and says that the segment is not valid, and the
directory does not open any more. -/
theorem footer_misses_record : imitationEnv.RoundTrips ∧ ∃ s log,
    runs (Lifetime.visit imitationEnv 200) (.start imitationEnv) [.batch [imitation], .reopen, .batch [sampleAppend 1]]
      = some s ∧ s.log = .ok log ∧ log.verdict = some ⟨true, 1, false, false⟩ ∧
    ¬log.MerkleSound imitationEnv s.history.length := by
  have hverdict : (runs (Lifetime.visit imitationEnv 200) (.start imitationEnv)
      [.batch [imitation], .reopen, .batch [sampleAppend 1]]).map
        (fun s => s.log.toOption.map (fun log => (log.verdict, log.catalog.sealedSegments.map (·.id))))
      = some (some (some ⟨true, 1, false, false⟩, [0])) := by decide +kernel
  obtain ⟨s, hs, hverdict⟩ := Option.map_eq_some_iff.1 hverdict
  obtain ⟨log, hlog, hverdict⟩ := Option.map_eq_some_iff.1 hverdict
  have hok : s.log = .ok log := by
    cases h : s.log with
    | error e =>
      rw [h] at hlog
      cases hlog
    | ok log' =>
      rw [h] at hlog
      cases hlog
      rfl
  obtain ⟨hv, hids⟩ := Prod.mk.inj hverdict
  refine ⟨fun m e p h => sampleEnv_roundTrips m e p h, s, log, hs, hok, hv, fun hsound => ?_⟩
  obtain ⟨c, hc, hid⟩ := List.mem_map.1 (hids ▸ List.mem_singleton_self 0)
  obtain ⟨file, scan, f, report, -, -, -, -, -, -, -, hreport, hvalid⟩ := hsound.sealedSound c hc
  rw [hid] at hreport
  rw [Log.verdict, hreport] at hv
  have hreported := congrArg Verdict.valid (Option.some.inj hv)
  exact Bool.false_ne_true (hreported.symm.trans hvalid)

end Legacy
end Heraclitus
