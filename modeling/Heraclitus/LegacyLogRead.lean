import Heraclitus.LegacyLog
import Heraclitus.LogSpec
import Heraclitus.Lib.Pieces
/-!
# LegacyLogRead — what the readers of the v5 log return

The records of a log lie in segments, the last one active: `Layout` says how files, catalog and worker agree on them.
A reader that is sent to a segment with records returns exactly what the log holds (`scanLoop_eq`, `read_eq`); one that
is sent to a sealed segment without records skips a position.
-/
namespace Heraclitus
namespace Legacy

/-- A record as the worker writes it. -/
structure Rec where
  opaqueMeta : Bytes
  episode : Episode
  payload : Bytes

def Rec.size (r : Rec) : Nat := recordHeaderLen + r.payload.length

def sizes (rs : List Rec) : Nat := (rs.map Rec.size).sum

variable (env : Env)

def Rec.bytes (r : Rec) (lsn : Nat) : Bytes :=
  encodeRecord env.toHashes formatVersion lsn r.episode.tsHlc r.payload

/-- A record that every reader accepts. -/
structure Rec.Readable (r : Rec) : Prop where
  decodes : env.decodePayload formatVersion r.payload = .ok r.episode
  decodesMeta : env.decodeMeta formatVersion r.payload = .ok r.opaqueMeta
  bounded : r.payload.length ≤ maxPayloadLen

def recordBytes : Nat → List Rec → Bytes
  | _, [] => []
  | lsn, r :: rs => r.bytes env lsn ++ recordBytes (lsn + 1) rs

/-- The index of a segment: one entry a record, the first at byte `off`. -/
def indexFrom : Nat → Nat → List Rec → List LsnEntry
  | _, _, [] => []
  | lsn, off, r :: rs => { lsn := lsn, offset := off, opaqueMeta := r.opaqueMeta } :: indexFrom (lsn + 1) (off + r.size) rs

theorem length_indexFrom : ∀ (rs : List Rec) (lsn off : Nat), (indexFrom lsn off rs).length = rs.length
  | [], _, _ => rfl
  | r :: rs, lsn, off => by rw [indexFrom, List.length_cons, List.length_cons, length_indexFrom rs]

theorem getElem?_indexFrom {r : Rec} : ∀ (rs : List Rec) (lsn off j : Nat), rs[j]? = some r →
    (indexFrom lsn off rs)[j]?
      = some { lsn := lsn + j, offset := off + sizes (rs.take j), opaqueMeta := r.opaqueMeta }
  | s :: rs, lsn, off, 0, h => by
    cases h
    simp [indexFrom, sizes]
  | s :: rs, lsn, off, j + 1, h => by
    rw [List.getElem?_cons_succ] at h
    rw [indexFrom, List.getElem?_cons_succ, getElem?_indexFrom rs _ _ j h]
    have hsize : sizes ((s :: rs).take (j + 1)) = s.size + sizes (rs.take j) := by simp [sizes]
    rw [hsize, Nat.add_right_comm lsn, Nat.add_assoc lsn, Nat.add_assoc off]

theorem indexFrom_append : ∀ (rs ss : List Rec) (lsn off : Nat),
    indexFrom lsn off (rs ++ ss) = indexFrom lsn off rs ++ indexFrom (lsn + rs.length) (off + sizes rs) ss
  | [], ss, lsn, off => by simp [indexFrom, sizes]
  | r :: rs, ss, lsn, off => by
    rw [List.cons_append, indexFrom, indexFrom, indexFrom_append rs, List.cons_append, List.length_cons]
    simp only [sizes, List.map_cons, List.sum_cons, Nat.add_assoc, Nat.add_comm 1]

theorem recordBytes_append : ∀ (rs ss : List Rec) (lsn : Nat),
    recordBytes env lsn (rs ++ ss) = recordBytes env lsn rs ++ recordBytes env (lsn + rs.length) ss
  | [], ss, lsn => rfl
  | r :: rs, ss, lsn => by
    rw [List.cons_append, recordBytes, recordBytes, recordBytes_append rs, List.append_assoc, List.length_cons,
      Nat.add_assoc, Nat.add_comm 1]

@[simp] theorem length_recordBytes : ∀ (rs : List Rec) (lsn : Nat), (recordBytes env lsn rs).length = sizes rs
  | [], _ => rfl
  | r :: rs, lsn => by
    rw [recordBytes, List.length_append, length_recordBytes rs, Rec.bytes, length_encodeRecord]
    rfl

/-- The bytes from the `j`-th record on. -/
theorem drop_recordBytes (rs : List Rec) (lsn j : Nat) (hj : j ≤ rs.length) :
    (recordBytes env lsn rs).drop (sizes (rs.take j)) = recordBytes env (lsn + j) (rs.drop j) := by
  conv_lhs => rw [← List.take_append_drop j rs, recordBytes_append]
  rw [List.take_left' (List.length_take_of_le hj)]
  rw [List.drop_left' (length_recordBytes env _ _), List.length_take_of_le hj]

/-- The content of segment `i` while it is active. -/
def segmentBytes (i hlc lsn : Nat) (rs : List Rec) : Bytes :=
  SegmentHeader.encode { version := formatVersion, segmentId := i, createdHlc := hlc } ++ recordBytes env lsn rs

/-- Its content once sealed; the count and the root are those of the worker. -/
def sealedBytes (i hlc lsn : Nat) (rs : List Rec) (count : Nat) (root : Digest) : Bytes :=
  segmentBytes env i hlc lsn rs ++ SegmentFooter.encode
    { recordCount := count, minLsn := lsn, maxLsn := lsn + (rs.length - 1), blake3Root := root }

/-- `c` is the container of the sealed segment `i`, which holds `rs` from `lsn` on. -/
structure SealedAt (dir : SortedMap Nat Bytes) (i lsn : Nat) (c : SegmentContainer) (rs : List Rec) : Prop where
  id : c.id = i
  baseLsn : c.baseLsn = lsn
  maxLsn : c.maxLsn = lsn + (rs.length - 1)
  isSealed : c.isSealed = true
  version : c.version = formatVersion
  entries : c.entries = indexFrom lsn headerLen rs
  file : ∃ hlc count root, count < 2 ^ 64 ∧ dir.get? i = some (sealedBytes env i hlc lsn rs count root)

/-- Files, catalog and worker agree on the records: `segs` sealed, `act` in the active segment.  The file of an active
segment without records may be empty, as a crash can leave it. -/
structure Layout (log : Log) (segs : List (List Rec)) (act : List Rec) : Prop where
  readable : ∀ r ∈ segs.flatten ++ act, r.Readable env
  length_sealed : log.catalog.sealedSegments.length = segs.length
  sealedAt : ∀ i c rs, log.catalog.sealedSegments[i]? = some c → segs[i]? = some rs →
    SealedAt env log.dir i (start segs i) c rs
  id : log.catalog.active.id = segs.length
  baseLsn : log.catalog.active.baseLsn = segs.flatten.length
  isSealed : log.catalog.active.isSealed = false
  version : log.catalog.active.version = formatVersion
  file : (∃ hlc, log.dir.get? segs.length = some (segmentBytes env segs.length hlc segs.flatten.length act)) ∨
    act = [] ∧ log.dir.get? segs.length = some []
  segmentId : log.active.segmentId = segs.length
  bytesWritten : log.active.bytesWritten = headerLen + sizes act
  recordHashes : log.active.recordHashes.length ≤ act.length
  minLsn : log.active.baseLsn = segs.flatten.length
  maxLsn : log.active.maxLsn = segs.flatten.length + (act.length - 1)
  no_more_files : ∀ i, segs.length < i → log.dir.get? i = none

/-- What holds between two batches. -/
structure Steady (log : Log) (segs : List (List Rec)) (act : List Rec) : Prop extends Layout env log segs act where
  entries : log.catalog.active.entries = indexFrom segs.flatten.length headerLen act
  committed : log.committedLsn = (segs.flatten ++ act).length
  lsns : (segs.flatten ++ act).length < 2 ^ 64

/-- What a reader finds, also in the middle of a batch: the catalog has the first records of the active segment. -/
structure Seen (log : Log) (segs : List (List Rec)) (act seen : List Rec) : Prop extends Layout env log segs act where
  entries : log.catalog.active.entries = indexFrom segs.flatten.length headerLen seen
  prefixed : seen <+: act
  lsns : (segs.flatten ++ seen).length < 2 ^ 64

variable {env} in
theorem Steady.seen {log : Log} {segs : List (List Rec)} {act : List Rec} (h : Steady env log segs act) :
    Seen env log segs act act := ⟨h.toLayout, h.entries, List.prefix_rfl, h.lsns⟩

/-! ## One record -/

section Record

variable {env} {file tail : Bytes} {r : Rec} {pos lsn : Nat}

theorem take_header (h : file.drop pos = r.bytes env lsn ++ tail) :
    ((file.drop pos).take recordHeaderLen).length = recordHeaderLen := by
  rw [h, List.length_take, List.length_append, Rec.bytes, length_encodeRecord]
  omega

theorem take_len (h : file.drop pos = r.bytes env lsn ++ tail) :
    ((file.drop pos).take recordHeaderLen).take 4 = leBytes 4 r.payload.length := by
  rw [List.take_take, h]
  exact take_four_encodeRecord env.toHashes formatVersion lsn r.episode.tsHlc r.payload tail

theorem take_record (h : file.drop pos = r.bytes env lsn ++ tail) :
    (file.drop pos).take (recordHeaderLen + r.payload.length) = r.bytes env lsn := by
  rw [h]
  exact List.take_left' (length_encodeRecord env.toHashes formatVersion lsn r.episode.tsHlc r.payload)

theorem leNat_len (hr : r.Readable env) : leNat (leBytes 4 r.payload.length) = r.payload.length := by
  refine leNat_leBytes_of_lt (Nat.lt_of_le_of_lt hr.bounded ?_)
  decide

theorem decodeRecord_bytes (hr : r.Readable env) (hlsn : lsn < 2 ^ 64) :
    decodeRecord env.toHashes formatVersion (r.bytes env lsn)
      = .record lsn (r.episode.tsHlc % 2 ^ 64) r.payload (recordHeaderLen + r.payload.length) := by
  have := decodeRecord_encodeRecord env.toHashes formatVersion r.episode.tsHlc [] hlsn hr.bounded
  rwa [List.append_nil] at this

theorem length_bytes (r : Rec) (lsn : Nat) : (r.bytes env lsn).length = recordHeaderLen + r.payload.length :=
  length_encodeRecord env.toHashes formatVersion lsn r.episode.tsHlc r.payload

/-- A pointed read of a record that is there. -/
theorem lerRegistoEm_eq {log : Log} {seg : Nat} (hfile : log.dir.get? seg = some file)
    (h : file.drop pos = r.bytes env lsn ++ tail) (hr : r.Readable env) (hlsn : lsn < 2 ^ 64) :
    log.lerRegistoEm env seg pos formatVersion = .ok (some (lsn, r.episode)) := by
  unfold Log.lerRegistoEm
  rw [hfile]
  dsimp only
  rw [take_header h, if_neg (Nat.lt_irrefl _), take_len h, leNat_len hr, if_neg (Nat.not_lt.2 hr.bounded), take_record h,
    length_bytes, if_neg (Nat.lt_irrefl _), decodeRecord_bytes hr hlsn]
  dsimp only
  rw [hr.decodes]
  rfl

end Record

/-! ## The inner loop -/

/-- What a reader at `lsn` takes of the records `rs` that begin there: no more than `room`, none from `stop` on. -/
def taken (stop room lsn : Nat) (rs : List Rec) : List (Nat × Episode) :=
  number lsn ((rs.take (min (stop - lsn) room)).map Rec.episode)

theorem length_number {α : Type} : ∀ (l : List α) (n : Nat), (number n l).length = l.length
  | [], _ => rfl
  | a :: l, n => by rw [number, List.length_cons, List.length_cons, length_number l]

theorem length_taken (stop room lsn : Nat) (rs : List Rec) :
    (taken stop room lsn rs).length = min (min (stop - lsn) room) rs.length := by
  rw [taken, length_number, List.length_map, List.length_take]

theorem taken_nil (stop room lsn : Nat) : taken stop room lsn [] = [] := by
  simp [taken, number]

theorem taken_full {stop room lsn : Nat} {rs : List Rec} (h : stop ≤ lsn ∨ room = 0) : taken stop room lsn rs = [] := by
  have : min (stop - lsn) room = 0 := by omega
  rw [taken, this]
  rfl

theorem taken_cons {stop room lsn : Nat} {r : Rec} {rs : List Rec} (hstop : lsn < stop) (hroom : 0 < room) :
    taken stop room lsn (r :: rs) = (lsn, r.episode) :: taken stop (room - 1) (lsn + 1) rs := by
  have : min (stop - lsn) room = min (stop - (lsn + 1)) (room - 1) + 1 := by omega
  rw [taken, this, List.take_succ_cons]
  rfl

variable {env}

/-- **The inner loop takes the records of its segment**, as long as the segment's bounds do not lie. -/
theorem scanSegment_eq {c : SegmentContainer} {file tail : Bytes} {stop : Nat} (max : Nat)
    (hver : c.version = formatVersion) (hstop : stop ≤ 2 ^ 64) : ∀ (rs : List Rec) (fuel pos lsn : Nat) (out : List (Nat × Episode)),
    file.drop pos = recordBytes env lsn rs ++ tail → (∀ r ∈ rs, r.Readable env) → stop - lsn ≤ fuel →
    (c.isSealed = true → rs ≠ [] → c.maxLsn + 1 = lsn + rs.length) →
    (stop ≤ lsn + rs.length ∨ c.isSealed = true ∧ c.maxLsn < lsn + rs.length) →
    scanSegment env c file stop max fuel pos lsn out
      = .ok (lsn + (taken stop (max - out.length) lsn rs).length, out ++ taken stop (max - out.length) lsn rs)
  | rs, 0, pos, lsn, out, _, _, hfuel, _, _ => by
    rw [taken_full (.inl (by omega)), List.append_nil]
    rfl
  | [], fuel + 1, pos, lsn, out, _, _, _, _, hend => by
    simp only [taken_nil, List.append_nil, List.length_nil, Nat.add_zero] at hend ⊢
    rw [scanSegment]
    by_cases hgo : lsn < stop ∧ out.length < max
    · rw [if_neg (not_not.2 hgo), if_pos]
      exact hend.resolve_left (Nat.not_le.2 hgo.1)
    · rw [if_pos hgo]
  | r :: rs, fuel + 1, pos, lsn, out, hdrop, hread, hfuel, hmax, hend => by
    rw [scanSegment]
    by_cases hgo : lsn < stop ∧ out.length < max
    · have hr : r.Readable env := hread r List.mem_cons_self
      rw [recordBytes, List.append_assoc] at hdrop
      have hsealed : ¬(c.isSealed = true ∧ c.maxLsn < lsn) := fun ⟨hs, hlt⟩ => by
        have := hmax hs (List.cons_ne_nil r rs)
        rw [List.length_cons] at this
        omega
      have hlen : ¬maxPayloadLen < r.payload.length := Nat.not_lt.2 hr.bounded
      have hlsn : lsn < 2 ^ 64 := by omega
      have hnext : file.drop (pos + (recordHeaderLen + r.payload.length)) = recordBytes env (lsn + 1) rs ++ tail := by
        rw [← List.drop_drop, hdrop]
        exact List.drop_left' (length_bytes r lsn)
      rw [List.length_cons, Nat.add_comm rs.length, ← Nat.add_assoc] at hmax hend
      have ih := scanSegment_eq max hver hstop rs fuel (pos + (recordHeaderLen + r.payload.length)) (lsn + 1)
        (out ++ [(lsn, r.episode)]) hnext (fun s hs => hread s (List.mem_cons_of_mem r hs)) (by omega)
        (fun hs _ => hmax hs (List.cons_ne_nil r rs)) hend
      rw [List.length_append, List.length_singleton] at ih
      have hsub : max - (out.length + 1) = max - out.length - 1 := by omega
      rw [if_neg (not_not.2 hgo), if_neg hsealed]
      dsimp only
      rw [take_header hdrop, if_neg (Nat.lt_irrefl _), take_len hdrop, if_neg (leBytes_ne_footerMagic hr.bounded),
        leNat_len hr, if_neg hlen, take_record hdrop, length_bytes, if_neg (Nat.lt_irrefl _), hver,
        decodeRecord_bytes hr hlsn]
      dsimp only
      rw [if_pos rfl, hr.decodes]
      dsimp only
      rw [ih, hsub, taken_cons hgo.1 (by omega), List.length_cons, List.append_assoc, Nat.add_assoc, Nat.add_comm 1]
      rfl
    · rw [if_pos hgo, taken_full (by omega), List.append_nil]
      rfl

/-! ## Which segment a reader is sent to -/

variable (env) in
/-- Container `c` serves the records `rs` of the log `all`, the first of which is `lsn`. -/
structure Serves (log : Log) (all : List Rec) (c : SegmentContainer) (lsn : Nat) (rs : List Rec) : Prop where
  baseLsn : c.baseLsn = lsn
  version : c.version = formatVersion
  found : log.catalog.versaoDoSegmento c.id = some formatVersion
  entries : c.entries = indexFrom lsn headerLen rs
  maxLsn : c.isSealed = true → rs ≠ [] → c.maxLsn + 1 = lsn + rs.length
  last : c.isSealed = false → all.length ≤ lsn + rs.length
  file : ∃ file tail, log.dir.get? c.id = some file ∧ file.drop headerLen = recordBytes env lsn rs ++ tail
  records : ∃ rest, all.drop lsn = rs ++ rest

variable (env) in
/-- No search over the bases of the sealed segments hits a segment without records. -/
def LogCatalog.NoEmptyHit (catalog : LogCatalog) : Prop :=
  ∀ lsn i c, lsn < catalog.active.baseLsn →
    env.binarySearch (catalog.sealedSegments.map (·.baseLsn)) lsn = .ok i → catalog.sealedSegments[i]? = some c →
    c.entries ≠ []

variable (env) in
/-- The search for one LSN does not hit a segment without records. -/
def LogCatalog.NoEmptyHitAt (catalog : LogCatalog) (lsn : Nat) : Prop :=
  ∀ i c, lsn < catalog.active.baseLsn → env.binarySearch (catalog.sealedSegments.map (·.baseLsn)) lsn = .ok i →
    catalog.sealedSegments[i]? = some c → c.entries ≠ []

theorem LogCatalog.NoEmptyHit.at {catalog : LogCatalog} (h : catalog.NoEmptyHit env) (lsn : Nat) :
    catalog.NoEmptyHitAt env lsn := fun i c => h lsn i c

theorem segmentBytes_drop (env : Env) (i hlc lsn : Nat) (rs : List Rec) (tail : Bytes) :
    (segmentBytes env i hlc lsn rs ++ tail).drop headerLen = recordBytes env lsn rs ++ tail := by
  rw [segmentBytes, List.append_assoc]
  exact List.drop_left' (SegmentHeader.length_encode _)

variable {log : Log} {segs : List (List Rec)} {act seen : List Rec}

theorem Layout.bases (h : Layout env log segs act) : log.catalog.sealedSegments.map (·.baseLsn) = starts segs := by
  refine List.ext_getElem? (fun i => ?_)
  rw [List.getElem?_map, getElem?_starts, ← h.length_sealed]
  by_cases hi : i < log.catalog.sealedSegments.length
  · have hi' : i < segs.length := h.length_sealed ▸ hi
    have hseg : segs[i]? = some segs[i] := List.getElem?_eq_getElem hi'
    have hc := h.sealedAt i _ _ (List.getElem?_eq_getElem hi) hseg
    rw [if_pos hi, List.getElem?_eq_getElem hi, Option.map_some, hc.baseLsn]
  · rw [if_neg hi, List.getElem?_eq_none (Nat.not_lt.1 hi)]
    rfl

theorem Layout.container (h : Layout env log segs act) {i : Nat} {rs : List Rec} (hseg : segs[i]? = some rs) :
    ∃ c, log.catalog.sealedSegments[i]? = some c ∧ SealedAt env log.dir i (start segs i) c rs := by
  have hi : i < log.catalog.sealedSegments.length := h.length_sealed ▸ (List.getElem?_eq_some_iff.1 hseg).1
  exact ⟨_, List.getElem?_eq_getElem hi, h.sealedAt i _ rs (List.getElem?_eq_getElem hi) hseg⟩

theorem Layout.serves_sealed (h : Layout env log segs act) {i : Nat} {c : SegmentContainer} {rs : List Rec}
    (hseg : segs[i]? = some rs) (hc : SealedAt env log.dir i (start segs i) c rs)
    (hmem : log.catalog.sealedSegments[i]? = some c) : Serves env log (segs.flatten ++ seen) c (start segs i) rs := by
  obtain ⟨hlc, count, root, -, hfile⟩ := hc.file
  obtain ⟨rest, hrest⟩ := drop_start hseg
  refine ⟨hc.baseLsn, hc.version, ?_, hc.entries, fun _ hne => ?_, fun hs => ?_, ?_, rest ++ seen, ?_⟩
  · unfold LogCatalog.versaoDoSegmento
    split
    · exact congrArg some h.version
    · have hsome : (log.catalog.sealedSegments.find? (fun d => decide (d.id = c.id))).isSome := by
        rw [List.find?_isSome]
        exact ⟨c, List.mem_of_getElem? hmem, decide_eq_true rfl⟩
      obtain ⟨d, hd⟩ := Option.isSome_iff_exists.1 hsome
      obtain ⟨j, hj⟩ := List.mem_iff_getElem?.1 (List.mem_of_find?_eq_some hd)
      have hlt : j < segs.length := h.length_sealed ▸ (List.getElem?_eq_some_iff.1 hj).1
      have hjseg : segs[j]? = some segs[j] := List.getElem?_eq_getElem hlt
      rw [hd, Option.map_some, (h.sealedAt j d _ hj hjseg).version]
  · have : 0 < rs.length := List.length_pos_iff.2 hne
    rw [hc.maxLsn]
    omega
  · rw [hc.isSealed] at hs
    cases hs
  · rw [hc.id]
    exact ⟨_, _, hfile, segmentBytes_drop env i hlc _ rs _⟩
  · have hle : start segs i ≤ segs.flatten.length := by
      rw [← start_length]
      exact start_mono segs (Nat.le_of_lt (List.getElem?_eq_some_iff.1 hseg).1)
    rw [List.drop_append_of_le_length hle, hrest, List.append_assoc]

theorem Seen.serves_active (h : Seen env log segs act seen) :
    Serves env log (segs.flatten ++ seen) log.catalog.active segs.flatten.length seen := by
  obtain ⟨tail, htail⟩ := h.prefixed
  refine ⟨h.baseLsn, h.version, ?_, h.entries, fun hs => ?_, fun _ => ?_, ?_, [], ?_⟩
  · rw [LogCatalog.versaoDoSegmento, if_pos rfl, h.version]
  · rw [h.isSealed] at hs
    cases hs
  · rw [List.length_append]
  · rw [h.id]
    rcases h.file with ⟨hlc, hfile⟩ | ⟨hact, hfile⟩
    · have hdrop := segmentBytes_drop env segs.length hlc segs.flatten.length act []
      rw [List.append_nil, List.append_nil] at hdrop
      refine ⟨_, recordBytes env (segs.flatten.length + seen.length) tail, hfile, ?_⟩
      rw [hdrop, ← htail, recordBytes_append]
    · have hseen : seen = [] := List.prefix_nil.1 (hact ▸ h.prefixed)
      exact ⟨_, [], hfile, by rw [hseen]; rfl⟩
  · rw [List.drop_left, List.append_nil]

/-- **A reader below the head is sent to a segment that has the record**, unless its search hits an empty segment. -/
theorem Seen.pick (h : Seen env log segs act seen) (hS : IsBinarySearch env.binarySearch) {lsn : Nat}
    (hhit : log.catalog.NoEmptyHitAt env lsn) (hlsn : lsn < (segs.flatten ++ seen).length) :
    ∃ c b rs, log.catalog.pick env lsn = some c ∧ Serves env log (segs.flatten ++ seen) c b rs ∧ b ≤ lsn ∧
      lsn < b + rs.length := by
  rw [List.length_append] at hlsn
  unfold LogCatalog.pick
  rw [h.baseLsn, h.bases]
  by_cases hact : segs.flatten.length ≤ lsn
  · exact ⟨_, _, seen, if_pos hact, h.serves_active, hact, hlsn⟩
  · rw [if_neg hact]
    have hlt : lsn < segs.flatten.length := Nat.not_le.1 hact
    cases hsearch : env.binarySearch (starts segs) lsn with
    | ok i =>
      obtain ⟨rs, hseg, hstart⟩ := found_start hS hsearch
      obtain ⟨c, hmem, hc⟩ := h.container hseg
      refine ⟨c, start segs i, rs, hmem, h.serves_sealed hseg hc hmem, Nat.le_of_eq hstart, ?_⟩
      have hne := hhit i c (by rwa [h.baseLsn]) (by rwa [h.bases]) hmem
      have hpos : rs ≠ [] := fun h0 => hne (by rw [hc.entries, h0]; rfl)
      have := List.length_pos_iff.2 hpos
      omega
    | error i =>
      obtain ⟨hpos, rs, hseg, hlow, hhigh⟩ := absent_start hS hlt hsearch
      obtain ⟨c, hmem, hc⟩ := h.container hseg
      refine ⟨c, start segs (i - 1), rs, ?_, h.serves_sealed hseg hc hmem, Nat.le_of_lt hlow, hhigh⟩
      dsimp only
      rw [if_pos hpos, hmem]

theorem Steady.pick (h : Steady env log segs act) (hS : IsBinarySearch env.binarySearch)
    (hhit : log.catalog.NoEmptyHit env) {lsn : Nat} (hlsn : lsn < (segs.flatten ++ act).length) :
    ∃ c b rs, log.catalog.pick env lsn = some c ∧ Serves env log (segs.flatten ++ act) c b rs ∧ b ≤ lsn ∧
      lsn < b + rs.length := h.seen.pick hS (hhit.at lsn) hlsn

/-! ## Reading -/

section Serving

variable {all : List Rec} {c : SegmentContainer} {b lsn : Nat} {rs : List Rec}

/-- The entry a container that serves `lsn` has at its position. -/
theorem Serves.entry (h : Serves env log all c b rs) (hb : b ≤ lsn) (hlt : lsn < b + rs.length) :
    ∃ r, all[lsn]? = some r ∧ rs[lsn - b]? = some r ∧ c.entries[lsn - c.baseLsn]?
      = some { lsn := lsn, offset := headerLen + sizes (rs.take (lsn - b)), opaqueMeta := r.opaqueMeta } := by
  have hj : lsn - b < rs.length := by omega
  have hr : rs[lsn - b]? = some rs[lsn - b] := List.getElem?_eq_getElem hj
  obtain ⟨rest, hrest⟩ := h.records
  refine ⟨rs[lsn - b], ?_, hr, ?_⟩
  · have hget : (all.drop b)[lsn - b]? = some rs[lsn - b] := by rw [hrest, List.getElem?_append_left hj, hr]
    rwa [List.getElem?_drop, Nat.add_sub_cancel' hb] at hget
  · rw [h.baseLsn, h.entries, getElem?_indexFrom rs b headerLen _ hr, Nat.add_sub_cancel' hb]

/-- From the offset of `lsn` on, the file holds the records from `lsn` on. -/
theorem Serves.drop_file (h : Serves env log all c b rs) (hb : b ≤ lsn) (hlt : lsn < b + rs.length) :
    ∃ file tail, log.dir.get? c.id = some file ∧ file.drop (headerLen + sizes (rs.take (lsn - b)))
      = recordBytes env lsn (rs.drop (lsn - b)) ++ tail := by
  obtain ⟨file, tail, hfile, hdrop⟩ := h.file
  have hj : lsn - b ≤ rs.length := by omega
  have hle : sizes (rs.take (lsn - b)) ≤ (recordBytes env b rs).length := by
    conv_rhs => rw [← List.take_append_drop (lsn - b) rs, recordBytes_append, List.length_append]
    rw [length_recordBytes]
    omega
  refine ⟨file, tail, hfile, ?_⟩
  rw [← List.drop_drop, hdrop, List.drop_append_of_le_length hle, drop_recordBytes env rs b _ hj,
    Nat.add_sub_cancel' hb]

theorem Serves.subset (h : Serves env log all c b rs) {r : Rec} (hr : r ∈ rs) : r ∈ all := by
  obtain ⟨rest, hrest⟩ := h.records
  have : r ∈ all.drop b := by rw [hrest]; exact List.mem_append_left rest hr
  exact List.mem_of_mem_drop this

end Serving

theorem taken_append (stop room lsn : Nat) (rs rest : List Rec) :
    taken stop room lsn (rs ++ rest) = taken stop room lsn rs
      ++ taken stop (room - (taken stop room lsn rs).length) (lsn + (taken stop room lsn rs).length)
        ((rs ++ rest).drop (taken stop room lsn rs).length) := by
  rw [length_taken]
  generalize ht : min (min (stop - lsn) room) rs.length = t
  have hrest : min (stop - (lsn + t)) (room - t) = min (stop - lsn) room - t := by omega
  have hfirst : rs.take (min (stop - lsn) room) = (rs ++ rest).take t := by
    by_cases hle : min (stop - lsn) room ≤ rs.length
    · rw [show t = min (stop - lsn) room by omega, List.take_append_of_le_length hle]
    · rw [show t = rs.length by omega, List.take_left, List.take_of_length_le (by omega)]
  have hlen : ((rs ++ rest).take t).length = t := by
    rw [List.length_take, List.length_append]
    omega
  unfold taken
  rw [hrest, hfirst]
  conv_lhs => rw [show min (stop - lsn) room = t + (min (stop - lsn) room - t) by omega, List.take_add]
  rw [List.map_append, number_append, List.length_map, hlen]

/-- **The outer loop takes what the log holds.** -/
theorem Steady.scanLoop_eq (h : Steady env log segs act) (hS : IsBinarySearch env.binarySearch)
    (hhit : log.catalog.NoEmptyHit env) {stop max : Nat} (hstop : stop ≤ (segs.flatten ++ act).length) :
    ∀ (fuel lsn : Nat) (out : List (Nat × Episode)), stop - lsn ≤ fuel →
      log.scanLoop env stop max fuel lsn out
        = .ok (out ++ taken stop (max - out.length) lsn ((segs.flatten ++ act).drop lsn))
  | 0, lsn, out, hfuel => by
    rw [taken_full (.inl (by omega)), List.append_nil]
    rfl
  | fuel + 1, lsn, out, hfuel => by
    rw [Log.scanLoop]
    by_cases hgo : lsn < stop ∧ out.length < max
    · obtain ⟨c, b, rs, hpick, hserves, hb, hlt⟩ := h.pick hS hhit (Nat.lt_of_lt_of_le hgo.1 hstop)
      obtain ⟨r, -, -, hentry⟩ := hserves.entry hb hlt
      obtain ⟨file, tail, hfile, hdrop⟩ := hserves.drop_file hb hlt
      have hlen : (rs.drop (lsn - b)).length = b + rs.length - lsn := by
        rw [List.length_drop]
        omega
      have hscan := scanSegment_eq max hserves.version (Nat.le_trans hstop (Nat.le_of_lt h.lsns)) (rs.drop (lsn - b))
        (stop - lsn) (headerLen + sizes (rs.take (lsn - b))) lsn out hdrop
        (fun s hs => h.readable s (hserves.subset (List.mem_of_mem_drop hs))) (Nat.le_refl _)
        (fun hs hne => by
          have := hserves.maxLsn hs (fun h0 => by simp [h0] at hlt; omega)
          omega)
        (by
          cases hs : c.isSealed with
          | false =>
            have := hserves.last hs
            exact .inl (by omega)
          | true =>
            have := hserves.maxLsn hs (fun h0 => by simp [h0] at hlt; omega)
            exact .inr ⟨rfl, by omega⟩)
      have hpos : 0 < (taken stop (max - out.length) lsn (rs.drop (lsn - b))).length := by
        rw [length_taken]
        omega
      have hsplit : ∃ rest, (segs.flatten ++ act).drop lsn = rs.drop (lsn - b) ++ rest := by
        obtain ⟨rest, hrest⟩ := hserves.records
        refine ⟨rest, ?_⟩
        rw [← Nat.add_sub_cancel' hb, ← List.drop_drop, hrest, List.drop_append_of_le_length (by omega)]
        rw [Nat.add_sub_cancel_left]
      obtain ⟨rest, hrest⟩ := hsplit
      rw [if_neg (not_not.2 hgo), hpick]
      dsimp only
      rw [hentry]
      dsimp only
      rw [hfile]
      dsimp only
      rw [hscan]
      dsimp only
      rw [if_neg (by omega), h.scanLoop_eq hS hhit hstop fuel _ _ (by omega), hrest, taken_append, ← hrest, List.drop_drop,
        List.length_append, List.append_assoc, Nat.sub_add_eq]
    · rw [if_pos hgo, taken_full (by omega), List.append_nil]

theorem taken_eq_scanCapped (stop max lsn : Nat) (all : List Rec) :
    taken stop max lsn (all.drop lsn) = Heraclitus.scanCapped (all.map Rec.episode) lsn stop max := by
  rw [taken, Heraclitus.scanCapped, List.map_take, List.map_drop, Nat.min_comm]

theorem Steady.scanCapped_eq (h : Steady env log segs act) (hS : IsBinarySearch env.binarySearch)
    (hhit : log.catalog.NoEmptyHit env) (start stop max : Nat) :
    log.scanCapped env start stop max
      = .ok (Heraclitus.scanCapped ((segs.flatten ++ act).map Rec.episode) start (min stop log.committedLsn) max) := by
  rw [Log.scanCapped, ← taken_eq_scanCapped]
  split
  · rename_i hnone
    rw [taken_full hnone]
  · have hle : min stop log.committedLsn ≤ (segs.flatten ++ act).length := by
      rw [← h.committed]
      exact Nat.min_le_right _ _
    rw [h.scanLoop_eq hS hhit hle _ _ _ (Nat.le_refl _)]
    rfl

/-- **A committed record is read**, also in the middle of a batch. -/
theorem Seen.read_eq (h : Seen env log segs act seen) (hS : IsBinarySearch env.binarySearch) {lsn : Nat}
    (hhit : log.catalog.NoEmptyHitAt env lsn) (hlsn : lsn < log.committedLsn)
    (hle : log.committedLsn ≤ (segs.flatten ++ seen).length) :
    log.read env lsn = .ok (((segs.flatten ++ seen)[lsn]?).map (fun r => (lsn, r.episode))) := by
  have hlt : lsn < (segs.flatten ++ seen).length := Nat.lt_of_lt_of_le hlsn hle
  obtain ⟨c, b, rs, hpick, hserves, hb, hblt⟩ := h.pick hS hhit hlt
  obtain ⟨r, hall, hr, hentry⟩ := hserves.entry hb hblt
  obtain ⟨file, tail, hfile, hdrop⟩ := hserves.drop_file hb hblt
  have hlookup : c.lookup env lsn
      = some { lsn := lsn, offset := headerLen + sizes (rs.take (lsn - b)), opaqueMeta := r.opaqueMeta } := by
    rw [SegmentContainer.lookup, hentry, Option.filter_some, if_pos (decide_eq_true rfl)]
  obtain ⟨hj, hget⟩ := List.getElem?_eq_some_iff.1 hr
  have hreadable : r.Readable env := by
    refine h.readable r ?_
    rcases List.mem_append.1 (List.mem_of_getElem? hall) with hmem | hmem
    · exact List.mem_append_left _ hmem
    · exact List.mem_append_right _ (h.prefixed.subset hmem)
  rw [List.drop_eq_getElem_cons hj, recordBytes, hget, List.append_assoc] at hdrop
  have hread := lerRegistoEm_eq hfile hdrop hreadable (Nat.lt_trans hlt h.lsns)
  unfold Log.read
  rw [if_neg (Nat.not_le.2 hlsn), hpick, Option.bind_some, hlookup, Option.map_some]
  dsimp only
  rw [Log.readAt, hserves.found, hall]
  exact hread

theorem Steady.read_eq (h : Steady env log segs act) (hS : IsBinarySearch env.binarySearch)
    (hhit : log.catalog.NoEmptyHit env) (lsn : Nat) :
    log.read env lsn = .ok (((segs.flatten ++ act)[lsn]?).map (fun r => (lsn, r.episode))) := by
  by_cases hlsn : log.committedLsn ≤ lsn
  · rw [Log.read, if_pos hlsn, List.getElem?_eq_none (h.committed ▸ hlsn)]
    rfl
  · exact h.seen.read_eq hS (hhit.at lsn) (Nat.not_le.1 hlsn) (Nat.le_of_eq h.committed)

/-- A search that hits an empty segment makes the reader answer that there is no such record. -/
theorem read_of_empty_hit {lsn i : Nat} {c : SegmentContainer} (hlsn : lsn < log.committedLsn)
    (hact : lsn < log.catalog.active.baseLsn)
    (hsearch : env.binarySearch (log.catalog.sealedSegments.map (·.baseLsn)) lsn = .ok i)
    (hc : log.catalog.sealedSegments[i]? = some c) (hempty : c.entries = []) : log.read env lsn = .ok none := by
  have hpick : log.catalog.pick env lsn = some c := by
    rw [LogCatalog.pick, if_neg (Nat.not_le.2 hact), hsearch]
    exact hc
  have hlookup : c.lookup env lsn = none := by
    rw [SegmentContainer.lookup, hempty]
    dsimp only [List.getElem?_nil, Option.filter]
    split <;> rfl
  have hscan : log.scan env lsn (lsn + 1) = .ok [] := by
    have hstop : min (lsn + 1) log.committedLsn = lsn + 1 := Nat.min_eq_left hlsn
    rw [Log.scan, Log.scanCapped, hstop, Nat.add_sub_cancel_left]
    split
    · rfl
    · rw [Log.scanLoop, if_neg (not_not.2 ⟨Nat.lt_succ_self lsn, by decide⟩), hpick]
      dsimp only
      rw [hempty]
      rfl
  rw [Log.read, if_neg (Nat.not_le.2 hlsn), hpick, Option.bind_some, hlookup]
  dsimp only [Option.map_none]
  rw [hscan]
  rfl

variable (env) in
/-- The log reads as the history of its episodes: every read, and every scan. -/
def Log.ReadsAs (log : Log) (history : List Episode) : Prop :=
  log.committedLsn = history.length ∧
  (∀ lsn, log.read env lsn = .ok ((history[lsn]?).map (fun e => (lsn, e)))) ∧
  ∀ start stop max, log.scanCapped env start stop max
    = .ok (Heraclitus.scanCapped history start (min stop history.length) max)

/-- **A steady log reads as its history exactly when no search hits an empty segment.** -/
theorem Steady.readsAs_iff (h : Steady env log segs act) (hS : IsBinarySearch env.binarySearch) :
    log.ReadsAs env ((segs.flatten ++ act).map Rec.episode) ↔ log.catalog.NoEmptyHit env := by
  constructor
  · intro ⟨_, hread, _⟩ lsn i c hact hsearch hc hempty
    have hlt : lsn < (segs.flatten ++ act).length := by
      rw [h.baseLsn] at hact
      rw [List.length_append]
      omega
    have hnone := read_of_empty_hit (h.committed ▸ hlt) hact hsearch hc hempty
    have hsome := hread lsn
    rw [hnone, List.getElem?_map, List.getElem?_eq_getElem hlt] at hsome
    cases hsome
  · intro hhit
    refine ⟨by rw [List.length_map, h.committed], fun lsn => ?_, fun start stop max => ?_⟩
    · rw [h.read_eq hS hhit, List.getElem?_map, Option.map_map]
      rfl
    · rw [h.scanCapped_eq hS hhit, h.committed, List.length_map]

end Legacy
end Heraclitus
