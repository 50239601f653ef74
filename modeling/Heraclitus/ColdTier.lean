import Heraclitus.Encryption
import Heraclitus.LegacyResume
/-!
# ColdTier — sealed segments that move to an object store (`heraclitus-tier/src/lib.rs`)

A demotion reads the segment's file, counts and hashes the records it can decode, stores the bytes and writes a receipt.
Later reads compare the object with the receipt.  Nothing compares the file with the catalog or with its own footer.
-/
namespace Heraclitus
namespace Tier

open Legacy
open Crypto (hexEncode)

/-- The log's environment and the Parquet writer. -/
structure TierEnv extends Env where
  toParquet : List (Nat × Episode) → Except String Bytes

structure DemotionReceipt where
  segmentId : Nat
  objectPath : Str
  recordCount : Nat
  minLsn : Nat
  maxLsn : Nat
  blake3Root : Str
  parquetPath : Option Str
  compactedFrom : Option Str
  dropped : Nat
  deriving DecidableEq

/-- The objects by path. -/
abbrev Store := SortedMap Str Bytes

/-- What a visitor is given. -/
structure Visited where
  lsn : Nat
  payload : Bytes
  record : Bytes

variable (env : TierEnv)

/-- The records from the first byte on; each takes some bytes, so as many turns as bytes are enough. -/
def visitFrom (version : Nat) : Nat → Bytes → List Visited
  | 0, _ => []
  | fuel + 1, bytes =>
    if bytes = [] then []
    else match decodeRecord env.toHashes version bytes with
      | .record lsn _ payload consumed =>
        { lsn := lsn, payload := payload, record := bytes.take consumed } :: visitFrom version fuel (bytes.drop consumed)
      | .footer _ => []
      | .torn => []

/-- `visit_records`, with the format version that its visitors take from the header as well. -/
def visitRecords (bytes : Bytes) : Except HeraclitusError (Nat × List Visited) :=
  match SegmentHeader.decode bytes with
  | .error e => .error e
  | .ok header => .ok (header.version, visitFrom env header.version bytes.length (bytes.drop headerLen))

def scanAndRoot (bytes : Bytes) : Except HeraclitusError (Nat × Digest) :=
  match visitRecords env bytes with
  | .error e => .error e
  | .ok (version, visited) =>
    let hashes := visited.map (fun v => recordLeaf env.toHashes version v.record)
    .ok (hashes.length, merkleRoot env.toHashes hashes)

/-- The visitor that decodes: the first payload that does not decode ends the visit. -/
def decodeVisited (version : Nat) : List Visited → Except HeraclitusError (List (Nat × Episode))
  | [] => .ok []
  | v :: visited =>
    match env.decodePayload version v.payload with
    | .error e => .error e
    | .ok episode => (decodeVisited version visited).map ((v.lsn, episode) :: ·)

def visitedEpisodes (bytes : Bytes) : Except HeraclitusError (List (Nat × Episode)) :=
  match visitRecords env bytes with
  | .error e => .error e
  | .ok (version, visited) => decodeVisited env version visited

def segmentToParquet (bytes : Bytes) : Except HeraclitusError Bytes :=
  match visitedEpisodes env bytes with
  | .error e => .error e
  | .ok rows =>
    match env.toParquet rows with
    | .error e => .error (.serialization e)
    | .ok parquet => .ok parquet

/-- `cold/{id:020}` with an extension. -/
def coldPath (id : Nat) (extension : Str) : Str := "cold/".toList ++ paddedId id ++ extension

/-- The receipt, and the store as it is then; the segment's object stays there also when its mirror cannot be made. -/
def demotePrepared (log : Log) (store : Store) (id : Nat) : Except HeraclitusError DemotionReceipt × Store :=
  match log.catalog.sealedSegments.find? (·.id = id) with
  | none => (.error (.query s!"segment {id} not sealed"), store)
  | some container =>
    match log.dir.get? container.id with
    | none => (.error (.storage "No such file or directory"), store)
    | some bytes =>
      match scanAndRoot env bytes with
      | .error e => (.error e, store)
      | .ok (count, root) =>
        let objPath := coldPath id ".hrkl".toList
        let store := store.insert objPath bytes
        let parquetPath := coldPath id ".parquet".toList
        match segmentToParquet env bytes with
        | .error e => (.error e, store)
        | .ok parquetBytes =>
          (.ok {
            segmentId := id, objectPath := objPath, recordCount := count, minLsn := container.baseLsn,
            maxLsn := container.maxLsn, blake3Root := hexEncode root.1, parquetPath := some parquetPath,
            compactedFrom := none, dropped := 0 },
          store.insert parquetPath parquetBytes)

/-- The error of an object that is not the receipt's. -/
def mismatch (receipt : DemotionReceipt) (count : Nat) (root : Digest) : HeraclitusError :=
  .corruption (String.ofList receipt.objectPath)
    (s!"objeto cold não confere com o recibo (registos {count}≠{receipt.recordCount}; " ++
      s!"root {String.ofList (hexEncode root.1)}≠{String.ofList receipt.blake3Root})")

def fetchCold (store : Store) (receipt : DemotionReceipt) : Except HeraclitusError (List (Nat × Episode)) :=
  match store.get? receipt.objectPath with
  | none => .error (.storage "Object not found")
  | some bytes =>
    match scanAndRoot env bytes with
    | .error e => .error e
    | .ok (count, root) =>
      if count ≠ receipt.recordCount ∨ hexEncode root.1 ≠ receipt.blake3Root then .error (mismatch receipt count root)
      else visitedEpisodes env bytes

/-- A segment that the log lists as sealed, and what it was sealed with. -/
structure SealedSegment (log : Log) where
  container : SegmentContainer
  footer : SegmentFooter
  episodes : List Episode
  found : log.catalog.sealedSegments.find? (·.id = container.id) = some container
  entries : container.entries.length = episodes.length
  recordCount : footer.recordCount = episodes.length
  maxLsn : container.maxLsn = container.baseLsn + (episodes.length - 1)

/-- The bytes of the segment's file are now `bytes`. -/
def withFile (log : Log) (id : Nat) (bytes : Bytes) : Log := { log with dir := log.dir.insert id bytes }

/-! ## What a file holds for the visitor -/

/-- `visited` is what decodes as a record, one after the other, until something does not. -/
inductive Visits (version : Nat) : Bytes → List Visited → Prop
  | stop {bytes : Bytes} : (∀ lsn hlc payload n, decodeRecord env.toHashes version bytes ≠ .record lsn hlc payload n) →
    Visits version bytes []
  | record {bytes payload : Bytes} {lsn hlc n : Nat} {visited : List Visited} :
    decodeRecord env.toHashes version bytes = .record lsn hlc payload n → Visits version (bytes.drop n) visited →
    Visits version bytes ({ lsn := lsn, payload := payload, record := bytes.take n } :: visited)

/-- The visited payloads decode to `rows`. -/
def DecodeTo (version : Nat) (visited : List Visited) (rows : List (Nat × Episode)) : Prop :=
  List.Forall₂ (fun v p => v.lsn = p.1 ∧ env.decodePayload version v.payload = .ok p.2) visited rows

/-- Up to the first byte that no record begins with, the file holds exactly `rows`. -/
def HoldsExactly (bytes : Bytes) (rows : List (Nat × Episode)) : Prop :=
  ∃ header visited, SegmentHeader.decode bytes = .ok header ∧ Visits env header.version (bytes.drop headerLen) visited ∧
    DecodeTo env header.version visited rows

/-- The header, the payload of a record or the Parquet writer is in the way of a demotion. -/
def Refuses (bytes : Bytes) : Prop :=
  (∃ e, SegmentHeader.decode bytes = .error e) ∨
    ∃ header visited, SegmentHeader.decode bytes = .ok header ∧ Visits env header.version (bytes.drop headerLen) visited ∧
      ((∃ v ∈ visited, ∃ e, env.decodePayload header.version v.payload = .error e) ∨
        ∃ rows e, DecodeTo env header.version visited rows ∧ env.toParquet rows = .error e)

variable {env}

theorem no_record_of_short {H : Hashes} {version lsn hlc n : Nat} {payload : Bytes} :
    decodeRecord H version [] ≠ .record lsn hlc payload n := by
  simp [decodeRecord, footerMagic, recordHeaderLen]

theorem visitFrom_visits {version : Nat} : ∀ (fuel : Nat) (bytes : Bytes), bytes.length ≤ fuel →
    Visits env version bytes (visitFrom env version fuel bytes)
  | 0, bytes, hfuel => by
    have hnil : bytes = [] := List.length_eq_zero_iff.1 (Nat.le_zero.1 hfuel)
    exact .stop (fun lsn hlc payload n h => no_record_of_short (hnil ▸ h))
  | fuel + 1, bytes, hfuel => by
    rw [visitFrom]
    by_cases hnil : bytes = []
    · rw [if_pos hnil]
      exact .stop (fun lsn hlc payload n h => no_record_of_short (hnil ▸ h))
    · rw [if_neg hnil]
      cases hdecode : decodeRecord env.toHashes version bytes with
      | torn => exact .stop (fun lsn hlc payload n h => Decoded.noConfusion (hdecode.symm.trans h))
      | footer f => exact .stop (fun lsn hlc payload n h => Decoded.noConfusion (hdecode.symm.trans h))
      | record lsn hlc payload n =>
        have hn := (decodeRecord_eq_record hdecode).2.2.1
        have hpos : recordHeaderLen = 24 := rfl
        exact .record hdecode (visitFrom_visits fuel _ (by rw [List.length_drop]; omega))

theorem Visits.unique {version : Nat} {bytes : Bytes} {visited visited' : List Visited}
    (h : Visits env version bytes visited) (h' : Visits env version bytes visited') : visited = visited' := by
  induction h generalizing visited' with
  | stop hstop =>
    cases h' with
    | stop => rfl
    | record hdecode _ => exact absurd hdecode (hstop _ _ _ _)
  | record hdecode _ ih =>
    cases h' with
    | stop hstop => exact absurd hdecode (hstop _ _ _ _)
    | record hdecode' hrest =>
      cases hdecode.symm.trans hdecode'
      rw [ih hrest]

/-- The visitor visits what the file holds. -/
theorem visitRecords_of_visits {bytes : Bytes} {header : SegmentHeader} {visited : List Visited}
    (hheader : SegmentHeader.decode bytes = .ok header) (h : Visits env header.version (bytes.drop headerLen) visited) :
    visitRecords env bytes = .ok (header.version, visited) := by
  rw [visitRecords, hheader, h.unique (visitFrom_visits bytes.length _ (by simp))]

theorem decodeVisited_eq_ok {version : Nat} : ∀ (visited : List Visited) (rows : List (Nat × Episode)),
    decodeVisited env version visited = .ok rows ↔ DecodeTo env version visited rows
  | [], rows => by simp [decodeVisited, DecodeTo, eq_comm]
  | v :: visited, rows => by
    rw [decodeVisited, DecodeTo, List.forall₂_cons_left_iff]
    cases hdecode : env.decodePayload version v.payload with
    | error e => simp
    | ok episode =>
      dsimp only
      constructor
      · intro h
        obtain ⟨rest, hrest, rfl⟩ := map_eq_ok h
        exact ⟨(v.lsn, episode), rest, ⟨rfl, rfl⟩, (decodeVisited_eq_ok visited rest).1 hrest, rfl⟩
      · rintro ⟨⟨lsn, ep⟩, rest, ⟨hlsn, hep⟩, hrest, rfl⟩
        cases hlsn
        cases hep
        rw [(decodeVisited_eq_ok visited rest).2 hrest]
        rfl

theorem decodeVisited_eq_error {version : Nat} : ∀ visited : List Visited,
    (∃ e, decodeVisited env version visited = .error e) ↔
      ∃ v ∈ visited, ∃ e, env.decodePayload version v.payload = .error e
  | [] => by simp [decodeVisited]
  | v :: visited => by
    rw [decodeVisited, List.exists_mem_cons_iff, ← decodeVisited_eq_error visited]
    cases hdecode : env.decodePayload version v.payload with
    | error e => simp
    | ok episode => cases hrest : decodeVisited env version visited <;> simp [Except.map]

section Reads

variable {bytes : Bytes} {header : SegmentHeader} {visited : List Visited} (hheader : SegmentHeader.decode bytes = .ok header)
  (hvisits : Visits env header.version (bytes.drop headerLen) visited)
include hheader hvisits

theorem scanAndRoot_of_visits : scanAndRoot env bytes = .ok (visited.length,
    merkleRoot env.toHashes (visited.map (fun v => recordLeaf env.toHashes header.version v.record))) := by
  rw [scanAndRoot, visitRecords_of_visits hheader hvisits]
  dsimp only
  rw [List.length_map]

theorem visitedEpisodes_of_visits {rows : List (Nat × Episode)} (hrows : DecodeTo env header.version visited rows) :
    visitedEpisodes env bytes = .ok rows := by
  rw [visitedEpisodes, visitRecords_of_visits hheader hvisits]
  exact (decodeVisited_eq_ok visited rows).2 hrows

end Reads

/-! ## Demotion and fetching -/

variable {log : Log} {store : Store}

theorem coldPath_ne (id : Nat) : coldPath id ".hrkl".toList ≠ coldPath id ".parquet".toList := by
  intro h
  have := congrArg List.length h
  simp [coldPath] at this

variable (env) in
/-- The receipt of a demotion that goes through. -/
def receiptOf (container : SegmentContainer) (version : Nat) (visited : List Visited) : DemotionReceipt :=
  { segmentId := container.id, objectPath := coldPath container.id ".hrkl".toList, recordCount := visited.length
    minLsn := container.baseLsn, maxLsn := container.maxLsn
    blake3Root := hexEncode
      (merkleRoot env.toHashes (visited.map (fun v => recordLeaf env.toHashes version v.record))).1
    parquetPath := some (coldPath container.id ".parquet".toList), compactedFrom := none, dropped := 0 }

section Demote

variable (store) (seg : SealedSegment log) {bytes : Bytes} {header : SegmentHeader} {visited : List Visited}
  {rows : List (Nat × Episode)}

/-- **A demotion that goes through**, and the fetch from the store it leaves. -/
theorem demotePrepared_ok {parquet : Bytes} (hheader : SegmentHeader.decode bytes = .ok header)
    (hvisits : Visits env header.version (bytes.drop headerLen) visited) (hrows : DecodeTo env header.version visited rows)
    (hparquet : env.toParquet rows = .ok parquet) :
    ∃ store', demotePrepared env (withFile log seg.container.id bytes) store seg.container.id
        = (.ok (receiptOf env seg.container header.version visited), store') ∧
      fetchCold env store' (receiptOf env seg.container header.version visited) = .ok rows := by
  have hscan := scanAndRoot_of_visits hheader hvisits
  have hepisodes := visitedEpisodes_of_visits hheader hvisits hrows
  refine ⟨(store.insert (coldPath seg.container.id ".hrkl".toList) bytes).insert
    (coldPath seg.container.id ".parquet".toList) parquet, ?_, ?_⟩
  · rw [demotePrepared, show (withFile log seg.container.id bytes).catalog = log.catalog from rfl, seg.found]
    dsimp only
    rw [show (withFile log seg.container.id bytes).dir.get? seg.container.id = some bytes from
      (SortedMap.get?_insert _ _ _ _).trans (if_pos rfl)]
    dsimp only
    rw [hscan, segmentToParquet, hepisodes]
    dsimp only
    rw [hparquet]
    rfl
  · have hget : ((store.insert (coldPath seg.container.id ".hrkl".toList) bytes).insert
        (coldPath seg.container.id ".parquet".toList) parquet).get?
          (receiptOf env seg.container header.version visited).objectPath = some bytes := by
      show SortedMap.get? _ (coldPath seg.container.id ".hrkl".toList) = _
      rw [SortedMap.get?_insert, if_neg (coldPath_ne _), SortedMap.get?_insert, if_pos rfl]
    rw [fetchCold, hget]
    dsimp only
    rw [hscan]
    dsimp only
    rw [if_neg (by simp [receiptOf]), hepisodes]

/-- A refused demotion gives no receipt. -/
theorem demotePrepared_refused (h : Refuses env bytes) :
    ∃ e store', demotePrepared env (withFile log seg.container.id bytes) store seg.container.id = (.error e, store') := by
  rw [demotePrepared, show (withFile log seg.container.id bytes).catalog = log.catalog from rfl, seg.found]
  dsimp only
  rw [show (withFile log seg.container.id bytes).dir.get? seg.container.id = some bytes from
    (SortedMap.get?_insert _ _ _ _).trans (if_pos rfl)]
  dsimp only
  rcases h with ⟨e, he⟩ | ⟨header, visited, hheader, hvisits, hrest⟩
  · rw [scanAndRoot, visitRecords, he]
    exact ⟨_, _, rfl⟩
  · have hvisit := visitRecords_of_visits hheader hvisits
    have hparquet : ∃ e, segmentToParquet env bytes = .error e := by
      rcases hrest with hbad | ⟨rows, e, hrows, he⟩
      · obtain ⟨e, he⟩ := (decodeVisited_eq_error visited).2 hbad
        refine ⟨e, ?_⟩
        rw [segmentToParquet, visitedEpisodes, hvisit]
        dsimp only
        rw [he]
      · refine ⟨.serialization e, ?_⟩
        rw [segmentToParquet, visitedEpisodes, hvisit]
        dsimp only
        rw [(decodeVisited_eq_ok visited rows).2 hrows]
        dsimp only
        rw [he]
    obtain ⟨e, he⟩ := hparquet
    rw [scanAndRoot, hvisit]
    dsimp only
    rw [he]
    exact ⟨_, _, rfl⟩

/-- Any bytes refuse a demotion, or are a readable file. -/
theorem refuses_or (env : TierEnv) (bytes : Bytes) : Refuses env bytes ∨ ∃ header visited rows parquet,
    SegmentHeader.decode bytes = .ok header ∧ Visits env header.version (bytes.drop headerLen) visited ∧
      DecodeTo env header.version visited rows ∧ env.toParquet rows = .ok parquet := by
  cases hheader : SegmentHeader.decode bytes with
  | error e => exact .inl (.inl ⟨e, hheader⟩)
  | ok header =>
    have hvisits : Visits env header.version (bytes.drop headerLen)
        (visitFrom env header.version bytes.length (bytes.drop headerLen)) := visitFrom_visits _ _ (by simp)
    cases hrows : decodeVisited env header.version (visitFrom env header.version bytes.length (bytes.drop headerLen)) with
    | error e => exact .inl (.inr ⟨header, _, hheader, hvisits, .inl ((decodeVisited_eq_error _).1 ⟨e, hrows⟩)⟩)
    | ok rows =>
      have hdecode := (decodeVisited_eq_ok _ rows).1 hrows
      cases hparquet : env.toParquet rows with
      | error e => exact .inl (.inr ⟨header, _, hheader, hvisits, .inr ⟨rows, e, hdecode, hparquet⟩⟩)
      | ok parquet => exact .inr ⟨header, _, rows, parquet, rfl, hvisits, hdecode, hparquet⟩

theorem map_fst_number {α : Type} : ∀ (l : List α) (n : Nat), (number n l).map Prod.fst = List.range' n l.length
  | [], _ => rfl
  | _ :: l, n => congrArg (n :: ·) (map_fst_number l (n + 1))

variable (env) in
/-- What a receipt promises before the hot copy may go: it counts what the segment was sealed with, and the object gives
back the episode of every LSN from the segment's first to its last. -/
def Complete (bytes : Bytes) : Prop :=
  ∀ receipt store', demotePrepared env (withFile log seg.container.id bytes) store seg.container.id
      = (.ok receipt, store') →
    receipt.recordCount = seg.footer.recordCount ∧ receipt.recordCount = seg.container.entries.length ∧
      ∃ rows, fetchCold env store' receipt = .ok rows ∧ rows = number seg.container.baseLsn seg.episodes ∧
        rows.map Prod.fst = List.range' receipt.minLsn (receipt.maxLsn + 1 - receipt.minLsn)

/-- **When a receipt is complete**: for every sealed segment, whatever bytes its file holds now and whatever is in the
store, exactly if the demotion is refused or the segment has records and the file holds exactly these. -/
theorem complete_iff (bytes : Bytes) : Complete env store seg bytes ↔
    Refuses env bytes ∨ seg.episodes ≠ [] ∧ HoldsExactly env bytes (number seg.container.baseLsn seg.episodes) := by
  have hvacuous : Refuses env bytes → Complete env store seg bytes := fun hrefuses receipt store' h => by
    obtain ⟨e, store₁, herr⟩ := demotePrepared_refused store seg hrefuses
    rw [herr] at h
    cases h
  rcases refuses_or env bytes with hrefuses | ⟨header, visited, rows, parquet, hheader, hvisits, hrows, hparquet⟩
  · exact iff_of_true (hvacuous hrefuses) (.inl hrefuses)
  · obtain ⟨store₁, hdemote, hfetch⟩ := demotePrepared_ok store seg hheader hvisits hrows hparquet
    have hlength : rows.length = visited.length := hrows.length_eq.symm
    constructor
    · intro h
      obtain ⟨-, -, rows', hrows', rfl, hlsns⟩ := h _ _ hdemote
      cases hfetch.symm.trans hrows'
      refine .inr ⟨fun hnil => ?_, header, visited, hheader, hvisits, hrows⟩
      have hcount := congrArg List.length hlsns
      rw [List.length_map, length_number, List.length_range', hnil] at hcount
      have hmax : (receiptOf env seg.container header.version visited).maxLsn
          = (receiptOf env seg.container header.version visited).minLsn := by
        show seg.container.maxLsn = seg.container.baseLsn
        rw [seg.maxLsn, hnil]
        rfl
      rw [hmax, Nat.add_sub_cancel_left] at hcount
      cases hcount
    · rintro (hrefuses | ⟨hne, header', visited', hheader', hvisits', hrows'⟩) receipt store' h
      · exact hvacuous hrefuses receipt store' h
      · rw [hdemote] at h
        cases h
        cases hheader.symm.trans hheader'
        cases hvisits.unique hvisits'
        have hsame : rows = number seg.container.baseLsn seg.episodes := by
          have h₁ := (decodeVisited_eq_ok visited _).2 hrows
          have h₂ := (decodeVisited_eq_ok visited _).2 hrows'
          exact Except.ok.inj (h₁.symm.trans h₂)
        have hcount : visited.length = seg.episodes.length := by rw [← hlength, hsame, length_number]
        have hpos := List.length_pos_iff.2 hne
        refine ⟨hcount.trans seg.recordCount.symm, hcount.trans seg.entries.symm, rows, hfetch, hsame, ?_⟩
        have hspan : seg.container.maxLsn + 1 - seg.container.baseLsn = seg.episodes.length := by
          rw [seg.maxLsn]
          omega
        rw [hsame, map_fst_number]
        exact congrArg (List.range' seg.container.baseLsn) hspan.symm

end Demote

/-! ## The segments of a log -/

theorem find?_sealed {segs : List (List Rec)} {act : List Rec} (h : Steady env.toEnv log segs act) {c : SegmentContainer}
    (hc : c ∈ log.catalog.sealedSegments) : log.catalog.sealedSegments.find? (·.id = c.id) = some c := by
  have hid : ∀ i (hi : i < log.catalog.sealedSegments.length), log.catalog.sealedSegments[i].id = i := fun i hi =>
    (h.sealedAt i _ _ (List.getElem?_eq_getElem hi) (List.getElem?_eq_getElem (h.length_sealed ▸ hi))).id
  have hsome : (log.catalog.sealedSegments.find? (·.id = c.id)).isSome := by
    rw [List.find?_isSome]
    exact ⟨c, hc, decide_eq_true rfl⟩
  obtain ⟨d, hd⟩ := Option.isSome_iff_exists.1 hsome
  have hsame : d.id = c.id := by simpa using List.find?_some hd
  obtain ⟨i, hi, rfl⟩ := List.getElem_of_mem hc
  obtain ⟨j, hj, rfl⟩ := List.getElem_of_mem (List.mem_of_find?_eq_some hd)
  rw [hid i hi, hid j hj] at hsame
  subst hsame
  exact hd

/-! ## A damaged source -/

def sampleTier : TierEnv := { sampleEnv with toParquet := fun _ => .ok [80, 65, 82, 49] }

/-- Segment 0 of `twoSegments`, sealed with one record. -/
def firstSegment : SealedSegment twoSegments where
  container :=
    { id := 0, baseLsn := 0, maxLsn := 0, isSealed := true, blake3Root := some (sampleBlake3 [0, 0, 0, 0, 0])
      version := formatVersion, entries := [{ lsn := 0, offset := headerLen, opaqueMeta := List.replicate 16 0 }] }
  footer := { recordCount := 1, minLsn := 0, maxLsn := 0, blake3Root := sampleBlake3 [0, 0, 0, 0, 0] }
  episodes := [sampleEpisode 0]
  found := by decide +kernel
  entries := rfl
  recordCount := rfl
  maxLsn := rfl

/-- Its file as it was sealed, and with the highest byte of the record's length damaged. -/
def firstFile : Bytes := (twoSegments.dir.get? 0).getD []

def damagedFile : Bytes := firstFile.set 25 255

/-- The count on the receipt, and what is fetched back. -/
def demoteAndFetch (bytes : Bytes) : Option (Nat × Option (List (Nat × Episode))) :=
  match demotePrepared sampleTier (withFile twoSegments 0 bytes) .empty 0 with
  | (.ok receipt, store) => some (receipt.recordCount, (fetchCold sampleTier store receipt).toOption)
  | (.error _, _) => none

set_option maxRecDepth 4000 in
/-- **A damaged segment gets a receipt for nothing**: its record is gone from the object, and the receipt says that there
was none. -/
theorem receipt_for_damaged_segment :
    firstFile.drop (firstFile.length - footerLen) = firstSegment.footer.encode ∧
    demoteAndFetch firstFile = some (1, some [(0, sampleEpisode 0)]) ∧ demoteAndFetch damagedFile = some (0, some []) ∧
    ¬Complete sampleTier .empty firstSegment damagedFile := by
  have hdamaged : demoteAndFetch damagedFile = some (0, some []) := by decide +kernel
  refine ⟨by decide +kernel, by decide +kernel, hdamaged, fun h => ?_⟩
  unfold demoteAndFetch at hdamaged
  rcases hdemote : demotePrepared sampleTier (withFile twoSegments 0 damagedFile) .empty 0 with ⟨e | receipt, store⟩
  · rw [hdemote] at hdamaged
    cases hdamaged
  · rw [hdemote] at hdamaged
    have hcount : receipt.recordCount = 1 := (h receipt store hdemote).1
    have hzero : receipt.recordCount = 0 := (Prod.mk.inj (Option.some.inj hdamaged)).1
    exact Nat.one_ne_zero (hcount.symm.trans hzero)

end Tier
end Heraclitus
