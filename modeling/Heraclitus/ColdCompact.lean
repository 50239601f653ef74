import Heraclitus.ColdTier
/-!
# ColdCompact — a cold object rewritten without its deleted records (`heraclitus-tier/src/lib.rs`)

The header, the records that stay, byte for byte, and a new footer make the new object, which gets a receipt of its own.
The old object is read up to the first byte that no record begins with, and nobody asks whether that is all the old receipt
promises.
-/
namespace Heraclitus
namespace Tier

open Legacy
open Crypto (hexEncode)

variable (env : TierEnv)

def verifyReceipt (store : Store) (receipt : DemotionReceipt) : Except HeraclitusError Bool :=
  match store.get? receipt.objectPath with
  | none => .error (.storage "Object not found")
  | some bytes =>
    match scanAndRoot env bytes with
    | .error e => .error e
    | .ok (count, root) => .ok (count == receipt.recordCount && hexEncode root.1 == receipt.blake3Root)

/-- The visitor that keeps what is not deleted. -/
def keepVisited (version : Nat) (isDeleted : Nat → Episode → Bool) : List Visited → Except HeraclitusError (List Visited)
  | [] => .ok []
  | v :: visited =>
    match env.decodePayload version v.payload with
    | .error e => .error e
    | .ok episode =>
      (keepVisited version isDeleted visited).map (fun kept => if isDeleted v.lsn episode then kept else v :: kept)

/-- `rsplit_once(pat)`, of which the second half is used. -/
def rsplitOnce (pat : Str) : Str → Option Str
  | [] => none
  | c :: s =>
    match rsplitOnce pat s with
    | some rest => some rest
    | none => List.isPrefixOf? pat (c :: s)

/-- The number of a compaction, one above that in the path of its source; a `u32`. -/
def nextCompaction (objectPath : Str) : Nat :=
  let digits := (rsplitOnce "-c".toList objectPath).bind (List.isSuffixOf? ".hrkl".toList)
  let last := (digits.bind parseU64).filter (fun n => decide (n < 2 ^ 32))
  (last.getD 0 + 1) % 2 ^ 32

/-- `cold/{id:020}-c{generation}` with an extension. -/
def compactPath (id generation : Nat) (extension : Str) : Str :=
  coldPath id ("-c".toList ++ (toString generation).toList ++ extension)

/-- The footer of what was kept. -/
def compactFooter (version : Nat) (kept : List Visited) : SegmentFooter := {
  recordCount := kept.length
  minLsn := (kept.map (·.lsn)).min?.getD 0
  maxLsn := (kept.map (·.lsn)).max?.getD 0
  blake3Root := merkleRoot env.toHashes (kept.map (fun v => recordLeaf env.toHashes version v.record)) }

/-- The new object: the old header, what was kept, a new footer. -/
def compactObject (version : Nat) (bytes : Bytes) (kept : List Visited) : Bytes :=
  bytes.take headerLen ++ (kept.flatMap (·.record) ++ (compactFooter env version kept).encode)

/-- Where the next compaction of a receipt's object goes. -/
def newPath (receipt : DemotionReceipt) (extension : Str) : Str :=
  compactPath receipt.segmentId (nextCompaction receipt.objectPath) extension

def compactReceipt (receipt : DemotionReceipt) (version : Nat) (visited kept : List Visited) : DemotionReceipt := {
  segmentId := receipt.segmentId
  objectPath := newPath receipt ".hrkl".toList
  recordCount := kept.length
  minLsn := (kept.map (·.lsn)).min?.getD receipt.minLsn
  maxLsn := (kept.map (·.lsn)).max?.getD receipt.maxLsn
  blake3Root := hexEncode (compactFooter env version kept).blake3Root.1
  parquetPath := some (newPath receipt ".parquet".toList)
  compactedFrom := some receipt.objectPath
  dropped := visited.length - kept.length }

/-- The receipt, and the store as it is then; the new object stays there also when its mirror cannot be made. -/
def compactColdPrepared (store : Store) (receipt : DemotionReceipt) (isDeleted : Nat → Episode → Bool) :
    Except HeraclitusError DemotionReceipt × Store :=
  match store.get? receipt.objectPath with
  | none => (.error (.storage "Object not found"), store)
  | some bytes =>
    match visitRecords env bytes with
    | .error e => (.error e, store)
    | .ok (version, visited) =>
      match keepVisited env version isDeleted visited with
      | .error e => (.error e, store)
      | .ok kept =>
        let out := compactObject env version bytes kept
        let store := store.insert (newPath receipt ".hrkl".toList) out
        match segmentToParquet env out with
        | .error e => (.error e, store)
        | .ok parquetBytes =>
          (.ok (compactReceipt env receipt version visited kept),
            store.insert (newPath receipt ".parquet".toList) parquetBytes)

/-! ## Records that stay are read as before -/

variable {env}

section Records

variable {version : Nat} {bytes tail : Bytes}

/-- A record decodes wherever it stands. -/
theorem decodeRecord_moved {H : Hashes} {lsn hlc n : Nat} {payload : Bytes} (tail : Bytes)
    (h : decodeRecord H version bytes = .record lsn hlc payload n) :
    decodeRecord H version (bytes.take n ++ tail) = .record lsn hlc payload n := by
  obtain ⟨hmagic, hmax, hn, hle⟩ := decodeRecord_eq_record h
  have hpos : recordHeaderLen = 24 := rfl
  have hfour : (bytes.take n ++ tail).take 4 = bytes.take 4 := by
    rw [List.take_append_of_le_length (by rw [List.length_take_of_le hle]; omega), List.take_take, Nat.min_eq_left (by omega)]
  have hwhole : (bytes.take n ++ tail).take n = bytes.take n := List.take_left' (List.length_take_of_le hle)
  have hsize : recordHeaderLen + leNat ((bytes.take n ++ tail).take 4) = n := by rw [hfour, ← hn]
  have hmoved : decodeRecord H version ((bytes.take n ++ tail).take (recordHeaderLen + leNat ((bytes.take n ++ tail).take 4)))
      = decodeRecord H version (bytes.take n ++ tail) := by
    refine decodeRecord_take (by rwa [hfour]) (by rwa [hfour]) ?_
    rw [hsize, List.length_append, List.length_take_of_le hle]
    omega
  have hstill : decodeRecord H version (bytes.take (recordHeaderLen + leNat (bytes.take 4))) = decodeRecord H version bytes :=
    decodeRecord_take hmagic hmax (hn ▸ hle)
  rw [hsize, hwhole] at hmoved
  rw [← hn] at hstill
  rw [← hmoved, hstill, h]

variable (env version) in
/-- A visited record, with its bytes. -/
def Whole (v : Visited) : Prop :=
  ∃ hlc, decodeRecord env.toHashes version v.record = .record v.lsn hlc v.payload v.record.length

theorem Visits.whole {visited : List Visited} (h : Visits env version bytes visited) : ∀ v ∈ visited, Whole env version v := by
  induction h with
  | stop _ =>
    intro v hv
    cases hv
  | @record _ _ _ hlc _ _ hdecode _ ih =>
    intro v hv
    rcases List.mem_cons.1 hv with rfl | hv
    · refine ⟨hlc, ?_⟩
      have := decodeRecord_moved [] hdecode
      rw [List.append_nil] at this
      rwa [List.length_take_of_le (decodeRecord_eq_record hdecode).2.2.2]
    · exact ih v hv

/-- **Whole records, one after the other, are visited as they are.** -/
theorem visits_flatMap {kept : List Visited} (hkept : ∀ v ∈ kept, Whole env version v)
    (htail : ∀ lsn hlc payload n, decodeRecord env.toHashes version tail ≠ .record lsn hlc payload n) :
    Visits env version (kept.flatMap (·.record) ++ tail) kept := by
  induction kept with
  | nil => exact .stop htail
  | cons v kept ih =>
    obtain ⟨hlc, hdecode⟩ := hkept v List.mem_cons_self
    have ih := ih (fun w hw => hkept w (List.mem_cons_of_mem v hw))
    have hmoved := decodeRecord_moved (kept.flatMap (·.record) ++ tail) hdecode
    rw [List.take_length, ← List.append_assoc] at hmoved
    rw [List.flatMap_cons]
    have hrest : (v.record ++ kept.flatMap (·.record) ++ tail).drop v.record.length = kept.flatMap (·.record) ++ tail := by
      rw [List.append_assoc, List.drop_left]
    have hfirst : (v.record ++ kept.flatMap (·.record) ++ tail).take v.record.length = v.record := by
      rw [List.append_assoc, List.take_left]
    have hvisits := Visits.record hmoved (hrest ▸ ih)
    rwa [hfirst] at hvisits

theorem footer_stops (f : SegmentFooter) (lsn hlc : Nat) (payload : Bytes) (n : Nat) :
    decodeRecord env.toHashes version f.encode ≠ .record lsn hlc payload n := by
  intro h
  refine (decodeRecord_eq_record h).1 ?_
  rw [SegmentFooter.encode, List.append_assoc, List.append_assoc, List.append_assoc]
  exact List.take_left' (by rfl)

theorem take_drop_take_append {i n m : Nat} (h : i + n ≤ m) (hm : m ≤ bytes.length) :
    ((bytes.take m ++ tail).drop i).take n = (bytes.drop i).take n := by
  have hlen : (bytes.take m).length = m := List.length_take_of_le hm
  rw [List.drop_append_of_le_length (by omega), List.take_append_of_le_length (by rw [List.length_drop]; omega),
    List.drop_take, List.take_take, Nat.min_eq_left (by omega)]

/-- The header alone decides how it decodes. -/
theorem decode_header_append (hm : headerLen ≤ bytes.length) :
    SegmentHeader.decode (bytes.take headerLen ++ tail) = SegmentHeader.decode bytes := by
  have hlen : (bytes.take headerLen).length = headerLen := List.length_take_of_le hm
  have hwidth : headerLen = 22 := rfl
  have hmagic : (bytes.take headerLen ++ tail).take 4 = bytes.take 4 := take_drop_take_append (i := 0) (by omega) hm
  have hlength : (bytes.take headerLen ++ tail).length < headerLen ↔ bytes.length < headerLen := by
    rw [List.length_append, hlen]
    omega
  unfold SegmentHeader.decode
  rw [hmagic, take_drop_take_append (by omega) hm, take_drop_take_append (by omega) hm,
    take_drop_take_append (by omega) hm]
  simp only [hlength]

theorem length_of_decode_header {header : SegmentHeader} (h : SegmentHeader.decode bytes = .ok header) :
    headerLen ≤ bytes.length := by
  unfold SegmentHeader.decode at h
  split at h
  · cases h
  · rename_i hnot
    exact Nat.not_lt.1 (fun hlt => hnot (.inl hlt))

end Records

variable (isDeleted : Nat → Episode → Bool)

/-- **What is kept** are the visited records that are not deleted, and they decode to the rows that are not. -/
theorem keepVisited_eq_ok {version : Nat} :
    ∀ {visited : List Visited} {rows : List (Nat × Episode)}, DecodeTo env version visited rows →
      ∃ kept, keepVisited env version isDeleted visited = .ok kept ∧ (∀ v ∈ kept, v ∈ visited) ∧
        DecodeTo env version kept (rows.filter (fun p => !isDeleted p.1 p.2))
  | [], _, h => by
    cases h
    exact ⟨[], rfl, fun v hv => hv, .nil⟩
  | v :: visited, _, h => by
    obtain ⟨⟨lsn, episode⟩, rows, ⟨hlsn, hdecode⟩, hrest, rfl⟩ := List.forall₂_cons_left_iff.1 h
    obtain ⟨kept, hkept, hmem, hrows⟩ := keepVisited_eq_ok hrest
    rw [keepVisited, hdecode]
    dsimp only
    rw [hkept, hlsn]
    cases hdeleted : isDeleted lsn episode with
    | true =>
      refine ⟨kept, rfl, fun w hw => List.mem_cons_of_mem v (hmem w hw), ?_⟩
      rw [List.filter_cons, hdeleted]
      exact hrows
    | false =>
      refine ⟨v :: kept, rfl, fun w hw => ?_, ?_⟩
      · rcases List.mem_cons.1 hw with rfl | hw
        · exact List.mem_cons_self
        · exact List.mem_cons_of_mem v (hmem w hw)
      · rw [List.filter_cons, hdeleted]
        exact .cons ⟨hlsn, hdecode⟩ hrows

theorem keepVisited_eq_error {version : Nat} {e : HeraclitusError} :
    ∀ {visited : List Visited}, decodeVisited env version visited = .error e →
      keepVisited env version isDeleted visited = .error e
  | [], h => by cases h
  | v :: visited, h => by
    rw [decodeVisited] at h
    rw [keepVisited]
    cases hdecode : env.decodePayload version v.payload with
    | error e' =>
      rw [hdecode] at h
      cases h
      rfl
    | ok episode =>
      rw [hdecode] at h
      dsimp only at h ⊢
      rw [keepVisited_eq_error (map_eq_error h)]
      rfl

theorem newPath_ne (receipt : DemotionReceipt) : newPath receipt ".hrkl".toList ≠ newPath receipt ".parquet".toList := by
  intro h
  have := congrArg List.length h
  simp [newPath, compactPath, coldPath] at this

/-! ## The new object -/

section Compact

variable (store : Store) (receipt : DemotionReceipt)

variable (env) in
/-- What a compaction promises: its new object gives back the rows of the old one that are not deleted, as they were, and
the new receipt holds of it; and an object that is not the receipt's is refused, with nothing written. -/
def CompactsFaithfully : Prop :=
  (∀ receipt' store', compactColdPrepared env store receipt isDeleted = (.ok receipt', store') →
    ∃ bytes rows, store.get? receipt.objectPath = some bytes ∧ visitedEpisodes env bytes = .ok rows ∧
      fetchCold env store' receipt' = .ok (rows.filter (fun p => !isDeleted p.1 p.2)) ∧
      verifyReceipt env store' receipt' = .ok true) ∧
  (verifyReceipt env store receipt ≠ .ok true →
    ∃ e, compactColdPrepared env store receipt isDeleted = (.error e, store))

variable {store receipt isDeleted} {bytes : Bytes}

theorem visits_of_visitedEpisodes {rows : List (Nat × Episode)} (h : visitedEpisodes env bytes = .ok rows) :
    ∃ header visited, SegmentHeader.decode bytes = .ok header ∧ Visits env header.version (bytes.drop headerLen) visited ∧
      DecodeTo env header.version visited rows := by
  rw [visitedEpisodes, visitRecords] at h
  cases hheader : SegmentHeader.decode bytes with
  | error e =>
    rw [hheader] at h
    cases h
  | ok header =>
    rw [hheader] at h
    exact ⟨header, _, rfl, visitFrom_visits _ _ (by simp), (decodeVisited_eq_ok _ rows).1 h⟩

theorem DecodeTo.unique {version : Nat} {visited : List Visited} {rows rows' : List (Nat × Episode)}
    (h : DecodeTo env version visited rows) (h' : DecodeTo env version visited rows') : rows = rows' :=
  Except.ok.inj (((decodeVisited_eq_ok visited rows).2 h).symm.trans ((decodeVisited_eq_ok visited rows').2 h'))

variable (isDeleted) in
/-- An object that cannot be read is left alone. -/
theorem compactColdPrepared_unreadable {e : HeraclitusError} (hget : store.get? receipt.objectPath = some bytes)
    (h : visitedEpisodes env bytes = .error e) : compactColdPrepared env store receipt isDeleted = (.error e, store) := by
  rw [compactColdPrepared, hget]
  dsimp only
  rw [visitedEpisodes] at h
  cases hvisit : visitRecords env bytes with
  | error e' =>
    rw [hvisit] at h
    cases h
    rfl
  | ok found =>
    obtain ⟨version, visited⟩ := found
    rw [hvisit] at h
    dsimp only at h ⊢
    rw [keepVisited_eq_error isDeleted h]

section Readable

variable {header : SegmentHeader} {visited kept : List Visited} {rows : List (Nat × Episode)}
  (hheader : SegmentHeader.decode bytes = .ok header)
include hheader

/-- **The new object holds what was kept.** -/
theorem compactObject_visits (hvisits : Visits env header.version (bytes.drop headerLen) visited)
    (hkept : ∀ v ∈ kept, v ∈ visited) :
    SegmentHeader.decode (compactObject env header.version bytes kept) = .ok header ∧
      Visits env header.version ((compactObject env header.version bytes kept).drop headerLen) kept := by
  have hlen := length_of_decode_header hheader
  refine ⟨(decode_header_append hlen).trans hheader, ?_⟩
  rw [compactObject, List.drop_left' (List.length_take_of_le hlen)]
  exact visits_flatMap (fun v hv => hvisits.whole v (hkept v hv)) (footer_stops _)

/-- A mirror that cannot be made: the new object stays, and there is no receipt. -/
theorem compactColdPrepared_unmirrored (hget : store.get? receipt.objectPath = some bytes)
    (hvisits : Visits env header.version (bytes.drop headerLen) visited) (hmem : ∀ v ∈ kept, v ∈ visited)
    (hkept : keepVisited env header.version isDeleted visited = .ok kept) (hrows : DecodeTo env header.version kept rows)
    {e : String} (hparquet : env.toParquet rows = .error e) :
    compactColdPrepared env store receipt isDeleted = (.error (.serialization e),
      store.insert (newPath receipt ".hrkl".toList) (compactObject env header.version bytes kept)) := by
  obtain ⟨hnew, hnewVisits⟩ := compactObject_visits hheader hvisits hmem
  rw [compactColdPrepared, hget]
  dsimp only
  rw [visitRecords_of_visits hheader hvisits]
  dsimp only
  rw [hkept]
  dsimp only
  rw [segmentToParquet, visitedEpisodes_of_visits hnew hnewVisits hrows]
  dsimp only
  rw [hparquet]

/-- **A compaction that goes through**, and what its new receipt then stands for. -/
theorem compactColdPrepared_ok (hget : store.get? receipt.objectPath = some bytes)
    (hvisits : Visits env header.version (bytes.drop headerLen) visited) (hmem : ∀ v ∈ kept, v ∈ visited)
    (hkept : keepVisited env header.version isDeleted visited = .ok kept) (hrows : DecodeTo env header.version kept rows)
    {parquet : Bytes} (hparquet : env.toParquet rows = .ok parquet) :
    ∃ store', compactColdPrepared env store receipt isDeleted
        = (.ok (compactReceipt env receipt header.version visited kept), store') ∧
      fetchCold env store' (compactReceipt env receipt header.version visited kept) = .ok rows ∧
      verifyReceipt env store' (compactReceipt env receipt header.version visited kept) = .ok true := by
  obtain ⟨hnew, hnewVisits⟩ := compactObject_visits hheader hvisits hmem
  have hepisodes := visitedEpisodes_of_visits hnew hnewVisits hrows
  have hscan := scanAndRoot_of_visits hnew hnewVisits
  have hobject : ((store.insert (newPath receipt ".hrkl".toList) (compactObject env header.version bytes kept)).insert
      (newPath receipt ".parquet".toList) parquet).get?
        (compactReceipt env receipt header.version visited kept).objectPath
      = some (compactObject env header.version bytes kept) := by
    show SortedMap.get? _ (newPath receipt ".hrkl".toList) = _
    rw [SortedMap.get?_insert, if_neg (newPath_ne _), SortedMap.get?_insert, if_pos rfl]
  refine ⟨(store.insert (newPath receipt ".hrkl".toList) (compactObject env header.version bytes kept)).insert
    (newPath receipt ".parquet".toList) parquet, ?_, ?_, ?_⟩
  · rw [compactColdPrepared, hget]
    dsimp only
    rw [visitRecords_of_visits hheader hvisits]
    dsimp only
    rw [hkept]
    dsimp only
    rw [segmentToParquet, hepisodes]
    dsimp only
    rw [hparquet]
  · rw [fetchCold, hobject]
    dsimp only
    rw [hscan]
    dsimp only
    rw [if_neg (by simp [compactReceipt, compactFooter]), hepisodes]
  · rw [verifyReceipt, hobject]
    dsimp only
    rw [hscan]
    simp [compactReceipt, compactFooter]

end Readable

variable (env isDeleted store receipt) in
/-- The new object is in the store already, and its mirror cannot be made. -/
def Stuck : Prop :=
  ∃ bytes header visited kept rows e, store.get? receipt.objectPath = some bytes ∧
    SegmentHeader.decode bytes = .ok header ∧ Visits env header.version (bytes.drop headerLen) visited ∧
    keepVisited env header.version isDeleted visited = .ok kept ∧ DecodeTo env header.version kept rows ∧
    env.toParquet rows = .error e ∧
    store.get? (newPath receipt ".hrkl".toList) = some (compactObject env header.version bytes kept)

theorem insert_eq_self_iff {path : Str} : store.insert path bytes = store ↔ store.get? path = some bytes := by
  constructor
  · intro h
    rw [← h, SortedMap.get?_insert, if_pos rfl]
  · exact SortedMap.insert_of_get?

variable (env isDeleted store receipt) in
/-- **When a compaction is faithful**: for every object, receipt and deletion, exactly if the object is the receipt's, or
is missing, or cannot be read, or nothing new could be written. -/
theorem compactsFaithfully_iff : CompactsFaithfully env isDeleted store receipt ↔
    verifyReceipt env store receipt = .ok true ∨ store.get? receipt.objectPath = none ∨
      (∃ bytes e, store.get? receipt.objectPath = some bytes ∧ visitedEpisodes env bytes = .error e) ∨
      Stuck env isDeleted store receipt := by
  cases hget : store.get? receipt.objectPath with
  | none =>
    have hmissing : compactColdPrepared env store receipt isDeleted = (.error (.storage "Object not found"), store) := by
      rw [compactColdPrepared, hget]
    refine iff_of_true ⟨fun receipt' store' h => ?_, fun _ => ⟨_, hmissing⟩⟩ (.inr (.inl rfl))
    rw [hmissing] at h
    cases h
  | some bytes =>
    cases hepisodes : visitedEpisodes env bytes with
    | error e =>
      have hunreadable := compactColdPrepared_unreadable isDeleted hget hepisodes
      refine iff_of_true ⟨fun receipt' store' h => ?_, fun _ => ⟨e, hunreadable⟩⟩ (.inr (.inr (.inl ⟨bytes, e, rfl, hepisodes⟩)))
      rw [hunreadable] at h
      cases h
    | ok rows =>
      obtain ⟨header, visited, hheader, hvisits, hrows⟩ := visits_of_visitedEpisodes hepisodes
      obtain ⟨kept, hkept, hmem, hkeptRows⟩ := keepVisited_eq_ok isDeleted hrows
      cases hparquet : env.toParquet (rows.filter (fun p => !isDeleted p.1 p.2)) with
      | ok parquet =>
        obtain ⟨store₁, hcompact, hfetch, hverify⟩ := compactColdPrepared_ok hheader hget hvisits hmem hkept hkeptRows hparquet
        constructor
        · intro h
          by_contra hne
          obtain ⟨e, he⟩ := h.2 (fun hok => hne (.inl hok))
          rw [hcompact] at he
          cases he
        · rintro (hok | hnone | ⟨bytes', e, hget', he⟩ | ⟨bytes', header', visited', kept', rows', e, hget', hheader', hvisits',
            hkept', hrows', he, -⟩)
          · refine ⟨fun receipt' store' h => ?_, fun hne => absurd hok hne⟩
            rw [hcompact] at h
            cases h
            exact ⟨bytes, rows, hget, hepisodes, hfetch, hverify⟩
          · cases hnone
          · cases hget'
            rw [hepisodes] at he
            cases he
          · cases hget.symm.trans hget'
            cases hheader.symm.trans hheader'
            cases hvisits.unique hvisits'
            cases hkept.symm.trans hkept'
            rw [hkeptRows.unique hrows', he] at hparquet
            cases hparquet
      | error e =>
        have hcompact := compactColdPrepared_unmirrored hheader hget hvisits hmem hkept hkeptRows hparquet
        constructor
        · intro h
          by_cases hok : verifyReceipt env store receipt = .ok true
          · exact .inl hok
          · obtain ⟨e', he'⟩ := h.2 hok
            rw [hcompact] at he'
            exact .inr (.inr (.inr ⟨bytes, header, visited, kept, _, e, hget, hheader, hvisits, hkept, hkeptRows, hparquet,
              insert_eq_self_iff.1 (Prod.mk.inj he').2⟩))
        · intro h
          refine ⟨fun receipt' store' hok => ?_, fun hne => ?_⟩
          · rw [hcompact] at hok
            cases hok
          · rcases h with hok | hnone | ⟨bytes', e', hget', he⟩ | ⟨bytes', header', visited', kept', rows', e', hget', hheader',
              hvisits', hkept', hrows', he, hthere⟩
            · exact absurd hok hne
            · cases hnone
            · cases hget'
              rw [hepisodes] at he
              cases he
            · cases hget.symm.trans hget'
              cases hheader.symm.trans hheader'
              cases hvisits.unique hvisits'
              cases hkept.symm.trans hkept'
              rw [insert_eq_self_iff.2 hthere] at hcompact
              exact ⟨_, hcompact⟩

end Compact

/-! ## A damaged object -/

/-- The receipt of segment 0 of `twoSegments`. -/
def firstReceipt : DemotionReceipt := {
  segmentId := 0, objectPath := coldPath 0 ".hrkl".toList, recordCount := 1, minLsn := 0, maxLsn := 0
  blake3Root := hexEncode (sampleBlake3 [0, 0, 0, 0, 0]).1, parquetPath := some (coldPath 0 ".parquet".toList)
  compactedFrom := none, dropped := 0 }

/-- Its object, with the highest byte of the record's length damaged. -/
def damagedStore : Store := SortedMap.empty.insert (coldPath 0 ".hrkl".toList) damagedFile

/-- What a compaction without deletions counts in it. -/
def compactedCount : Option Nat :=
  match compactColdPrepared sampleTier damagedStore firstReceipt (fun _ _ => false) with
  | (.ok receipt, _) => some receipt.recordCount
  | (.error _, _) => none

set_option maxRecDepth 4000 in
/-- **A damaged object is compacted to nothing**, under a new receipt, although the old one does not hold of it. -/
theorem damaged_object_is_compacted :
    (demotePrepared sampleTier (withFile twoSegments 0 firstFile) .empty 0).1 = .ok firstReceipt ∧
    verifyReceipt sampleTier damagedStore firstReceipt = .ok false ∧ compactedCount = some 0 ∧
    ¬CompactsFaithfully sampleTier (fun _ _ => false) damagedStore firstReceipt := by
  have hverify : verifyReceipt sampleTier damagedStore firstReceipt = .ok false := by decide +kernel
  have hcount : compactedCount = some 0 := by decide +kernel
  have hdemote : (demotePrepared sampleTier (withFile twoSegments 0 firstFile) .empty 0).1 = .ok firstReceipt := by
    decide +kernel
  refine ⟨hdemote, hverify, hcount, fun h => ?_⟩
  have hne : verifyReceipt sampleTier damagedStore firstReceipt ≠ .ok true := fun htrue =>
    Bool.false_ne_true (Except.ok.inj (hverify.symm.trans htrue))
  obtain ⟨e, he⟩ := h.2 hne
  unfold compactedCount at hcount
  rw [he] at hcount
  cases hcount

end Tier
end Heraclitus
