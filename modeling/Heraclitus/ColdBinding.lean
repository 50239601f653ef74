import Heraclitus.ColdCompact
import Heraclitus.EncryptionRun
import Heraclitus.LegacyMerkle
/-!
# ColdBinding — what a demotion receipt says of the bytes it is verified on (`heraclitus-tier/src/lib.rs`)

The receipt counts the records and holds the root over their leaves.  What a leaf covers, and how a payload is decoded, is up to
the version in the header of the very bytes that are verified.
-/
namespace Heraclitus
namespace Tier

open Legacy
open Crypto (hexEncode)

/-- What a leaf is the hash of. -/
def leafInput (version : Nat) (record : Bytes) : Bytes :=
  if version < 2 then record.drop recordHeaderLen else record.take 4 ++ record.drop 8

/-- The stamp of a record. -/
def Visited.hlc (v : Visited) : Nat := leNat ((v.record.drop 16).take 8)

variable (env : TierEnv)

/-- The leaves' inputs of the records that a visitor finds in the bytes. -/
def leafInputs (bytes : Bytes) : List Bytes :=
  match visitRecords env bytes with
  | .error _ => []
  | .ok (version, visited) => visited.map (fun v => leafInput version v.record)

/-- The record sequence: LSN, stamp and payload. -/
def recordsIn (bytes : Bytes) : List (Nat × Nat × Bytes) :=
  match visitRecords env bytes with
  | .error _ => []
  | .ok (_, visited) => visited.map (fun v => (v.lsn, v.hlc, v.payload))

/-- All that BLAKE3 is given when a receipt is made or verified. -/
def hashedIn (bytes : Bytes) : List Bytes :=
  leafInputs env bytes ++ hashedForRoot env.toHashes ((leafInputs env bytes).map env.blake3)

/-- A record as its leaf's input has it from version 2 on. -/
def regionFields (region : Bytes) : Nat × Nat × Bytes :=
  (leNat ((region.drop 4).take 8), leNat ((region.drop 12).take 8), region.drop 20)

variable {env} {version : Nat} {bytes bytes' : Bytes} {visited : List Visited}

theorem recordLeaf_eq (record : Bytes) : recordLeaf env.toHashes version record = env.blake3 (leafInput version record) := by
  unfold recordLeaf leafInput
  split <;> rfl

/-- The fields of a record that was visited. -/
structure Visited.Framed (v : Visited) : Prop where
  long : recordHeaderLen ≤ v.record.length
  lsn : v.lsn = leNat ((v.record.drop 8).take 8)
  payload : v.payload = v.record.drop recordHeaderLen

theorem framed_of_decodeRecord {H : Hashes} {lsn hlc n : Nat} {payload : Bytes}
    (h : decodeRecord H version bytes = .record lsn hlc payload n) :
    ({ lsn := lsn, payload := payload, record := bytes.take n } : Visited).Framed := by
  obtain ⟨hmagic, hmax, hn, hlen⟩ := decodeRecord_eq_record h
  have hpos : recordHeaderLen = 24 := rfl
  unfold decodeRecord at h
  rw [if_neg hmagic] at h
  dsimp only at h
  split_ifs at h
  cases h
  refine ⟨by rw [List.length_take_of_le hlen]; omega, ?_, rfl⟩
  show leNat ((bytes.drop 8).take 8) = leNat (((bytes.take (recordHeaderLen + leNat (bytes.take 4))).drop 8).take 8)
  rw [List.drop_take, List.take_take, Nat.min_eq_left (by omega)]

theorem Visits.framed (h : Visits env version bytes visited) : ∀ v ∈ visited, v.Framed := by
  induction h with
  | stop => exact fun v hv => absurd hv List.not_mem_nil
  | record hdecode _ ih => exact List.forall_mem_cons.2 ⟨framed_of_decodeRecord hdecode, ih⟩

theorem framed_of_visitRecords (h : visitRecords env bytes = .ok (version, visited)) : ∀ v ∈ visited, v.Framed := by
  unfold visitRecords at h
  split at h
  · cases h
  · cases h
    exact (visitFrom_visits _ _ (by rw [List.length_drop]; exact Nat.sub_le _ _)).framed

/-- **From version 2 on the leaf covers the record.** -/
theorem Visited.Framed.fields {v : Visited} (h : v.Framed) (hversion : 2 ≤ version) :
    regionFields (leafInput version v.record) = (v.lsn, v.hlc, v.payload) := by
  have hpos : recordHeaderLen = 24 := rfl
  have hlong := h.long
  have hdrop : ∀ n, (v.record.take 4 ++ v.record.drop 8).drop (4 + n) = v.record.drop (8 + n) := fun n => by
    rw [← List.drop_drop, List.drop_left' (List.length_take_of_le (by omega)), List.drop_drop]
  rw [leafInput, if_neg (by omega), regionFields, h.lsn, h.payload, Visited.hlc, hdrop 0, hdrop 8, hdrop 16]
  rfl

/-- **Before it the leaf covers the payload.** -/
theorem Visited.Framed.payload_eq {v : Visited} (h : v.Framed) (hversion : version < 2) :
    leafInput version v.record = v.payload := by
  rw [leafInput, if_pos hversion, h.payload]

section Visit

variable (hvisit : visitRecords env bytes = .ok (version, visited))
include hvisit

theorem leafInputs_eq : leafInputs env bytes = visited.map (fun v => leafInput version v.record) := by
  rw [leafInputs, hvisit]

theorem recordsIn_eq : recordsIn env bytes = visited.map (fun v => (v.lsn, v.hlc, v.payload)) := by
  rw [recordsIn, hvisit]

theorem scanAndRoot_eq : scanAndRoot env bytes = .ok ((leafInputs env bytes).length,
    merkleRoot env.toHashes ((leafInputs env bytes).map env.blake3)) := by
  have hleaves : visited.map (fun v => recordLeaf env.toHashes version v.record) = (leafInputs env bytes).map env.blake3 := by
    rw [leafInputs_eq hvisit, List.map_map]
    exact List.map_congr_left (fun v _ => recordLeaf_eq v.record)
  rw [scanAndRoot, hvisit]
  dsimp only
  rw [hleaves, List.length_map]

theorem recordsIn_of_leafInputs (hversion : 2 ≤ version) : recordsIn env bytes = (leafInputs env bytes).map regionFields := by
  rw [recordsIn_eq hvisit, leafInputs_eq hvisit, List.map_map]
  exact List.map_congr_left (fun v hv => ((framed_of_visitRecords hvisit v hv).fields hversion).symm)

theorem payloads_of_leafInputs (hversion : version < 2) : (recordsIn env bytes).map (·.2.2) = leafInputs env bytes := by
  rw [recordsIn_eq hvisit, leafInputs_eq hvisit, List.map_map]
  exact List.map_congr_left (fun v hv => ((framed_of_visitRecords hvisit v hv).payload_eq hversion).symm)

end Visit

/-! ## What is decoded -/

variable (env) in
/-- `decodeVisited`, of the record sequence. -/
def decodeRecords (version : Nat) : List (Nat × Nat × Bytes) → Except HeraclitusError (List (Nat × Episode))
  | [] => .ok []
  | r :: records =>
    match env.decodePayload version r.2.2 with
    | .error e => .error e
    | .ok episode => (decodeRecords version records).map ((r.1, episode) :: ·)

theorem decodeVisited_eq : ∀ visited : List Visited,
    decodeVisited env version visited = decodeRecords env version (visited.map (fun v => (v.lsn, v.hlc, v.payload)))
  | [] => rfl
  | v :: visited => by
    rw [decodeVisited, List.map_cons, decodeRecords]
    cases env.decodePayload version v.payload with
    | error e => rfl
    | ok episode => exact congrArg (Except.map ((v.lsn, episode) :: ·)) (decodeVisited_eq visited)

theorem decodeRecords_congr {version' : Nat} (h : env.decodePayload version' = env.decodePayload version) :
    ∀ records : List (Nat × Nat × Bytes), decodeRecords env version' records = decodeRecords env version records
  | [] => rfl
  | r :: records => by
    rw [decodeRecords, decodeRecords, h, decodeRecords_congr h records]

/-- The episodes depend on the payloads only. -/
theorem decodeRecords_payloads : ∀ {records records' : List (Nat × Nat × Bytes)},
    records'.map (·.2.2) = records.map (·.2.2) → ∀ {rows}, decodeRecords env version records = .ok rows →
    ∃ rows', decodeRecords env version records' = .ok rows' ∧ rows'.map Prod.snd = rows.map Prod.snd
  | [], [], _, rows, h => by
    cases h
    exact ⟨[], rfl, rfl⟩
  | [], r' :: records', h, _, _ => by cases h
  | r :: records, [], h, _, _ => by cases h
  | r :: records, r' :: records', h, rows, hrows => by
    obtain ⟨hpayload, hrest⟩ := List.cons.inj h
    rw [decodeRecords] at hrows
    rw [decodeRecords, show r'.2.2 = r.2.2 from hpayload]
    split at hrows
    · cases hrows
    · rename_i episode hdecode
      obtain ⟨rest, hok, rfl⟩ := map_eq_ok hrows
      obtain ⟨rest', hok', heq⟩ := decodeRecords_payloads hrest hok
      refine ⟨(r'.1, episode) :: rest', ?_, congrArg (List.cons episode) heq⟩
      rw [hok']
      rfl

theorem visitedEpisodes_eq (hvisit : visitRecords env bytes = .ok (version, visited)) :
    visitedEpisodes env bytes = decodeRecords env version (recordsIn env bytes) := by
  rw [visitedEpisodes, hvisit]
  dsimp only
  rw [decodeVisited_eq, recordsIn_eq hvisit]

/-! ## What the receipt binds -/

/-- A receipt that holds of the bytes: it has their count and their root. -/
def DemotionReceipt.HoldsOf (receipt : DemotionReceipt) (env : TierEnv) (bytes : Bytes) : Prop :=
  ∃ root, scanAndRoot env bytes = .ok (receipt.recordCount, root) ∧ hexEncode root.1 = receipt.blake3Root

theorem verifyReceipt_true {store : Store} {receipt : DemotionReceipt} (hobject : store.get? receipt.objectPath = some bytes) :
    verifyReceipt env store receipt = .ok true ↔ receipt.HoldsOf env bytes := by
  unfold verifyReceipt DemotionReceipt.HoldsOf
  rw [hobject]
  dsimp only
  cases hscan : scanAndRoot env bytes with
  | error e =>
    refine iff_of_false (fun h => by cases h) ?_
    rintro ⟨root, h, -⟩
    cases h
  | ok x =>
    obtain ⟨count, root⟩ := x
    dsimp only
    constructor
    · intro h
      obtain ⟨hcount, hroot⟩ := Bool.and_eq_true_iff.1 (Except.ok.inj h)
      exact ⟨root, congrArg (fun n => Except.ok (n, root)) (beq_iff_eq.1 hcount), beq_iff_eq.1 hroot⟩
    · rintro ⟨root', heq, hroot⟩
      cases heq
      rw [hroot, beq_self_eq_true, beq_self_eq_true]
      rfl

theorem fetchCold_eq {store : Store} {receipt : DemotionReceipt} (hobject : store.get? receipt.objectPath = some bytes)
    (h : receipt.HoldsOf env bytes) : fetchCold env store receipt = visitedEpisodes env bytes := by
  obtain ⟨root, hscan, hroot⟩ := h
  rw [fetchCold, hobject]
  dsimp only
  rw [hscan]
  dsimp only
  rw [if_neg]
  rintro (h | h)
  · exact h rfl
  · exact h hroot

/-- **The leaves are bound**: what a receipt holds of has the leaves' inputs that it was made for. -/
theorem leafInputs_eq_of_holdsOf {receipt : DemotionReceipt} {version' : Nat} {visited' : List Visited}
    (hvisit : visitRecords env bytes = .ok (version, visited)) (hvisit' : visitRecords env bytes' = .ok (version', visited'))
    (h : receipt.HoldsOf env bytes) (h' : receipt.HoldsOf env bytes')
    (hfree : NoCollision env.blake3 (hashedIn env bytes ++ hashedIn env bytes')) :
    leafInputs env bytes' = leafInputs env bytes := by
  obtain ⟨root, hscan, hroot⟩ := h
  obtain ⟨root', hscan', hroot'⟩ := h'
  rw [scanAndRoot_eq hvisit, Except.ok.injEq, Prod.mk.injEq] at hscan
  rw [scanAndRoot_eq hvisit', Except.ok.injEq, Prod.mk.injEq] at hscan'
  have hsame : root'.1 = root.1 := by
    have hhex := congrArg Crypto.hexDecode (hroot'.trans hroot.symm)
    rw [Crypto.hexDecode_hexEncode, Crypto.hexDecode_hexEncode] at hhex
    exact Option.some.inj hhex
  have hmem : ∀ x, x ∈ leafInputs env bytes' ∨ x ∈ leafInputs env bytes → x ∈ hashedIn env bytes ++ hashedIn env bytes' :=
    fun x hx => List.mem_append.2 (hx.symm.imp (List.mem_append_left _) (List.mem_append_left _))
  have hnodes : NoCollision env.blake3 (hashedForRoot env.toHashes ((leafInputs env bytes').map env.blake3) ++
      hashedForRoot env.toHashes ((leafInputs env bytes).map env.blake3)) := by
    have hsub : ∀ x, x ∈ hashedForRoot env.toHashes ((leafInputs env bytes').map env.blake3) ++
        hashedForRoot env.toHashes ((leafInputs env bytes).map env.blake3) → x ∈ hashedIn env bytes ++ hashedIn env bytes' :=
      fun x hx => List.mem_append.2 ((List.mem_append.1 hx).symm.imp (List.mem_append_right _) (List.mem_append_right _))
    exact fun x hx y hy => hfree x (hsub x hx) y (hsub y hy)
  have hleaves := eq_of_merkleRoot_eq hnodes (by rw [List.length_map, List.length_map, hscan.1, hscan'.1])
    (hscan'.2.trans ((Subtype.ext hsame).trans hscan.2.symm))
  exact map_eq_map_of_injOn (fun x hx y hy heq => hfree x (hmem x hx) y (hmem y hy) heq) hleaves

/-- What a demotion stores is the segment's file, and its receipt holds of it. -/
theorem demotePrepared_spec {log : Log} {store store₁ : Store} {id : Nat} {receipt : DemotionReceipt}
    (h : demotePrepared env log store id = (.ok receipt, store₁)) : ∃ file rows, log.dir.get? id = some file ∧
      store₁.get? receipt.objectPath = some file ∧ receipt.HoldsOf env file ∧ visitedEpisodes env file = .ok rows := by
  unfold demotePrepared at h
  split at h
  · cases h
  · rename_i container hfind
    have hid : container.id = id := by simpa using List.find?_some hfind
    split at h
    · cases h
    · rename_i file hfile
      split at h
      · cases h
      · rename_i count root hscan
        dsimp only at h
        cases hparquet : segmentToParquet env file with
        | error e =>
          rw [hparquet] at h
          cases h
        | ok parquet =>
          rw [hparquet] at h
          cases h
          have hobject : SortedMap.get? ((store.insert (coldPath id ".hrkl".toList) file).insert
              (coldPath id ".parquet".toList) parquet) (coldPath id ".hrkl".toList) = some file := by
            rw [SortedMap.get?_insert, if_neg (coldPath_ne _), SortedMap.get?_insert, if_pos rfl]
          unfold segmentToParquet at hparquet
          split at hparquet
          · cases hparquet
          · rename_i rows hrows
            exact ⟨file, rows, hid ▸ hfile, hobject, ⟨root, hscan, rfl⟩, hrows⟩

/-- **What a receipt binds**: bytes that verify in place of the demoted object hold the same records where the leaves of both
cover them, and the same payloads where they cover these; what decodes alike is fetched. -/
theorem verifyReceipt_binding {log : Log} {store store₁ store' : Store} {id : Nat} {receipt : DemotionReceipt}
    {header header' : SegmentHeader} (hdemote : demotePrepared env log store id = (.ok receipt, store₁))
    (hobject : store₁.get? receipt.objectPath = some bytes) (hheader : SegmentHeader.decode bytes = .ok header)
    (hobject' : store'.get? receipt.objectPath = some bytes') (hheader' : SegmentHeader.decode bytes' = .ok header')
    (hfree : NoCollision env.blake3 (hashedIn env bytes ++ hashedIn env bytes'))
    (hverify : verifyReceipt env store' receipt = .ok true) :
    ∃ rows, visitedEpisodes env bytes = .ok rows ∧
      (2 ≤ header.version → 2 ≤ header'.version → recordsIn env bytes' = recordsIn env bytes ∧
        (env.decodePayload header'.version = env.decodePayload header.version → fetchCold env store' receipt = .ok rows)) ∧
      (header.version < 2 → header'.version < 2 →
        (recordsIn env bytes').map (·.2.2) = (recordsIn env bytes).map (·.2.2) ∧
        (env.decodePayload header'.version = env.decodePayload header.version →
          ∃ rows', fetchCold env store' receipt = .ok rows' ∧ rows'.map Prod.snd = rows.map Prod.snd)) := by
  obtain ⟨file, rows, -, hfile, hholds, hrows⟩ := demotePrepared_spec hdemote
  cases hobject.symm.trans hfile
  have hvisit : ∃ visited, visitRecords env bytes = .ok (header.version, visited) := ⟨_, by rw [visitRecords, hheader]⟩
  have hvisit' : ∃ visited, visitRecords env bytes' = .ok (header'.version, visited) := ⟨_, by rw [visitRecords, hheader']⟩
  obtain ⟨visited, hvisit⟩ := hvisit
  obtain ⟨visited', hvisit'⟩ := hvisit'
  have hholds' := (verifyReceipt_true hobject').1 hverify
  have hsame := leafInputs_eq_of_holdsOf hvisit hvisit' hholds hholds' hfree
  have hdecoded := (visitedEpisodes_eq hvisit).symm.trans hrows
  have hfetched := (fetchCold_eq hobject' hholds').trans (visitedEpisodes_eq hvisit')
  refine ⟨rows, hrows, fun hversion hversion' => ?_, fun hversion hversion' => ?_⟩
  · have hrecords : recordsIn env bytes' = recordsIn env bytes := by
      rw [recordsIn_of_leafInputs hvisit' hversion', recordsIn_of_leafInputs hvisit hversion, hsame]
    refine ⟨hrecords, fun halike => ?_⟩
    rw [hfetched, hrecords, decodeRecords_congr halike, hdecoded]
  · have hpayloads : (recordsIn env bytes').map (·.2.2) = (recordsIn env bytes).map (·.2.2) := by
      rw [payloads_of_leafInputs hvisit' hversion', payloads_of_leafInputs hvisit hversion, hsame]
    refine ⟨hpayloads, fun halike => ?_⟩
    rw [hfetched, decodeRecords_congr halike]
    exact decodeRecords_payloads hpayloads hdecoded

/-! ## Substituted objects -/

/-- An object with one record. -/
def sampleObject (version lsn hlc : Nat) (payload : Bytes) : Bytes :=
  SegmentHeader.encode { version := version, segmentId := 0, createdHlc := 1 } ++
    encodeRecord sampleEnv.toHashes version lsn hlc payload

/-- The payload of an episode that is valid from 7 on, from version 4 on. -/
def timedPayload : Bytes := (plainPayload (List.replicate 16 0) 5 [120]).take 53 ++ [1, 7, 0]

/-- `plainDecode`, with the valid time that version 4 brought. -/
def timedDecode (version : Nat) (payload : Bytes) : Except HeraclitusError Episode :=
  (plainDecode version payload).map (fun e =>
    if version < 4 ∨ (payload.drop 53).take 1 ≠ [1] then e else { e with validFrom := some (leNat ((payload.drop 54).take 1)) })

def timedTier : TierEnv := { sampleTier with decodePayload := timedDecode }

/-- What `verify_receipt` says of `bytes'` in place of the demoted `bytes`; what is fetched of both. -/
def substitute (bytes bytes' : Bytes) : Option (Option Bool × Option (List (Nat × Episode)) × Option (List (Nat × Episode))) :=
  match demotePrepared timedTier (withFile twoSegments 0 bytes) .empty 0 with
  | (.ok receipt, store) =>
    let store' := store.insert receipt.objectPath bytes'
    some ((verifyReceipt timedTier store' receipt).toOption, (fetchCold timedTier store receipt).toOption,
      (fetchCold timedTier store' receipt).toOption)
  | (.error _, _) => none

/-- What the leaf of version 5 covers, as the payload of a record of version 1. -/
def disguised : Bytes := sampleObject 1 7 9 (leafInput 5 ((sampleObject 5 0 5 timedPayload).drop headerLen))

set_option maxRecDepth 8000 in
/-- **Accepted in place of the demoted object**: the record of version 1 under another LSN; the record of version 5 under a
version that knows no valid time; and a record of version 1 whose payload is what the leaf of version 5 covers. -/
theorem accepted_in_place_of_demoted :
    (NoCollision timedTier.blake3 (hashedIn timedTier (sampleObject 1 0 5 timedPayload) ++
        hashedIn timedTier (sampleObject 1 7 5 timedPayload)) ∧
      (substitute (sampleObject 1 0 5 timedPayload) (sampleObject 1 7 5 timedPayload)).map Prod.fst = some (some true) ∧
      (substitute (sampleObject 1 0 5 timedPayload) (sampleObject 1 7 5 timedPayload)).bind (·.2.1) =
        some [(0, plainEpisode 5 [120])] ∧
      (substitute (sampleObject 1 0 5 timedPayload) (sampleObject 1 7 5 timedPayload)).bind (·.2.2) =
        some [(7, plainEpisode 5 [120])]) ∧
    (NoCollision timedTier.blake3 (hashedIn timedTier (sampleObject 5 0 5 timedPayload) ++
        hashedIn timedTier (sampleObject 3 0 5 timedPayload)) ∧
      (substitute (sampleObject 5 0 5 timedPayload) (sampleObject 3 0 5 timedPayload)).map Prod.fst = some (some true) ∧
      (substitute (sampleObject 5 0 5 timedPayload) (sampleObject 3 0 5 timedPayload)).bind (·.2.1) =
        some [(0, { plainEpisode 5 [120] with validFrom := some 7 })] ∧
      (substitute (sampleObject 5 0 5 timedPayload) (sampleObject 3 0 5 timedPayload)).bind (·.2.2) =
        some [(0, plainEpisode 5 [120])]) ∧
    NoCollision timedTier.blake3 (hashedIn timedTier (sampleObject 5 0 5 timedPayload) ++ hashedIn timedTier disguised) ∧
      (substitute (sampleObject 5 0 5 timedPayload) disguised).map Prod.fst = some (some true) ∧
      recordsIn timedTier disguised ≠ recordsIn timedTier (sampleObject 5 0 5 timedPayload) := by
  refine ⟨⟨by decide +kernel, by decide +kernel, by decide +kernel, by decide +kernel⟩,
    ⟨by decide +kernel, by decide +kernel, by decide +kernel, by decide +kernel⟩, by decide +kernel, by decide +kernel,
    by decide +kernel⟩

/-- The file of the first segment without its footer. -/
def withoutFooter : Bytes := firstFile.take 101

set_option maxRecDepth 8000 in
theorem copy_without_footer : ∃ store₁ rows,
    demotePrepared sampleTier (withFile twoSegments 0 firstFile) .empty 0 = (.ok firstReceipt, store₁) ∧
    visitedEpisodes sampleTier firstFile = .ok rows ∧ recordsIn sampleTier withoutFooter = recordsIn sampleTier firstFile ∧
    fetchCold sampleTier (SortedMap.empty.insert firstReceipt.objectPath withoutFooter) firstReceipt = .ok rows := by
  have hdemote : (demotePrepared sampleTier (withFile twoSegments 0 firstFile) .empty 0).1 = .ok firstReceipt := by
    decide +kernel
  have hobject : (demotePrepared sampleTier (withFile twoSegments 0 firstFile) .empty 0).2.get? firstReceipt.objectPath =
      some firstFile := by decide +kernel
  rcases hcall : demotePrepared sampleTier (withFile twoSegments 0 firstFile) .empty 0 with ⟨result, store₁⟩
  rw [hcall] at hdemote hobject
  cases hdemote
  have hcopy : (SortedMap.empty.insert firstReceipt.objectPath withoutFooter).get? firstReceipt.objectPath =
      some withoutFooter := by rw [SortedMap.get?_insert, if_pos rfl]
  have hversion : (SegmentHeader.decode firstFile).toOption.map SegmentHeader.version = some 5 := by decide +kernel
  have hversion' : (SegmentHeader.decode withoutFooter).toOption.map SegmentHeader.version = some 5 := by decide +kernel
  obtain ⟨header, hheader, hversion⟩ := Option.map_eq_some_iff.1 hversion
  obtain ⟨header', hheader', hversion'⟩ := Option.map_eq_some_iff.1 hversion'
  have hfree : NoCollision sampleTier.blake3 (hashedIn sampleTier firstFile ++ hashedIn sampleTier withoutFooter) := by
    decide +kernel
  have hverify : verifyReceipt sampleTier (SortedMap.empty.insert firstReceipt.objectPath withoutFooter) firstReceipt =
      .ok true := by decide +kernel
  obtain ⟨rows, hrows, hbound, -⟩ := verifyReceipt_binding hcall hobject (Except.toOption_eq_some hheader)
    hcopy (Except.toOption_eq_some hheader') hfree hverify
  obtain ⟨hrecords, hfetched⟩ := hbound (by omega) (by omega)
  exact ⟨store₁, rows, rfl, hrows, hrecords, hfetched (by rw [hversion, hversion'])⟩

end Tier
end Heraclitus
