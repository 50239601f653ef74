import Heraclitus.V6Prove
import Heraclitus.V6RawSound
/-!
# V6Verify — the integrity levels (`heraclitus-log/src/v6/verify.rs`)

A RAW segment is verified by scanning it.  A record that does not decode ends the scan as the torn tail of an active segment
would, and what is reported then is ok, with a note.
-/
namespace Heraclitus
namespace V6

inductive IntegrityLevel where
  | fast | physical | logical | forensic
  deriving DecidableEq

def IntegrityLevel.toNat : IntegrityLevel → Nat
  | .fast => 0
  | .physical => 1
  | .logical => 2
  | .forensic => 3

def IntegrityLevel.atLeast (level other : IntegrityLevel) : Bool := decide (other.toNat ≤ level.toNat)

structure VerifyReport where
  level : IntegrityLevel
  layout : PhysicalLayout
  segmentId : Nat
  recordCount : Nat
  minLsn : Nat
  maxLsn : Nat
  blockCount : Nat
  declaredRoot : Digest
  recomputedRoot : Option Digest
  physicalOk : Bool
  logicalOk : Option Bool
  counters : ScanCounters
  notes : List String
  deriving DecidableEq

def VerifyReport.isOk (r : VerifyReport) : Bool := r.physicalOk && r.logicalOk.getD true

/-- `{e}`. -/
def errorText : HeraclitusError → String
  | .storage e => s!"storage error: {e}"
  | .storageEngine e => s!"storage engine error: {e}"
  | .crypto e => s!"crypto error: {e}"
  | .corruption context detail => s!"corruption detected in {context}: {detail}"
  | .geometry e => s!"geometry error: {e}"
  | .config e => s!"config error: {e}"
  | .query e => s!"query error: {e}"
  | .serialization e => s!"serialization error: {e}"
  | .casConflict expected head => s!"compare-and-append failed: expected lsn {expected}, head is {head}"
  | .idempotencyConflict key => s!"idempotency conflict for key {String.ofList key}"

def hex32 (b : Digest) : String :=
  String.ofList (b.1.flatMap (fun x => [Nat.digitChar (x.toNat / 16), Nat.digitChar (x.toNat % 16)]))

def domainAttestation : Bytes := "HRKL6:ATTESTATION_ENVELOPE:V1".toList.map (fun c => UInt8.ofNat c.toNat)

def AttestationEnvelopeV1.encode (e : AttestationEnvelopeV1) : Bytes :=
  e.storageNamespaceId ++ leBytes 8 e.segmentId ++ leBytes 2 e.canonicalCodecVersion ++ leBytes 8 e.firstLsn
    ++ leBytes 8 e.lastLsn ++ leBytes 8 e.recordCount ++ e.logicalRoot.1

namespace Verify

variable (codecs : Codecs) (blake3 : Bytes → Digest)

def needsHasher : HeraclitusError := corrupt "hrkl v6 verify" "LOGICAL verification requires a canonical hasher"

/-- What stands in for the footer of a segment that is not sealed. -/
def activeFooter (records : List RawRecord) : FooterV6 := {
  recordCount := records.length
  minLsn := records.head?.elim 0 RawRecord.lsn, maxLsn := records.getLast?.elim 0 RawRecord.lsn
  minHlc := if records = [] then 0 else minOf (records.map RawRecord.hlc)
  maxHlc := if records = [] then 0 else maxOf (records.map RawRecord.hlc)
  blockCount := 0, flags := 0, blockDirectoryOffset := 0, blockDirectoryLen := 0, logicalRoot := Digest.replicate 0 }

def verifyRaw (file : Bytes) (level : IntegrityLevel) (hasher : Option CanonicalHasher) :
    Except HeraclitusError VerifyReport := do
  let scan ← scanRawBytes file
  let footer := scan.footer.getD (activeFooter scan.records)
  let notes := (if scan.footer.isSome then [] else ["segment is not sealed (active tail)"])
    ++ scan.tornAt.toList.map (fun tornAt => s!"torn tail at offset {tornAt}")
  let report : VerifyReport := {
    level := level, layout := .raw, segmentId := scan.header.segmentId, recordCount := scan.records.length
    minLsn := footer.minLsn, maxLsn := footer.maxLsn, blockCount := 0, declaredRoot := footer.logicalRoot
    recomputedRoot := none, physicalOk := true, logicalOk := none, counters := .zero, notes := notes }
  if level.atLeast .logical then
    match hasher with
    | none => .error (corrupt "hrkl v6 verify raw" "LOGICAL verification requires a canonical hasher")
    | some hasher =>
      let root ← recomputeRoot blake3 hasher .new scan.records
      .ok { report with recomputedRoot := some root, logicalOk := some (root == footer.logicalRoot) }
  else .ok report

/-- The blocks from number `i` on: are they all read, and what is noted of those that are not. -/
def readBlocks (reader : PackedSegmentReader) : List Nat → ScanCounters → Bool × List String × ScanCounters
  | [], counters => (true, [], counters)
  | i :: blocks, counters =>
    match reader.readBlock codecs i counters with
    | (.ok _, counters) => readBlocks reader blocks counters
    | (.error e, counters) =>
      let rest := readBlocks reader blocks counters
      (false, s!"block {i}: {errorText e}" :: rest.2.1, rest.2.2)

/-- The caller has checked that there is a hasher where one is needed. -/
def verifyPacked (file : Bytes) (level : IntegrityLevel) (maxBlockBytes : Nat) (hasher : Option CanonicalHasher) :
    Except HeraclitusError VerifyReport := do
  let reader ← PackedSegmentReader.open (fileSource file) maxBlockBytes
  let (physicalOk, notes, counters) := if level.atLeast .physical
    then readBlocks codecs reader (List.range reader.directory.length) .zero else (true, [], .zero)
  let (recomputedRoot, logicalOk, counters) ← (if level.atLeast .logical && physicalOk then
      match hasher with
      | none => .error needsHasher
      | some hasher =>
        let done := reader.forEachRecord codecs (recount blake3 hasher) (.new, 0) counters
        done.1.map (fun x => (some (x.1.finalize blake3),
          some (x.1.finalize blake3 == reader.footer.logicalRoot && x.2 == reader.footer.recordCount), done.2))
    else .ok (none, none, counters))
  let envelope := attestationFor reader.header.storageNamespaceId reader.header.segmentId reader.footer
  let imprint := blake3 (domainAttestation ++ envelope.encode)
  .ok {
    level := level, layout := .packed, segmentId := reader.header.segmentId, recordCount := reader.footer.recordCount
    minLsn := reader.footer.minLsn, maxLsn := reader.footer.maxLsn, blockCount := reader.footer.blockCount
    declaredRoot := reader.footer.logicalRoot, recomputedRoot := recomputedRoot, physicalOk := physicalOk
    logicalOk := logicalOk, counters := counters
    notes := notes ++ (if level.atLeast .forensic then [s!"attestation imprint {hex32 imprint}"] else []) }

def verifySegment (file : Bytes) (level : IntegrityLevel) (maxBlockBytes : Nat) (hasher : Option CanonicalHasher) :
    Except HeraclitusError VerifyReport := do
  match ← readHead file with
  | .raw => verifyRaw blake3 file level hasher
  | .packed =>
    if level.atLeast .logical ∧ hasher.isNone then .error needsHasher
    else verifyPacked codecs blake3 file level maxBlockBytes hasher

/-! ## What an ok report should mean -/

/-- **An undamaged sealed RAW segment**: a header, whole records up to a footer that ends the file, and in the footer what it
says of them. -/
structure Intact (file : Bytes) (header : FileHeaderV6) (records : List RawRecord) (tail : Bytes) (footer : FooterV6) : Prop where
  layout : header.physicalLayout = .raw
  headerDecodes : FileHeaderV6.decode file = .ok header
  gapless : file = header.encode ++ (encodeRecords records ++ tail)
  recordsWide : ∀ r ∈ records, r.Wide
  atEnd : tail.length = footerLen
  footerDecodes : FooterV6.decode tail = .ok footer
  recordCount : footer.recordCount = records.length
  ranges : (footer.minLsn, footer.maxLsn, footer.minHlc, footer.maxHlc) = if records = [] then (0, 0, 0, 0)
    else (minOf (records.map RawRecord.lsn), maxOf (records.map RawRecord.lsn), minOf (records.map RawRecord.hlc),
      maxOf (records.map RawRecord.hlc))

def IsIntact (file : Bytes) : Prop := ∃ header records tail footer, Intact file header records tail footer

/-- Behind the whole records in front of it stands a complete footer, or what spells its magic. -/
def ReachesFooter (file : Bytes) : Prop :=
  ∃ records tail, file.drop fileHeaderLen = encodeRecords records ++ tail ∧ (∀ r ∈ records, r.Wide) ∧
    tail.take 4 = footerMagic ∧ footerLen ≤ tail.length

/-- The file opens as a PACKED segment, and all its blocks are read. -/
def ReadsPacked (file : Bytes) (maxBlockBytes : Nat) : Prop :=
  ∃ reader, PackedSegmentReader.open (fileSource file) maxBlockBytes = .ok reader ∧
    ∀ i < reader.directory.length, ∃ x, (reader.readBlock codecs i .zero).1 = .ok x

theorem validateRawFooter_ok {footer : FooterV6} {records : List RawRecord} (h : validateRawFooter footer records = .ok ()) :
    footer.recordCount = records.length ∧ (footer.minLsn, footer.maxLsn, footer.minHlc, footer.maxHlc)
      = if records = [] then (0, 0, 0, 0) else (minOf (records.map RawRecord.lsn), maxOf (records.map RawRecord.lsn),
        minOf (records.map RawRecord.hlc), maxOf (records.map RawRecord.hlc)) := by
  unfold validateRawFooter at h
  dsimp only at h
  obtain ⟨-, h⟩ := guard_eq_ok.1 h
  obtain ⟨hcount, h⟩ := guard_eq_ok.1 h
  refine ⟨not_not.1 hcount, ?_⟩
  by_cases hnil : records = []
  · rw [if_pos hnil] at h ⊢
    obtain ⟨hzero, -⟩ := guard_eq_ok.1 h
    simp only [not_or, not_not] at hzero
    obtain ⟨h1, h2, h3, h4⟩ := hzero
    rw [h1, h2, h3, h4]
  · rw [if_neg hnil] at h ⊢
    exact not_not.1 (guard_eq_ok.1 h).1

/-- What is refused in front of its end is a footer that was reached. -/
theorem scanRecords_error : ∀ (fuel : Nat) {rest : Bytes} {pos : Nat} {done : List RawRecord} {e : HeraclitusError},
    scanRecords fuel rest pos done = .error e → ∃ rs tail, rest = encodeRecords rs ++ tail ∧ (∀ r ∈ rs, r.Wide) ∧
      tail.take 4 = footerMagic ∧ footerLen ≤ tail.length
  | 0, _, _, _, _, h => by cases h
  | fuel + 1, rest, pos, done, e, h => by
    rw [scanRecords] at h
    split at h
    · cases h
    · cases hdecode : decodeRawRecord rest with
      | record lsn hlc payload total =>
        rw [hdecode] at h
        obtain ⟨hwide, -, hrest⟩ := decodeRawRecord_sound hdecode
        obtain ⟨rs, tail, hsplit, hall, hend⟩ := scanRecords_error fuel h
        refine ⟨{ lsn := lsn, hlc := hlc, payload := payload } :: rs, tail, ?_, ?_, hend⟩
        · rw [encodeRecords_cons, List.append_assoc, ← hsplit]
          exact hrest
        · intro r hr
          rcases List.mem_cons.1 hr with rfl | hr
          · exact hwide
          · exact hall r hr
      | footer f =>
        obtain ⟨hmagic, hf⟩ := decodeRawRecord_eq_footer hdecode
        unfold FooterV6.decode at hf
        exact ⟨[], rest, rfl, fun r hr => absurd hr List.not_mem_nil, hmagic, Nat.not_lt.1 (guard_eq_ok.1 hf).1⟩
      | torn =>
        rw [hdecode] at h
        dsimp only at h
        split at h
        · rename_i hcomplete
          exact ⟨[], rest, rfl, fun r hr => absurd hr List.not_mem_nil, hcomplete⟩
        · cases h

/-- A scan that comes to where a footer stands does not end without one. -/
theorem footer_of_reaches {file : Bytes} (h : ReachesFooter file) {scan : RawScan} (hscan : scanRawBytes file = .ok scan) :
    scan.footer.isSome = true := by
  obtain ⟨rs, tail, hdrop, hwide, hmagic, hlen⟩ := h
  have hne : tail ≠ [] := by
    rintro rfl
    exact absurd hlen (by decide)
  have hcount := length_le_sizes rs
  have hlength := congrArg List.length hdrop
  rw [List.length_drop, List.length_append, length_encodeRecords] at hlength
  obtain ⟨fuel, hfuel⟩ : ∃ n, file.length = n + 1 + rs.length := ⟨file.length - rs.length - 1, by
    simp only [footerLen] at hlen
    omega⟩
  unfold scanRawBytes at hscan
  split at hscan
  · cases hscan
  · split at hscan
    · cases hscan
    · rw [hdrop, hfuel, scanRecords_records tail (fuel + 1) rs _ _ hwide, scanRecords, if_neg hne, decodeRawRecord,
        if_pos hmagic] at hscan
      cases hf : FooterV6.decode tail with
      | error e =>
        rw [hf] at hscan
        dsimp only at hscan
        rw [if_pos ⟨hmagic, hlen⟩] at hscan
        cases hscan
      | ok f =>
        rw [hf] at hscan
        dsimp only at hscan
        by_cases hend : tail.length = footerLen
        · rw [if_neg (fun hne => hne hend)] at hscan
          cases hvalid : validateRawFooter f ([] ++ rs) with
          | error e =>
            rw [hvalid] at hscan
            cases hscan
          | ok u =>
            rw [hvalid] at hscan
            cases hscan
            rfl
        · rw [if_pos hend] at hscan
          cases hscan

/-- **A scan that is accepted found a footer just where one is reached.** -/
theorem reaches_iff {file : Bytes} {scan : RawScan} (hscan : scanRawBytes file = .ok scan) :
    ReachesFooter file ↔ scan.footer.isSome = true := by
  refine ⟨fun h => footer_of_reaches h hscan, fun hsome => ?_⟩
  obtain ⟨hraw, hwide, tail, hfile, hend⟩ := scanRawBytes_sound hscan
  have hdrop : file.drop fileHeaderLen = encodeRecords scan.records ++ tail := by
    conv_lhs => rw [hfile]
    exact List.drop_left' (FileHeaderV6.length_encode hraw.wide.storageNamespaceId)
  generalize scan.footer = footer at hend hsome
  generalize scan.tornAt = tornAt at hend
  cases hend with
  | clean => cases hsome
  | torn _ => cases hsome
  | footer hlen hmagic _ _ => exact ⟨scan.records, tail, hdrop, hwide, hmagic, Nat.le_of_eq hlen.symm⟩

/-- **A footer that a scan found** seals an undamaged segment. -/
theorem intact_of_footer {file : Bytes} {scan : RawScan} (hscan : scanRawBytes file = .ok scan)
    (hsome : scan.footer.isSome = true) : IsIntact file := by
  obtain ⟨hraw, hwide, tail, hfile, hend⟩ := scanRawBytes_sound hscan
  have hheader : FileHeaderV6.decode file = .ok scan.header := by
    rw [hfile]
    exact FileHeaderV6.decode_encode hraw.wide _
  generalize scan.footer = footer at hend hsome
  generalize scan.tornAt = tornAt at hend
  cases hend with
  | clean => cases hsome
  | torn _ => cases hsome
  | @footer _ f hlen _ hf hvalid =>
    obtain ⟨hcount, hranges⟩ := validateRawFooter_ok hvalid
    exact ⟨scan.header, scan.records, tail, f, hraw.layout, hheader, hfile, hwide, hlen, hf, hcount, hranges⟩

theorem reaches_of_intact {file : Bytes} (h : IsIntact file) : ReachesFooter file := by
  obtain ⟨header, records, tail, footer, h⟩ := h
  have hwide := FileHeaderV6.wide_of_decode h.headerDecodes
  refine ⟨records, tail, ?_, h.recordsWide, ?_, Nat.le_of_eq h.atEnd.symm⟩
  · conv_lhs => rw [h.gapless]
    exact List.drop_left' (FileHeaderV6.length_encode hwide.storageNamespaceId)
  · have hf := h.footerDecodes
    unfold FooterV6.decode at hf
    dsimp only at hf
    have hmagic := not_not.1 (guard_eq_ok.1 (guard_eq_ok.1 hf).2).1
    rwa [List.take_take, Nat.min_eq_left (by decide)] at hmagic

/-- **A RAW file whose scan is refused came to a footer.** -/
theorem reaches_of_error {file : Bytes} {header : FileHeaderV6} (hheader : FileHeaderV6.decode file = .ok header)
    (hraw : header.physicalLayout = .raw) {e : HeraclitusError} (h : scanRawBytes file = .error e) : ReachesFooter file := by
  unfold scanRawBytes at h
  rw [hheader] at h
  dsimp only at h
  rw [if_neg (fun hne => hne hraw)] at h
  split at h
  · rename_i hrecords
    exact scanRecords_error _ hrecords
  · cases h

theorem readBlock_fst (reader : PackedSegmentReader) (i : Nat) (counters : ScanCounters) :
    (reader.readBlock codecs i counters).1 = (reader.readBlock codecs i .zero).1 := by
  unfold PackedSegmentReader.readBlock
  split
  · rfl
  · dsimp only
    split
    · rfl
    · split
      · rfl
      · split
        · rfl
        · split <;> rfl

theorem readBlocks_fst (reader : PackedSegmentReader) : ∀ (blocks : List Nat) (counters : ScanCounters),
    (readBlocks codecs reader blocks counters).1 = true ↔ ∀ i ∈ blocks, ∃ x, (reader.readBlock codecs i .zero).1 = .ok x
  | [], counters => by simp [readBlocks]
  | i :: blocks, counters => by
    have hfst := readBlock_fst codecs reader i counters
    rw [readBlocks, List.forall_mem_cons]
    cases hread : reader.readBlock codecs i counters with
    | mk result counters' =>
      rw [hread] at hfst
      cases result with
      | ok x =>
        dsimp only
        rw [readBlocks_fst reader blocks counters']
        exact ⟨fun h => ⟨⟨x, hfst.symm⟩, h⟩, And.right⟩
      | error e =>
        refine ⟨fun h => absurd h Bool.false_ne_true, fun h => ?_⟩
        obtain ⟨x, hx⟩ := h.1
        rw [← hfst] at hx
        cases hx

/-- Does a verification at the `Physical` level report that all is well? -/
def PhysicallyOk (file : Bytes) (maxBlockBytes : Nat) (hasher : Option CanonicalHasher) : Prop :=
  ∃ report, verifySegment codecs blake3 file .physical maxBlockBytes hasher = .ok report ∧ report.isOk = true

section Physical

variable {file : Bytes} {maxBlockBytes : Nat} {hasher : Option CanonicalHasher} {header : FileHeaderV6}

theorem physicallyOk_raw (hheader : FileHeaderV6.decode file = .ok header) (hraw : header.physicalLayout = .raw) :
    PhysicallyOk codecs blake3 file maxBlockBytes hasher ↔ ∃ scan, scanRawBytes file = .ok scan := by
  have hverify : verifySegment codecs blake3 file .physical maxBlockBytes hasher = verifyRaw blake3 file .physical hasher := by
    rw [verifySegment, readHead_of_decode hheader, hraw]
    rfl
  unfold PhysicallyOk
  rw [hverify, verifyRaw]
  cases scanRawBytes file with
  | error e =>
    constructor
    · rintro ⟨report, hreport, -⟩
      cases hreport
    · rintro ⟨scan, hscan⟩
      cases hscan
  | ok scan => exact ⟨fun _ => ⟨scan, rfl⟩, fun _ => ⟨_, rfl, rfl⟩⟩

theorem physicallyOk_packed (hheader : FileHeaderV6.decode file = .ok header) (hpacked : header.physicalLayout = .packed) :
    PhysicallyOk codecs blake3 file maxBlockBytes hasher ↔ ReadsPacked codecs file maxBlockBytes := by
  have hverify : verifySegment codecs blake3 file .physical maxBlockBytes hasher
      = verifyPacked codecs blake3 file .physical maxBlockBytes hasher := by
    rw [verifySegment, readHead_of_decode hheader, hpacked]
    rfl
  unfold PhysicallyOk ReadsPacked
  rw [hverify, verifyPacked]
  cases PackedSegmentReader.open (fileSource file) maxBlockBytes with
  | error e =>
    constructor
    · rintro ⟨report, hreport, -⟩
      cases hreport
    · rintro ⟨reader, hreader, -⟩
      cases hreader
  | ok reader =>
    have hblocks := readBlocks_fst codecs reader (List.range reader.directory.length) .zero
    simp only [List.mem_range] at hblocks
    constructor
    · rintro ⟨report, hreport, hok⟩
      cases hreport
      refine ⟨reader, rfl, hblocks.1 ?_⟩
      simpa [VerifyReport.isOk] using hok
    · rintro ⟨_, hreader, hall⟩
      cases hreader
      refine ⟨_, rfl, ?_⟩
      simpa [VerifyReport.isOk] using hblocks.2 hall

theorem not_physicallyOk_of_error {e : HeraclitusError} (hheader : FileHeaderV6.decode file = .error e) :
    ¬PhysicallyOk codecs blake3 file maxBlockBytes hasher := by
  rintro ⟨report, hreport, -⟩
  rw [verifySegment, readHead] at hreport
  split at hreport
  · cases hreport
  · rename_i hlen
    rw [FileHeaderV6.decode_take (Nat.not_lt.1 hlen), hheader] at hreport
    cases hreport

end Physical

/-- **What a physical verification shows, exactly**: where it reports ok the segment is undamaged, unless the bytes behind the
whole records in front are no complete footer; a file that says it is PACKED is judged as one. -/
theorem physical_sound_iff (file : Bytes) (maxBlockBytes : Nat) (hasher : Option CanonicalHasher) :
    (PhysicallyOk codecs blake3 file maxBlockBytes hasher → IsIntact file) ↔
      ∀ header, FileHeaderV6.decode file = .ok header → (header.physicalLayout = .raw → ReachesFooter file) ∧
        (header.physicalLayout = .packed → ¬ReadsPacked codecs file maxBlockBytes) := by
  cases hheader : FileHeaderV6.decode file with
  | error e =>
    refine ⟨fun _ header h => ?_, fun _ hok => absurd hok (not_physicallyOk_of_error codecs blake3 hheader)⟩
    cases h
  | ok header =>
    cases hlayout : header.physicalLayout with
    | raw =>
      rw [physicallyOk_raw codecs blake3 hheader hlayout]
      constructor
      · intro hsound header' h
        cases h
        refine ⟨fun _ => ?_, fun hpacked => ?_⟩
        · cases hscan : scanRawBytes file with
          | error e => exact reaches_of_error hheader hlayout hscan
          | ok scan => exact reaches_of_intact (hsound ⟨scan, hscan⟩)
        · rw [hlayout] at hpacked
          cases hpacked
      · rintro hreaches ⟨scan, hscan⟩
        exact intact_of_footer hscan (footer_of_reaches ((hreaches header rfl).1 hlayout) hscan)
    | packed =>
      rw [physicallyOk_packed codecs blake3 hheader hlayout]
      have hnot : ¬IsIntact file := by
        rintro ⟨header', records, tail, footer, h⟩
        have hsame := h.headerDecodes
        rw [hheader] at hsame
        cases hsame
        rw [h.layout] at hlayout
        cases hlayout
      constructor
      · intro hsound header' h
        cases h
        refine ⟨fun hraw => ?_, fun _ hreads => hnot (hsound hreads)⟩
        rw [hlayout] at hraw
        cases hraw
      · exact fun hcond hreads => absurd hreads ((hcond header rfl).2 hlayout)

set_option maxRecDepth 20000 in
/-- **A damaged segment that passes**: one byte of the first payload of a sealed segment is changed. -/
theorem damage_is_not_seen : ∃ s, (OpenSegment.create twinInit).appendAll twinBlake3 sparse = .ok s ∧
    IsIntact (s.seal twinBlake3).2 ∧ (s.seal twinBlake3).2[88]? = some 1 ∧
    PhysicallyOk literalCodecs twinBlake3 ((s.seal twinBlake3).2.set 88 0) (2 ^ 20) none ∧
    ¬IsIntact ((s.seal twinBlake3).2.set 88 0) := by
  have hdata : (((OpenSegment.create twinInit).appendAll twinBlake3 sparse).toOption).bind (fun s =>
      (scanRawBytes (s.seal twinBlake3).2).toOption.bind (fun scan =>
        (scanRawBytes ((s.seal twinBlake3).2.set 88 0)).toOption.map (fun damaged =>
          (scan.footer.isSome, (s.seal twinBlake3).2[88]?, damaged.footer.isSome)))) = some (true, some 1, false) := by
    decide +kernel
  obtain ⟨s, hs, hrest⟩ := Option.bind_eq_some_iff.1 hdata
  obtain ⟨scan, hscan, hrest⟩ := Option.bind_eq_some_iff.1 hrest
  obtain ⟨damaged, hdamaged, hout⟩ := Option.map_eq_some_iff.1 hrest
  have hscan := Except.toOption_eq_some hscan
  have hdamaged := Except.toOption_eq_some hdamaged
  have hnone : damaged.footer.isSome = false := congrArg (fun x => x.2.2) hout
  obtain ⟨hheader, hlayout, -, -⟩ := scanRawBytes_wide hdamaged
  refine ⟨s, Except.toOption_eq_some hs, intact_of_footer hscan (congrArg Prod.fst hout), congrArg (fun x => x.2.1) hout,
    (physicallyOk_raw literalCodecs twinBlake3 hheader hlayout).2 ⟨damaged, hdamaged⟩, fun hintact => ?_⟩
  rw [(reaches_iff hdamaged).1 (reaches_of_intact hintact)] at hnone
  cases hnone

end Verify

end V6
end Heraclitus
