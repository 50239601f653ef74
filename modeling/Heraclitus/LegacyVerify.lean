import Heraclitus.LegacyOpen
import Heraclitus.LegacyLogRun
/-!
# LegacyVerify — what `verify` accepts (`Log::verify`, `Log::verify_segment`)

`verify` scans every segment file and compares roots.  Whether a segment is sealed it takes from the scan, not from the
catalog, so a file whose scan stops before the footer is not compared with anything.
-/
namespace Heraclitus
namespace Legacy

variable (env : Env)

/-- `{:020}`. -/
def paddedId (id : Nat) : Str :=
  let digits := (toString id).toList
  List.replicate (20 - digits.length) '0' ++ digits

/-- The name of a segment's file, which is the end of its path. -/
def segmentPath (id : Nat) : String := String.ofList (paddedId id ++ ".hrkl".toList)

structure VerifyReport where
  segments : Nat
  sealedSegments : Nat
  records : Nat
  merkleOk : Nat
  deriving DecidableEq

structure SegmentVerifyReport where
  id : Nat
  version : Nat
  isSealed : Bool
  records : Nat
  baseLsn : Nat
  maxLsn : Nat
  computedRoot : Digest
  storedRoot : Option Digest
  valid : Bool
  deriving DecidableEq

/-- The scan of the file of segment `id`, with leaf hashes. -/
def Log.scanSegmentOf (log : Log) (id : Nat) : Except HeraclitusError SegmentScan :=
  match log.dir.get? id with
  | none => .error (.storage "No such file or directory")
  | some file => scanSegmentFile env file true

/-- The first error in the order of the paths. -/
def Log.varrerParaVerificacao (log : Log) : List Nat → Except HeraclitusError (List (Nat × SegmentScan))
  | [] => .ok []
  | id :: ids =>
    match log.scanSegmentOf env id with
    | .error e => .error e
    | .ok scan =>
      match log.varrerParaVerificacao ids with
      | .error e => .error e
      | .ok scans => .ok ((id, scan) :: scans)

/-- One turn of the loop over the scans. -/
def VerifyReport.add (report : VerifyReport) (id : Nat) (scan : SegmentScan) : Except HeraclitusError VerifyReport :=
  let report := { report with segments := report.segments + 1, records := report.records + scan.locs.length }
  if scan.isSealed then
    let report := { report with sealedSegments := report.sealedSegments + 1 }
    match scan.blake3Root with
    | some stored =>
      if stored = merkleRoot env.toHashes scan.recordHashes then .ok { report with merkleOk := report.merkleOk + 1 }
      else .error (.corruption (segmentPath id)
        "Mismatch catastrófico detectado na raiz Merkle permanente do rodapé")
    | none => .ok report
  else .ok report

def VerifyReport.addAll (report : VerifyReport) : List (Nat × SegmentScan) → Except HeraclitusError VerifyReport
  | [] => .ok report
  | (id, scan) :: scans =>
    match report.add env id scan with
    | .error e => .error e
    | .ok report => report.addAll scans

/-- The sealed segments of the catalog and then the active one. -/
def LogCatalog.containers (catalog : LogCatalog) : List SegmentContainer := catalog.sealedSegments ++ [catalog.active]

def Log.verify (log : Log) : Except HeraclitusError VerifyReport :=
  match log.varrerParaVerificacao env (log.catalog.containers.map (·.id)) with
  | .error e => .error e
  | .ok scans => VerifyReport.addAll env { segments := 0, sealedSegments := 0, records := 0, merkleOk := 0 } scans

def Log.verifySegment (log : Log) (id : Nat) : Except HeraclitusError (Option SegmentVerifyReport) :=
  match log.catalog.containers.find? (·.id = id) with
  | none => .ok none
  | some container =>
    match log.scanSegmentOf env id with
    | .error e => .error e
    | .ok scan =>
      let computedRoot := merkleRoot env.toHashes scan.recordHashes
      let storedRoot := scan.blake3Root.or container.blake3Root
      .ok (some {
        id := id, version := scan.version, isSealed := container.isSealed, records := scan.locs.length,
        baseLsn := container.baseLsn, maxLsn := scan.maxLsn.getD container.baseLsn, computedRoot := computedRoot,
        storedRoot := storedRoot,
        valid := !scan.corruptionDetected && storedRoot.elim (!container.isSealed) (· == computedRoot) })

/-! ## When `verify` returns -/

/-- What `verify` asks of a scan. -/
def SegmentScan.Rooted (scan : SegmentScan) : Prop :=
  scan.isSealed = true → ∀ stored, scan.blake3Root = some stored → stored = merkleRoot env.toHashes scan.recordHashes

/-- `verify` does not object to the file of segment `id`. -/
def Log.Passes (log : Log) (id : Nat) : Prop := ∃ scan, log.scanSegmentOf env id = .ok scan ∧ scan.Rooted env

variable {env}

theorem VerifyReport.add_isOk_iff (report : VerifyReport) (id : Nat) (scan : SegmentScan) :
    (∃ r, report.add env id scan = .ok r) ↔ scan.Rooted env := by
  unfold VerifyReport.add SegmentScan.Rooted
  cases hsealed : scan.isSealed with
  | false => simp
  | true =>
    cases hroot : scan.blake3Root with
    | none => simp
    | some stored =>
      by_cases heq : stored = merkleRoot env.toHashes scan.recordHashes
      · simp [heq]
      · simp [heq]

theorem VerifyReport.addAll_isOk_iff : ∀ (scans : List (Nat × SegmentScan)) (report : VerifyReport),
    (∃ r, report.addAll env scans = .ok r) ↔ ∀ p ∈ scans, p.2.Rooted env
  | [], report => by simp [VerifyReport.addAll]
  | (id, scan) :: scans, report => by
    rw [List.forall_mem_cons, ← report.add_isOk_iff id scan, VerifyReport.addAll]
    cases hadd : report.add env id scan with
    | error e => simp
    | ok next => exact (addAll_isOk_iff scans next).trans (by simp)

variable (env) in
theorem Log.verify_isOk_from (log : Log) : ∀ (ids : List Nat) (report : VerifyReport),
    (∃ scans, log.varrerParaVerificacao env ids = .ok scans ∧ ∃ r, report.addAll env scans = .ok r) ↔
      ∀ id ∈ ids, log.Passes env id
  | [], report => by simp [varrerParaVerificacao, VerifyReport.addAll]
  | id :: ids, report => by
    rw [List.forall_mem_cons, ← log.verify_isOk_from ids report, Passes, varrerParaVerificacao]
    cases hscan : log.scanSegmentOf env id with
    | error e => simp
    | ok scan =>
      cases hrest : log.varrerParaVerificacao env ids with
      | error e => simp
      | ok scans =>
        have hsplit : (∃ r, report.addAll env ((id, scan) :: scans) = .ok r) ↔
            scan.Rooted env ∧ ∃ r, report.addAll env scans = .ok r := by
          rw [VerifyReport.addAll_isOk_iff, VerifyReport.addAll_isOk_iff, List.forall_mem_cons]
        simp [hsplit]

/-- `verify` returns exactly when no segment file makes it object. -/
theorem Log.verify_isOk_iff (log : Log) :
    (∃ report, log.verify env = .ok report) ↔ ∀ c ∈ log.catalog.containers, log.Passes env c.id := by
  have h := log.verify_isOk_from env (log.catalog.containers.map (·.id))
    { segments := 0, sealedSegments := 0, records := 0, merkleOk := 0 }
  rw [List.forall_mem_map] at h
  rw [← h, Log.verify]
  cases log.varrerParaVerificacao env (log.catalog.containers.map (·.id)) with
  | error e => simp
  | ok scans => simp

/-! ## What a file holds, record by record -/

/-- A record where a reader finds it. -/
structure Found where
  lsn : Nat
  bytes : Bytes

variable (env)

/-- `bytes` begins with the record `r`, which may follow a record under LSN `last`; `rest` is behind it. -/
structure NextRecord (version : Nat) (last : Option Nat) (bytes : Bytes) (r : Found) (rest : Bytes) : Prop where
  split : bytes = r.bytes ++ rest
  decodes : ∃ hlc payload opaqueMeta, decodeRecord env.toHashes version bytes = .record r.lsn hlc payload r.bytes.length ∧
    env.decodeMeta version payload = .ok opaqueMeta
  grows : ∀ l ∈ last, l < r.lsn

/-- `bytes` is the records `rs` and then `rest`. -/
inductive Reads (version : Nat) : Option Nat → Bytes → List Found → Bytes → Prop
  | done (last : Option Nat) (bytes : Bytes) : Reads version last bytes [] bytes
  | record {last : Option Nat} {bytes rest rest' : Bytes} {r : Found} {rs : List Found} :
    NextRecord env version last bytes r rest → Reads version (some r.lsn) rest rs rest' →
      Reads version last bytes (r :: rs) rest'

def lastLsn : Option Nat → List Found → Option Nat
  | last, [] => last
  | _, r :: rs => lastLsn (some r.lsn) rs

inductive Ending where
  | quiet
  | failing (e : HeraclitusError)
  | footer (f : SegmentFooter)

/-- What stands behind the records. -/
inductive EndsWith (version : Nat) (last : Option Nat) (rest : Bytes) : Ending → Prop
  /-- Nothing that decodes. -/
  | torn : decodeRecord env.toHashes version rest = .torn → EndsWith version last rest .quiet
  /-- A record whose LSN is not above the last one. -/
  | repeated {lsn hlc n l : Nat} {payload : Bytes} : decodeRecord env.toHashes version rest = .record lsn hlc payload n →
    last = some l → lsn ≤ l → EndsWith version last rest .quiet
  /-- A record whose payload does not begin with its metadata. -/
  | failing {lsn hlc n : Nat} {payload : Bytes} {e : HeraclitusError} :
    decodeRecord env.toHashes version rest = .record lsn hlc payload n → (∀ l ∈ last, l < lsn) →
    env.decodeMeta version payload = .error e → EndsWith version last rest (.failing e)
  | footer {f : SegmentFooter} : decodeRecord env.toHashes version rest = .footer f →
    EndsWith version last rest (.footer f)

/-- The file is a header of `version`, the records `rs`, and `rest`, which is `ending`. -/
structure Holds (file : Bytes) (version : Nat) (rs : List Found) (rest : Bytes) (ending : Ending) : Prop where
  header : ∃ h, SegmentHeader.decode (file.take headerLen) = .ok h ∧ h.version = version
  records : Reads env version none (file.drop headerLen) rs rest
  ends : EndsWith env version (lastLsn none rs) rest ending

/-- The footer ends the file and says what the records are. -/
structure SegmentFooter.Agrees (f : SegmentFooter) (rs : List Found) (rest : Bytes) : Prop where
  last : rest.length = footerLen
  recordCount : rs.length = f.recordCount
  minLsn : ∀ r ∈ rs.head?, r.lsn = f.minLsn
  maxLsn : ∀ r ∈ rs.getLast?, r.lsn = f.maxLsn
  consecutive : rs.IsChain (fun r q => q.lsn = r.lsn + 1)

/-- The Merkle root of records. -/
def rootOf (version : Nat) (rs : List Found) : Digest :=
  merkleRoot env.toHashes (rs.map (fun r => recordLeaf env.toHashes version r.bytes))

/-- A sealed file as it should be. -/
def Intact (file : Bytes) : Prop :=
  ∃ version rs rest f, Holds env file version rs rest (.footer f) ∧ f.Agrees rs rest ∧ rootOf env version rs = f.blake3Root

/-- The scan of the file ends without an error, and not at a footer that agrees with the records. -/
def QuietEnd (file : Bytes) : Prop :=
  file.length < headerLen ∨ ∃ version rs rest,
    Holds env file version rs rest .quiet ∨ ∃ f, Holds env file version rs rest (.footer f) ∧ ¬f.Agrees rs rest

/-- The header cannot be read, a record has no metadata, or the footer has another root. -/
def Loud (file : Bytes) : Prop :=
  headerLen ≤ file.length ∧ (∃ e, SegmentHeader.decode (file.take headerLen) = .error e) ∨ ∃ version rs rest,
    (∃ e, Holds env file version rs rest (.failing e)) ∨
      ∃ f, Holds env file version rs rest (.footer f) ∧ rootOf env version rs ≠ f.blake3Root

variable {env}

theorem NextRecord.unique {version : Nat} {last : Option Nat} {bytes rest rest' : Bytes} {r r' : Found}
    (h : NextRecord env version last bytes r rest) (h' : NextRecord env version last bytes r' rest') :
    r = r' ∧ rest = rest' := by
  obtain ⟨hlc, payload, _, hdecode, _⟩ := h.decodes
  obtain ⟨hlc', payload', _, hdecode', _⟩ := h'.decodes
  rw [hdecode] at hdecode'
  injection hdecode' with hlsn _ _ hlen
  have hsplit := List.append_inj (h.split.symm.trans h'.split) hlen
  cases r
  cases r'
  cases hlsn
  cases hsplit.1
  exact ⟨rfl, hsplit.2⟩

/-- Behind the last record there is no further one. -/
theorem EndsWith.no_record {version : Nat} {last : Option Nat} {rest bytes : Bytes} {r : Found} {ending : Ending}
    (h : EndsWith env version last bytes ending) : ¬NextRecord env version last bytes r rest := by
  intro hnext
  obtain ⟨hlc, payload, _, hdecode, hmeta⟩ := hnext.decodes
  cases h with
  | torn h => exact Decoded.noConfusion (h.symm.trans hdecode)
  | repeated h hlast hle =>
    cases h.symm.trans hdecode
    exact Nat.not_lt.2 hle (hnext.grows _ hlast)
  | failing h _ herr =>
    cases h.symm.trans hdecode
    cases herr.symm.trans hmeta
  | footer h => exact Decoded.noConfusion (h.symm.trans hdecode)

theorem EndsWith.unique {version : Nat} {last : Option Nat} {rest : Bytes} {ending ending' : Ending}
    (h : EndsWith env version last rest ending) (h' : EndsWith env version last rest ending') : ending = ending' := by
  cases h with
  | torn h => cases h' <;> simp_all
  | repeated h hlast hle => cases h' <;> simp_all; omega
  | failing h hgrows herr => cases h' <;> simp_all; omega
  | footer h => cases h' <;> simp_all

/-- **A file is read in one way only.** -/
theorem Reads.unique {version : Nat} {last : Option Nat} {bytes rest rest' : Bytes} {rs rs' : List Found}
    {ending ending' : Ending} (h : Reads env version last bytes rs rest) (h' : Reads env version last bytes rs' rest')
    (he : EndsWith env version (lastLsn last rs) rest ending) (he' : EndsWith env version (lastLsn last rs') rest' ending') :
    rs = rs' ∧ rest = rest' := by
  induction h generalizing rs' with
  | done last bytes =>
    cases h' with
    | done => exact ⟨rfl, rfl⟩
    | record hnext _ => exact absurd hnext he.no_record
  | record hnext _ ih =>
    cases h' with
    | done => exact absurd hnext he'.no_record
    | record hnext' hreads' =>
      obtain ⟨rfl, rfl⟩ := hnext.unique hnext'
      obtain ⟨rfl, rfl⟩ := ih hreads' he he'
      exact ⟨rfl, rfl⟩

theorem Holds.unique {file rest rest' : Bytes} {version version' : Nat} {rs rs' : List Found} {ending ending' : Ending}
    (h : Holds env file version rs rest ending) (h' : Holds env file version' rs' rest' ending') :
    version = version' ∧ rs = rs' ∧ rest = rest' ∧ ending = ending' := by
  obtain ⟨header, hheader, rfl⟩ := h.header
  obtain ⟨header', hheader', rfl⟩ := h'.header
  cases hheader.symm.trans hheader'
  obtain ⟨rfl, rfl⟩ := h.records.unique h'.records h.ends h'.ends
  exact ⟨rfl, rfl, rfl, h.ends.unique h'.ends⟩

/-! ## The scan finds it -/

theorem footer_decode_take {bytes : Bytes} (h : footerLen ≤ bytes.length) :
    SegmentFooter.decode (bytes.take footerLen) = SegmentFooter.decode bytes := by
  have hlen : (bytes.take footerLen).length = footerLen := List.length_take_of_le h
  have hfield : ∀ i n, i + n ≤ footerLen → ((bytes.take footerLen).drop i).take n = (bytes.drop i).take n := fun i n hle => by
    rw [List.drop_take, List.take_take, Nat.min_eq_left (by omega)]
  have hmagic := hfield 0 4 (by decide)
  rw [List.drop_zero, List.drop_zero] at hmagic
  unfold SegmentFooter.decode
  rw [hlen, hmagic, hfield 4 8 (by decide), hfield 12 8 (by decide), hfield 20 8 (by decide), hfield 28 32 (by decide)]
  simp [Nat.not_lt.2 h]

variable {H : Hashes} {version : Nat} {bytes : Bytes}

theorem decodeRecord_eq_footer {f : SegmentFooter} (h : decodeRecord H version bytes = .footer f) :
    bytes.take 4 = footerMagic ∧ footerLen ≤ bytes.length ∧ SegmentFooter.decode bytes = some f := by
  unfold decodeRecord at h
  by_cases hmagic : bytes.take 4 = footerMagic
  · rw [if_pos hmagic] at h
    cases hdecode : SegmentFooter.decode bytes with
    | none =>
      rw [hdecode] at h
      cases h
    | some g =>
      rw [hdecode] at h
      cases h
      unfold SegmentFooter.decode at hdecode
      by_cases hshort : bytes.length < footerLen
      · rw [if_pos (.inl hshort)] at hdecode
        cases hdecode
      · exact ⟨hmagic, Nat.not_lt.1 hshort, rfl⟩
  · rw [if_neg hmagic] at h
    dsimp only at h
    split_ifs at h

theorem decodeRecord_eq_record {lsn hlc n : Nat} {payload : Bytes}
    (h : decodeRecord H version bytes = .record lsn hlc payload n) :
    bytes.take 4 ≠ footerMagic ∧ leNat (bytes.take 4) ≤ maxPayloadLen ∧ n = recordHeaderLen + leNat (bytes.take 4) ∧
      n ≤ bytes.length := by
  unfold decodeRecord at h
  by_cases hmagic : bytes.take 4 = footerMagic
  · rw [if_pos hmagic] at h
    cases hdecode : SegmentFooter.decode bytes <;> rw [hdecode] at h <;> cases h
  · rw [if_neg hmagic] at h
    dsimp only at h
    split_ifs at h with hshort hlong htotal hcrc
    cases h
    exact ⟨hmagic, Nat.not_lt.1 hlong, rfl, Nat.not_lt.1 htotal⟩

/-- Only a record's own bytes decide how it decodes. -/
theorem decodeRecord_take (hmagic : bytes.take 4 ≠ footerMagic) (hmax : leNat (bytes.take 4) ≤ maxPayloadLen)
    (hlen : recordHeaderLen + leNat (bytes.take 4) ≤ bytes.length) :
    decodeRecord H version (bytes.take (recordHeaderLen + leNat (bytes.take 4))) = decodeRecord H version bytes := by
  have hpos : recordHeaderLen = 24 := rfl
  have hlength : (bytes.take (recordHeaderLen + leNat (bytes.take 4))).length = recordHeaderLen + leNat (bytes.take 4) :=
    List.length_take_of_le hlen
  have hfield : ∀ i n, i + n ≤ recordHeaderLen →
      ((bytes.take (recordHeaderLen + leNat (bytes.take 4))).drop i).take n = (bytes.drop i).take n := fun i n hle => by
    rw [List.drop_take, List.take_take, Nat.min_eq_left (by omega)]
  have hfour := hfield 0 4 (by decide)
  rw [List.drop_zero, List.drop_zero] at hfour
  have hlong : ¬maxPayloadLen < leNat (bytes.take 4) := Nat.not_lt.2 hmax
  have hshort : ¬recordHeaderLen + leNat (bytes.take 4) < recordHeaderLen := by omega
  have hshort' : ¬bytes.length < recordHeaderLen := by omega
  unfold decodeRecord
  dsimp only
  rw [hfour, if_neg hmagic, if_neg hmagic, hlength, if_neg hshort, if_neg hlong, if_neg (Nat.lt_irrefl _),
    if_neg hshort', if_neg hlong, if_neg (Nat.not_lt.2 hlen), hfield 4 4 (by decide), hfield 8 8 (by decide),
    hfield 16 8 (by decide), List.take_take, Nat.min_self]

/-- The scan has read the records `rs`. -/
structure ScanAt (env : Env) (file : Bytes) (version : Nat) (rs : List Found) (s : SegmentScan) : Prop where
  validLen : s.validLen ≤ file.length
  fileLen : s.fileLen = file.length
  recordHashes : s.recordHashes = rs.map (fun r => recordLeaf env.toHashes version r.bytes)
  locs : s.locs.length = rs.length
  minLsn : s.minLsn = rs.head?.map Found.lsn
  maxLsn : s.maxLsn = lastLsn none rs
  bounds : ∀ a ∈ s.minLsn, ∃ b ∈ s.maxLsn, a ≤ b
  isSealed : s.isSealed = false
  blake3Root : s.blake3Root = none
  version : s.version = version
  sound : s.corruptionDetected = false

theorem lastLsn_append (rs : List Found) (r : Found) : ∀ last, lastLsn last (rs ++ [r]) = some r.lsn := by
  induction rs with
  | nil => exact fun _ => rfl
  | cons q rs ih => exact fun _ => ih _

theorem ScanAt.record {file : Bytes} {rs : List Found} {s : SegmentScan} (h : ScanAt env file version rs s) {r : Found}
    {rest : Bytes} (hnext : NextRecord env version (lastLsn none rs) (file.drop s.validLen) r rest) (opaqueMeta : Bytes) :
    ScanAt env file version (rs ++ [r]) (s.record env true r.lsn r.bytes.length opaqueMeta r.bytes) := by
  have hlength := congrArg List.length hnext.split
  rw [List.length_drop, List.length_append] at hlength
  have hvalid := h.validLen
  have hgrows : ∀ b ∈ s.maxLsn, b < r.lsn := h.maxLsn ▸ hnext.grows
  have hmin : ∀ a ∈ s.minLsn, a ≤ r.lsn := fun a ha => by
    obtain ⟨b, hb, hle⟩ := h.bounds a ha
    exact Nat.le_trans hle (Nat.le_of_lt (hgrows b hb))
  have hmax : s.maxLsn.elim r.lsn (max · r.lsn) = r.lsn := by
    cases hb : s.maxLsn with
    | none => rfl
    | some b => exact Nat.max_eq_right (Nat.le_of_lt (hgrows b hb))
  refine ⟨?_, h.fileLen, ?_, ?_, ?_, ?_, ?_, h.isSealed, h.blake3Root, h.version, h.sound⟩
  · show s.validLen + r.bytes.length ≤ _
    omega
  · show s.recordHashes ++ [recordLeaf env.toHashes s.version r.bytes] = _
    rw [h.recordHashes, h.version, List.map_append]
    rfl
  · show (s.locs ++ [_]).length = _
    rw [List.length_append, List.length_append, h.locs]
    rfl
  · show some (s.minLsn.elim r.lsn (min · r.lsn)) = _
    cases ha : s.minLsn with
    | none =>
      rw [h.minLsn, Option.map_eq_none_iff, List.head?_eq_none_iff] at ha
      rw [ha]
      rfl
    | some a =>
      have hhead := h.minLsn.symm.trans ha
      rw [Option.map_eq_some_iff] at hhead
      obtain ⟨q, hq, rfl⟩ := hhead
      rw [List.head?_append, hq]
      exact congrArg some (Nat.min_eq_left (hmin _ ha))
  · show some (s.maxLsn.elim r.lsn (max · r.lsn)) = _
    rw [hmax, lastLsn_append]
  · intro a ha
    refine ⟨r.lsn, congrArg some hmax, ?_⟩
    cases hs : s.minLsn with
    | none =>
      have : some (s.minLsn.elim r.lsn (min · r.lsn)) = some a := ha
      rw [hs] at this
      cases this
      exact Nat.le_refl _
    | some b =>
      have : some (s.minLsn.elim r.lsn (min · r.lsn)) = some a := ha
      rw [hs] at this
      cases this
      exact Nat.min_le_right _ _

section Turn

variable {file : Bytes} {rs : List Found} {s : SegmentScan} (h : ScanAt env file version rs s) (fuel : Nat)
include h

/-- A turn over bytes that decode as a record. -/
theorem ScanAt.turn {lsn hlc n : Nat} {payload : Bytes}
    (hdecode : decodeRecord env.toHashes version (file.drop s.validLen) = .record lsn hlc payload n) :
    scanRecords env file true (fuel + 1) s
      = if s.maxLsn.any (lsn ≤ ·) then .ok s.corrupt
        else env.decodeMeta version payload >>= fun opaqueMeta => scanRecords env file true fuel
          (s.record env true lsn n opaqueMeta ((file.drop s.validLen).take n)) := by
  obtain ⟨hmagic, hmax, hn, hle⟩ := decodeRecord_eq_record hdecode
  have hpos : recordHeaderLen = 24 := rfl
  have htake : decodeRecord env.toHashes version ((file.drop s.validLen).take _) = _ :=
    decodeRecord_take hmagic hmax (hn ▸ hle)
  have hlength := List.length_drop (i := s.validLen) (l := file)
  have hfile := h.fileLen
  rw [scanRecords, if_neg (by omega)]
  dsimp only
  rw [if_neg (by omega), if_neg hmagic, if_neg (not_or.2 ⟨Nat.not_lt.2 hmax, by omega⟩), h.version, htake, hdecode]
  dsimp only
  rw [← hn, List.take_take, Nat.min_self]
  cases env.decodeMeta version payload <;> rfl

/-- Behind the last record the scan stops, and says so or not. -/
theorem ScanAt.quiet (hends : EndsWith env version (lastLsn none rs) (file.drop s.validLen) .quiet) :
    scanRecords env file true (fuel + 1) s = .ok s ∨ scanRecords env file true (fuel + 1) s = .ok s.corrupt := by
  cases hends with
  | repeated hdecode hlast hle =>
    rw [h.turn fuel hdecode, h.maxLsn, hlast]
    exact .inr (if_pos (decide_eq_true hle))
  | torn hdecode =>
    rw [scanRecords]
    by_cases hend : s.fileLen ≤ s.validLen
    · exact .inl (if_pos hend)
    · rw [if_neg hend]
      dsimp only
      by_cases hshort : (file.drop s.validLen).length < 4
      · exact .inl (if_pos hshort)
      · refine .inr ?_
        rw [if_neg hshort]
        by_cases hmagic : (file.drop s.validLen).take 4 = footerMagic
        · rw [if_pos hmagic]
          by_cases hfooter : (file.drop s.validLen).length < footerLen
          · exact if_pos hfooter
          · rw [if_neg hfooter, footer_decode_take (Nat.not_lt.1 hfooter)]
            cases hf : SegmentFooter.decode (file.drop s.validLen) with
            | none => rfl
            | some f => simp [decodeRecord, hmagic, hf] at hdecode
        · rw [if_neg hmagic]
          by_cases hlen : maxPayloadLen < leNat ((file.drop s.validLen).take 4) ∨
              s.fileLen < s.validLen + recordHeaderLen + leNat ((file.drop s.validLen).take 4)
          · exact if_pos hlen
          · have hlength := List.length_drop (i := s.validLen) (l := file)
            have hfile := h.fileLen
            obtain ⟨hmax, hle⟩ := not_or.1 hlen
            rw [if_neg hlen, h.version, decodeRecord_take hmagic (Nat.not_lt.1 hmax) (by omega), hdecode]

theorem ScanAt.failing {e : HeraclitusError}
    (hends : EndsWith env version (lastLsn none rs) (file.drop s.validLen) (.failing e)) :
    scanRecords env file true (fuel + 1) s = .error e := by
  cases hends with
  | failing hdecode hgrows herr =>
    rw [h.turn fuel hdecode, herr, if_neg]
    · rfl
    rw [h.maxLsn]
    cases hlast : lastLsn none rs with
    | none => simp
    | some l => simpa using hgrows l hlast

theorem ScanAt.footer {f : SegmentFooter}
    (hends : EndsWith env version (lastLsn none rs) (file.drop s.validLen) (.footer f)) :
    scanRecords env file true (fuel + 1) s = .ok (s.footer f) := by
  cases hends with
  | footer hdecode =>
    obtain ⟨hmagic, hlen, hf⟩ := decodeRecord_eq_footer hdecode
    have hlength := List.length_drop (i := s.validLen) (l := file)
    have hfile := h.fileLen
    have hpos : footerLen = 60 := rfl
    rw [scanRecords, if_neg (by omega)]
    dsimp only
    rw [if_neg (by omega), if_pos hmagic, if_neg (Nat.not_lt.2 hlen), footer_decode_take hlen, hf]

theorem ScanAt.next {r : Found} {rest : Bytes}
    (hnext : NextRecord env version (lastLsn none rs) (file.drop s.validLen) r rest) :
    ∃ s', ScanAt env file version (rs ++ [r]) s' ∧ file.drop s'.validLen = rest ∧
      scanRecords env file true (fuel + 1) s = scanRecords env file true fuel s' := by
  obtain ⟨hlc, payload, opaqueMeta, hdecode, hmeta⟩ := hnext.decodes
  have htake : (file.drop s.validLen).take r.bytes.length = r.bytes := by
    rw [hnext.split, List.take_left]
  refine ⟨_, h.record hnext opaqueMeta, ?_, ?_⟩
  · show file.drop (s.validLen + r.bytes.length) = rest
    rw [← List.drop_drop, hnext.split, List.drop_left]
  · rw [h.turn fuel hdecode, hmeta, if_neg, htake]
    · rfl
    rw [h.maxLsn]
    cases hlast : lastLsn none rs with
    | none => simp
    | some l => simpa using hnext.grows l hlast

end Turn

/-- What the scan returns from `s` on, where only an ending is left. -/
def Ending.Gives (s : SegmentScan) (result : Except HeraclitusError SegmentScan) : Ending → Prop
  | .quiet => result = .ok s ∨ result = .ok s.corrupt
  | .failing e => result = .error e
  | .footer f => result = .ok (s.footer f)

variable (env version) in
theorem exists_next_or_end (last : Option Nat) (bytes : Bytes) :
    (∃ r rest, NextRecord env version last bytes r rest) ∨ ∃ ending, EndsWith env version last bytes ending := by
  cases hdecode : decodeRecord env.toHashes version bytes with
  | torn => exact .inr ⟨_, .torn hdecode⟩
  | footer f => exact .inr ⟨_, .footer hdecode⟩
  | record lsn hlc payload n =>
    by_cases hgrows : ∀ l ∈ last, l < lsn
    · cases hmeta : env.decodeMeta version payload with
      | error e => exact .inr ⟨_, .failing hdecode hgrows hmeta⟩
      | ok opaqueMeta =>
        have hn : (bytes.take n).length = n := List.length_take_of_le (decodeRecord_eq_record hdecode).2.2.2
        exact .inl ⟨{ lsn := lsn, bytes := bytes.take n }, bytes.drop n, (List.take_append_drop n bytes).symm,
          ⟨hlc, payload, opaqueMeta, hn.symm ▸ hdecode, hmeta⟩, hgrows⟩
    · push Not at hgrows
      obtain ⟨l, hl, hle⟩ := hgrows
      exact .inr ⟨_, .repeated hdecode hl hle⟩

theorem NextRecord.length_lt {last : Option Nat} {rest : Bytes} {r : Found}
    (h : NextRecord env version last bytes r rest) : rest.length < bytes.length := by
  obtain ⟨hlc, payload, _, hdecode, _⟩ := h.decodes
  have hn := (decodeRecord_eq_record hdecode).2.2.1
  have hlen := congrArg List.length h.split
  rw [List.length_append] at hlen
  have hpos : recordHeaderLen = 24 := rfl
  omega

/-- **The scan finds what the file holds**, from any record on. -/
theorem ScanAt.run {file : Bytes} : ∀ (fuel : Nat) (rs : List Found) (s : SegmentScan), ScanAt env file version rs s →
    (file.drop s.validLen).length ≤ fuel →
    ∃ rs' rest ending s', Reads env version (lastLsn none rs) (file.drop s.validLen) rs' rest ∧
      EndsWith env version (lastLsn none (rs ++ rs')) rest ending ∧ ScanAt env file version (rs ++ rs') s' ∧
      file.drop s'.validLen = rest ∧ ending.Gives s' (scanRecords env file true fuel s)
  | 0, rs, s, h, hfuel => by
    have hnil : file.drop s.validLen = [] := List.length_eq_zero_iff.1 (Nat.le_zero.1 hfuel)
    have htorn : decodeRecord env.toHashes version [] = .torn := by simp [decodeRecord, footerMagic, recordHeaderLen]
    refine ⟨[], _, .quiet, s, .done _ _, .torn (hnil ▸ htorn), ?_, rfl, .inl rfl⟩
    rwa [List.append_nil]
  | fuel + 1, rs, s, h, hfuel => by
    rcases exists_next_or_end env version (lastLsn none rs) (file.drop s.validLen) with ⟨r, rest, hnext⟩ | ⟨ending, hends⟩
    · obtain ⟨s₁, h₁, hdrop, heq⟩ := h.next fuel hnext
      have hlt := hnext.length_lt
      obtain ⟨rs', rest', ending, s', hreads, hends, hs', hrest, hgives⟩ := ScanAt.run fuel _ s₁ h₁ (by rw [hdrop]; omega)
      rw [hdrop, lastLsn_append] at hreads
      rw [List.append_assoc] at hends hs'
      exact ⟨r :: rs', rest', ending, s', .record hnext hreads, hends, hs', hrest, heq ▸ hgives⟩
    · refine ⟨[], _, ending, s, .done _ _, by rwa [List.append_nil], by rwa [List.append_nil], rfl, ?_⟩
      cases ending with
      | quiet => exact h.quiet fuel hends
      | failing e => exact h.failing fuel hends
      | footer f => exact h.footer fuel hends

variable (env) in
theorem scanAt_fresh {file : Bytes} (hlen : headerLen ≤ file.length) (version : Nat) :
    ScanAt env file version [] (.fresh file.length version) := by
  refine ⟨hlen, rfl, rfl, rfl, rfl, rfl, fun a ha => ?_, rfl, rfl, rfl, rfl⟩
  cases ha

variable (env) in
/-- **The scan of a file with a header finds what it holds.** -/
theorem scanSegmentFile_holds {file : Bytes} {header : SegmentHeader} (hlen : headerLen ≤ file.length)
    (hheader : SegmentHeader.decode (file.take headerLen) = .ok header) :
    ∃ rs rest ending s, Holds env file header.version rs rest ending ∧ ScanAt env file header.version rs s ∧
      file.drop s.validLen = rest ∧ ending.Gives s (scanSegmentFile env file true) := by
  obtain ⟨rs, rest, ending, s, hreads, hends, hs, hrest, hgives⟩ :=
    ScanAt.run file.length [] _ (scanAt_fresh env hlen header.version) (by simp)
  refine ⟨rs, rest, ending, s, ⟨⟨header, hheader, rfl⟩, hreads, hends⟩, hs, hrest, ?_⟩
  rw [scanSegmentFile, if_neg (Nat.not_lt.2 hlen), hheader]
  exact hgives

/-! ## What `verify` accepts -/

theorem Holds.long {file rest : Bytes} {rs : List Found} {ending : Ending} (h : Holds env file version rs rest ending) :
    headerLen ≤ file.length := by
  obtain ⟨header, hheader, _⟩ := h.header
  by_contra hlt
  have hshort : (file.take headerLen).length < headerLen := by
    rw [List.length_take]
    omega
  rw [SegmentHeader.decode, if_pos (.inl hshort)] at hheader
  cases hheader

/-- The scan of a file that is given as it is. -/
theorem Holds.scan {file rest : Bytes} {rs : List Found} {ending : Ending} (h : Holds env file version rs rest ending) :
    ∃ s, ScanAt env file version rs s ∧ file.drop s.validLen = rest ∧ ending.Gives s (scanSegmentFile env file true) := by
  obtain ⟨header, hheader, rfl⟩ := h.header
  obtain ⟨rs', rest', ending', s, h', hs, hrest, hgives⟩ := scanSegmentFile_holds env h.long hheader
  obtain ⟨_, rfl, rfl, rfl⟩ := h.unique h'
  exact ⟨s, hs, hrest, hgives⟩

variable (env) in
/-- The scan of the file returns, with the footer's root if it finds a footer. -/
def Accepted (file : Bytes) : Prop := ∃ scan, scanSegmentFile env file true = .ok scan ∧ scan.Rooted env

theorem ScanAt.rooted_footer {file : Bytes} {rs : List Found} {s : SegmentScan} (h : ScanAt env file version rs s)
    (f : SegmentFooter) : (s.footer f).Rooted env ↔ rootOf env version rs = f.blake3Root := by
  have hhashes : (s.footer f).recordHashes = rs.map (fun r => recordLeaf env.toHashes version r.bytes) := h.recordHashes
  rw [SegmentScan.Rooted, hhashes]
  constructor
  · intro hrooted
    exact (hrooted rfl _ rfl).symm
  · intro heq _ stored hstored
    cases hstored
    exact heq.symm

variable (env) in
/-- **A file is accepted unless it is loud.** -/
theorem accepted_iff_not_loud (file : Bytes) : Accepted env file ↔ ¬Loud env file := by
  by_cases hlen : file.length < headerLen
  · have hscan : scanSegmentFile env file true
        = .ok { SegmentScan.fresh file.length formatVersion with corruptionDetected := decide (0 < file.length) } := by
      rw [scanSegmentFile, if_pos hlen]
    refine iff_of_true ⟨_, hscan, fun hsealed => absurd hsealed Bool.false_ne_true⟩ ?_
    rintro (⟨hge, _⟩ | ⟨version, rs, rest, ⟨e, h⟩ | ⟨f, h, _⟩⟩)
    · exact Nat.not_lt.2 hge hlen
    · exact Nat.not_lt.2 h.long hlen
    · exact Nat.not_lt.2 h.long hlen
  · have hge : headerLen ≤ file.length := Nat.not_lt.1 hlen
    cases hheader : SegmentHeader.decode (file.take headerLen) with
    | error e =>
      refine iff_of_false ?_ (not_not.2 (.inl ⟨hge, e, hheader⟩))
      rintro ⟨scan, hscan, _⟩
      rw [scanSegmentFile, if_neg hlen, hheader] at hscan
      cases hscan
    | ok header =>
      obtain ⟨rs, rest, ending, s, h, hs, _, hgives⟩ := scanSegmentFile_holds env hge hheader
      cases ending with
      | quiet =>
        refine iff_of_true ?_ ?_
        · rcases hgives with hscan | hscan
          · exact ⟨_, hscan, fun hsealed => absurd (hs.isSealed.symm.trans hsealed) Bool.false_ne_true⟩
          · exact ⟨_, hscan, fun hsealed => absurd (hs.isSealed.symm.trans hsealed) Bool.false_ne_true⟩
        · rintro (⟨_, e, he⟩ | ⟨version, rs', rest', ⟨e, h'⟩ | ⟨f, h', _⟩⟩)
          · cases he.symm.trans hheader
          · cases (h.unique h').2.2.2
          · cases (h.unique h').2.2.2
      | failing e =>
        refine iff_of_false ?_ (not_not.2 (.inr ⟨_, rs, rest, .inl ⟨e, h⟩⟩))
        rintro ⟨scan, hscan, _⟩
        cases (show _ = _ from hgives).symm.trans hscan
      | footer f =>
        have hscan : scanSegmentFile env file true = .ok (s.footer f) := hgives
        have haccepted : Accepted env file ↔ rootOf env header.version rs = f.blake3Root := by
          rw [← hs.rooted_footer f]
          constructor
          · rintro ⟨scan, heq, hrooted⟩
            cases hscan.symm.trans heq
            exact hrooted
          · exact fun hrooted => ⟨_, hscan, hrooted⟩
        rw [haccepted]
        constructor
        · rintro heq (⟨_, e, he⟩ | ⟨version, rs', rest', ⟨e, h'⟩ | ⟨f', h', hne⟩⟩)
          · cases he.symm.trans hheader
          · cases (h.unique h').2.2.2
          · obtain ⟨rfl, rfl, rfl, hf⟩ := h.unique h'
            cases hf
            exact hne heq
        · intro hquiet
          by_contra hne
          exact hquiet (.inr ⟨_, rs, rest, .inr ⟨f, h, hne⟩⟩)

/-- **A file that is not loud is as it should be unless it ends quietly.** -/
theorem intact_iff_not_quietEnd {file : Bytes} (hquiet : ¬Loud env file) : Intact env file ↔ ¬QuietEnd env file := by
  constructor
  · rintro ⟨version, rs, rest, f, h, hagrees, _⟩ (hshort | ⟨version', rs', rest', h' | ⟨f', h', hnot⟩⟩)
    · exact Nat.not_lt.2 h.long hshort
    · cases (h.unique h').2.2.2
    · obtain ⟨rfl, rfl, rfl, hf⟩ := h.unique h'
      cases hf
      exact hnot hagrees
  · intro hloud
    have hge : headerLen ≤ file.length := Nat.not_lt.1 (fun hlt => hloud (.inl hlt))
    cases hheader : SegmentHeader.decode (file.take headerLen) with
    | error e => exact absurd (.inl ⟨hge, e, hheader⟩) hquiet
    | ok header =>
      obtain ⟨rs, rest, ending, s, h, _, _, _⟩ := scanSegmentFile_holds env hge hheader
      cases ending with
      | quiet => exact absurd (.inr ⟨_, rs, rest, .inl h⟩) hloud
      | failing e => exact absurd (.inr ⟨_, rs, rest, .inl ⟨e, h⟩⟩) hquiet
      | footer f =>
        refine ⟨_, rs, rest, f, h, by_contra fun hnot => hloud (.inr ⟨_, rs, rest, .inr ⟨f, h, hnot⟩⟩), ?_⟩
        exact by_contra fun hne => hquiet (.inr ⟨_, rs, rest, .inr ⟨f, h, hne⟩⟩)

/-- What the scan says of an intact file. -/
theorem Intact.scan {file : Bytes} (h : Intact env file) : ∃ s, scanSegmentFile env file true = .ok s ∧
    s.isSealed = true ∧ s.corruptionDetected = false ∧ s.blake3Root = some (merkleRoot env.toHashes s.recordHashes) := by
  obtain ⟨version, rs, rest, f, hholds, hagrees, hroot⟩ := h
  obtain ⟨s, hs, hrest, hscan⟩ := hholds.scan
  refine ⟨s.footer f, hscan, rfl, ?_, ?_⟩
  · have hend : s.validLen + footerLen = s.fileLen := by
      have hlength := congrArg List.length hrest
      have hvalid := hs.validLen
      rw [List.length_drop, hagrees.last] at hlength
      rw [hs.fileLen]
      omega
    have hcount : s.locs.length = f.recordCount := hs.locs.trans hagrees.recordCount
    show (s.corruptionDetected || _) = false
    rw [hs.sound, hend, hcount, hs.minLsn, hs.maxLsn]
    cases rs with
    | nil => simp [← hagrees.recordCount, lastLsn]
    | cons r rs =>
      have hlast : lastLsn none (r :: rs) = some f.maxLsn := by
        obtain ⟨init, q, hq⟩ := List.eq_nil_or_concat (r :: rs) |>.resolve_left (List.cons_ne_nil r rs)
        rw [List.concat_eq_append] at hq
        rw [hq, lastLsn_append]
        exact congrArg some (hagrees.maxLsn q (by rw [hq]; exact List.getLast?_concat))
      have hpos : f.recordCount ≠ 0 := by
        rw [← hagrees.recordCount]
        exact Nat.succ_ne_zero _
      rw [hlast, List.head?_cons, Option.map_some, hagrees.minLsn r rfl, if_neg hpos]
      simp
  · have hhashes : (s.footer f).recordHashes = rs.map (fun r => recordLeaf env.toHashes version r.bytes) :=
      hs.recordHashes
    rw [hhashes]
    exact congrArg some hroot.symm

variable (env) in
/-- `verify` has a reason to object to segment `id`. -/
def Log.LoudAt (log : Log) (id : Nat) : Prop :=
  log.dir.get? id = none ∨ ∃ file, log.dir.get? id = some file ∧ Loud env file

theorem Log.passes_iff_not_loudAt (log : Log) (id : Nat) : log.Passes env id ↔ ¬log.LoudAt env id := by
  unfold Log.Passes Log.LoudAt Log.scanSegmentOf
  cases hfile : log.dir.get? id with
  | none => simp
  | some file => simpa [Accepted] using accepted_iff_not_loud env file

variable (env) in
/-- **When `verify` is sound**: for every log, an answer without an error means that all sealed segments are as they
should be, exactly when some segment is loud or no sealed one ends quietly. -/
theorem verify_sound_iff (log : Log) :
    ((∃ report, log.verify env = .ok report) →
      ∀ c ∈ log.catalog.sealedSegments, ∃ file, log.dir.get? c.id = some file ∧ Intact env file) ↔
    (∃ c ∈ log.catalog.containers, log.LoudAt env c.id) ∨
      ∀ c ∈ log.catalog.sealedSegments, ∀ file, log.dir.get? c.id = some file → ¬QuietEnd env file := by
  rw [log.verify_isOk_iff]
  by_cases hloud : ∃ c ∈ log.catalog.containers, log.LoudAt env c.id
  · refine iff_of_true (fun hpasses => ?_) (.inl hloud)
    obtain ⟨c, hc, hl⟩ := hloud
    exact absurd hl ((log.passes_iff_not_loudAt c.id).1 (hpasses c hc))
  · have hquiet : ∀ c ∈ log.catalog.containers, ¬log.LoudAt env c.id := fun c hc hl => hloud ⟨c, hc, hl⟩
    have hpasses : ∀ c ∈ log.catalog.containers, log.Passes env c.id :=
      fun c hc => (log.passes_iff_not_loudAt c.id).2 (hquiet c hc)
    have hfile : ∀ c ∈ log.catalog.sealedSegments, ∃ file, log.dir.get? c.id = some file ∧ ¬Loud env file := fun c hc => by
      have hnot := hquiet c (List.mem_append_left _ hc)
      obtain ⟨file, hfile⟩ := Option.ne_none_iff_exists'.1 (fun hnone => hnot (.inl hnone))
      exact ⟨file, hfile, fun hl => hnot (.inr ⟨file, hfile, hl⟩)⟩
    constructor
    · intro hsound
      refine .inr (fun c hc file hget => ?_)
      obtain ⟨file', hget', hintact⟩ := hsound hpasses c hc
      obtain ⟨file'', hget'', hl⟩ := hfile c hc
      cases hget'.symm.trans hget
      cases hget''.symm.trans hget
      exact (intact_iff_not_quietEnd hl).1 hintact
    · rintro (h | hends) _ c hc
      · exact absurd h hloud
      · obtain ⟨file, hget, hl⟩ := hfile c hc
        exact ⟨file, hget, (intact_iff_not_quietEnd hl).2 (hends c hc file hget)⟩

/-- Byte `pos` of the file of segment `id` is now `b`. -/
def Log.damage (log : Log) (id pos : Nat) (b : UInt8) : Log :=
  { log with dir := log.dir.alter id (Option.map (List.set · pos b)) }

/-- Two records, the first in a sealed segment. -/
def twoSegments : Log :=
  [[sampleAppend 0], [sampleAppend 1]].foldl (fun log cmds => (log.batch sampleEnv 110 cmds).1)
    (Session.start sampleEnv).log

set_option maxRecDepth 4000 in
/-- **A damaged length hides the footer from `verify`**: the catalog lists segment 0 as sealed, `verify` counts no sealed
segment and returns, and `verifySegment` says that the segment is not valid. -/
theorem verify_passes_damaged_segment :
    twoSegments.verify sampleEnv = .ok { segments := 2, sealedSegments := 1, records := 2, merkleOk := 1 } ∧
    (twoSegments.damage 0 25 255).verify sampleEnv
      = .ok { segments := 2, sealedSegments := 0, records := 1, merkleOk := 0 } ∧
    ((twoSegments.damage 0 25 255).verifySegment sampleEnv 0).map (Option.map (fun r => (r.isSealed, r.valid)))
      = .ok (some (true, false)) ∧
    ∃ c ∈ (twoSegments.damage 0 25 255).catalog.sealedSegments,
      ∀ file, (twoSegments.damage 0 25 255).dir.get? c.id = some file → ¬Intact sampleEnv file := by
  have hids : (twoSegments.damage 0 25 255).catalog.sealedSegments.map (·.id) = [0] := by decide +kernel
  have hscan : ((twoSegments.damage 0 25 255).scanSegmentOf sampleEnv 0).map (·.isSealed) = .ok false := by decide +kernel
  refine ⟨by decide +kernel, by decide +kernel, by decide +kernel, ?_⟩
  obtain ⟨c, hc, hid⟩ := List.mem_map.1 (hids ▸ List.mem_singleton_self 0)
  refine ⟨c, hc, fun file hfile hintact => ?_⟩
  obtain ⟨s, hs, hsealed, _⟩ := hintact.scan
  rw [hid] at hfile
  rw [Log.scanSegmentOf, hfile] at hscan
  dsimp only at hscan
  rw [hs] at hscan
  exact Bool.false_ne_true (hsealed ▸ (Except.ok.inj hscan).symm)

end Legacy
end Heraclitus
