import Heraclitus.LegacyLog
import Mathlib.Data.List.Sort
/-!
# LegacyOpen — opening a v5 log (`Log::open_with_keystore`, `scan_segment_file`)

Every segment file is scanned record by record up to a footer, the end of the file or the first byte that is no record.
What is wrong in the newest file is cut off; in any other file it is an error.
-/
namespace Heraclitus
namespace Legacy

variable (env : Env)

structure SegmentScan where
  validLen : Nat
  fileLen : Nat
  recordHashes : List Digest
  locs : List LsnEntry
  minLsn : Option Nat
  maxLsn : Option Nat
  isSealed : Bool
  blake3Root : Option Digest
  version : Nat
  corruptionDetected : Bool

/-- Does the file end with something that decodes as a footer? -/
def temRodapeSelado (file : Bytes) : Bool :=
  if file.length < headerLen + footerLen then false
  else (SegmentFooter.decode (file.drop (file.length - footerLen))).isSome

/-- What is known after the header. -/
def SegmentScan.fresh (fileLen version : Nat) : SegmentScan :=
  { validLen := headerLen, fileLen := fileLen, recordHashes := [], locs := [], minLsn := none, maxLsn := none,
    isSealed := false, blake3Root := none, version := version, corruptionDetected := false }

def SegmentScan.corrupt (s : SegmentScan) : SegmentScan := { s with corruptionDetected := true }

/-- A footer ends the scan; its counts must agree with what the scan saw, and nothing may follow it. -/
def SegmentScan.footer (s : SegmentScan) (f : SegmentFooter) : SegmentScan :=
  let boundsOk :=
    if f.recordCount = 0 then s.minLsn.isNone && s.maxLsn.isNone
    else s.minLsn == some f.minLsn && s.maxLsn == some f.maxLsn
  { s with
    validLen := s.validLen + footerLen
    isSealed := true
    blake3Root := some f.blake3Root
    corruptionDetected := s.corruptionDetected ||
      (s.validLen + footerLen != s.fileLen || s.locs.length != f.recordCount || !boundsOk) }

def SegmentScan.record (s : SegmentScan) (comLeafHashes : Bool) (lsn consumed : Nat) (opaqueMeta record : Bytes) :
    SegmentScan :=
  { s with
    validLen := s.validLen + consumed
    recordHashes := if comLeafHashes then s.recordHashes ++ [recordLeaf env.toHashes s.version record] else s.recordHashes
    locs := s.locs ++ [{ lsn := lsn, offset := s.validLen, opaqueMeta := opaqueMeta }]
    minLsn := some (s.minLsn.elim lsn (min · lsn))
    maxLsn := some (s.maxLsn.elim lsn (max · lsn)) }

/-- The scan from byte `validLen` on.  Every turn but the last reads a record, so as many turns as bytes are enough. -/
def scanRecords (file : Bytes) (comLeafHashes : Bool) : Nat → SegmentScan → Except HeraclitusError SegmentScan
  | 0, s => .ok s
  | fuel + 1, s =>
    if s.fileLen ≤ s.validLen then .ok s
    else
      let rest := file.drop s.validLen
      if rest.length < 4 then .ok s
      else if rest.take 4 = footerMagic then
        if rest.length < footerLen then .ok s.corrupt
        else match SegmentFooter.decode (rest.take footerLen) with
          | some f => .ok (s.footer f)
          | none => .ok s.corrupt
      else
        let len := leNat (rest.take 4)
        if maxPayloadLen < len ∨ s.fileLen < s.validLen + recordHeaderLen + len then .ok s.corrupt
        else
          let record := rest.take (recordHeaderLen + len)
          match decodeRecord env.toHashes s.version record with
          | .record lsn _ payload consumed =>
            -- `maxLsn` is the last LSN as long as they grow
            if s.maxLsn.any (lsn ≤ ·) then .ok s.corrupt
            else match env.decodeMeta s.version payload with
              | .error e => .error e
              | .ok opaqueMeta =>
                scanRecords file comLeafHashes fuel (s.record env comLeafHashes lsn consumed opaqueMeta (record.take consumed))
          | _ => .ok s.corrupt

def scanSegmentFile (file : Bytes) (comLeafHashes : Bool) : Except HeraclitusError SegmentScan :=
  if file.length < headerLen then
    .ok { SegmentScan.fresh file.length formatVersion with corruptionDetected := decide (0 < file.length) }
  else
    match SegmentHeader.decode (file.take headerLen) with
    | .error e => .error e
    | .ok h => scanRecords env file comLeafHashes file.length (.fresh file.length h.version)

/-- `execute_physical_repair`: a file without records gets a new header, any other is cut. -/
def executePhysicalRepair (id : Nat) (file : Bytes) (validOffset : Nat) : Bytes :=
  if validOffset = headerLen then SegmentHeader.encode { version := formatVersion, segmentId := id, createdHlc := 0 }
  else file.take validOffset

/-- `seal_file`: the footer is written over the bytes from the end of the records on. -/
def sealFile (file : Bytes) (scan : SegmentScan) : Bytes :=
  let footer : SegmentFooter :=
    { recordCount := scan.recordHashes.length, minLsn := scan.minLsn.getD 0, maxLsn := scan.maxLsn.getD 0,
      blake3Root := merkleRoot env.toHashes scan.recordHashes }
  file.take scan.validLen ++ footer.encode ++ file.drop (scan.validLen + footerLen)

/-- What `open` has put together from the segments scanned so far. -/
structure Opening where
  dir : SortedMap Nat Bytes
  initialSealed : List SegmentContainer
  maxRecoveredLsn : Option Nat
  tailScan : Option (Nat × SegmentScan)

/-- The container of a segment that is found or made sealed. -/
def sealedContainer (id baseLsn : Nat) (root : Option Digest) (scan : SegmentScan) : SegmentContainer :=
  { id := id, baseLsn := baseLsn, maxLsn := scan.maxLsn.getD baseLsn, isSealed := true, blake3Root := root,
    version := scan.version, entries := scan.locs }

/-- One segment, after its scan. -/
def Opening.segment (o : Opening) (isLast : Bool) (id : Nat) (file : Bytes) (scan : SegmentScan) :
    Except HeraclitusError Opening :=
  let broken : Bool := scan.corruptionDetected || decide (scan.validLen < scan.fileLen)
  if broken && !isLast then
    .error (.corruption s!"segmento {id}"
      (s!"registo ilegível no offset {scan.validLen} de um segmento NÃO-ativo (bit rot / falha de hardware). " ++
        "Recuso truncar: perderia os registos seguintes e reescreveria a raiz Merkle sobre o que sobrasse. " ++
        "Restaure este segmento de backup ou de uma réplica."))
  else
    let repaired := if broken then executePhysicalRepair id file scan.validLen else file
    let maxRecoveredLsn := scan.locs.foldl (fun m e => some (m.elim e.lsn (max · e.lsn))) o.maxRecoveredLsn
    let baseLsn := scan.minLsn.getD (maxRecoveredLsn.elim 0 (· + 1))
    let o := { o with dir := o.dir.insert id repaired, maxRecoveredLsn := maxRecoveredLsn }
    if scan.isSealed then
      .ok { o with initialSealed := o.initialSealed ++ [sealedContainer id baseLsn scan.blake3Root scan] }
    else if isLast && scan.version == formatVersion then .ok { o with tailScan := some (id, scan) }
    else
      let root := merkleRoot env.toHashes scan.recordHashes
      .ok { o with
        dir := o.dir.insert id (sealFile env repaired scan)
        initialSealed := o.initialSealed ++ [sealedContainer id baseLsn (some root) scan] }

/-- The segments in the order of their ids; the scans come first, and an error of any of them first of all. -/
def openSegments (scans : List ((Nat × Bytes) × SegmentScan)) (o : Opening) : Except HeraclitusError Opening :=
  match scans with
  | [] => .ok o
  | ((id, file), scan) :: rest =>
    match o.segment env rest.isEmpty id file scan with
    | .error e => .error e
    | .ok o => openSegments rest o

/-- `varrer_segmentos_em_paralelo`: the first error in the order of the ids. -/
def scanSegments : List (Nat × Bytes) → Except HeraclitusError (List ((Nat × Bytes) × SegmentScan))
  | [] => .ok []
  | (id, file) :: files =>
    match scanSegmentFile env file (!temRodapeSelado file) with
    | .error e => .error e
    | .ok scan =>
      match scanSegments files with
      | .error e => .error e
      | .ok scans => .ok (((id, file), scan) :: scans)

/-- The active segment of an opened log: the unsealed tail goes on, else a new segment begins. -/
def Opening.finish (o : Opening) : Log :=
  let initialLsn := o.maxRecoveredLsn.elim 0 (· + 1)
  let sealedSegments := o.initialSealed.insertionSort (fun a b => a.baseLsn ≤ b.baseLsn)
  match o.tailScan with
  | some (id, scan) =>
    { dir := o.dir
      catalog := {
        sealedSegments := sealedSegments
        active := { emptyActive id (scan.minLsn.getD initialLsn) with entries := scan.locs } }
      active := {
        segmentId := id, bytesWritten := scan.validLen, recordHashes := scan.recordHashes,
        baseLsn := scan.minLsn.getD initialLsn, maxLsn := scan.maxLsn.getD initialLsn }
      committedLsn := initialLsn }
  | none =>
    let id := ((o.initialSealed.map (·.id)).max?).elim 0 (· + 1)
    let fresh := newActive env o.dir id initialLsn
    { dir := fresh.1
      catalog := { sealedSegments := sealedSegments, active := emptyActive id initialLsn }
      active := fresh.2
      committedLsn := initialLsn }

/-- `Log::open` of a directory without `truncate.intent`. -/
def openLog (dir : SortedMap Nat Bytes) : Except HeraclitusError Log :=
  match scanSegments env dir.entries with
  | .error e => .error e
  | .ok scans =>
    match openSegments env scans { dir := dir, initialSealed := [], maxRecoveredLsn := none, tailScan := none } with
    | .error e => .error e
    | .ok o => .ok (o.finish env)

end Legacy
end Heraclitus
