import Heraclitus.Episode
import Heraclitus.Format
/-!
# LegacyLog — the v5 log (`heraclitus-log/src/lib.rs`)

Segment files and an in-memory catalog.  One worker takes the commands in batches: it writes the records, rolls to a new
segment when the next one does not fit, publishes the offsets in the catalog and last advances `committedLsn`.  Readers
pick a segment in the catalog and decode its file.  No keystore; file operations succeed.
-/
namespace Heraclitus
namespace Legacy

/-- The code outside this repository: hashes, the payload codec of `StoragePayload` (`decodeMeta` reads only its first
field), `slice::binary_search`, and the clock readings that stamp new segment headers. -/
structure Env extends Hashes where
  encodePayload : Bytes → Episode → Except String Bytes
  decodePayload : Nat → Bytes → Except HeraclitusError Episode
  decodeMeta : Nat → Bytes → Except HeraclitusError Bytes
  binarySearch : List Nat → Nat → Except Nat Nat
  createdHlc : Nat → Nat

structure LsnEntry where
  lsn : Nat
  offset : Nat
  opaqueMeta : Bytes
  deriving DecidableEq

/-- `SegmentMeta` and the segment's index. -/
structure SegmentContainer where
  id : Nat
  baseLsn : Nat
  maxLsn : Nat
  isSealed : Bool
  blake3Root : Option Digest
  version : Nat
  entries : List LsnEntry
  deriving DecidableEq

structure LogCatalog where
  sealedSegments : List SegmentContainer
  active : SegmentContainer

/-- The worker's view of the segment it writes to. -/
structure Active where
  segmentId : Nat
  bytesWritten : Nat
  recordHashes : List Digest
  baseLsn : Nat
  maxLsn : Nat

structure Log where
  dir : SortedMap Nat Bytes
  catalog : LogCatalog
  active : Active
  committedLsn : Nat

inductive LogCommand where
  | append (opaqueMeta : Bytes) (episode : Episode) (expectedLsn : Option Nat)
  | flush

structure StashedUpdate where
  lsn : Nat
  opaqueMeta : Bytes
  offset : Nat
  episode : Episode

def StashedUpdate.entry (u : StashedUpdate) : LsnEntry :=
  { lsn := u.lsn, offset := u.offset, opaqueMeta := u.opaqueMeta }

/-- What a client of the worker is told. -/
inductive Reply where
  | appended (lsn : Nat) (episode : Episode)
  | refused (e : HeraclitusError)
  | flushed

/-- The locals of the worker within a batch. -/
structure Batch where
  log : Log
  tentativeLsn : Nat
  stashed : List StashedUpdate
  pendingIndexStart : Nat
  stashedFlushes : Nat
  replies : List Reply

variable (env : Env)

/-! ## Writing -/

/-- `File::write_all` in append mode; the file is created when it is missing. -/
def writeAll (dir : SortedMap Nat Bytes) (id : Nat) (bytes : Bytes) : SortedMap Nat Bytes :=
  dir.alter id (fun file => some (file.getD [] ++ bytes))

/-- The container of a segment that starts empty at `baseLsn`. -/
def emptyActive (id baseLsn : Nat) : SegmentContainer :=
  { id := id, baseLsn := baseLsn, maxLsn := u64Max, isSealed := false, blake3Root := none, version := formatVersion,
    entries := [] }

def newActive (dir : SortedMap Nat Bytes) (id baseLsn : Nat) : SortedMap Nat Bytes × Active :=
  let header : SegmentHeader := { version := formatVersion, segmentId := id, createdHlc := env.createdHlc id }
  (writeAll dir id header.encode,
    { segmentId := id, bytesWritten := headerLen, recordHashes := [], baseLsn := baseLsn, maxLsn := baseLsn })

/-- The footer that seals the active segment. -/
def sealingFooter (active : Active) : SegmentFooter :=
  { recordCount := active.recordHashes.length, minLsn := active.baseLsn, maxLsn := active.maxLsn,
    blake3Root := merkleRoot env.toHashes active.recordHashes }

def rollSegment (log : Log) (nextBaseLsn : Nat) : Log :=
  let footer := sealingFooter env log.active
  let dir := writeAll log.dir log.active.segmentId footer.encode
  let nextId := log.active.segmentId + 1
  let container : SegmentContainer :=
    { id := log.active.segmentId, baseLsn := log.active.baseLsn, maxLsn := footer.maxLsn, isSealed := true,
      blake3Root := some footer.blake3Root, version := formatVersion, entries := log.catalog.active.entries }
  let next := newActive env dir nextId nextBaseLsn
  { log with
    dir := next.1
    active := next.2
    catalog := {
      sealedSegments := log.catalog.sealedSegments ++ [container]
      active := emptyActive nextId nextBaseLsn } }

/-- Publish the offsets of the batch that belong to the active segment and are not in the catalog yet. -/
def Batch.publish (b : Batch) : Batch :=
  if b.pendingIndexStart < b.stashed.length then
    let active := b.log.catalog.active
    let container : SegmentContainer :=
      { active with
        maxLsn := b.log.active.maxLsn
        entries := active.entries ++ (b.stashed.drop b.pendingIndexStart).map StashedUpdate.entry }
    { b with
      log := { b.log with catalog := { b.log.catalog with active := container } }
      pendingIndexStart := b.stashed.length }
  else b

/-- Phase 2, the write: the record goes to the end of the active segment. -/
def Batch.write (b : Batch) (opaqueMeta : Bytes) (episode : Episode) (record : Bytes) : Batch :=
  let active := b.log.active
  { b with
    log := { b.log with
      dir := writeAll b.log.dir active.segmentId record
      active := { active with
        bytesWritten := active.bytesWritten + record.length
        recordHashes := active.recordHashes ++ [recordLeaf env.toHashes formatVersion record]
        maxLsn := max active.maxLsn b.tentativeLsn } }
    stashed := b.stashed ++
      [{ lsn := b.tentativeLsn, opaqueMeta := opaqueMeta, offset := active.bytesWritten, episode := episode }]
    tentativeLsn := b.tentativeLsn + 1 }

def Batch.refuse (b : Batch) (e : HeraclitusError) : Batch := { b with replies := b.replies ++ [.refused e] }

/-- Seal the active segment if `record` does not fit behind what it holds. -/
def Batch.makeRoom (b : Batch) (segmentMaxBytes : Nat) (record : Bytes) : Batch :=
  if segmentMaxBytes < b.log.active.bytesWritten + record.length then
    let b := b.publish
    { b with log := rollSegment env b.log b.tentativeLsn }
  else b

def Batch.append (segmentMaxBytes : Nat) (b : Batch) (opaqueMeta : Bytes) (episode : Episode)
    (expectedLsn : Option Nat) : Batch :=
  match expectedLsn.filter (· ≠ b.tentativeLsn) with
  | some expected => b.refuse (.casConflict expected b.tentativeLsn)
  | none =>
    match env.encodePayload opaqueMeta episode with
    | .error e => b.refuse (.serialization e)
    | .ok payload =>
      let record := encodeRecord env.toHashes formatVersion b.tentativeLsn episode.tsHlc payload
      (b.makeRoom env segmentMaxBytes record).write env opaqueMeta episode record

def Batch.command (segmentMaxBytes : Nat) (b : Batch) : LogCommand → Batch
  | .append opaqueMeta episode expectedLsn => b.append env segmentMaxBytes opaqueMeta episode expectedLsn
  | .flush => { b with stashedFlushes := b.stashedFlushes + 1 }

def Batch.start (log : Log) : Batch :=
  { log := log, tentativeLsn := log.committedLsn, stashed := [], pendingIndexStart := 0, stashedFlushes := 0,
    replies := [] }

/-- Phases 4 to 6: publish the rest of the batch, advance `committedLsn`, answer the clients. -/
def Batch.finish (b : Batch) : Log × List Reply :=
  let published := b.publish.log
  let committedLsn := match b.stashed.getLast? with
    | some u => u.lsn + 1
    | none => published.committedLsn
  ({ published with committedLsn := committedLsn },
    b.replies ++ b.stashed.map (fun u => .appended u.lsn u.episode) ++ List.replicate b.stashedFlushes .flushed)

/-- One turn of the worker loop. -/
def Log.batch (segmentMaxBytes : Nat) (log : Log) (cmds : List LogCommand) : Log × List Reply :=
  (cmds.foldl (Batch.command env segmentMaxBytes) (.start log)).finish

/-! ## Reading -/

/-- The container a reader looks for `lsn` in. -/
def LogCatalog.pick (catalog : LogCatalog) (lsn : Nat) : Option SegmentContainer :=
  if catalog.active.baseLsn ≤ lsn then some catalog.active
  else match env.binarySearch (catalog.sealedSegments.map (·.baseLsn)) lsn with
    | .ok i => catalog.sealedSegments[i]?
    | .error i => if 0 < i then catalog.sealedSegments[i - 1]? else none

/-- The entry at the position a dense index has it at, else the one a search finds. -/
def SegmentContainer.lookup (c : SegmentContainer) (lsn : Nat) : Option LsnEntry :=
  match (c.entries[lsn - c.baseLsn]?).filter (·.lsn = lsn) with
  | some entry => some entry
  | none =>
    match env.binarySearch (c.entries.map (·.lsn)) lsn with
    | .ok j => c.entries[j]?
    | .error _ => none

def Log.lerRegistoEm (log : Log) (seg off version : Nat) : Except HeraclitusError (Option (Nat × Episode)) :=
  match log.dir.get? seg with
  | none => .ok none
  | some file =>
    let header := (file.drop off).take recordHeaderLen
    if header.length < recordHeaderLen then .ok none
    else
      let len := leNat (header.take 4)
      if maxPayloadLen < len then
        .error (.corruption s!"Segmento: {seg}, Offset: {off}" "Defesa de Estouro de Memória: Carga abusiva rejeitada")
      else
        let buf := (file.drop off).take (recordHeaderLen + len)
        if buf.length < recordHeaderLen + len then .ok none
        else match decodeRecord env.toHashes version buf with
          | .record rlsn _ payload _ => (env.decodePayload version payload).map (fun ep => some (rlsn, ep))
          | _ => .error (.corruption s!"Segmento: {seg}" "CRC-32C violado no registo")

/-- The format version in the segment's own header. -/
def Log.versaoDoFicheiro (log : Log) (seg : Nat) : Except HeraclitusError (Option Nat) :=
  match log.dir.get? seg with
  | none => .ok none
  | some file =>
    if file.length < headerLen then .ok none
    else (SegmentHeader.decode (file.take headerLen)).map (fun h => some h.version)

def LogCatalog.versaoDoSegmento (catalog : LogCatalog) (seg : Nat) : Option Nat :=
  if catalog.active.id = seg then some catalog.active.version
  else (catalog.sealedSegments.find? (·.id = seg)).map (·.version)

def Log.readAt (log : Log) (seg off : Nat) : Except HeraclitusError (Option (Nat × Episode)) :=
  match log.catalog.versaoDoSegmento seg with
  | some version => log.lerRegistoEm env seg off version
  | none =>
    match log.versaoDoFicheiro seg with
    | .error e => .error e
    | .ok none => .ok none
    | .ok (some version) => log.lerRegistoEm env seg off version

/-- The inner loop of `scan_capped`: records of one segment from byte `pos` on.  Each turn but the last advances the
cursor `lsn`, so `stop - lsn` turns are enough. -/
def scanSegment (c : SegmentContainer) (file : Bytes) (stop max : Nat) :
    Nat → Nat → Nat → List (Nat × Episode) → Except HeraclitusError (Nat × List (Nat × Episode))
  | 0, _, lsn, out => .ok (lsn, out)
  | fuel + 1, pos, lsn, out =>
    if ¬(lsn < stop ∧ out.length < max) then .ok (lsn, out)
    else if c.isSealed ∧ c.maxLsn < lsn then .ok (lsn, out)
    else
      let header := (file.drop pos).take recordHeaderLen
      if header.length < recordHeaderLen then .ok (lsn, out)
      else if header.take 4 = footerMagic then .ok (lsn, out)
      else
        let len := leNat (header.take 4)
        if maxPayloadLen < len then
          .error (.corruption s!"Segmento: {c.id}" "Varredura abortada por anomalia de payload")
        else
          let buf := (file.drop pos).take (recordHeaderLen + len)
          if buf.length < recordHeaderLen + len then .ok (lsn, out)
          else match decodeRecord env.toHashes c.version buf with
            | .record rlsn _ payload _ =>
              if rlsn = lsn then
                match env.decodePayload c.version payload with
                | .error e => .error e
                | .ok ep => scanSegment c file stop max fuel (pos + (recordHeaderLen + len)) (lsn + 1) (out ++ [(rlsn, ep)])
              else .ok (Nat.max (satAdd64 rlsn 1) (lsn + 1), out)
            | _ => .error (.corruption s!"Segmento: {c.id}"
                (s!"registo ilegível no LSN {lsn} durante o scan (CRC-32C violado?) — " ++
                  "recuso devolver um histórico com buracos silenciosos"))

/-- The outer loop of `scan_capped`, which also advances `lsn` in every turn. -/
def Log.scanLoop (log : Log) (stop max : Nat) :
    Nat → Nat → List (Nat × Episode) → Except HeraclitusError (List (Nat × Episode))
  | 0, _, out => .ok out
  | fuel + 1, lsn, out =>
    if ¬(lsn < stop ∧ out.length < max) then .ok out
    else match log.catalog.pick env lsn with
      | none => log.scanLoop stop max fuel (lsn + 1) out
      | some c =>
        match c.entries[lsn - c.baseLsn]? with
        | none =>
          let next := satAdd64 c.maxLsn 1
          log.scanLoop stop max fuel (if lsn < next then next else lsn + 1) out
        | some entry =>
          match log.dir.get? c.id with
          | none => .error (.storage "No such file or directory")
          | some file =>
            match scanSegment env c file stop max (stop - lsn) entry.offset lsn out with
            | .error e => .error e
            | .ok (lsn', out) => log.scanLoop stop max fuel (if lsn' = lsn then lsn + 1 else lsn') out

def Log.scanCapped (log : Log) (start stop max : Nat) : Except HeraclitusError (List (Nat × Episode)) :=
  let effectiveTo := min stop log.committedLsn
  if effectiveTo ≤ start ∨ max = 0 then .ok []
  else log.scanLoop env effectiveTo max (effectiveTo - start) start []

/-- `scan(from, to)`; `usize::MAX` is never reached. -/
def Log.scan (log : Log) (start stop : Nat) : Except HeraclitusError (List (Nat × Episode)) :=
  log.scanCapped env start stop u64Max

def Log.read (log : Log) (lsn : Nat) : Except HeraclitusError (Option (Nat × Episode)) :=
  if log.committedLsn ≤ lsn then .ok none
  else match (log.catalog.pick env lsn).bind (fun c => (c.lookup env lsn).map (fun e => (c.id, e.offset))) with
    | some (seg, off) => log.readAt env seg off
    | none => (log.scan env lsn (lsn + 1)).map (·.head?)

end Legacy
end Heraclitus
