import Heraclitus.Episode
import Heraclitus.Hlc
import Heraclitus.V6Manifest
import Heraclitus.Lib.Prog
/-!
# V6Engine — the v6 log over its directory (`heraclitus-log/src/v6/engine.rs`, `packer.rs`, `manifest.rs`)

Every call is a program whose steps on the file system can fail or be the last one before a crash.  A step belongs to a
site, the part of the code that takes it.  The log is not encrypted.  Temporary files are left out: they are written and synced before they are renamed, and nothing reads them.
-/
namespace Heraclitus
namespace V6

inductive PackingProfile where
  | fast | balanced | archive
  deriving DecidableEq

def PackingProfile.codec : PackingProfile → CompressionCodec
  | .fast => .lz4Raw
  | .balanced | .archive => .zstd

/-- `PackOptions::default().block_target_bytes`. -/
def defaultBlockTarget : Nat := 256 * 1024

inductive FsyncPolicy where
  | always
  | groupCommit (intervalMs : Nat)

/-- A PACKED generation, as its reader sees it. -/
structure PackedFile where
  header : FileHeaderV6
  records : List RawRecord
  deriving DecidableEq

/-- What comes from outside: hashes, bincode of `StoragePayload`, the canonical hash of an episode, the block codec
(whether it takes the records, and in how many blocks), the readings of the wall clock, and the settings of the log. -/
structure Env where
  blake3 : Bytes → Digest
  encodePayload : Bytes → Episode → Except String Bytes
  decodePayload : Bytes → Except HeraclitusError (Bytes × Episode)
  hashEpisodeRecord : Nat → Nat → Bytes → Episode → Digest
  packBlocks : PackingProfile → List RawRecord → Except HeraclitusError Nat
  packedDigest : PackedFile → Digest
  packedSize : PackedFile → Nat
  wall : Nat → Nat
  segmentMaxBytes : Nat
  fsync : FsyncPolicy

/-- A file and how much of it a crash leaves in any case. -/
structure File where
  data : Bytes
  durable : Nat
  deriving DecidableEq

structure Disk where
  active : SortedMap Nat File
  raw : SortedMap Nat File
  packed : List ((Nat × Nat) × PackedFile)
  manifests : SortedMap Nat DatabaseManifest
  current : Option Nat
  deriving DecidableEq

structure ActiveSegment where
  id : Nat
  writer : RawSegmentWriter
  deriving DecidableEq

/-- The directory, the clock with the number of its readings, and `V6State`. -/
structure State where
  disk : Disk
  clock : Hlc
  ticks : Nat
  manifest : DatabaseManifest
  active : Option ActiveSegment
  nextLsn : Nat
  deriving DecidableEq

/-- Where a step on the file system is taken. -/
inductive Site where
  /-- `RawSegmentWriter::append` -/
  | record
  /-- the `sync` of `append_inner` -/
  | recordSync
  | flush
  | read
  /-- `remove_file`, `RawSegmentWriter::seal` and `rename` in `seal_active_locked` -/
  | footer
  | reconcile
  | commit
  | create
  | pack
  | boot
  deriving DecidableEq

abbrev Engine (α : Type) : Type := Prog Site State HeraclitusError α

/-! ## Files -/

def notFound : HeraclitusError := .storage "No such file or directory"

def File.append (bytes : Bytes) (f : File) : File := { f with data := f.data ++ bytes }

def File.sync (f : File) : File := { f with durable := f.data.length }

/-- What a crash leaves: at least what was synced, at most everything. -/
def File.crash (keep : Nat) (f : File) : File :=
  let data := f.data.take (max f.durable keep)
  { data := data, durable := data.length }

def Disk.modifyActive (d : Disk) (id : Nat) (f : File → File) : Disk := { d with active := d.active.alter id (·.map f) }

def Disk.activeFile (d : Disk) (id : Nat) : Except HeraclitusError File := (d.active.get? id).elim (.error notFound) .ok

def Disk.rawFile (d : Disk) (id : Nat) : Except HeraclitusError File := (d.raw.get? id).elim (.error notFound) .ok

/-- `std::fs::rename` of an active file to its final name. -/
def Disk.rename (d : Disk) (id : Nat) : Disk :=
  { d with active := d.active.erase id, raw := d.raw.alter id (fun old => (d.active.get? id).or old) }

/-- The process dies, and the active file may lose what was not synced. -/
def Disk.crash (d : Disk) (keep : Nat) : Disk :=
  { d with active := ⟨d.active.entries.map (fun e => (e.1, e.2.crash keep)), by
      rw [List.pairwise_map]
      exact d.active.sorted⟩ }

inductive SegmentBytes where
  | raw (file : File)
  | packed (file : PackedFile)

/-- The file that a catalogued location names. -/
def Disk.fileAt (d : Disk) (location : String) : Option SegmentBytes :=
  match d.raw.entries.find? (fun e => rawLocation e.1 == location) with
  | some e => some (.raw e.2)
  | none => (d.packed.find? (fun e => packedLocation e.1.1 e.1.2 == location)).map (fun e => .packed e.2)

def State.mapDisk (f : Disk → Disk) (s : State) : State := { s with disk := f s.disk }

variable (env : Env)

/-- `canonical_hash_storage_payload_v6`. -/
def persistedHasher : CanonicalHasher := fun lsn hlc payload =>
  (env.decodePayload payload).map (fun stored => env.hashEpisodeRecord lsn hlc stored.1 stored.2)

/-- `read_v6_header`. -/
def readV6Header (file : Bytes) : Except HeraclitusError FileHeaderV6 :=
  if file.length < fileHeaderLen then .error (.storage "failed to fill whole buffer")
  else FileHeaderV6.decode (file.take fileHeaderLen)

def SegmentBytes.header : SegmentBytes → Except HeraclitusError FileHeaderV6
  | .raw file => readV6Header file.data
  | .packed file => .ok file.header

/-- `physical_digest_of_file`. -/
def SegmentBytes.digest : SegmentBytes → Digest
  | .raw file => env.blake3 file.data
  | .packed file => env.packedDigest file

def now : Engine Nat := .eval (fun s =>
  let stamp := s.clock.now (env.wall s.ticks)
  .ok (stamp.1, { s with clock := stamp.2, ticks := s.ticks + 1 }))

def observe (remote : Nat) : Engine Unit := .modify (fun s => { s with clock := s.clock.observe remote })

/-! ## The manifest store -/

def Disk.nextGeneration (d : Disk) : Nat := d.manifests.entries.getLast?.elim 1 (fun e => e.1 + 1)

/-- `load`: the generation that `CURRENT` names, or the highest one that can be read. -/
def Disk.load (d : Disk) : Option DatabaseManifest :=
  match (d.current.bind d.manifests.get?).filter decodable with
  | some m => some m
  | none => (d.manifests.entries.reverse.find? (fun e => decodable e.2)).map Prod.snd

def commit : Engine Unit := do
  let generation ← .look .commit (fun s => .ok s.disk.nextGeneration)
  .modify (fun s => { s with
    manifest := { s.manifest with manifestGeneration := generation, formatIdentifier := hrkmMagic } })
  let s ← .get
  if s.disk.manifests.contains generation then
    .refuse (corrupt "hrkm commit" "manifest generation already exists; generations are immutable")
  else do
    .ofExcept (encodeManifest s.manifest)
    -- the temporary file is written and synced
    .step .commit id
    .step .commit (fun t => t.mapDisk (fun d => { d with manifests := d.manifests.insert generation s.manifest }))
    -- the directory is synced, then the temporary `CURRENT` is
    .step .commit id
    .step .commit id
    .step .commit (fun t => t.mapDisk (fun d => { d with current := some generation }))
    .step .commit id

/-! ## Segments -/

def checkHeaderIdentity (header : FileHeaderV6) (id : Nat) (namespaceId : Bytes) (layout : PhysicalLayout) :
    Except HeraclitusError Unit :=
  if header.segmentId ≠ id ∨ header.storageNamespaceId ≠ namespaceId ∨ header.physicalLayout ≠ layout ∨
      header.canonicalCodec ≠ canonicalCodecV1 then
    .error (corrupt "hrkl v6 boot" "segment filename/header/namespace/layout disagree")
  else .ok ()

/-- `create_active`: the file appears, then its header is written. -/
def createActive (id : Nat) : Engine Unit := do
  let s ← .get
  if s.disk.active.contains id then
    .refuse (corrupt "hrkl v6 create active" "active generation path already exists")
  else do
    let createdHlc ← now env
    let header := SegmentInit.header {
      segmentId := id, createdHlc := createdHlc, firstLsn := s.nextLsn
      writerEpoch := satAdd64 s.manifest.manifestGeneration 1, storageNamespaceId := s.manifest.storageNamespaceId }
    .step .create (fun t => t.mapDisk (fun d => { d with active := d.active.insert id { data := [], durable := 0 } }))
    .write .create (fun part t => t.mapDisk (·.modifyActive id (.append (header.encode.take part))))
      (fun t => t.mapDisk (·.modifyActive id (.append header.encode)))
    .modify (fun t => { t with active := some { id := id, writer := .fresh header } })

/-- `reconcile_raw`: a final RAW file is in the catalogue, or enters it. -/
def reconcileRaw (id : Nat) : Engine Bool := do
  let scan ← .look .reconcile (fun s => s.disk.rawFile id >>= fun file => scanRawBytes file.data)
  let s ← .get
  .ofExcept (checkHeaderIdentity scan.header id s.manifest.storageNamespaceId .raw)
  match scan.footer with
  | none => .refuse (corrupt "hrkl v6 boot" "final RAW generation has no valid footer")
  | some footer =>
    if scan.tornAt.isSome then .refuse (corrupt "hrkl v6 boot" "final RAW generation has a torn tail")
    else do
      let verified ← .look .reconcile (fun s =>
        s.disk.rawFile id >>= fun file => verifyRaw env.blake3 (persistedHasher env) file.data)
      if !verified then .refuse (corrupt "hrkl v6 boot" "final RAW generation failed canonical verification")
      else do
        let digest ← .look .reconcile (fun s => s.disk.rawFile id >>= fun file => .ok (env.blake3 file.data))
        let size ← .look .reconcile (fun s => s.disk.rawFile id >>= fun file => .ok file.data.length)
        match s.manifest.segment id with
        | some existing =>
          match existing.generationAt 0 with
          | none => .refuse (corrupt "hrkl v6 boot" "catalogued segment has no RAW generation")
          | some raw =>
            if existing.logicalRoot ≠ footer.logicalRoot ∨ raw.location ≠ rawLocation id ∨ raw.physicalDigest ≠ digest ∨
                raw.physicalSize ≠ size then
              .refuse (corrupt "hrkl v6 boot" "RAW file disagrees with its catalogued generation")
            else pure false
        | none => do
          let m ← .ofExcept (registerSealedRaw s.manifest id footer scan.header.canonicalCodec (rawLocation id) size digest
            footer.maxHlc)
          .modify (fun t => { t with manifest := m })
          pure true

def noActive : HeraclitusError := .storageEngine "V6Log sem segmento ativo"

/-- The end of `seal_active_locked`: the file under its final name is registered, and the next one is created. -/
def publishSealed (id : Nat) (logicalRoot : Digest) : Engine Unit := do
  let s ← .get
  let before := s.manifest
  let changed ← reconcileRaw env id
  let s ← .get
  if !changed || (s.manifest.segment id).map (·.logicalRoot) != some logicalRoot then do
    .modify (fun s => { s with manifest := before })
    .refuse (corrupt "hrkl v6 seal" "sealed RAW was not coherently registered in the manifest")
  else do
    commit.onError (fun s => { s with manifest := before })
    createActive env (satAdd64 id 1)

/-- `seal_active_locked`: the active segment leaves the state before anything is done to it. -/
def sealActiveLocked : Engine Unit := do
  let active ← .eval (fun s => match s.active with
    | none => .error noActive
    | some active => .ok (active, { s with active := none }))
  if active.writer.recordCount = 0 then do
    .step .footer (fun s => s.mapDisk (fun d => { d with active := d.active.erase active.id }))
    createActive env active.id
  else do
    let footer := active.writer.footer env.blake3
    .write .footer (fun part s => s.mapDisk (·.modifyActive active.id (.append (footer.encode.take part))))
      (fun s => s.mapDisk (·.modifyActive active.id (.append footer.encode)))
    .step .footer (fun s => s.mapDisk (·.modifyActive active.id .sync))
    let s ← .get
    if s.disk.raw.contains active.id then
      .refuse (corrupt "hrkl v6 seal" "immutable RAW generation path already exists")
    else do
      .step .footer (fun s => s.mapDisk (·.rename active.id))
      publishSealed env active.id footer.logicalRoot

/-! ## Appends and reads -/

def shouldSync (elapsedMs : Nat) : Bool :=
  match env.fsync with
  | .always => true
  | .groupCommit intervalMs => decide (intervalMs ≤ elapsedMs)

/-- `Ulid::to_bytes`. -/
def ulidBytes (id : Nat) : Bytes := (leBytes 16 id).reverse

/-- Does a record of `recordLen` bytes go into the next segment? -/
def State.needsRoll (s : State) (recordLen : Nat) : Bool :=
  s.active.any (fun a => decide (0 < a.writer.recordCount) &&
    decide (env.segmentMaxBytes < a.writer.bytesWritten + recordLen))

/-- `RawSegmentWriter::append` on the active segment. -/
def writeRecord (active : ActiveSegment) (lsn hlc : Nat) (payload : Bytes) (hash : Digest) : Engine Unit := do
  if hardMaxRecordBytes < payload.length then .refuse (corrupt "hrkl v6 raw writer" "record exceeds hard maximum")
  else do
    let bytes := encodeRawRecord lsn hlc payload
    .write .record (fun part s => s.mapDisk (·.modifyActive active.id (.append (bytes.take part))))
      (fun s => s.mapDisk (·.modifyActive active.id (.append bytes)))
    .modify (fun s => { s with
      active := some { active with writer := active.writer.record env.blake3 lsn hlc bytes.length hash } })

def rollFor (recordLen : Nat) : Engine Unit := do
  let s ← .get
  if s.needsRoll env recordLen then sealActiveLocked env else pure ()

/-- `elapsedMs` is the time since the last sync. -/
def syncIfDue (id elapsedMs : Nat) : Engine Unit :=
  if shouldSync env elapsedMs then .step .recordSync (fun s => s.mapDisk (·.modifyActive id .sync)) else pure ()

def appendInner (episode : Episode) (expectedLsn : Option Nat) (elapsedMs : Nat) : Engine Nat := do
  let payload ← .ofExcept ((env.encodePayload (ulidBytes episode.id) episode).mapError .serialization)
  let s ← .get
  let lsn := s.nextLsn
  match expectedLsn.filter (· ≠ lsn) with
  | some expected => .refuse (.casConflict expected lsn)
  | none => do
    let hash ← .ofExcept (persistedHasher env lsn episode.tsHlc payload)
    rollFor env (rawRecordHeaderLen + payload.length)
    let s ← .get
    match s.active with
    | none => .refuse noActive
    | some active =>
      if lsn ≠ active.writer.nextExpectedLsn then
        .refuse (corrupt "hrkl v6 append" "engine LSN does not match the active writer")
      else do
        writeRecord env active lsn episode.tsHlc payload hash
        syncIfDue env active.id elapsedMs
        .modify (fun s => { s with nextLsn := satAdd64 s.nextLsn 1 })
        pure lsn

def append (episode : Episode) (elapsedMs : Nat) : Engine Nat := do
  let tsHlc ← now env
  appendInner env (episode.stamp tsHlc) none elapsedMs

/-- The payload under an LSN, in a list of records. -/
def findPayload (lsn : Nat) (records : List RawRecord) : Option Bytes :=
  (records.find? (fun r => r.lsn == lsn)).map RawRecord.payload

def SegmentBytes.payloadAt (lsn : Nat) : SegmentBytes → Except HeraclitusError (Option Bytes)
  | .raw file => (scanRawBytes file.data).map (fun scan => findPayload lsn scan.records)
  | .packed file => .ok (findPayload lsn file.records)

/-- The bytes of the record: from the active file, or from the generation that the manifest names. -/
def findRecord (lsn : Nat) (manifest : DatabaseManifest) (active : ActiveSegment) : Engine (Option Bytes) :=
  if active.writer.header.firstLsn ≤ lsn then
    .look .read (fun s => s.disk.activeFile active.id >>= fun file => (SegmentBytes.raw file).payloadAt lsn)
  else
    match manifest.findSegmentForLsn lsn with
    | none => .refuse (corrupt "hrkl v6 read" s!"LSN {lsn} não está presente no manifesto")
    | some desc =>
      match desc.active with
      | none => .refuse (corrupt "hrkl v6 read" s!"segmento {desc.segmentId} sem geração ativa")
      | some generation =>
        .look .read (fun s => (s.disk.fileAt generation.location).elim (.error notFound) (·.payloadAt lsn))

def read (lsn : Nat) : Engine (Option (Nat × Episode)) := do
  let s ← .get
  if s.nextLsn ≤ lsn then pure none
  else
    match s.active with
    | none => .refuse noActive
    | some active => do
      let found ← findRecord lsn s.manifest active
      match found with
      | none => pure none
      | some payload => do
        let stored ← .ofExcept (env.decodePayload payload)
        pure (some (lsn, stored.2))

/-- `append_replicated`: an LSN below the head must already hold the same event. -/
def appendReplicated (lsn : Nat) (episode : Episode) (elapsedMs : Nat) : Engine Nat := do
  observe episode.tsHlc
  let s ← .get
  if lsn < s.nextLsn then do
    let found ← read env lsn
    if found.any (fun existing => existing.2.id == episode.id) then pure lsn else .refuse (.casConflict lsn s.nextLsn)
  else appendInner env episode (some lsn) elapsedMs

def flush : Engine Unit := do
  let s ← .get
  match s.active with
  | none => .refuse noActive
  | some active => .step .flush (fun s => s.mapDisk (·.modifyActive active.id .sync))

end V6
end Heraclitus
