import Heraclitus.V6Engine
/-!
# V6Open — packing and opening (`heraclitus-log/src/v6/engine.rs`, `packer.rs`)

Opening puts the log together from file names, headers, footers, a torn tail and a manifest that is committed on its own.
The inventory is by the kind of file; the one kind of name that is not recognised is a generation of more than four digits.
-/
namespace Heraclitus
namespace V6

variable (env : Env)

/-! ## Packing -/

/-- `discover`, as far as it can fail. -/
def discover (d : Disk) : Except HeraclitusError Unit :=
  match d.packed.find? (fun e => decide (10 ^ 4 ≤ e.1.2)) with
  | some e => .error (corrupt "hrkl v6 boot" s!"unrecognised HRKL v6 filename {String.ofList (packedName e.1.1 e.1.2)}")
  | none => .ok ()

def nextPhysicalGeneration (desc : SegmentDescriptorV2) : Engine Nat := do
  .look .pack (fun s => discover s.disk)
  let s ← .get
  let found := (s.disk.packed.filter (fun e => e.1.1 == desc.segmentId)).map (fun e => e.1.2)
  let maximum := maxOf (desc.generations.map (·.generation) ++ found)
  if 2 ^ 32 ≤ maximum + 1 then .refuse (corrupt "hrkl v6 pack" "generation number exhausted")
  else pure (maximum + 1)

def Disk.packedAt (d : Disk) (id generation : Nat) : Option PackedFile :=
  (d.packed.find? (fun e => e.1 == (id, generation))).map Prod.snd

/-- `pack_segment`; the packed file is complete and checked before it gets its name. -/
def packSegment (profile : PackingProfile) (sourceLocation : String) (sourceGeneration segmentId targetGeneration : Nat) :
    Engine PackReceipt := do
  let ctx := "hrkl v6 packer"
  let scan ← .look .pack (fun s => match s.disk.fileAt sourceLocation with
    | some (.raw file) => scanRawBytes file.data
    | some (.packed _) => .error (corrupt "hrkl v6 raw scan" "segment is not RAW")
    | none => .error notFound)
  match scan.footer with
  | none => .refuse (corrupt ctx "refusing to pack an unsealed segment")
  | some footer =>
    let s ← .get
    if scan.tornAt.isSome then .refuse (corrupt ctx "sealed segment has trailing bytes after the footer")
    else if scan.header.canonicalCodec ≠ canonicalCodecV1 then
      .refuse (corrupt ctx s!"unsupported canonical codec {scan.header.canonicalCodec}")
    else if scan.records.length ≠ footer.recordCount then
      .refuse (corrupt ctx s!"source has {scan.records.length} records, footer declares {footer.recordCount}")
    else if (s.disk.packedAt segmentId targetGeneration).isSome then
      .refuse (corrupt ctx "target generation already exists; generations are immutable")
    else do
      -- the temporary file is created, filled and synced
      .step .pack id
      let root ← .ofExcept (recomputeRoot env.blake3 (persistedHasher env) .new scan.records)
      let blocks ← .ofExcept (env.packBlocks profile scan.records)
      if root ≠ footer.logicalRoot then
        .refuse (corrupt ctx
          "PACKED logical_root differs from RAW; refusing to publish a non-equivalent generation")
      else do
        -- it is read back and compared with the root
        .step .pack id
        let target : PackedFile :=
          { header := { scan.header with physicalLayout := .packed, flags := flagContiguousLsn }, records := scan.records }
        .step .pack (fun s => s.mapDisk (fun d => { d with packed := d.packed ++ [((segmentId, targetGeneration), target)] }))
        -- the directory is synced
        .step .pack id
        let source ← .look .pack (fun s => (s.disk.fileAt sourceLocation).elim (.error notFound) (fun file =>
          .ok (file.digest env)))
        let sourceSize ← .look .pack (fun s => match s.disk.fileAt sourceLocation with
          | some (.raw file) => .ok file.data.length
          | some (.packed file) => .ok (env.packedSize file)
          | none => .error notFound)
        .look .pack (fun s => if (s.disk.packedAt segmentId targetGeneration).isSome then .ok () else .error notFound)
        pure {
          segmentId := scan.header.segmentId, storageNamespaceId := scan.header.storageNamespaceId
          sourceGeneration := sourceGeneration, sourcePhysicalDigest := source, targetGeneration := targetGeneration
          targetPhysicalDigest := env.packedDigest target, logicalRoot := root, canonicalCodec := canonicalCodecV1
          codec := if blocks = 0 then .raw else profile.codec, blockSize := defaultBlockTarget
          firstLsn := footer.minLsn, lastLsn := footer.maxLsn, recordCount := footer.recordCount
          sourcePhysicalSize := sourceSize, targetPhysicalSize := env.packedSize target, packerVersion := packerVersion
          createdHlc := scan.header.createdHlc }

/-- One turn of `pack_pending`. -/
def packOne (profile : PackingProfile) (id : Nat) : Engine PackReceipt := do
  let s ← .get
  match s.manifest.segment id with
  | none => .refuse (corrupt "hrkl v6 pack" s!"segmento {id} desapareceu da fila")
  | some desc =>
    match desc.generations.find? (fun g => g.layout == .raw) with
    | none => .refuse (corrupt "hrkl v6 pack" s!"segmento {id} sem geração RAW")
    | some source => do
      let targetGeneration ← nextPhysicalGeneration desc
      let receipt ← packSegment env profile source.location source.generation id targetGeneration
      let nowHlc ← now env
      let m ← .ofExcept (recordPack s.manifest receipt (packedLocation id targetGeneration) nowHlc)
      .modify (fun t => { t with manifest := m })
      commit.onError (fun t => { t with manifest := s.manifest })
      pure receipt

def packAll (profile : PackingProfile) : List Nat → Engine (List PackReceipt)
  | [] => pure []
  | id :: ids => do
    let receipt ← packOne env profile id
    let receipts ← packAll profile ids
    pure (receipt :: receipts)

def packPending (profile : PackingProfile) : Engine (List PackReceipt) := do
  let s ← .get
  packAll env profile s.manifest.packingQueue

/-! ## Opening -/

def emptyManifest (namespaceId : Bytes) : DatabaseManifest :=
  { manifestVersion := 1, formatIdentifier := hrkmMagic, storageNamespaceId := namespaceId }

/-- `new_namespace`; `seed` is the path, the process id and the time. -/
def newNamespace (seed : Bytes) : Bytes :=
  (env.blake3 ("HERACLITUS:HRKL:V6:NAMESPACE\x00".toList.map (fun c => UInt8.ofNat c.toNat) ++ seed)).1.take 16

/-- One namespace in all headers. -/
def sameNamespace : Option Bytes → List File → Except HeraclitusError (Option Bytes)
  | found, [] => .ok found
  | found, file :: files =>
    match readV6Header file.data with
    | .error e => .error e
    | .ok header =>
      if found.any (· ≠ header.storageNamespaceId) then
        .error (corrupt "hrkl v6 boot" "storage namespace differs between on-disk segments")
      else sameNamespace (some header.storageNamespaceId) files

def discoverNamespace (d : Disk) : Except HeraclitusError (Option Bytes) :=
  sameNamespace none (d.raw.entries.map Prod.snd ++ d.active.entries.map Prod.snd)

def reconcileAll : List Nat → Engine Bool
  | [] => pure false
  | id :: ids => do
    let changed ← reconcileRaw env id
    let rest ← reconcileAll ids
    pure (changed || rest)

/-- The loop of `validate_manifest_ranges`: the LSN behind the segments. -/
def validateRanges : List Nat → Nat → List SegmentDescriptorV2 → Except HeraclitusError Nat
  | _, expectedLsn, [] => .ok expectedLsn
  | ids, expectedLsn, desc :: segments =>
    let ctx := "hrkl v6 manifest"
    if desc.segmentId ∈ ids then .error (corrupt ctx "duplicate segment_id")
    else if desc.recordCount = 0 then .error (corrupt ctx "empty segment was catalogued")
    else if desc.firstLsn ≠ expectedLsn then
      .error (corrupt ctx s!"LSN ranges must be contiguous: expected {expectedLsn}, found {desc.firstLsn}")
    else if u64Max < desc.lastLsn + 1 then .error (corrupt ctx "last LSN overflows u64")
    else validateRanges (desc.segmentId :: ids) (desc.lastLsn + 1) segments

def validateManifestRanges (m : DatabaseManifest) : Except HeraclitusError Unit :=
  match validateRanges [] 0 m.segmentsV2 with
  | .error e => .error e
  | .ok expectedLsn =>
    if m.segmentsV2 ≠ [] ∧ m.cumulativeWatermark ≠ expectedLsn - 1 then
      .error (corrupt "hrkl v6 manifest" "cumulative watermark disagrees with sealed LSN ranges")
    else .ok ()

def nextLsnFromManifest (m : DatabaseManifest) : Except HeraclitusError Nat :=
  match validateManifestRanges m with
  | .error e => .error e
  | .ok () =>
    match m.segmentsV2.getLast? with
    | none => .ok 0
    | some s => if u64Max < s.lastLsn + 1 then .error (corrupt "hrkl v6 manifest" "last LSN overflows u64") else .ok (s.lastLsn + 1)

def nextSegmentId (m : DatabaseManifest) : Nat :=
  if m.segmentsV2 = [] then 0 else satAdd64 (maxOf (m.segmentsV2.map (·.segmentId))) 1

/-- `validate_catalogued_generations`, for one generation. -/
def validateGeneration (d : Disk) (namespaceId : Bytes) (id : Nat) (generation : PhysicalGeneration) :
    Except HeraclitusError Unit :=
  match d.fileAt generation.location with
  | none => .error (corrupt "hrkl v6 boot" s!"catalogued generation is missing: {generation.location}")
  | some file => do
    let header ← file.header
    checkHeaderIdentity header id namespaceId generation.layout
    if file.digest env ≠ generation.physicalDigest then
      .error (corrupt "hrkl v6 boot" "catalogued generation physical digest mismatch")
    else .ok ()

def validateCataloguedGenerations (d : Disk) (m : DatabaseManifest) : Except HeraclitusError Unit :=
  m.segmentsV2.forM (fun desc => desc.generations.forM (validateGeneration env d m.storageNamespaceId desc.segmentId))

def validateActiveRecords (scan : RawScan) (expectedFirst : Nat) : Except HeraclitusError Unit :=
  let ctx := "hrkl v6 boot"
  if scan.footer.isSome || scan.tornAt.isSome then
    .error (corrupt ctx "active scan must be repaired and unsealed before resume")
  else
    let rec go : Nat → List RawRecord → Except HeraclitusError Unit
      | _, [] => .ok ()
      | expected, r :: records =>
        if r.lsn ≠ expected then .error (corrupt ctx s!"active tail LSN {r.lsn} != expected {expected}")
        else if u64Max < expected + 1 then .error (corrupt ctx "LSN overflow in active tail")
        else go (expected + 1) records
    match go expectedFirst scan.records with
    | .error e => .error e
    | .ok () =>
      if scan.header.firstLsn ≠ expectedFirst then
        .error (corrupt ctx "active header first_lsn disagrees with catalogued history")
      else .ok ()

/-- An active file with a valid footer gets its final name.  The answer: is there a tail left, did the catalogue change? -/
def promote (id : Nat) : Engine (Option Nat × Bool) := do
  let header ← .look .boot (fun s => s.disk.activeFile id >>= fun file => readV6Header file.data)
  let s ← .get
  .ofExcept (checkHeaderIdentity header id s.manifest.storageNamespaceId .raw)
  let footer ← .look .boot (fun s => s.disk.activeFile id >>= fun file => .ok (readFooter file.data))
  if footer.isNone then pure (some id, false)
  else if s.disk.raw.contains id then
    .refuse (corrupt "hrkl v6 boot" "active file with footer collides with an existing RAW generation")
  else do
    .step .boot (fun s => s.mapDisk (·.rename id))
    let changed ← reconcileRaw env id
    pure (none, changed)

def promoteAny : Option Nat → Engine (Option Nat × Bool)
  | none => pure (none, false)
  | some id => promote env id

/-- The end of `repair_active_tail`. -/
def truncate (id : Nat) : Option Nat → Engine Unit
  | none => pure ()
  | some at_ => do
    .step .boot (fun s => s.mapDisk (·.modifyActive id (fun file =>
      { data := file.data.take at_, durable := min file.durable at_ })))
    .step .boot (fun s => s.mapDisk (·.modifyActive id .sync))

/-- The tail is repaired and goes on. -/
def resumeActive (id : Nat) : Engine Unit := do
  let tornAt ← .look .boot (fun s => s.disk.activeFile id >>= fun file => repairActiveTail file.data)
  truncate id tornAt
  let scan ← .look .boot (fun s => s.disk.activeFile id >>= fun file => scanRawBytes file.data)
  let s ← .get
  .ofExcept (checkHeaderIdentity scan.header id s.manifest.storageNamespaceId .raw)
  .ofExcept (validateActiveRecords scan s.nextLsn)
  -- without records nothing is observed; the clock is not behind 0
  observe (maxOf (scan.records.map RawRecord.hlc))
  let writer ← .look .boot (fun s => s.disk.activeFile id >>= fun file =>
    RawSegmentWriter.resume env.blake3 (persistedHasher env) file.data)
  if writer.nextExpectedLsn < s.nextLsn then
    .refuse (corrupt "hrkl v6 boot" "active tail ends before catalogued history")
  else .modify (fun s => { s with active := some { id := id, writer := writer }, nextLsn := writer.nextExpectedLsn })

/-- The manifest that was loaded, or an empty one of the namespace that the segments are in. -/
def bootManifest (seed : Bytes) : Option DatabaseManifest → Engine DatabaseManifest
  | some m => pure m
  | none => do
    let found ← .look .boot (fun s => discoverNamespace s.disk)
    pure (emptyManifest (found.getD (newNamespace env seed)))

def commitIf (changed : Bool) : Engine Unit := if changed then commit else pure ()

/-- What `open` ends with. -/
def activate (tail : Option Nat) : Engine Unit := do
  let s ← .get
  let nextLsn ← .ofExcept (nextLsnFromManifest s.manifest)
  .modify (fun s => { s with nextLsn := nextLsn })
  match tail with
  | some id => resumeActive env id
  | none => createActive env (nextSegmentId s.manifest)

/-- `V6Log::open`. -/
def openLog (seed : Bytes) : Engine Unit := do
  if env.segmentMaxBytes = 0 then .refuse (.config "segment_max_bytes do V6Log não pode ser zero")
  else do
    let loaded ← .look .boot (fun s => .ok s.disk.load)
    .look .boot (fun s => discover s.disk)
    let s ← .get
    if 1 < s.disk.active.entries.length then
      .refuse (corrupt "hrkl v6 boot" "more than one active RAW tail; refusing ambiguous recovery")
    else do
      let manifest ← bootManifest env seed loaded
      .modify (fun s => { s with clock := .new, manifest := manifest, active := none, nextLsn := 0 })
      let reconciled ← reconcileAll env (s.disk.raw.entries.map Prod.fst)
      let s ← .get
      .ofExcept (validateManifestRanges s.manifest)
      .look .boot (fun s => validateCataloguedGenerations env s.disk s.manifest)
      let (tail, promoted) ← promoteAny env (s.disk.active.entries.head?.map Prod.fst)
      commitIf (reconciled || promoted)
      activate env tail

/-! ## The calls -/

inductive Call where
  | append (episode : Episode) (elapsedMs : Nat)
  | appendReplicated (lsn : Nat) (episode : Episode) (elapsedMs : Nat)
  | flush
  | sealActive
  | packPending (profile : PackingProfile)

inductive Answer where
  | appended (lsn : Nat)
  | done
  | packed (receipts : List PackReceipt)
  deriving DecidableEq

def Call.run : Call → Engine Answer
  | .append episode elapsedMs => do pure (.appended (← V6.append env episode elapsedMs))
  | .appendReplicated lsn episode elapsedMs => do pure (.appended (← V6.appendReplicated env lsn episode elapsedMs))
  | .flush => do
    V6.flush
    pure .done
  | .sealActive => do
    sealActiveLocked env
    pure .done
  | .packPending profile => do pure (.packed (← V6.packPending env profile))

end V6
end Heraclitus
