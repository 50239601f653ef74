import Heraclitus.V6Find
/-!
# V6Packed — a PACKED segment (`heraclitus-log/src/v6/packed.rs`, `block_directory.rs`)

`header(64) ++ block* ++ directory ++ footer(128)`.  The directory repeats what the block headers say of their LSNs, so a
point lookup reads one block, and a range those that it meets.
-/
namespace Heraclitus
namespace V6

/-! ## The directory -/

structure BlockDirectoryEntryV1 where
  offset : Nat
  storedLen : Nat
  uncompressedLen : Nat
  recordCount : Nat
  flags : Nat
  firstLsn : Nat
  lastLsn : Nat
  minHlc : Nat
  maxHlc : Nat
  deriving DecidableEq

def BlockDirectoryEntryV1.fields (e : BlockDirectoryEntryV1) : List Bytes :=
  [leBytes 8 e.offset, leBytes 4 e.storedLen, leBytes 4 e.uncompressedLen, leBytes 4 e.recordCount, leBytes 4 e.flags,
    leBytes 8 e.firstLsn, leBytes 8 e.lastLsn, leBytes 8 e.minHlc, leBytes 8 e.maxHlc]

def BlockDirectoryEntryV1.encode (e : BlockDirectoryEntryV1) : Bytes := e.fields.flatten

def BlockDirectoryEntryV1.decode (buf : Bytes) : Except HeraclitusError BlockDirectoryEntryV1 :=
  if buf.length < dirEntryLen then .error (corrupt "hrkl v6 block directory entry" "short directory entry")
  else .ok {
    offset := leNat (buf.take 8)
    storedLen := leNat ((buf.drop 8).take 4)
    uncompressedLen := leNat ((buf.drop 12).take 4)
    recordCount := leNat ((buf.drop 16).take 4)
    flags := leNat ((buf.drop 20).take 4)
    firstLsn := leNat ((buf.drop 24).take 8)
    lastLsn := leNat ((buf.drop 32).take 8)
    minHlc := leNat ((buf.drop 40).take 8)
    maxHlc := leNat ((buf.drop 48).take 8) }

structure BlockDirectoryEntryV1.Wide (e : BlockDirectoryEntryV1) : Prop where
  offset : e.offset < 2 ^ 64
  storedLen : e.storedLen < 2 ^ 32
  uncompressedLen : e.uncompressedLen < 2 ^ 32
  recordCount : e.recordCount < 2 ^ 32
  flags : e.flags < 2 ^ 32
  firstLsn : e.firstLsn < 2 ^ 64
  lastLsn : e.lastLsn < 2 ^ 64
  minHlc : e.minHlc < 2 ^ 64
  maxHlc : e.maxHlc < 2 ^ 64

def BlockHeaderV1.toDirectoryEntry (h : BlockHeaderV1) (offset : Nat) : BlockDirectoryEntryV1 := {
  offset := offset, storedLen := h.compressedLen, uncompressedLen := h.uncompressedLen, recordCount := h.recordCount
  flags := h.flags, firstLsn := h.firstLsn, lastLsn := h.lastLsn, minHlc := h.baseHlc, maxHlc := h.maxHlc }

def BlockDirectoryEntryV1.containsLsn (e : BlockDirectoryEntryV1) (lsn : Nat) : Bool :=
  decide (0 < e.recordCount ∧ e.firstLsn ≤ lsn ∧ lsn ≤ e.lastLsn)

def BlockDirectoryEntryV1.mayContainLsnRange (e : BlockDirectoryEntryV1) (lo hi : Nat) : Bool :=
  decide (0 < e.recordCount ∧ lo ≤ e.lastLsn ∧ e.firstLsn ≤ hi)

abbrev BlockDirectory := List BlockDirectoryEntryV1

def BlockDirectory.encode (entries : BlockDirectory) : Bytes := entries.flatMap BlockDirectoryEntryV1.encode

/-- The checks of entry `i`; the previous block ends at `prevEnd`. -/
def checkEntry (regionEnd i prevEnd : Nat) (e : BlockDirectoryEntryV1) : Except HeraclitusError Unit :=
  let ctx := "hrkl v6 block directory"
  let blockEnd := e.offset + e.storedLen
  if u64Max < blockEnd then .error (corrupt ctx "block offset+len overflows u64")
  else if regionEnd < blockEnd then .error (corrupt ctx s!"block {i} ends at {blockEnd}, past file length {regionEnd}")
  else if e.offset < prevEnd then .error (corrupt ctx s!"block {i} overlaps the previous block")
  else if 0 < e.recordCount ∧ e.lastLsn < e.firstLsn then .error (corrupt ctx s!"block {i} has first_lsn > last_lsn")
  else if hardMaxBlockBytes < e.uncompressedLen then
    .error (corrupt ctx s!"block {i} declares {e.uncompressedLen} uncompressed bytes")
  else .ok ()

/-- The entries from number `i` on, of which `n` are left. -/
def decodeEntries (buf : Bytes) (regionEnd : Nat) : Nat → Nat → Nat → Except HeraclitusError BlockDirectory
  | _, _, 0 => .ok []
  | i, prevEnd, n + 1 =>
    match BlockDirectoryEntryV1.decode (buf.drop (i * dirEntryLen)) with
    | .error e => .error e
    | .ok e =>
      match checkEntry regionEnd i prevEnd e with
      | .error err => .error err
      | .ok () => (decodeEntries buf regionEnd (i + 1) (e.offset + e.storedLen) n).map (e :: ·)

/-- Neighbours with records are in the order of their first LSNs. -/
def orderedByFirstLsn : BlockDirectory → Bool
  | a :: b :: entries =>
    !decide (0 < a.recordCount ∧ 0 < b.recordCount ∧ b.firstLsn < a.firstLsn) && orderedByFirstLsn (b :: entries)
  | _ => true

def BlockDirectory.decode (buf : Bytes) (count blocksRegionEnd : Nat) : Except HeraclitusError BlockDirectory :=
  let ctx := "hrkl v6 block directory"
  let need := count * dirEntryLen
  if hardMaxBlocks < count then .error (corrupt ctx s!"block_count {count} above hard maximum")
  else if buf.length < need then .error (corrupt ctx s!"directory needs {need} bytes, got {buf.length}")
  else
    match decodeEntries buf blocksRegionEnd 0 0 count with
    | .error e => .error e
    | .ok entries =>
      if orderedByFirstLsn entries then .ok entries
      else .error (corrupt ctx "directory is not ordered by first_lsn")

def BlockDirectory.findBlockForLsn (entries : BlockDirectory) (lsn : Nat) : Option Nat :=
  let idx := partitionPoint (fun e => decide (e.lastLsn < lsn)) entries
  match entries[idx]? with
  | none => none
  | some e => if e.containsLsn lsn then some idx else none

def BlockDirectory.blocksForLsnRange (entries : BlockDirectory) (lo hi : Nat) : List Nat :=
  (entries.zipIdx.filter (fun e => e.1.mayContainLsnRange lo hi)).map Prod.snd

/-! ## The writer -/

structure PackOptions where
  blockTargetBytes : Nat
  restartInterval : Nat
  profile : PackingProfile
  worth : Nat → Nat → Bool
  maxBlockBytes : Nat

structure BlockBuilder where
  records : List RawRecord
  approxUncompressed : Nat
  blockTarget : Nat
  restartInterval : Nat

def BlockBuilder.new (blockTarget restartInterval : Nat) : BlockBuilder :=
  { records := [], approxUncompressed := 0, blockTarget := max minBlockTarget (min blockTarget maxBlockTarget)
    restartInterval := max restartInterval 1 }

def BlockBuilder.wouldOverflow (b : BlockBuilder) (payloadLen : Nat) : Bool :=
  decide (b.records ≠ [] ∧ b.blockTarget < b.approxUncompressed + payloadLen + 16)

def BlockBuilder.push (b : BlockBuilder) (r : RawRecord) : BlockBuilder :=
  { b with approxUncompressed := b.approxUncompressed + (r.payload.length + 16), records := b.records ++ [r] }

structure PackedSegmentWriter where
  file : Bytes
  opts : PackOptions
  builder : BlockBuilder
  directory : BlockDirectory
  acc : MerkleAccumulatorV1
  offset : Nat
  recordCount : Nat
  minLsn : Nat
  maxLsn : Nat
  minHlc : Nat
  maxHlc : Nat
  nextExpectedLsn : Nat
  contiguous : Bool
  anyNonMonotonicHlc : Bool

/-- The header that `create` writes. -/
def SegmentInit.packedHeader (init : SegmentInit) : FileHeaderV6 := { init.header with physicalLayout := .packed }

def PackedSegmentWriter.create (init : SegmentInit) (opts : PackOptions) : PackedSegmentWriter := {
  file := init.packedHeader.encode, opts := opts, builder := .new opts.blockTargetBytes opts.restartInterval, directory := []
  acc := .new, offset := fileHeaderLen, recordCount := 0, minLsn := u64Max, maxLsn := 0, minHlc := u64Max, maxHlc := 0
  nextExpectedLsn := init.firstLsn, contiguous := true, anyNonMonotonicHlc := false }

variable (codecs : Codecs) (blake3 : Bytes → Digest)

/-- The block is built of what the builder has, which it gives away. -/
def PackedSegmentWriter.flushBlock (w : PackedSegmentWriter) : Except HeraclitusError PackedSegmentWriter :=
  if w.builder.records = [] then .ok w
  else
    match buildBlock codecs w.builder.records w.builder.restartInterval w.opts.profile w.opts.worth with
    | .error e => .error e
    | .ok built => .ok { w with
        builder := { w.builder with records := [], approxUncompressed := 0 }
        file := w.file ++ (built.headerBytes ++ built.stored)
        offset := w.offset + (blockHeaderLen + built.stored.length)
        directory := w.directory ++ [built.header.toDirectoryEntry w.offset] }

def PackedSegmentWriter.push (w : PackedSegmentWriter) (r : RawRecord) (canonicalRecordHash : Digest) :
    Except HeraclitusError PackedSegmentWriter :=
  match if w.builder.wouldOverflow r.payload.length then w.flushBlock codecs else .ok w with
  | .error e => .error e
  | .ok w =>
    let w := { w with
      contiguous := w.contiguous && r.lsn == w.nextExpectedLsn
      nextExpectedLsn := satAdd64 r.lsn 1
      anyNonMonotonicHlc := w.anyNonMonotonicHlc || decide (0 < w.recordCount ∧ r.hlc < w.maxHlc)
      minLsn := min w.minLsn r.lsn
      maxLsn := max w.maxLsn r.lsn
      minHlc := min w.minHlc r.hlc
      maxHlc := max w.maxHlc r.hlc
      recordCount := w.recordCount + 1
      acc := w.acc.pushRecordHash blake3 canonicalRecordHash
      builder := w.builder.push r }
    if w.opts.blockTargetBytes ≤ w.builder.approxUncompressed then w.flushBlock codecs else .ok w

def PackedSegmentWriter.pushAll : PackedSegmentWriter → List (RawRecord × Digest) → Except HeraclitusError PackedSegmentWriter
  | w, [] => .ok w
  | w, r :: rs =>
    match w.push codecs blake3 r.1 r.2 with
    | .error e => .error e
    | .ok w => w.pushAll rs

/-- The footer, and the whole file. -/
def PackedSegmentWriter.finish (w : PackedSegmentWriter) : Except HeraclitusError (FooterV6 × Bytes) :=
  match w.flushBlock codecs with
  | .error e => .error e
  | .ok w =>
    let dirBytes := BlockDirectory.encode w.directory
    let none := w.recordCount == 0
    let footer : FooterV6 := {
      recordCount := w.recordCount
      minLsn := if none then 0 else w.minLsn
      maxLsn := if none then 0 else w.maxLsn
      minHlc := if none then 0 else w.minHlc
      maxHlc := if none then 0 else w.maxHlc
      blockCount := w.directory.length % 2 ^ 32
      flags := (if w.contiguous && !none then flagContiguousLsn else 0) ||| (if w.anyNonMonotonicHlc then flagHasNonMonotonicHlc else 0)
      blockDirectoryOffset := w.offset
      blockDirectoryLen := dirBytes.length
      logicalRoot := w.acc.finalize blake3 }
    .ok (footer, w.file ++ (dirBytes ++ footer.encode))

/-- A segment with these records, from `create` to `finish`. -/
def writePacked (init : SegmentInit) (opts : PackOptions) (records : List (RawRecord × Digest)) :
    Except HeraclitusError (FooterV6 × Bytes) :=
  match (PackedSegmentWriter.create init opts).pushAll codecs blake3 records with
  | .error e => .error e
  | .ok w => w.finish codecs blake3

/-! ## The reader -/

structure BlockSource where
  len : Nat
  readAt : Nat → Nat → Except HeraclitusError Bytes

/-- `MemorySource`. -/
def memorySource (data : Bytes) : BlockSource where
  len := data.length
  readAt offset len :=
    let ctx := "hrkl v6 source"
    if 2 ^ 64 ≤ offset + len then .error (corrupt ctx "offset+len overflows usize")
    else if data.length < offset + len then .error (corrupt ctx s!"range [{offset}..{offset + len}] past end of segment")
    else .ok ((data.drop offset).take len)

/-- `FileSource`. -/
def fileSource (data : Bytes) : BlockSource where
  len := data.length
  readAt offset len :=
    if data.length < satAdd64 offset len then .error (corrupt "hrkl v6 source" "range past end of segment")
    else .ok ((data.drop offset).take len)

structure ScanCounters where
  blocksCandidate : Nat
  blocksPruned : Nat
  blocksRead : Nat
  bytesPhysicalRead : Nat
  bytesDecompressed : Nat
  deriving DecidableEq

/-- `ScanCounters::default()`. -/
def ScanCounters.zero : ScanCounters :=
  { blocksCandidate := 0, blocksPruned := 0, blocksRead := 0, bytesPhysicalRead := 0, bytesDecompressed := 0 }

structure PackedSegmentReader where
  source : BlockSource
  header : FileHeaderV6
  footer : FooterV6
  directory : BlockDirectory
  maxBlockBytes : Nat

def PackedSegmentReader.open (source : BlockSource) (maxBlockBytes : Nat) : Except HeraclitusError PackedSegmentReader :=
  let ctx := "hrkl v6 packed open"
  if source.len < fileHeaderLen + footerLen then .error (corrupt ctx "file too small to hold a header and a footer")
  else do
    let headerBytes ← source.readAt 0 fileHeaderLen
    let header ← FileHeaderV6.decode headerBytes
    if header.physicalLayout ≠ .packed then .error (corrupt ctx "segment is not PACKED")
    else do
      let footerBytes ← source.readAt (source.len - footerLen) footerLen
      let footer ← FooterV6.decode footerBytes
      let dirEnd := footer.blockDirectoryOffset + footer.blockDirectoryLen
      if u64Max < dirEnd then .error (corrupt ctx "block directory range overflows u64")
      else if source.len - footerLen < dirEnd then .error (corrupt ctx "block directory overlaps the footer")
      else if footer.blockDirectoryLen ≠ footer.blockCount * dirEntryLen then
        .error (corrupt ctx "block_directory_len inconsistent with block_count")
      else do
        let dirBytes ← source.readAt footer.blockDirectoryOffset footer.blockDirectoryLen
        let directory ← BlockDirectory.decode dirBytes footer.blockCount footer.blockDirectoryOffset
        let declared := (directory.map BlockDirectoryEntryV1.recordCount).sum
        if declared ≠ footer.recordCount then
          .error (corrupt ctx s!"directory accounts for {declared} records, footer declares {footer.recordCount}")
        else .ok {
          source := source, header := header, footer := footer, directory := directory, maxBlockBytes := maxBlockBytes }

/-- A block, and the counters once it was read; a block that is refused after it was read counts. -/
def PackedSegmentReader.readBlock (reader : PackedSegmentReader) (index : Nat) (counters : ScanCounters) :
    Except HeraclitusError (BlockHeaderV1 × Bytes) × ScanCounters :=
  let ctx := "hrkl v6 packed block"
  match reader.directory[index]? with
  | none => (.error (corrupt ctx s!"block {index} out of range"), counters)
  | some entry =>
    let total := blockHeaderLen + entry.storedLen
    match reader.source.readAt entry.offset total with
    | .error e => (.error e, counters)
    | .ok bytes =>
      let counters := { counters with
        blocksRead := counters.blocksRead + 1, bytesPhysicalRead := counters.bytesPhysicalRead + total }
      match BlockHeaderV1.decode (bytes.take blockHeaderLen) (bytes.drop blockHeaderLen) with
      | .error e => (.error e, counters)
      | .ok header =>
        if header.firstLsn ≠ entry.firstLsn ∨ header.lastLsn ≠ entry.lastLsn ∨ header.recordCount ≠ entry.recordCount ∨
            header.uncompressedLen ≠ entry.uncompressedLen then
          (.error (corrupt ctx s!"block {index} header disagrees with the directory"), counters)
        else
          match decompressBody codecs header (bytes.drop blockHeaderLen) reader.maxBlockBytes with
          | .error e => (.error e, counters)
          | .ok body => (.ok (header, body), { counters with bytesDecompressed := counters.bytesDecompressed + body.length })

def PackedSegmentReader.get (reader : PackedSegmentReader) (lsn : Nat) (counters : ScanCounters) :
    Except HeraclitusError (Option (Nat × Bytes)) × ScanCounters :=
  let blocks := reader.directory.length
  let counters := { counters with blocksCandidate := counters.blocksCandidate + blocks }
  match reader.directory.findBlockForLsn lsn with
  | none => (.ok none, { counters with blocksPruned := counters.blocksPruned + blocks })
  | some index =>
    match reader.readBlock codecs index { counters with blocksPruned := counters.blocksPruned + (blocks - 1) } with
    | (.error e, counters) => (.error e, counters)
    | (.ok (header, body), counters) =>
      ((findRecordInBlock header body lsn).map (fun found => found.map (fun r => (r.hlc, r.payload))), counters)

/-- The records of these blocks that `keep` keeps. -/
def PackedSegmentReader.scanBlocks (reader : PackedSegmentReader) (keep : RawRecord → Bool) :
    List Nat → ScanCounters → Except HeraclitusError (List RawRecord) × ScanCounters
  | [], counters => (.ok [], counters)
  | i :: blocks, counters =>
    match reader.readBlock codecs i counters with
    | (.error e, counters) => (.error e, counters)
    | (.ok (header, body), counters) =>
      match decodeBlockRecords header body with
      | .error e => (.error e, counters)
      | .ok records =>
        match reader.scanBlocks keep blocks counters with
        | (.error e, counters) => (.error e, counters)
        | (.ok rest, counters) => (.ok (records.filter keep ++ rest), counters)

def PackedSegmentReader.scanLsnRange (reader : PackedSegmentReader) (lo hi : Nat) (counters : ScanCounters) :
    Except HeraclitusError (List RawRecord) × ScanCounters :=
  let candidates := reader.directory.blocksForLsnRange lo hi
  let blocks := reader.directory.length
  reader.scanBlocks codecs (fun r => decide (lo ≤ r.lsn ∧ r.lsn ≤ hi)) candidates { counters with
    blocksCandidate := counters.blocksCandidate + blocks
    blocksPruned := counters.blocksPruned + (blocks - candidates.length) }

def PackedSegmentReader.scanAll (reader : PackedSegmentReader) (counters : ScanCounters) :
    Except HeraclitusError (List RawRecord) × ScanCounters :=
  reader.scanBlocks codecs (fun _ => true) (List.range reader.directory.length) counters

end V6
end Heraclitus
