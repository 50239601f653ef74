import Heraclitus.V6Engine
import Heraclitus.V6Hrkm
import Heraclitus.V6RawScan
import Heraclitus.V6Writer
/-!
# V6Block — the blocks of a PACKED segment (`heraclitus-log/src/v6/block.rs`, `compress.rs`)

`header(64) ++ stored`, where the stored bytes are the body, compressed or not.  The body is the records and then the restart
points.  LSNs and HLCs are deltas or left out where the block allows it; at a restart point they stand in full.
-/
namespace Heraclitus
namespace V6

open Legacy (crc32c)
open Hrkm (readV sliceAt codecByte codecFromByte)

def blockMagic : Bytes := [0x48, 0x42, 0x4c, 0x4b]
def blockHeaderLen : Nat := 64
def restartEntryLen : Nat := 24
def minBlockTarget : Nat := 64 * 1024
def maxBlockTarget : Nat := 1024 * 1024
def hardMaxBlockBytes : Nat := 64 * 1024 * 1024

/-- The flags of a block. -/
def flagSparseLsn : Nat := 1
def flagHlcAbsolute : Nat := 2
def flagLargeRecord : Nat := 4
def unknownBlockFlags : Nat := 0xf8

def recordFlagBits : Nat := 3

/-- `{:#04x}`. -/
def hex2 (n : Nat) : String := "0x" ++ String.ofList ((List.range 2).reverse.map (fun i => Nat.digitChar (n / 16 ^ i % 16)))

/-- `u32::div_ceil`, of a number that is not zero. -/
def divCeil (n k : Nat) : Nat := (n + (k - 1)) / k

/-! ## Compression -/

/-- The codecs from outside. -/
structure Codecs where
  zstdCompress : Nat → Bytes → Except String Bytes
  zstdDecompress : Bytes → Nat → Except String Bytes
  lz4Compress : Bytes → Bytes
  lz4Decompress : Bytes → Nat → Except String Bytes

def PackingProfile.level : PackingProfile → Nat
  | .fast => 1
  | .balanced => 3
  | .archive => 6

structure Compressed where
  codec : CompressionCodec
  bytes : Bytes

variable (codecs : Codecs)

/-- `worth` is the comparison of the two lengths under `raw_fallback_ratio`. -/
def compressBlock (data : Bytes) (profile : PackingProfile) (worth : Nat → Nat → Bool) : Except HeraclitusError Compressed :=
  if data = [] then .ok { codec := .raw, bytes := [] }
  else
    let candidate : Except HeraclitusError (Option Bytes) :=
      match profile.codec with
      | .raw => .ok none
      | .zstd =>
        match codecs.zstdCompress profile.level data with
        | .ok c => .ok (some c)
        | .error e => .error (corrupt "hrkl v6 packer" s!"zstd compress failed: {e}")
      | .lz4Raw => .ok (some (codecs.lz4Compress data))
    match candidate with
    | .error e => .error e
    | .ok (some c) => .ok (if worth c.length data.length then { codec := profile.codec, bytes := c } else { codec := .raw, bytes := data })
    | .ok none => .ok { codec := .raw, bytes := data }

def decompressBlock (codec : CompressionCodec) (stored : Bytes) (uncompressedLen maxBlock : Nat) : Except HeraclitusError Bytes :=
  let ctx := "hrkl v6 block"
  let ceiling := min maxBlock hardMaxBlockBytes
  if ceiling < uncompressedLen then
    .error (corrupt ctx s!"uncompressed_len {uncompressedLen} exceeds configured maximum {ceiling}")
  else
    let out : Except HeraclitusError Bytes :=
      match codec with
      | .raw =>
        if stored.length ≠ uncompressedLen then
          .error (corrupt ctx s!"raw block stores {stored.length} bytes but declares {uncompressedLen}")
        else .ok stored
      | .zstd =>
        match codecs.zstdDecompress stored uncompressedLen with
        | .ok out => .ok out
        | .error e => .error (corrupt ctx s!"zstd decompress failed: {e}")
      | .lz4Raw =>
        match codecs.lz4Decompress stored uncompressedLen with
        | .ok out => .ok out
        | .error e => .error (corrupt ctx s!"lz4 decompress failed: {e}")
    match out with
    | .error e => .error e
    | .ok out =>
      if out.length ≠ uncompressedLen then
        .error (corrupt ctx s!"decompressed to {out.length} bytes, header declares {uncompressedLen}")
      else .ok out

/-! ## The header -/

structure BlockHeaderV1 where
  codec : CompressionCodec
  flags : Nat
  uncompressedLen : Nat
  compressedLen : Nat
  recordCount : Nat
  restartInterval : Nat
  restartCount : Nat
  firstLsn : Nat
  lastLsn : Nat
  baseHlc : Nat
  maxHlc : Nat
  dictionaryId : Nat
  deriving DecidableEq

/-- The fields in front of the checksum. -/
def BlockHeaderV1.fields (h : BlockHeaderV1) : List Bytes :=
  [blockMagic, leBytes 2 blockHeaderLen, [codecByte h.codec], leBytes 1 h.flags, leBytes 4 h.uncompressedLen,
    leBytes 4 h.compressedLen, leBytes 4 h.recordCount, leBytes 2 h.restartInterval, leBytes 2 h.restartCount,
    leBytes 8 h.firstLsn, leBytes 8 h.lastLsn, leBytes 8 h.baseHlc, leBytes 8 h.maxHlc]

def BlockHeaderV1.encodeWithCrc (h : BlockHeaderV1) (crc : Nat) : Bytes :=
  h.fields.flatten ++ (leBytes 4 crc ++ leBytes 4 h.dictionaryId)

/-- The checksum covers the header, itself as zeros, and the stored bytes. -/
def BlockHeaderV1.encode (h : BlockHeaderV1) (stored : Bytes) : Bytes :=
  h.encodeWithCrc (crc32c (h.encodeWithCrc 0 ++ stored)).toNat

def BlockHeaderV1.isSparseLsn (h : BlockHeaderV1) : Bool := h.flags &&& flagSparseLsn != 0

def BlockHeaderV1.isHlcAbsolute (h : BlockHeaderV1) : Bool := h.flags &&& flagHlcAbsolute != 0

/-- The bytes of the records; the restart points follow. -/
def BlockHeaderV1.recordsRegionLen (h : BlockHeaderV1) : Nat := h.uncompressedLen - h.restartCount * restartEntryLen

def BlockHeaderV1.checkCoherence (h : BlockHeaderV1) (storedLen : Nat) : Except HeraclitusError Unit :=
  let ctx := "hrkl v6 block header"
  if h.compressedLen ≠ storedLen then .error (corrupt ctx s!"compressed_len {h.compressedLen} != {storedLen} stored bytes")
  else if hardMaxBlockBytes < h.uncompressedLen then
    .error (corrupt ctx s!"uncompressed_len {h.uncompressedLen} above hard maximum")
  else if h.recordCount = 0 then .error (corrupt ctx "empty block")
  else if h.lastLsn < h.firstLsn then .error (corrupt ctx "first_lsn > last_lsn")
  else if h.maxHlc < h.baseHlc then .error (corrupt ctx "base_hlc > max_hlc")
  else if h.restartInterval = 0 then .error (corrupt ctx "restart_interval is zero")
  else if h.restartCount ≠ divCeil h.recordCount h.restartInterval then
    .error (corrupt ctx s!"restart_count {h.restartCount} != ceil({h.recordCount}/{h.restartInterval})")
  else if h.uncompressedLen < h.restartCount * restartEntryLen then
    .error (corrupt ctx "restart array does not fit in the block")
  else if ¬h.isSparseLsn ∧ satAdd64 (h.lastLsn - h.firstLsn) 1 ≠ h.recordCount then
    .error (corrupt ctx "contiguous block whose LSN span does not match record_count")
  else .ok ()

def BlockHeaderV1.decode (buf stored : Bytes) : Except HeraclitusError BlockHeaderV1 :=
  let ctx := "hrkl v6 block header"
  if buf.length < blockHeaderLen then .error (corrupt ctx "short block header")
  else if buf.take 4 ≠ blockMagic then .error (corrupt ctx "bad block magic")
  else
    let headerLen := leNat ((buf.drop 4).take 2)
    let storedCrc := leNat ((buf.drop 56).take 4)
    let actual := (crc32c (buf.take 56 ++ (leBytes 4 0 ++ (buf.drop 60).take 4) ++ stored)).toNat
    let flags := leNat ((buf.drop 7).take 1)
    if headerLen ≠ blockHeaderLen then .error (corrupt ctx s!"header_len {headerLen} != {blockHeaderLen}")
    else if storedCrc ≠ actual then .error (corrupt ctx (crcMismatch storedCrc actual))
    else if flags &&& unknownBlockFlags ≠ 0 then .error (corrupt ctx s!"unknown block flag bits in {hex2 flags}")
    else
      match codecFromByte ((buf.drop 6).headD 0) with
      | .error e => .error e
      | .ok codec =>
        let h : BlockHeaderV1 := {
          codec := codec
          flags := flags
          uncompressedLen := leNat ((buf.drop 8).take 4)
          compressedLen := leNat ((buf.drop 12).take 4)
          recordCount := leNat ((buf.drop 16).take 4)
          restartInterval := leNat ((buf.drop 20).take 2)
          restartCount := leNat ((buf.drop 22).take 2)
          firstLsn := leNat ((buf.drop 24).take 8)
          lastLsn := leNat ((buf.drop 32).take 8)
          baseHlc := leNat ((buf.drop 40).take 8)
          maxHlc := leNat ((buf.drop 48).take 8)
          dictionaryId := leNat ((buf.drop 60).take 4) }
        match h.checkCoherence stored.length with
        | .error e => .error e
        | .ok () => .ok h

structure BlockHeaderV1.Wide (h : BlockHeaderV1) : Prop where
  flags : h.flags < 2 ^ 3
  uncompressedLen : h.uncompressedLen < 2 ^ 32
  compressedLen : h.compressedLen < 2 ^ 32
  recordCount : h.recordCount < 2 ^ 32
  restartInterval : h.restartInterval < 2 ^ 16
  restartCount : h.restartCount < 2 ^ 16
  firstLsn : h.firstLsn < 2 ^ 64
  lastLsn : h.lastLsn < 2 ^ 64
  baseHlc : h.baseHlc < 2 ^ 64
  maxHlc : h.maxHlc < 2 ^ 64
  dictionaryId : h.dictionaryId < 2 ^ 32

/-! ## The builder -/

structure RestartPoint where
  ordinal : Nat
  byteOffset : Nat
  absoluteHlc : Nat
  absoluteLsn : Nat
  deriving DecidableEq

def RestartPoint.encode (p : RestartPoint) : Bytes :=
  leBytes 4 p.ordinal ++ (leBytes 4 p.byteOffset ++ (leBytes 8 p.absoluteHlc ++ leBytes 8 p.absoluteLsn))

def RestartPoint.decode (buf : Bytes) : RestartPoint := {
  ordinal := leNat (buf.take 4)
  byteOffset := leNat ((buf.drop 4).take 4)
  absoluteHlc := leNat ((buf.drop 8).take 8)
  absoluteLsn := leNat ((buf.drop 16).take 8) }

structure BuiltBlock where
  header : BlockHeaderV1
  headerBytes : Bytes
  stored : Bytes
  logicalPayloadBytes : Nat

/-- The bytes of one record; `boundary` says that it is at a restart point. -/
def recordPiece (sparse hlcAbsolute boundary : Bool) (prevLsn prevHlc : Nat) (r : RawRecord) : Bytes :=
  putVarint (r.payload.length <<< recordFlagBits) ++
    ((if sparse then putVarint (if boundary then r.lsn else r.lsn - prevLsn) else []) ++
      (putVarint (if hlcAbsolute || boundary then r.hlc else r.hlc - prevHlc) ++ r.payload))

structure BuildState where
  body : Bytes
  restarts : List RestartPoint
  prevLsn : Nat
  prevHlc : Nat

/-- One turn of the loop over the records. -/
def buildRecord (restartInterval : Nat) (sparse hlcAbsolute : Bool) (s : BuildState) (i : Nat) (r : RawRecord) :
    Except HeraclitusError BuildState :=
  let ctx := "hrkl v6 block builder"
  let boundary := i % restartInterval == 0
  if boundary ∧ 2 ^ 32 ≤ s.body.length then .error (corrupt ctx "block body exceeds 4 GiB")
  else if hardMaxRecordBytes < r.payload.length then .error (corrupt ctx "record exceeds hard maximum")
  else if sparse ∧ ¬boundary ∧ r.lsn < s.prevLsn then .error (corrupt ctx "LSN went backwards")
  else if ¬(hlcAbsolute || boundary) ∧ r.hlc < s.prevHlc then
    .error (corrupt ctx "HLC went backwards in a monotonic block")
  else .ok {
    body := s.body ++ recordPiece sparse hlcAbsolute boundary s.prevLsn s.prevHlc r
    restarts := if boundary then
        s.restarts ++ [{ ordinal := i, byteOffset := s.body.length, absoluteHlc := r.hlc, absoluteLsn := r.lsn }]
      else s.restarts
    prevLsn := r.lsn
    prevHlc := r.hlc }

def buildLoop (restartInterval : Nat) (sparse hlcAbsolute : Bool) : Nat → BuildState → List RawRecord →
    Except HeraclitusError BuildState
  | _, s, [] => .ok s
  | i, s, r :: rs =>
    match buildRecord restartInterval sparse hlcAbsolute s i r with
    | .error e => .error e
    | .ok s => buildLoop restartInterval sparse hlcAbsolute (i + 1) s rs

/-- `r.lsn == first_lsn.wrapping_add(i)`, from record `i` on. -/
def contiguousFrom (firstLsn : Nat) : Nat → List RawRecord → Bool
  | _, [] => true
  | i, r :: rs => r.lsn == (firstLsn + i) % 2 ^ 64 && contiguousFrom firstLsn (i + 1) rs

def monotonicHlc : List RawRecord → Bool
  | a :: b :: rs => decide (a.hlc ≤ b.hlc) && monotonicHlc (b :: rs)
  | _ => true

def buildBlock (records : List RawRecord) (restartInterval : Nat) (profile : PackingProfile) (worth : Nat → Nat → Bool) :
    Except HeraclitusError BuiltBlock :=
  let ctx := "hrkl v6 block builder"
  match records with
  | [] => .error (corrupt ctx "cannot build an empty block")
  | first :: rest =>
    let records := first :: rest
    let restartInterval := max restartInterval 1
    let sparse := !contiguousFrom first.lsn 0 records
    let hlcAbsolute := !monotonicHlc records
    let large := records.length == 1 && decide (defaultBlockTarget < first.payload.length)
    let flags := (if sparse then flagSparseLsn else 0) ||| (if hlcAbsolute then flagHlcAbsolute else 0) |||
      (if large then flagLargeRecord else 0)
    match buildLoop restartInterval sparse hlcAbsolute 0
        { body := [], restarts := [], prevLsn := first.lsn, prevHlc := first.hlc } records with
    | .error e => .error e
    | .ok s =>
      let body := s.body ++ s.restarts.flatMap RestartPoint.encode
      if 2 ^ 32 ≤ body.length then .error (corrupt ctx "block exceeds 4 GiB uncompressed")
      else
        match compressBlock codecs body profile worth with
        | .error e => .error e
        | .ok compressed =>
          if 2 ^ 32 ≤ compressed.bytes.length then .error (corrupt ctx "block exceeds 4 GiB stored")
          else if 2 ^ 16 ≤ s.restarts.length then .error (corrupt ctx "too many restart points for u16")
          else
            let header : BlockHeaderV1 := {
              codec := compressed.codec
              flags := flags
              uncompressedLen := body.length
              compressedLen := compressed.bytes.length
              recordCount := records.length % 2 ^ 32
              restartInterval := restartInterval
              restartCount := s.restarts.length
              firstLsn := first.lsn
              lastLsn := ((records.getLast?).getD first).lsn
              baseHlc := minOf (records.map RawRecord.hlc)
              maxHlc := maxOf (records.map RawRecord.hlc)
              dictionaryId := 0 }
            .ok {
              header := header
              headerBytes := header.encode compressed.bytes
              stored := compressed.bytes
              logicalPayloadBytes := (records.map (fun r => r.payload.length)).sum }

/-! ## The decoder -/

def decompressBody (header : BlockHeaderV1) (stored : Bytes) (maxBlock : Nat) : Except HeraclitusError Bytes :=
  decompressBlock codecs header.codec stored header.uncompressedLen maxBlock

structure RecordCursor where
  pos : Nat
  ordinal : Nat
  prevLsn : Nat
  prevHlc : Nat

def RecordCursor.start (header : BlockHeaderV1) (body : Bytes) : Except HeraclitusError RecordCursor :=
  if body.length ≠ header.uncompressedLen then
    .error (corrupt "hrkl v6 block" "body length does not match uncompressed_len")
  else .ok { pos := 0, ordinal := 0, prevLsn := header.firstLsn, prevHlc := header.baseHlc }

/-- Is the record under the cursor at a restart point? -/
def RecordCursor.atBoundary (header : BlockHeaderV1) (c : RecordCursor) : Bool := c.ordinal % header.restartInterval == 0

def RecordCursor.readLsn (header : BlockHeaderV1) (c : RecordCursor) : Reader HeraclitusError Nat :=
  let ctx := "hrkl v6 packed record"
  if header.isSparseLsn then do
    let raw ← readV ctx
    if c.atBoundary header then pure raw
    else if u64Max < c.prevLsn + raw then Reader.fail (corrupt ctx "LSN delta overflows u64")
    else pure (c.prevLsn + raw)
  else if u64Max < header.firstLsn + c.ordinal then Reader.fail (corrupt ctx "LSN overflows u64")
  else pure (header.firstLsn + c.ordinal)

def RecordCursor.readHlc (header : BlockHeaderV1) (c : RecordCursor) : Reader HeraclitusError Nat := do
  let ctx := "hrkl v6 packed record"
  let raw ← readV ctx
  if header.isHlcAbsolute || c.atBoundary header then pure raw
  else if u64Max < c.prevHlc + raw then Reader.fail (corrupt ctx "HLC delta overflows u64")
  else pure (c.prevHlc + raw)

/-- The record under the cursor, in the region of the records. -/
def RecordCursor.readRecord (header : BlockHeaderV1) (c : RecordCursor) : Reader HeraclitusError RawRecord := do
  let ctx := "hrkl v6 packed record"
  let recordMeta ← readV ctx
  if recordMeta % 2 ^ recordFlagBits ≠ 0 then Reader.fail (corrupt ctx "reserved record flag bits are set")
  else
    let payloadLen := recordMeta >>> recordFlagBits
    if hardMaxRecordBytes < payloadLen then Reader.fail (corrupt ctx "payload_len above hard maximum")
    else
      let lsn ← c.readLsn header
      if lsn < header.firstLsn ∨ header.lastLsn < lsn then
        Reader.fail (corrupt ctx "record LSN falls outside the block's declared range")
      else
        let hlc ← c.readHlc header
        if hlc < header.baseHlc ∨ header.maxHlc < hlc then
          Reader.fail (corrupt ctx "record HLC falls outside the block's declared zone map")
        else
          let payload ← sliceAt ctx payloadLen
          pure { lsn := lsn, hlc := hlc, payload := payload }

def RecordCursor.nextRecord (header : BlockHeaderV1) (body : Bytes) (c : RecordCursor) :
    Except HeraclitusError (Option (RawRecord × RecordCursor)) :=
  if header.recordCount ≤ c.ordinal ∨ header.recordsRegionLen ≤ c.pos then .ok none
  else
    match c.readRecord header (body.take header.recordsRegionLen) c.pos with
    | .error e => .error e
    | .ok (r, pos) => .ok (some (r, { pos := pos, ordinal := c.ordinal + 1, prevLsn := r.lsn, prevHlc := r.hlc }))

/-- `while let Some(r) = cur.next_record()?`; the ordinal goes up to the record count, so as many turns are enough. -/
def decodeLoop (header : BlockHeaderV1) (body : Bytes) : Nat → RecordCursor → Except HeraclitusError (List RawRecord)
  | 0, _ => .ok []
  | fuel + 1, c =>
    match c.nextRecord header body with
    | .error e => .error e
    | .ok none => .ok []
    | .ok (some (r, c)) => (decodeLoop header body fuel c).map (r :: ·)

def decodeBlockRecords (header : BlockHeaderV1) (body : Bytes) : Except HeraclitusError (List RawRecord) :=
  match RecordCursor.start header body with
  | .error e => .error e
  | .ok c =>
    match decodeLoop header body (header.recordCount + 1) c with
    | .error e => .error e
    | .ok out =>
      if out.length ≠ header.recordCount then
        .error (corrupt "hrkl v6 block" s!"decoded {out.length} records, header declares {header.recordCount}")
      else .ok out

/-! ## The header is read back -/

theorem BlockHeaderV1.length_fields (h : BlockHeaderV1) : h.fields.flatten.length = 56 := by
  simp [BlockHeaderV1.fields, blockMagic]

theorem BlockHeaderV1.length_encodeWithCrc (h : BlockHeaderV1) (crc : Nat) : (h.encodeWithCrc crc).length = blockHeaderLen := by
  rw [BlockHeaderV1.encodeWithCrc, List.length_append, h.length_fields, List.length_append, length_leBytes, length_leBytes]
  rfl

/-- **What is read back of a header**: it is coherent, or refused. -/
theorem BlockHeaderV1.decode_encode_eq {h : BlockHeaderV1} (hw : h.Wide) (stored : Bytes) :
    BlockHeaderV1.decode (h.encode stored) stored = (h.checkCoherence stored.length).map (fun _ => h) := by
  have h56 := h.length_fields
  generalize hcrc : (crc32c (h.encodeWithCrc 0 ++ stored)).toNat = crc
  have hcrc32 : crc < 256 ^ 4 := hcrc ▸ (crc32c (h.encodeWithCrc 0 ++ stored)).toNat_lt
  have hbuf : h.encode stored = h.fields.flatten ++ (leBytes 4 crc ++ leBytes 4 h.dictionaryId) := by
    rw [BlockHeaderV1.encode, hcrc]
    rfl
  have hlen : ¬(h.encode stored).length < blockHeaderLen := by
    rw [BlockHeaderV1.encode, h.length_encodeWithCrc]
    omega
  have hfield : ∀ {i k n : Nat} {f : Bytes}, h.fields[i]? = some f → start h.fields i = k → f.length = n →
      ((h.encode stored).drop k).take n = f := fun hf hk hn => by
    rw [hbuf]
    exact take_drop_piece hf hk hn
  have hmagic : (h.encode stored).take 4 = blockMagic := hfield (i := 0) (k := 0) rfl rfl rfl
  have hheaderLen := hfield (i := 1) (k := 4) rfl rfl (length_leBytes 2 _)
  have hcodec := hfield (i := 2) (k := 6) rfl (by simp [Heraclitus.start, fields, blockMagic]) (n := 1) rfl
  have hflags := hfield (i := 3) (k := 7) rfl (by simp [Heraclitus.start, fields, blockMagic]) (length_leBytes 1 _)
  have huncompressed := hfield (i := 4) (k := 8) rfl (by simp [Heraclitus.start, fields, blockMagic]) (length_leBytes 4 _)
  have hcompressed := hfield (i := 5) (k := 12) rfl (by simp [Heraclitus.start, fields, blockMagic]) (length_leBytes 4 _)
  have hcount := hfield (i := 6) (k := 16) rfl (by simp [Heraclitus.start, fields, blockMagic]) (length_leBytes 4 _)
  have hinterval := hfield (i := 7) (k := 20) rfl (by simp [Heraclitus.start, fields, blockMagic]) (length_leBytes 2 _)
  have hrestarts := hfield (i := 8) (k := 22) rfl (by simp [Heraclitus.start, fields, blockMagic]) (length_leBytes 2 _)
  have hfirst := hfield (i := 9) (k := 24) rfl (by simp [Heraclitus.start, fields, blockMagic]) (length_leBytes 8 _)
  have hlast := hfield (i := 10) (k := 32) rfl (by simp [Heraclitus.start, fields, blockMagic]) (length_leBytes 8 _)
  have hbase := hfield (i := 11) (k := 40) rfl (by simp [Heraclitus.start, fields, blockMagic]) (length_leBytes 8 _)
  have hmax := hfield (i := 12) (k := 48) rfl (by simp [Heraclitus.start, fields, blockMagic]) (length_leBytes 8 _)
  have hstored : ((h.encode stored).drop 56).take 4 = leBytes 4 crc := by
    rw [hbuf, List.drop_left' h56, List.take_left' (length_leBytes 4 _)]
  have hdictionary : ((h.encode stored).drop 60).take 4 = leBytes 4 h.dictionaryId := by
    rw [hbuf, ← List.append_assoc, List.drop_left' (by rw [List.length_append, h56, length_leBytes]),
      List.take_of_length_le (by rw [length_leBytes])]
  have hcovered : (h.encode stored).take 56 = h.fields.flatten := by rw [hbuf, List.take_left' h56]
  have hhead : ((h.encode stored).drop 6).headD 0 = codecByte h.codec := by
    rw [List.headD_eq_head?_getD]
    have := congrArg List.head? hcodec
    rw [List.head?_take, if_neg (by decide)] at this
    rw [this]
    rfl
  have hzeroed : h.fields.flatten ++ (leBytes 4 0 ++ leBytes 4 h.dictionaryId) ++ stored = h.encodeWithCrc 0 ++ stored := rfl
  have hknown : h.flags &&& unknownBlockFlags = 0 := by
    have hall : ∀ n < 2 ^ 3, n &&& unknownBlockFlags = 0 := by decide
    exact hall h.flags hw.flags
  have hflag : h.flags < 256 ^ 1 := Nat.lt_trans hw.flags (by decide)
  unfold BlockHeaderV1.decode
  dsimp only
  rw [if_neg hlen, hmagic, if_neg (fun hne => hne rfl), hheaderLen, leNat_leBytes_of_lt (by decide),
    if_neg (fun hne => hne rfl), hstored, hcovered, hdictionary, leNat_leBytes_of_lt hcrc32, hzeroed, hcrc,
    if_neg (fun hne => hne rfl), hflags, leNat_leBytes_of_lt hflag, if_neg (fun hne => hne hknown), hhead,
    Hrkm.codecFromByte_codecByte]
  dsimp only
  rw [huncompressed, hcompressed, hcount, hinterval, hrestarts, hfirst, hlast, hbase, hmax,
    leNat_leBytes_of_lt hw.uncompressedLen, leNat_leBytes_of_lt hw.compressedLen, leNat_leBytes_of_lt hw.recordCount,
    leNat_leBytes_of_lt hw.restartInterval, leNat_leBytes_of_lt hw.restartCount, leNat_leBytes_of_lt hw.firstLsn,
    leNat_leBytes_of_lt hw.lastLsn, leNat_leBytes_of_lt hw.baseHlc, leNat_leBytes_of_lt hw.maxHlc,
    leNat_leBytes_of_lt hw.dictionaryId]
  cases h.checkCoherence stored.length <;> rfl

/-- **A coherent header is read back.** -/
theorem BlockHeaderV1.decode_encode {h : BlockHeaderV1} (hw : h.Wide) {stored : Bytes}
    (hcoherent : h.checkCoherence stored.length = .ok ()) : BlockHeaderV1.decode (h.encode stored) stored = .ok h := by
  rw [BlockHeaderV1.decode_encode_eq hw, hcoherent]
  rfl

/-! ## What the builder writes -/

/-- Record `i`. -/
def nth (rs : List RawRecord) (i : Nat) : RawRecord := rs.getD i { lsn := 0, hlc := 0, payload := [] }

theorem nth_of_getElem? {rs : List RawRecord} {i : Nat} {r : RawRecord} (h : rs[i]? = some r) : nth rs i = r := by
  rw [nth, List.getD_eq_getElem?_getD, h]
  rfl

theorem getElem?_nth {rs : List RawRecord} {i : Nat} (h : i < rs.length) : rs[i]? = some (nth rs i) := by
  rw [List.getElem?_eq_getElem h]
  exact congrArg some (nth_of_getElem? (List.getElem?_eq_getElem h)).symm

theorem nth_mem {rs : List RawRecord} {i : Nat} (h : i < rs.length) : nth rs i ∈ rs := List.mem_of_getElem? (getElem?_nth h)

variable (k : Nat) (sparse hlcAbsolute : Bool) (rs : List RawRecord)

def pieceAt (i : Nat) : Bytes :=
  recordPiece sparse hlcAbsolute (i % k == 0) (nth rs (i - 1)).lsn (nth rs (i - 1)).hlc (nth rs i)

/-- The bytes of the records, one piece for each. -/
def pieces : List Bytes := (List.range rs.length).map (pieceAt k sparse hlcAbsolute rs)

/-- Restart point `j`, at record `j * k`. -/
def pointAt (j : Nat) : RestartPoint := {
  ordinal := j * k
  byteOffset := start (pieces k sparse hlcAbsolute rs) (j * k)
  absoluteHlc := (nth rs (j * k)).hlc
  absoluteLsn := (nth rs (j * k)).lsn }

/-- The restart points up to record `i`. -/
def points (i : Nat) : List RestartPoint := (List.range (divCeil i k)).map (pointAt k sparse hlcAbsolute rs)

@[simp] theorem length_pieces : (pieces k sparse hlcAbsolute rs).length = rs.length := by simp [pieces]

@[simp] theorem length_points (i : Nat) : (points k sparse hlcAbsolute rs i).length = divCeil i k := by simp [points]

variable {k sparse hlcAbsolute rs}

theorem getElem?_pieces {i : Nat} (h : i < rs.length) :
    (pieces k sparse hlcAbsolute rs)[i]? = some (pieceAt k sparse hlcAbsolute rs i) := by
  rw [pieces, List.getElem?_map, List.getElem?_range h]
  rfl

theorem start_pieces_succ {i : Nat} (h : i < rs.length) : start (pieces k sparse hlcAbsolute rs) (i + 1)
    = start (pieces k sparse hlcAbsolute rs) i + (pieceAt k sparse hlcAbsolute rs i).length :=
  start_succ (getElem?_pieces h)

theorem length_putVarint_pos (v : Nat) : 0 < (putVarint v).length := by
  rw [putVarint, putGroups]
  split <;> simp

theorem length_pieceAt_pos (i : Nat) : 0 < (pieceAt k sparse hlcAbsolute rs i).length := by
  have := length_putVarint_pos ((nth rs i).payload.length <<< recordFlagBits)
  rw [pieceAt, recordPiece, List.length_append]
  omega

theorem divCeil_zero (hk : 0 < k) : divCeil 0 k = 0 := by
  rw [divCeil, Nat.zero_add]
  exact Nat.div_eq_of_lt (by omega)

theorem divCeil_of_mod_eq_zero (hk : 0 < k) {i : Nat} (h : i % k = 0) : divCeil i k = i / k := by
  have hlow : (k - 1) / k = 0 := Nat.div_eq_of_lt (by omega)
  have hsum : i + (k - 1) = k - 1 + k * (i / k) := by
    have hdiv := Nat.div_add_mod i k
    rw [h, Nat.add_zero] at hdiv
    rw [hdiv, Nat.add_comm]
  rw [divCeil, hsum, Nat.add_mul_div_left _ _ hk, hlow, Nat.zero_add]

theorem divCeil_of_mod_pos (hk : 0 < k) {i : Nat} (h : 0 < i % k) : divCeil i k = i / k + 1 := by
  have hlow : (i % k - 1) / k = 0 := Nat.div_eq_of_lt (by have := Nat.mod_lt i hk; omega)
  have hsum : i + (k - 1) = i % k - 1 + k + k * (i / k) := by
    have hdiv := Nat.div_add_mod i k
    generalize k * (i / k) = whole at hdiv ⊢
    omega
  rw [divCeil, hsum, Nat.add_mul_div_left _ _ hk, Nat.add_div_right _ hk, hlow, Nat.zero_add, Nat.add_comm]

/-- There is one restart point more just at the multiples of `k`. -/
theorem divCeil_succ (hk : 0 < k) (i : Nat) : divCeil (i + 1) k = if i % k = 0 then divCeil i k + 1 else divCeil i k := by
  have hnext : divCeil (i + 1) k = i / k + 1 := by
    have hsum : i + 1 + (k - 1) = i + k := by omega
    rw [divCeil, hsum, Nat.add_div_right i hk]
  rw [hnext]
  split
  · rename_i hmod
    rw [divCeil_of_mod_eq_zero hk hmod]
  · rename_i hmod
    rw [divCeil_of_mod_pos hk (Nat.pos_of_ne_zero hmod)]

theorem divCeil_mul_of_dvd (hk : 0 < k) {i : Nat} (h : i % k = 0) : divCeil i k * k = i := by
  rw [divCeil_of_mod_eq_zero hk h, Nat.div_mul_cancel (Nat.dvd_of_mod_eq_zero h)]

theorem le_divCeil_mul (hk : 0 < k) (i : Nat) : i ≤ divCeil i k * k := by
  have hdiv := Nat.div_add_mod i k
  rw [Nat.mul_comm] at hdiv
  rcases Nat.eq_zero_or_pos (i % k) with hmod | hmod
  · rw [divCeil_of_mod_eq_zero hk hmod]
    omega
  · have := Nat.mod_lt i hk
    rw [divCeil_of_mod_pos hk hmod, Nat.succ_mul]
    omega

theorem mul_lt_of_lt_divCeil (hk : 0 < k) {j n : Nat} (hj : j < divCeil n k) : j * k < n := by
  have hmul := Nat.mul_le_mul_right k hj
  have hle : divCeil n k * k ≤ n + (k - 1) := Nat.div_mul_le_self _ _
  rw [Nat.succ_mul] at hmul
  omega

variable (k sparse hlcAbsolute rs) in
/-- What the loop has done when it comes to record `i`. -/
structure Built (i : Nat) (s : BuildState) : Prop where
  body : s.body = ((pieces k sparse hlcAbsolute rs).take i).flatten
  restarts : s.restarts = points k sparse hlcAbsolute rs i
  prevLsn : s.prevLsn = (nth rs (i - 1)).lsn
  prevHlc : s.prevHlc = (nth rs (i - 1)).hlc

variable (k sparse rs) in
/-- What was checked of record `i`. -/
structure Checked (i : Nat) : Prop where
  payload : (nth rs i).payload.length ≤ hardMaxRecordBytes
  ascending : sparse = true → i % k ≠ 0 → (nth rs (i - 1)).lsn ≤ (nth rs i).lsn

/-- **One turn** adds the record's piece, and a restart point where one is due. -/
theorem Built.record (hk : 0 < k) {i : Nat} {s s' : BuildState} (h : Built k sparse hlcAbsolute rs i s) (hi : i < rs.length)
    (hs : buildRecord k sparse hlcAbsolute s i (nth rs i) = .ok s') :
    Built k sparse hlcAbsolute rs (i + 1) s' ∧ Checked k sparse rs i := by
  unfold buildRecord at hs
  dsimp only at hs
  obtain ⟨-, hs⟩ := guard_eq_ok.1 hs
  obtain ⟨hbound, hs⟩ := guard_eq_ok.1 hs
  obtain ⟨hback, hs⟩ := guard_eq_ok.1 hs
  obtain ⟨-, hs⟩ := guard_eq_ok.1 hs
  cases hs
  have hascending : sparse = true → i % k ≠ 0 → (nth rs (i - 1)).lsn ≤ (nth rs i).lsn := by
    intro hsparse hmod
    by_contra hlt
    refine hback ⟨hsparse, fun hz => hmod (beq_iff_eq.1 hz), ?_⟩
    rw [h.prevLsn]
    exact Nat.not_le.1 hlt
  have hpiece : recordPiece sparse hlcAbsolute (i % k == 0) s.prevLsn s.prevHlc (nth rs i)
      = pieceAt k sparse hlcAbsolute rs i := by rw [h.prevLsn, h.prevHlc, pieceAt]
  refine ⟨⟨?_, ?_, rfl, rfl⟩, Nat.not_lt.1 hbound, hascending⟩
  · dsimp only
    rw [hpiece, h.body, List.take_add_one, getElem?_pieces hi, Option.toList_some, List.flatten_append,
      List.flatten_singleton]
  · dsimp only
    rw [points, divCeil_succ hk]
    by_cases hmod : i % k = 0
    · have hoffset : s.body.length = start (pieces k sparse hlcAbsolute rs) i := congrArg List.length h.body
      rw [if_pos (beq_iff_eq.2 hmod), if_pos hmod, List.range_succ, List.map_append, h.restarts, hoffset]
      simp [points, pointAt, divCeil_mul_of_dvd hk hmod]
    · rw [if_neg (fun hz => hmod (beq_iff_eq.1 hz)), if_neg hmod, h.restarts, points]

/-- **The whole loop.** -/
theorem Built.loop (hk : 0 < k) : ∀ (rest : List RawRecord) {i : Nat} {s s' : BuildState}, rs.drop i = rest → i ≤ rs.length →
    Built k sparse hlcAbsolute rs i s → buildLoop k sparse hlcAbsolute i s rest = .ok s' →
    Built k sparse hlcAbsolute rs rs.length s' ∧ ∀ j, i ≤ j → j < rs.length → Checked k sparse rs j
  | [], i, s, s', hdrop, hi, h, hs => by
    cases hs
    have heq : i = rs.length := Nat.le_antisymm hi (List.drop_eq_nil_iff.1 hdrop)
    exact ⟨heq ▸ h, fun j hij hj => absurd (Nat.lt_of_le_of_lt hij hj) (by omega)⟩
  | r :: rest, i, s, s', hdrop, hi, h, hs => by
    have hlt : i < rs.length := by
      by_contra hge
      rw [List.drop_eq_nil_of_le (Nat.not_lt.1 hge)] at hdrop
      cases hdrop
    have hget := getElem?_nth hlt
    rw [List.drop_eq_getElem_cons hlt] at hdrop
    obtain ⟨hr, hrest⟩ := List.cons.inj hdrop
    have hnth : nth rs i = r := nth_of_getElem? (by rw [List.getElem?_eq_getElem hlt, hr])
    rw [buildLoop] at hs
    cases hrecord : buildRecord k sparse hlcAbsolute s i r with
    | error e =>
      rw [hrecord] at hs
      cases hs
    | ok s₁ =>
      rw [hrecord] at hs
      rw [← hnth] at hrecord
      obtain ⟨hbuilt, hchecked⟩ := h.record hk hlt hrecord
      obtain ⟨hdone, hrests⟩ := hbuilt.loop hk rest hrest hlt hs
      refine ⟨hdone, fun j hij hj => ?_⟩
      rcases Nat.lt_or_eq_of_le hij with hlater | rfl
      · exact hrests j hlater hj
      · exact hchecked

/-! ## The records are read back -/

variable (k sparse hlcAbsolute rs) in
/-- What a header says of the records of its block, in whatever order they are. -/
structure Describes (header : BlockHeaderV1) : Prop where
  pos : 0 < k
  nonempty : 0 < rs.length
  recordCount : header.recordCount = rs.length
  restartInterval : header.restartInterval = k
  restartCount : header.restartCount = divCeil rs.length k
  firstLsn : header.firstLsn = (nth rs 0).lsn
  lastLsn : header.lastLsn = (nth rs (rs.length - 1)).lsn
  isSparseLsn : header.isSparseLsn = sparse
  isHlcAbsolute : header.isHlcAbsolute = hlcAbsolute
  region : header.recordsRegionLen = (pieces k sparse hlcAbsolute rs).flatten.length
  wide : ∀ r ∈ rs, r.Wide
  hlcs : ∀ r ∈ rs, header.baseHlc ≤ r.hlc ∧ r.hlc ≤ header.maxHlc
  ascending : sparse = true → ∀ i, i < rs.length → i % k ≠ 0 → (nth rs (i - 1)).lsn ≤ (nth rs i).lsn
  contiguous : sparse = false → ∀ i, i < rs.length → (nth rs i).lsn = (header.firstLsn + i) % 2 ^ 64
  monotonic : hlcAbsolute = false → ∀ i, i + 1 < rs.length → (nth rs i).hlc ≤ (nth rs (i + 1)).hlc

variable (k sparse hlcAbsolute rs) in
/-- What a header says of the records of its block, if their LSNs go up. -/
structure Fits (header : BlockHeaderV1) : Prop where
  pos : 0 < k
  nonempty : 0 < rs.length
  recordCount : header.recordCount = rs.length
  restartInterval : header.restartInterval = k
  restartCount : header.restartCount = divCeil rs.length k
  firstLsn : header.firstLsn = (nth rs 0).lsn
  lastLsn : header.lastLsn = (nth rs (rs.length - 1)).lsn
  isSparseLsn : header.isSparseLsn = sparse
  isHlcAbsolute : header.isHlcAbsolute = hlcAbsolute
  region : header.recordsRegionLen = (pieces k sparse hlcAbsolute rs).flatten.length
  wide : ∀ r ∈ rs, r.Wide
  lsns : ∀ r ∈ rs, header.firstLsn ≤ r.lsn ∧ r.lsn ≤ header.lastLsn
  hlcs : ∀ r ∈ rs, header.baseHlc ≤ r.hlc ∧ r.hlc ≤ header.maxHlc
  sorted : ∀ i, i + 1 < rs.length → (nth rs i).lsn < (nth rs (i + 1)).lsn
  contiguous : sparse = false → ∀ i, i < rs.length → (nth rs i).lsn = header.firstLsn + i
  monotonic : hlcAbsolute = false → ∀ i, i + 1 < rs.length → (nth rs i).hlc ≤ (nth rs (i + 1)).hlc

variable (k sparse hlcAbsolute rs) in
/-- A cursor at record `i`; at a restart point it need not know what came before. -/
structure RecordCursor.At (i : Nat) (c : RecordCursor) : Prop where
  pos : c.pos = Heraclitus.start (pieces k sparse hlcAbsolute rs) i
  ordinal : c.ordinal = i
  prevLsn : i % k ≠ 0 → c.prevLsn = (nth rs (i - 1)).lsn
  prevHlc : i % k ≠ 0 → c.prevHlc = (nth rs (i - 1)).hlc

variable {header : BlockHeaderV1} {c : RecordCursor} {i : Nat}

theorem Fits.describes (h : Fits k sparse hlcAbsolute rs header) : Describes k sparse hlcAbsolute rs header := by
  refine ⟨h.pos, h.nonempty, h.recordCount, h.restartInterval, h.restartCount, h.firstLsn, h.lastLsn, h.isSparseLsn,
    h.isHlcAbsolute, h.region, h.wide, h.hlcs, fun _ i hi hmod => ?_, fun hfalse i hi => ?_, h.monotonic⟩
  · have hpos : 0 < i := Nat.pos_of_ne_zero (fun hz => hmod (by rw [hz, Nat.zero_mod]))
    have hlt := h.sorted (i - 1) (by omega)
    have hsucc : i - 1 + 1 = i := Nat.succ_pred_eq_of_pos hpos
    rw [hsucc] at hlt
    exact Nat.le_of_lt hlt
  · have hlt := (h.wide _ (nth_mem hi)).lsn
    rw [h.contiguous hfalse i hi] at hlt ⊢
    exact (Nat.mod_eq_of_lt hlt).symm

theorem nth_pred_hlc_le (hdesc : Describes k sparse hlcAbsolute rs header) (hi : i < rs.length) (hmod : i % k ≠ 0)
    (hmonotonic : hlcAbsolute = false) : (nth rs (i - 1)).hlc ≤ (nth rs i).hlc := by
  have hpos : 0 < i := Nat.pos_of_ne_zero (fun hz => hmod (by rw [hz, Nat.zero_mod]))
  have hsucc : i - 1 + 1 = i := Nat.succ_pred_eq_of_pos hpos
  have := hdesc.monotonic hmonotonic (i - 1) (by omega)
  rwa [hsucc] at this

/-- What the cursor makes of the LSN of record `i`. -/
def checkLsn (header : BlockHeaderV1) (i : Nat) (r : RawRecord) : Except HeraclitusError Nat :=
  if ¬header.isSparseLsn ∧ u64Max < header.firstLsn + i then .error (corrupt "hrkl v6 packed record" "LSN overflows u64")
  else .ok r.lsn

/-- What the cursor makes of record `i`. -/
def checkRecord (header : BlockHeaderV1) (i : Nat) (r : RawRecord) : Except HeraclitusError RawRecord := do
  let lsn ← checkLsn header i r
  if lsn < header.firstLsn ∨ header.lastLsn < lsn then
    .error (corrupt "hrkl v6 packed record" "record LSN falls outside the block's declared range")
  else .ok r

section Takes

variable (hdesc : Describes k sparse hlcAbsolute rs header) (hc : c.At k sparse hlcAbsolute rs i) (hi : i < rs.length)
include hdesc hc

theorem atBoundary_eq : c.atBoundary header = (i % k == 0) := by
  rw [RecordCursor.atBoundary, hc.ordinal, hdesc.restartInterval]

include hi

theorem answers_readLsn : (c.readLsn header).Answers
    (if sparse then putVarint (if i % k == 0 then (nth rs i).lsn else (nth rs i).lsn - (nth rs (i - 1)).lsn) else [])
    (checkLsn header i (nth rs i)) := by
  have hwide := (hdesc.wide _ (nth_mem hi)).lsn
  unfold RecordCursor.readLsn checkLsn
  dsimp only
  rw [hdesc.isSparseLsn, atBoundary_eq hdesc hc, hc.ordinal]
  cases sparse with
  | false =>
    rw [if_neg Bool.false_ne_true, if_neg Bool.false_ne_true]
    by_cases hover : u64Max < header.firstLsn + i
    · rw [if_pos hover, if_pos ⟨Bool.false_ne_true, hover⟩]
      exact Reader.answers_fail _ _
    · have heq := hdesc.contiguous rfl i hi
      rw [Nat.mod_eq_of_lt (by rw [u64Max] at hover; omega)] at heq
      rw [if_neg hover, if_neg (fun h => hover h.2), heq]
      exact (Reader.takes_pure _).answers
  | true =>
    have hin : ¬(¬(true = true) ∧ u64Max < header.firstLsn + i) := fun h => h.1 rfl
    rw [if_pos rfl, if_pos rfl, if_neg hin]
    by_cases hmod : i % k = 0
    · have hboundary : (i % k == 0) = true := beq_iff_eq.2 hmod
      rw [hboundary, if_pos rfl]
      exact ((Hrkm.takes_readV _ hwide).bind_end (Reader.takes_pure _)).answers
    · have hboundary : (i % k == 0) = false := beq_false_of_ne hmod
      have hle := hdesc.ascending rfl i hi hmod
      rw [hboundary, if_neg Bool.false_ne_true]
      refine ((Hrkm.takes_readV _ (by omega)).bind_end ?_).answers
      have hsum : c.prevLsn + ((nth rs i).lsn - (nth rs (i - 1)).lsn) = (nth rs i).lsn := by
        rw [hc.prevLsn hmod]
        omega
      rw [hsum, if_neg Bool.false_ne_true, if_neg (by rw [u64Max]; omega)]
      exact Reader.takes_pure _

theorem takes_readHlc : (c.readHlc header).Takes
    (putVarint (if hlcAbsolute || i % k == 0 then (nth rs i).hlc else (nth rs i).hlc - (nth rs (i - 1)).hlc)) (nth rs i).hlc := by
  have hwide := (hdesc.wide _ (nth_mem hi)).hlc
  unfold RecordCursor.readHlc
  rw [hdesc.isHlcAbsolute, atBoundary_eq hdesc hc]
  cases hany : (hlcAbsolute || i % k == 0) with
  | true =>
    rw [if_pos rfl]
    exact (Hrkm.takes_readV _ hwide).bind_end (Reader.takes_pure _)
  | false =>
    obtain ⟨hmonotonic, hboundary⟩ := Bool.or_eq_false_iff.1 hany
    have hmod : i % k ≠ 0 := fun hz => Bool.false_ne_true (hboundary.symm.trans (beq_iff_eq.2 hz))
    have hle := nth_pred_hlc_le hdesc hi hmod hmonotonic
    rw [if_neg Bool.false_ne_true]
    refine (Hrkm.takes_readV _ (by omega)).bind_end ?_
    have hsum : c.prevHlc + ((nth rs i).hlc - (nth rs (i - 1)).hlc) = (nth rs i).hlc := by
      rw [hc.prevHlc hmod]
      omega
    rw [hsum, if_neg Bool.false_ne_true, if_neg (by rw [u64Max]; omega)]
    exact Reader.takes_pure _

/-- **A record is read back** from its piece, or refused. -/
theorem answers_readRecord :
    (c.readRecord header).Answers (pieceAt k sparse hlcAbsolute rs i) (checkRecord header i (nth rs i)) := by
  have hmem := nth_mem hi
  have hwide := hdesc.wide _ hmem
  have hhlcs := hdesc.hlcs _ hmem
  have hshift : (nth rs i).payload.length <<< recordFlagBits = (nth rs i).payload.length * 2 ^ recordFlagBits :=
    Nat.shiftLeft_eq _ _
  have hmod : (nth rs i).payload.length <<< recordFlagBits % 2 ^ recordFlagBits = 0 := by
    rw [hshift, Nat.mul_mod_left]
  have hback : (nth rs i).payload.length <<< recordFlagBits >>> recordFlagBits = (nth rs i).payload.length := by
    rw [hshift, Nat.shiftRight_eq_div_pow, Nat.mul_div_cancel _ (by decide)]
  have hbound := hwide.payload
  unfold RecordCursor.readRecord pieceAt recordPiece
  refine (Hrkm.takes_readV _ (by rw [hshift]; simp only [hardMaxRecordBytes, recordFlagBits] at hbound ⊢; omega)).answers.bind
    (y := fun _ => checkRecord header i (nth rs i)) (fun recordMeta hmeta => ?_)
  cases hmeta
  rw [if_neg (fun hne => hne hmod)]
  dsimp only
  rw [hback, if_neg (Nat.not_lt.2 hbound)]
  refine (answers_readLsn hdesc hc hi).bind (fun lsn hlsn => ?_)
  have heq : lsn = (nth rs i).lsn := by
    unfold checkLsn at hlsn
    split at hlsn <;> cases hlsn
    rfl
  rw [heq]
  split
  · exact Reader.answers_fail _ _
  · refine Reader.Takes.answers ((takes_readHlc hdesc hc hi).bind ?_)
    rw [if_neg (by omega)]
    exact (Hrkm.takes_sliceAt _ rfl).bind_end (Reader.takes_pure _)

/-- **The cursor goes on by one record**, or refuses it. -/
theorem nextRecord_map {body tail : Bytes} (hbody : body = (pieces k sparse hlcAbsolute rs).flatten ++ tail) :
    ∃ c', c.nextRecord header body = (checkRecord header i (nth rs i)).map (fun r => some (r, c')) ∧
      c'.At k sparse hlcAbsolute rs (i + 1) := by
  have hpiece : (pieces k sparse hlcAbsolute rs)[i]? = some (pieceAt k sparse hlcAbsolute rs i) := getElem?_pieces hi
  have hsucc : Heraclitus.start (pieces k sparse hlcAbsolute rs) (i + 1) = _ := start_pieces_succ hi
  have hpos : 0 < (pieceAt k sparse hlcAbsolute rs i).length := length_pieceAt_pos i
  have hend : Heraclitus.start (pieces k sparse hlcAbsolute rs) (i + 1) ≤ (pieces k sparse hlcAbsolute rs).flatten.length := by
    rw [← start_length]
    exact start_mono _ (by rw [length_pieces]; exact hi)
  obtain ⟨rest, hdrop⟩ := drop_start hpiece
  have hregion : body.take header.recordsRegionLen = (pieces k sparse hlcAbsolute rs).flatten := by
    rw [hdesc.region, hbody, List.take_left]
  have hread := answers_readRecord hdesc hc hi (pieces k sparse hlcAbsolute rs).flatten c.pos rest (by rw [hc.pos]; omega)
    (by rw [hc.pos]; exact hdrop)
  have hmore : ¬(header.recordCount ≤ c.ordinal ∨ header.recordsRegionLen ≤ c.pos) := by
    rw [hdesc.recordCount, hdesc.region, hc.ordinal, hc.pos]
    omega
  refine ⟨{
    pos := c.pos + (pieceAt k sparse hlcAbsolute rs i).length, ordinal := c.ordinal + 1
    prevLsn := (nth rs i).lsn, prevHlc := (nth rs i).hlc }, ?_, ⟨?_, ?_, fun _ => rfl, fun _ => rfl⟩⟩
  · rw [RecordCursor.nextRecord, if_neg hmore, hregion, hread]
    cases hcheck : checkRecord header i (nth rs i) with
    | error e => rfl
    | ok r =>
      obtain ⟨lsn, -, hcheck⟩ := ok_of_bind hcheck
      obtain ⟨-, hcheck⟩ := guard_eq_ok.1 hcheck
      cases hcheck
      rfl
  · rw [hsucc, hc.pos]
  · exact congrArg Nat.succ hc.ordinal

end Takes

theorem checkRecord_eq (hfits : Fits k sparse hlcAbsolute rs header) (hi : i < rs.length) :
    checkRecord header i (nth rs i) = .ok (nth rs i) := by
  have hmem := nth_mem hi
  have hlsns := hfits.lsns _ hmem
  have hlsn : checkLsn header i (nth rs i) = .ok (nth rs i).lsn := by
    refine if_neg (fun hover => ?_)
    have hwide := (hfits.wide _ hmem).lsn
    rw [hfits.isSparseLsn] at hover
    rw [hfits.contiguous (Bool.eq_false_of_not_eq_true hover.1) i hi] at hwide
    have := hover.2
    rw [u64Max] at this
    omega
  rw [checkRecord, hlsn]
  exact if_neg (by omega)

/-- **The cursor goes on by one record.** -/
theorem nextRecord_eq (hfits : Fits k sparse hlcAbsolute rs header) (hc : c.At k sparse hlcAbsolute rs i) (hi : i < rs.length)
    {body tail : Bytes} (hbody : body = (pieces k sparse hlcAbsolute rs).flatten ++ tail) :
    ∃ c', c.nextRecord header body = .ok (some (nth rs i, c')) ∧ c'.At k sparse hlcAbsolute rs (i + 1) := by
  obtain ⟨c', hnext, hc'⟩ := nextRecord_map hfits.describes hc hi hbody
  rw [checkRecord_eq hfits hi] at hnext
  exact ⟨c', hnext, hc'⟩

theorem nextRecord_end (hdesc : Describes k sparse hlcAbsolute rs header) (hc : c.At k sparse hlcAbsolute rs rs.length)
    (body : Bytes) : c.nextRecord header body = .ok none := by
  rw [RecordCursor.nextRecord, if_pos (.inl (by rw [hdesc.recordCount, hc.ordinal]))]

/-- **From record `i` on**, the loop reads what is left. -/
theorem decodeLoop_eq (hfits : Fits k sparse hlcAbsolute rs header) {body tail : Bytes}
    (hbody : body = (pieces k sparse hlcAbsolute rs).flatten ++ tail) : ∀ (fuel : Nat) {i : Nat} {c : RecordCursor},
    c.At k sparse hlcAbsolute rs i → i ≤ rs.length → rs.length ≤ i + fuel → decodeLoop header body fuel c = .ok (rs.drop i)
  | 0, i, c, _, _, hfuel => by
    rw [decodeLoop, List.drop_eq_nil_of_le (by omega)]
  | fuel + 1, i, c, hc, hle, hfuel => by
    rw [decodeLoop]
    rcases Nat.lt_or_eq_of_le hle with hlt | heq
    · obtain ⟨c', hnext, hc'⟩ := nextRecord_eq hfits hc hlt hbody
      have hget : rs[i] = nth rs i := (nth_of_getElem? (List.getElem?_eq_getElem hlt)).symm
      rw [hnext]
      dsimp only
      rw [decodeLoop_eq hfits hbody fuel hc' hlt (by omega), List.drop_eq_getElem_cons hlt, hget]
      rfl
    · subst heq
      rw [nextRecord_end hfits.describes hc]
      dsimp only
      rw [List.drop_length]

/-- **What the loop reads**, if it reads, is what was written. -/
theorem decodeLoop_ok (hdesc : Describes k sparse hlcAbsolute rs header) {body tail : Bytes}
    (hbody : body = (pieces k sparse hlcAbsolute rs).flatten ++ tail) : ∀ (fuel : Nat) {i : Nat} {c : RecordCursor}
    {out : List RawRecord}, c.At k sparse hlcAbsolute rs i → i ≤ rs.length → rs.length ≤ i + fuel →
    decodeLoop header body fuel c = .ok out → out = rs.drop i
  | 0, i, c, out, _, _, hfuel, h => by
    cases h
    rw [List.drop_eq_nil_of_le (by omega)]
  | fuel + 1, i, c, out, hc, hle, hfuel, h => by
    rw [decodeLoop] at h
    rcases Nat.lt_or_eq_of_le hle with hlt | heq
    · obtain ⟨c', hnext, hc'⟩ := nextRecord_map hdesc hc hlt hbody
      rw [hnext] at h
      cases hcheck : checkRecord header i (nth rs i) with
      | error e =>
        rw [hcheck] at h
        cases h
      | ok r =>
        rw [hcheck] at h
        obtain ⟨rest, hrest, heq⟩ := map_eq_ok h
        have hdrop := decodeLoop_ok hdesc hbody fuel hc' hlt (by omega) hrest
        have hr : r = nth rs i := by
          obtain ⟨lsn, -, hcheck⟩ := ok_of_bind hcheck
          exact (Except.ok.inj (guard_eq_ok.1 hcheck).2).symm
        have hget : rs[i] = nth rs i := (nth_of_getElem? (List.getElem?_eq_getElem hlt)).symm
        rw [← heq, hr, hdrop, List.drop_eq_getElem_cons hlt, hget]
    · subst heq
      rw [nextRecord_end hdesc hc] at h
      cases h
      rw [List.drop_length]

/-- **A block that is decoded** gives the records that it was built of. -/
theorem decodeBlockRecords_ok (hdesc : Describes k sparse hlcAbsolute rs header) {body tail : Bytes}
    (hbody : body = (pieces k sparse hlcAbsolute rs).flatten ++ tail) {out : List RawRecord}
    (h : decodeBlockRecords header body = .ok out) : out = rs := by
  have hat : RecordCursor.At k sparse hlcAbsolute rs 0
      { pos := 0, ordinal := 0, prevLsn := header.firstLsn, prevHlc := header.baseHlc } :=
    ⟨rfl, rfl, fun h => absurd (Nat.zero_mod k) h, fun h => absurd (Nat.zero_mod k) h⟩
  unfold decodeBlockRecords RecordCursor.start at h
  split at h
  · cases h
  · rename_i c hstart
    split at hstart <;> cases hstart
    split at h
    · cases h
    · rename_i records hloop
      split at h <;> cases h
      have hdrop := decodeLoop_ok hdesc hbody _ hat (Nat.zero_le _) (by rw [hdesc.recordCount]; omega) hloop
      rwa [List.drop_zero] at hdrop

/-- **A block is decoded** where its header fits. -/
theorem decodeBlockRecords_eq (hfits : Fits k sparse hlcAbsolute rs header) {body tail : Bytes}
    (hbody : body = (pieces k sparse hlcAbsolute rs).flatten ++ tail) (hlen : body.length = header.uncompressedLen) :
    decodeBlockRecords header body = .ok rs := by
  have hat : RecordCursor.At k sparse hlcAbsolute rs 0
      { pos := 0, ordinal := 0, prevLsn := header.firstLsn, prevHlc := header.baseHlc } :=
    ⟨rfl, rfl, fun h => absurd (Nat.zero_mod k) h, fun h => absurd (Nat.zero_mod k) h⟩
  rw [decodeBlockRecords, RecordCursor.start, if_neg (fun hne => hne hlen)]
  dsimp only
  rw [decodeLoop_eq hfits hbody _ hat (Nat.zero_le _) (by rw [hfits.recordCount]; omega)]
  dsimp only
  rw [List.drop_zero, if_neg (fun hne => hne hfits.recordCount.symm)]

/-! ## The round trip -/

/-- What is compressed is decompressed to the same bytes. -/
structure Codecs.Inverse (codecs : Codecs) : Prop where
  zstd : ∀ {level : Nat} {data c : Bytes}, codecs.zstdCompress level data = .ok c →
    codecs.zstdDecompress c data.length = .ok data
  lz4 : ∀ data : Bytes, codecs.lz4Decompress (codecs.lz4Compress data) data.length = .ok data

variable {codecs : Codecs}

theorem decompressBlock_raw {data : Bytes} {maxBlock : Nat} (hceiling : data.length ≤ min maxBlock hardMaxBlockBytes) :
    decompressBlock codecs .raw data data.length maxBlock = .ok data := by
  unfold decompressBlock
  dsimp only
  rw [if_neg (Nat.not_lt.2 hceiling), if_neg (fun hne => hne rfl)]
  dsimp only
  rw [if_neg (fun hne => hne rfl)]

/-- **A compressed body is restored**, within the ceiling. -/
theorem decompressBlock_compressBlock (hcodecs : codecs.Inverse) {data : Bytes} {profile : PackingProfile}
    {worth : Nat → Nat → Bool} {c : Compressed} (h : compressBlock codecs data profile worth = .ok c) {maxBlock : Nat}
    (hceiling : data.length ≤ min maxBlock hardMaxBlockBytes) :
    decompressBlock codecs c.codec c.bytes data.length maxBlock = .ok data := by
  have hcompressed : ∀ {codec : CompressionCodec} {bytes : Bytes},
      decompressBlock codecs codec bytes data.length maxBlock = .ok data →
      (if worth bytes.length data.length = true then ({ codec := codec, bytes := bytes } : Compressed)
        else { codec := .raw, bytes := data }) = c →
      decompressBlock codecs c.codec c.bytes data.length maxBlock = .ok data := by
    intro codec bytes hback hc
    split at hc <;> subst hc
    · exact hback
    · exact decompressBlock_raw hceiling
  unfold compressBlock at h
  split at h
  · rename_i hnil
    cases h
    rw [hnil]
    exact decompressBlock_raw (Nat.zero_le _)
  · dsimp only at h
    cases hcodec : profile.codec with
    | raw =>
      rw [hcodec] at h
      cases h
      exact decompressBlock_raw hceiling
    | zstd =>
      rw [hcodec] at h
      dsimp only at h
      cases hzstd : codecs.zstdCompress profile.level data with
      | error e =>
        rw [hzstd] at h
        cases h
      | ok bytes =>
        rw [hzstd] at h
        refine hcompressed ?_ (Except.ok.inj h)
        unfold decompressBlock
        dsimp only
        rw [if_neg (Nat.not_lt.2 hceiling), hcodecs.zstd hzstd]
        dsimp only
        rw [if_neg (fun hne => hne rfl)]
    | lz4Raw =>
      rw [hcodec] at h
      refine hcompressed ?_ (Except.ok.inj h)
      unfold decompressBlock
      dsimp only
      rw [if_neg (Nat.not_lt.2 hceiling), hcodecs.lz4 data]
      dsimp only
      rw [if_neg (fun hne => hne rfl)]

/-! ## The header of a built block -/

theorem nth_lt_of_sorted {rs : List RawRecord} (hsorted : rs.Pairwise (fun a b => a.lsn < b.lsn)) {i j : Nat} (hij : i < j)
    (hj : j < rs.length) : (nth rs i).lsn < (nth rs j).lsn := by
  have hi := getElem?_nth (Nat.lt_trans hij hj)
  have hget := getElem?_nth hj
  obtain ⟨hilt, hi⟩ := List.getElem?_eq_some_iff.1 hi
  obtain ⟨hjlt, hget⟩ := List.getElem?_eq_some_iff.1 hget
  rw [← hi, ← hget]
  exact List.pairwise_iff_getElem.1 hsorted i j hilt hjlt hij

theorem add_le_nth_of_sorted {rs : List RawRecord} (hsorted : rs.Pairwise (fun a b => a.lsn < b.lsn)) : ∀ {i : Nat},
    i < rs.length → (nth rs 0).lsn + i ≤ (nth rs i).lsn
  | 0, _ => Nat.le_refl _
  | i + 1, hi => by
    have := nth_lt_of_sorted hsorted (Nat.lt_add_one i) hi
    have := add_le_nth_of_sorted hsorted (Nat.lt_of_succ_lt hi)
    omega

theorem contiguousFrom_nth {firstLsn : Nat} : ∀ {rs : List RawRecord} {n i : Nat}, contiguousFrom firstLsn n rs = true →
    i < rs.length → (nth rs i).lsn = (firstLsn + (n + i)) % 2 ^ 64
  | r :: rs, n, 0, h, _ => by
    rw [contiguousFrom, Bool.and_eq_true, beq_iff_eq] at h
    exact h.1
  | r :: rs, n, i + 1, h, hi => by
    rw [contiguousFrom, Bool.and_eq_true] at h
    have hrest := contiguousFrom_nth (i := i) h.2 (Nat.lt_of_succ_lt_succ hi)
    rw [Nat.add_assoc, Nat.add_comm 1] at hrest
    exact hrest

theorem monotonicHlc_nth : ∀ {rs : List RawRecord} {i : Nat}, monotonicHlc rs = true → i + 1 < rs.length →
    (nth rs i).hlc ≤ (nth rs (i + 1)).hlc
  | a :: b :: rs, 0, h, _ => by
    rw [monotonicHlc, Bool.and_eq_true] at h
    exact of_decide_eq_true h.1
  | a :: b :: rs, i + 1, h, hi => by
    rw [monotonicHlc, Bool.and_eq_true] at h
    exact @monotonicHlc_nth (b :: rs) i h.2 (Nat.lt_of_succ_lt_succ hi)
  | [a], i, _, hi => absurd hi (by simp)
  | [], i, _, hi => absurd hi (by simp)

theorem length_flatMap_encode : ∀ points : List RestartPoint,
    (points.flatMap RestartPoint.encode).length = points.length * restartEntryLen
  | [] => by simp
  | p :: points => by
    rw [List.flatMap_cons, List.length_append, length_flatMap_encode points, RestartPoint.encode, List.length_cons]
    simp only [List.length_append, length_leBytes, restartEntryLen]
    omega

/-- The flags say what they were set for. -/
theorem block_flags (sparse hlcAbsolute large : Bool) :
    let flags := (if sparse then flagSparseLsn else 0) ||| (if hlcAbsolute then flagHlcAbsolute else 0) |||
      (if large then flagLargeRecord else 0)
    flags < 2 ^ 3 ∧ (flags &&& flagSparseLsn != 0) = sparse ∧ (flags &&& flagHlcAbsolute != 0) = hlcAbsolute := by
  cases sparse <;> cases hlcAbsolute <;> cases large <;> decide

/-- A block, its encodings and its records. -/
structure BuiltOf (codecs : Codecs) (rs : List RawRecord) (k : Nat) (sparse hlcAbsolute : Bool) (profile : PackingProfile)
    (worth : Nat → Nat → Bool) (b : BuiltBlock) (body : Bytes) : Prop where
  layout : body = (pieces k sparse hlcAbsolute rs).flatten ++ (points k sparse hlcAbsolute rs rs.length).flatMap RestartPoint.encode
  compressed : compressBlock codecs body profile worth = .ok { codec := b.header.codec, bytes := b.stored }
  headerBytes : b.headerBytes = b.header.encode b.stored
  compressedLen : b.header.compressedLen = b.stored.length
  uncompressedLen : b.header.uncompressedLen = body.length
  wide : b.header.Wide
  describes : Describes k sparse hlcAbsolute rs b.header
  room : b.header.restartCount * restartEntryLen ≤ b.header.uncompressedLen

/-- **What a built block is**, for records in any order. -/
theorem buildBlock_builtOf {records : List RawRecord} (hwide : ∀ r ∈ records, r.lsn < 2 ^ 64 ∧ r.hlc < 2 ^ 64)
    {restartInterval : Nat} (h16 : restartInterval < 2 ^ 16) {profile : PackingProfile} {worth : Nat → Nat → Bool} {b : BuiltBlock}
    (h : buildBlock codecs records restartInterval profile worth = .ok b) :
    ∃ sparse hlcAbsolute body, BuiltOf codecs records (max restartInterval 1) sparse hlcAbsolute profile worth b body := by
  cases records with
  | nil => cases h
  | cons first rest =>
    unfold buildBlock at h
    dsimp only at h
    generalize hrecords : first :: rest = records at h hwide
    generalize hk : max restartInterval 1 = k at h
    generalize hsparse : (!contiguousFrom first.lsn 0 records) = sparse at h
    generalize habsolute : (!monotonicHlc records) = hlcAbsolute at h
    have hkpos : 0 < k := by omega
    have hnth : nth records 0 = first := by rw [← hrecords]; rfl
    have hpos : 0 < records.length := by rw [← hrecords]; exact Nat.succ_pos _
    have hfirst : first ∈ records := by rw [← hrecords]; exact List.mem_cons_self
    cases hloop : buildLoop k sparse hlcAbsolute 0 { body := [], restarts := [], prevLsn := first.lsn, prevHlc := first.hlc }
        records with
    | error e =>
      rw [hloop] at h
      cases h
    | ok s =>
      rw [hloop] at h
      dsimp only at h
      obtain ⟨hbody32, h⟩ := guard_eq_ok.1 h
      have hstart : Built k sparse hlcAbsolute records 0 { body := [], restarts := [], prevLsn := first.lsn, prevHlc := first.hlc } :=
        ⟨rfl, by rw [points, divCeil_zero hkpos]; rfl, by rw [hnth], by rw [hnth]⟩
      obtain ⟨hbuilt, hchecked⟩ := hstart.loop hkpos records rfl (Nat.zero_le _) hloop
      have hlayout : s.body ++ s.restarts.flatMap RestartPoint.encode = (pieces k sparse hlcAbsolute records).flatten ++
          (points k sparse hlcAbsolute records records.length).flatMap RestartPoint.encode := by
        rw [hbuilt.body, hbuilt.restarts, List.take_of_length_le (by rw [length_pieces])]
      generalize hbody : s.body ++ s.restarts.flatMap RestartPoint.encode = body at h hlayout hbody32
      have hrestarts : s.restarts.length = divCeil records.length k := by rw [hbuilt.restarts, length_points]
      cases hcompress : compressBlock codecs body profile worth with
      | error e =>
        rw [hcompress] at h
        cases h
      | ok c =>
        rw [hcompress] at h
        dsimp only at h
        obtain ⟨hstored32, h⟩ := guard_eq_ok.1 h
        obtain ⟨hrestarts16, h⟩ := guard_eq_ok.1 h
        cases h
        have hk16 : k < 2 ^ 16 := by omega
        have hlen : records.length < 2 ^ 32 := by
          have hle := le_divCeil_mul hkpos records.length
          have hmul := Nat.mul_le_mul (show divCeil records.length k ≤ 2 ^ 16 - 1 by omega) (show k ≤ 2 ^ 16 - 1 by omega)
          omega
        have hcount : records.length % 2 ^ 32 = records.length := Nat.mod_eq_of_lt hlen
        have hlast : ((records.getLast?).getD first) = nth records (records.length - 1) := by
          rw [List.getLast?_eq_getElem?, getElem?_nth (by omega)]
          rfl
        have hhlcs : ∀ r ∈ records, minOf (records.map RawRecord.hlc) ≤ r.hlc ∧ r.hlc ≤ maxOf (records.map RawRecord.hlc) :=
          fun r hr => ⟨(foldl_min_le _ _).2 _ (List.mem_map_of_mem hr), (le_foldl_max _ _).2 _ (List.mem_map_of_mem hr)⟩
        have hmaxHlc : maxOf (records.map RawRecord.hlc) ≤ u64Max := by
          refine foldl_max_le _ _ (Nat.zero_le _) (fun x hx => ?_)
          obtain ⟨r, hr, rfl⟩ := List.mem_map.1 hx
          exact Nat.le_pred_of_lt (hwide r hr).2
        have hlastWide := (hwide _ (nth_mem (show records.length - 1 < records.length by omega))).1
        have hwides : ∀ r ∈ records, r.Wide := by
          intro r hr
          obtain ⟨i, hi⟩ := List.getElem?_of_mem hr
          have hbound := (hchecked i (Nat.zero_le _) (List.getElem?_eq_some_iff.1 hi).1).payload
          rw [nth_of_getElem? hi] at hbound
          exact ⟨(hwide r hr).1, (hwide r hr).2, hbound⟩
        obtain ⟨hflags, hisSparse, hisAbsolute⟩ := block_flags sparse hlcAbsolute
          (records.length == 1 && decide (defaultBlockTarget < first.payload.length))
        have hregion : body.length - divCeil records.length k * restartEntryLen
            = (pieces k sparse hlcAbsolute records).flatten.length := by
          rw [hlayout, List.length_append, length_flatMap_encode, length_points, Nat.add_sub_cancel]
        have hroom : divCeil records.length k * restartEntryLen ≤ body.length := by
          rw [hlayout, List.length_append, length_flatMap_encode, length_points]
          exact Nat.le_add_left _ _
        refine ⟨sparse, hlcAbsolute, body, hlayout, hcompress, rfl, rfl, rfl, ⟨hflags, Nat.not_le.1 hbody32, Nat.not_le.1 hstored32,
          Nat.mod_lt _ (by decide), hk16, Nat.not_le.1 hrestarts16, (hwide _ hfirst).1, ?_, ?_, ?_, Nat.two_pow_pos 32⟩,
          ⟨hkpos, hpos, hcount, rfl, hrestarts, by rw [hnth], by rw [← hlast], hisSparse, hisAbsolute, ?_, hwides, hhlcs,
            fun hs i hi => (hchecked i (Nat.zero_le _) hi).ascending hs, ?_, ?_⟩, ?_⟩
        · rw [hlast]
          exact hlastWide
        · have := (hhlcs _ hfirst).1
          exact Nat.lt_of_le_of_lt this (hwide _ hfirst).2
        · exact Nat.lt_of_le_of_lt hmaxHlc (by decide)
        · rw [BlockHeaderV1.recordsRegionLen]
          dsimp only
          rw [hrestarts]
          exact hregion
        · intro hfalse i hi
          have hall : contiguousFrom first.lsn 0 records = true := by simpa [hfalse] using hsparse
          have heq := contiguousFrom_nth hall hi
          rwa [Nat.zero_add] at heq
        · intro hfalse i hi
          exact monotonicHlc_nth (by simpa [hfalse] using habsolute) hi
        · dsimp only
          rw [hrestarts]
          exact hroom

/-- **Sorted LSNs** are in the range that the header declares, and do not wrap. -/
theorem Describes.fits {k : Nat} {sparse hlcAbsolute : Bool} {rs : List RawRecord} {header : BlockHeaderV1}
    (h : Describes k sparse hlcAbsolute rs header) (hsorted : rs.Pairwise (fun a b => a.lsn < b.lsn)) :
    Fits k sparse hlcAbsolute rs header := by
  refine ⟨h.pos, h.nonempty, h.recordCount, h.restartInterval, h.restartCount, h.firstLsn, h.lastLsn, h.isSparseLsn,
    h.isHlcAbsolute, h.region, h.wide, fun r hr => ?_, h.hlcs, fun i hi => nth_lt_of_sorted hsorted (Nat.lt_add_one i) hi, ?_,
    h.monotonic⟩
  · obtain ⟨i, hi⟩ := List.getElem?_of_mem hr
    have hlt := (List.getElem?_eq_some_iff.1 hi).1
    have hnth := nth_of_getElem? hi
    have hlow := add_le_nth_of_sorted hsorted hlt
    rw [hnth] at hlow
    rw [h.firstLsn, h.lastLsn]
    refine ⟨by omega, ?_⟩
    rcases Nat.lt_or_eq_of_le (show i ≤ rs.length - 1 by omega) with hlt' | heq
    · have := nth_lt_of_sorted hsorted hlt' (by omega)
      rw [hnth] at this
      omega
    · rw [← hnth, heq]
  · intro hfalse i hi
    have heq := h.contiguous hfalse i hi
    have hle := add_le_nth_of_sorted hsorted hi
    have hlt := (h.wide _ (nth_mem hi)).lsn
    rw [h.firstLsn] at heq ⊢
    rw [heq, Nat.mod_eq_of_lt (by omega)]

/-- A block of sorted records. -/
structure WellBuilt (codecs : Codecs) (rs : List RawRecord) (k : Nat) (sparse hlcAbsolute : Bool) (profile : PackingProfile)
    (worth : Nat → Nat → Bool) (b : BuiltBlock) (body : Bytes) : Prop where
  layout : body = (pieces k sparse hlcAbsolute rs).flatten ++ (points k sparse hlcAbsolute rs rs.length).flatMap RestartPoint.encode
  compressed : compressBlock codecs body profile worth = .ok { codec := b.header.codec, bytes := b.stored }
  headerBytes : b.headerBytes = b.header.encode b.stored
  uncompressedLen : b.header.uncompressedLen = body.length
  wide : b.header.Wide
  fits : Fits k sparse hlcAbsolute rs b.header
  coherent : b.header.uncompressedLen ≤ hardMaxBlockBytes → b.header.checkCoherence b.stored.length = .ok ()

theorem BuiltOf.wellBuilt {rs : List RawRecord} {k : Nat} {sparse hlcAbsolute : Bool} {profile : PackingProfile}
    {worth : Nat → Nat → Bool} {b : BuiltBlock} {body : Bytes} (h : BuiltOf codecs rs k sparse hlcAbsolute profile worth b body)
    (hsorted : rs.Pairwise (fun a b => a.lsn < b.lsn)) : WellBuilt codecs rs k sparse hlcAbsolute profile worth b body := by
  have hfits := h.describes.fits hsorted
  refine ⟨h.layout, h.compressed, h.headerBytes, h.uncompressedLen, h.wide, hfits, fun hmax => ?_⟩
  have hpos := hfits.nonempty
  have hfirst := nth_mem hpos
  have hspan : ¬(¬b.header.isSparseLsn = true ∧ satAdd64 (b.header.lastLsn - b.header.firstLsn) 1 ≠ b.header.recordCount) := by
    rintro ⟨hfalse, hne⟩
    rw [hfits.isSparseLsn] at hfalse
    have heq := hfits.contiguous (Bool.eq_false_of_not_eq_true hfalse) (rs.length - 1) (by omega)
    have hcount := h.wide.recordCount
    rw [hfits.recordCount] at hcount
    refine hne ?_
    rw [hfits.lastLsn, heq, Nat.add_sub_cancel_left, satAdd64, Nat.sub_add_cancel hpos, hfits.recordCount]
    exact Nat.min_eq_left (Nat.le_trans (Nat.le_of_lt hcount) (by decide))
  have hlsns := hfits.lsns _ hfirst
  have hhlcs := hfits.hlcs _ hfirst
  unfold BlockHeaderV1.checkCoherence
  dsimp only
  rw [if_neg (fun hne => hne h.compressedLen), if_neg (Nat.not_lt.2 hmax), if_neg (by rw [hfits.recordCount]; omega),
    if_neg (Nat.not_lt.2 (Nat.le_trans hlsns.1 hlsns.2)), if_neg (Nat.not_lt.2 (Nat.le_trans hhlcs.1 hhlcs.2)),
    if_neg (by rw [hfits.restartInterval]; have := hfits.pos; omega),
    if_neg (fun hne => hne (by rw [hfits.restartCount, hfits.recordCount, hfits.restartInterval])), if_neg (Nat.not_lt.2 h.room),
    if_neg hspan]

/-- **What a built block is**, when the LSNs go up. -/
theorem buildBlock_ok {records : List RawRecord} (hwide : ∀ r ∈ records, r.lsn < 2 ^ 64 ∧ r.hlc < 2 ^ 64)
    (hsorted : records.Pairwise (fun a b => a.lsn < b.lsn)) {restartInterval : Nat} (h16 : restartInterval < 2 ^ 16)
    {profile : PackingProfile} {worth : Nat → Nat → Bool} {b : BuiltBlock}
    (h : buildBlock codecs records restartInterval profile worth = .ok b) :
    ∃ sparse hlcAbsolute body, WellBuilt codecs records (max restartInterval 1) sparse hlcAbsolute profile worth b body := by
  obtain ⟨sparse, hlcAbsolute, body, hbuilt⟩ := buildBlock_builtOf hwide h16 h
  exact ⟨sparse, hlcAbsolute, body, hbuilt.wellBuilt hsorted⟩

/-- **A block is read back**: its header from its bytes, and its records from what is stored. -/
theorem block_roundTrip (hcodecs : codecs.Inverse) {records : List RawRecord}
    (hwide : ∀ r ∈ records, r.lsn < 2 ^ 64 ∧ r.hlc < 2 ^ 64) (hsorted : records.Pairwise (fun a b => a.lsn < b.lsn))
    {restartInterval : Nat} (h16 : restartInterval < 2 ^ 16) {profile : PackingProfile} {worth : Nat → Nat → Bool} {b : BuiltBlock}
    (h : buildBlock codecs records restartInterval profile worth = .ok b) (hmax : b.header.uncompressedLen ≤ hardMaxBlockBytes)
    {maxBlock : Nat} (hceiling : b.header.uncompressedLen ≤ maxBlock) :
    BlockHeaderV1.decode b.headerBytes b.stored = .ok b.header ∧
      ∃ body, decompressBody codecs b.header b.stored maxBlock = .ok body ∧ decodeBlockRecords b.header body = .ok records := by
  obtain ⟨sparse, hlcAbsolute, body, hbuilt⟩ := buildBlock_ok hwide hsorted h16 h
  have hlen := hbuilt.uncompressedLen
  refine ⟨?_, body, ?_, decodeBlockRecords_eq hbuilt.fits hbuilt.layout hlen.symm⟩
  · rw [hbuilt.headerBytes]
    exact BlockHeaderV1.decode_encode hbuilt.wide (hbuilt.coherent hmax)
  · rw [decompressBody, hlen]
    exact decompressBlock_compressBlock hcodecs hbuilt.compressed (by rw [← hlen]; exact Nat.le_min.2 ⟨hceiling, hmax⟩)

/-! ## A block with a gap -/

/-- A zstd frame of one raw block, which is what small data that does not compress becomes. -/
def zstdRawFrame (data : Bytes) : Bytes :=
  [0x28, 0xb5, 0x2f, 0xfd, 0x20] ++ leBytes 1 data.length ++ leBytes 3 (data.length * 8 + 1) ++ data

/-- An LZ4 block of one run of literals. -/
def lz4Literals (data : Bytes) : Bytes :=
  if data.length < 15 then leBytes 1 (data.length * 16) ++ data
  else [0xf0] ++ List.replicate ((data.length - 15) / 255) 255 ++ leBytes 1 ((data.length - 15) % 255) ++ data

def literalCodecs : Codecs where
  zstdCompress _ data := if data.length < 256 then .ok (zstdRawFrame data) else .error "too large"
  zstdDecompress stored n :=
    if stored = zstdRawFrame (stored.drop (stored.length - n)) then .ok (stored.drop (stored.length - n)) else .error "no raw frame"
  lz4Compress := lz4Literals
  lz4Decompress stored n :=
    if stored = lz4Literals (stored.drop (stored.length - n)) then .ok (stored.drop (stored.length - n)) else .error "no literals"

theorem literalCodecs_inverse : literalCodecs.Inverse where
  zstd {level data c} h := by
    unfold literalCodecs at h ⊢
    dsimp only at h ⊢
    split at h
    · cases h
      have hdata : (zstdRawFrame data).drop ((zstdRawFrame data).length - data.length) = data := by
        rw [zstdRawFrame, List.length_append, Nat.add_sub_cancel, List.drop_left]
      rw [hdata, if_pos rfl]
    · cases h
  lz4 data := by
    unfold literalCodecs
    dsimp only
    have hdata : (lz4Literals data).drop ((lz4Literals data).length - data.length) = data := by
      unfold lz4Literals
      split <;> rw [List.length_append, Nat.add_sub_cancel, List.drop_left]
    rw [hdata, if_pos rfl]

/-- The default `raw_fallback_ratio` of 0.92. -/
def defaultWorth (compressedLen len : Nat) : Bool := decide (compressedLen * 100 < len * 92)

/-- A gap in the LSNs, and HLCs that go back. -/
def gapRecords : List RawRecord :=
  [{ lsn := 5, hlc := 2 ^ 64 - 1, payload := [1, 2, 3] }, { lsn := 7, hlc := 0, payload := [] },
    { lsn := 8, hlc := 3, payload := [9] }]

set_option maxRecDepth 20000 in
theorem block_roundTrip_sample : ∃ b, buildBlock literalCodecs gapRecords 2 .balanced defaultWorth = .ok b ∧
    b.header.flags = 3 ∧ BlockHeaderV1.decode b.headerBytes b.stored = .ok b.header ∧
      ∃ body, decompressBody literalCodecs b.header b.stored hardMaxBlockBytes = .ok body ∧
        decodeBlockRecords b.header body = .ok gapRecords := by
  have hrun : (buildBlock literalCodecs gapRecords 2 .balanced defaultWorth).toOption.map
      (fun b => (b.header.flags, decide (b.header.uncompressedLen ≤ hardMaxBlockBytes))) = some (3, true) := by decide +kernel
  obtain ⟨b, hb, hdata⟩ := Option.map_eq_some_iff.1 hrun
  obtain ⟨hflags, hmax⟩ := Prod.mk.inj hdata
  cases hbuild : buildBlock literalCodecs gapRecords 2 .balanced defaultWorth with
  | error e =>
    rw [hbuild] at hb
    cases hb
  | ok b' =>
    rw [hbuild] at hb
    cases hb
    exact ⟨b, rfl, hflags, block_roundTrip literalCodecs_inverse (by decide) (by decide) (by decide) hbuild
      (of_decide_eq_true hmax) (of_decide_eq_true hmax)⟩

end V6
end Heraclitus
