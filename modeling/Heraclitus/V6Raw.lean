import Heraclitus.V6Format
import Heraclitus.V6Merkle
/-!
# V6Raw — reading and writing a RAW segment (`heraclitus-log/src/v6/raw.rs`, `verify.rs`)

The scan reads record by record up to a footer, the end of the file or the first byte that is no record.  Only the segment
that is still written to may be cut there; whether it is one is judged by the bytes 128 before its end.
-/
namespace Heraclitus
namespace V6

structure RawRecord where
  lsn : Nat
  hlc : Nat
  payload : Bytes
  deriving DecidableEq

structure RawScan where
  header : FileHeaderV6
  records : List RawRecord
  footer : Option FooterV6
  tornAt : Option Nat
  deriving DecidableEq

/-- `iter().min()` of a non-empty list of `u64`. -/
def minOf (l : List Nat) : Nat := l.foldl min u64Max

/-- `iter().max()` of a non-empty list. -/
def maxOf (l : List Nat) : Nat := l.foldl max 0

/-- Each LSN is the one before it plus one. -/
def consecutive : List Nat → Bool
  | a :: b :: l => b == satAdd64 a 1 && consecutive (b :: l)
  | _ => true

/-- What a RAW footer declares must agree with the records in front of it. -/
def validateRawFooter (footer : FooterV6) (records : List RawRecord) : Except HeraclitusError Unit :=
  let ctx := "hrkl v6 raw footer"
  let lsns := records.map RawRecord.lsn
  let hlcs := records.map RawRecord.hlc
  if footer.blockCount ≠ 0 ∨ footer.blockDirectoryOffset ≠ 0 ∨ footer.blockDirectoryLen ≠ 0 then
    .error (corrupt ctx "RAW footer declares PACKED block metadata")
  else if footer.recordCount ≠ records.length then
    .error (corrupt ctx s!"footer declares {footer.recordCount} records, scanned {records.length}")
  else if records = [] then
    if footer.minLsn ≠ 0 ∨ footer.maxLsn ≠ 0 ∨ footer.minHlc ≠ 0 ∨ footer.maxHlc ≠ 0 then
      .error (corrupt ctx "empty RAW footer has non-zero ranges")
    else .ok ()
  else if (footer.minLsn, footer.maxLsn, footer.minHlc, footer.maxHlc) ≠ (minOf lsns, maxOf lsns, minOf hlcs, maxOf hlcs) then
    .error (corrupt ctx "footer ranges disagree with scanned RAW records")
  else if footer.isContiguousLsn && (!footer.lsnSpanIsContiguous || !consecutive lsns) then
    .error (corrupt ctx "RAW footer claims contiguous LSNs but records are not contiguous")
  else .ok ()

/-- The scan of what is left of a file, from offset `pos` on.  Every turn but the last reads a record, so as many turns as
bytes are enough. -/
def scanRecords : Nat → Bytes → Nat → List RawRecord →
    Except HeraclitusError (List RawRecord × Option FooterV6 × Option Nat)
  | 0, _, _, records => .ok (records, none, none)
  | fuel + 1, rest, pos, records =>
    if rest = [] then .ok (records, none, none)
    else
      match decodeRawRecord rest with
      | .record lsn hlc payload total =>
        scanRecords fuel (rest.drop total) (pos + total) (records ++ [{ lsn := lsn, hlc := hlc, payload := payload }])
      | .footer f =>
        -- bytes behind a footer would be a second history
        if rest.length ≠ footerLen then .error (corrupt "hrkl v6 raw scan" "bytes found after a valid RAW footer")
        else match validateRawFooter f records with
          | .error e => .error e
          | .ok () => .ok (records, some f, none)
      | .torn =>
        -- a complete footer that does not decode is no torn tail
        if rest.take 4 = footerMagic ∧ footerLen ≤ rest.length then
          .error (corrupt "hrkl v6 raw scan" "complete footer is malformed or corrupt")
        else .ok (records, none, some pos)

def scanRawBytes (buf : Bytes) : Except HeraclitusError RawScan :=
  match FileHeaderV6.decode buf with
  | .error e => .error e
  | .ok header =>
    if header.physicalLayout ≠ .raw then .error (corrupt "hrkl v6 raw scan" "segment is not RAW")
    else match scanRecords buf.length (buf.drop fileHeaderLen) fileHeaderLen [] with
      | .error e => .error e
      | .ok (records, footer, tornAt) => .ok { header := header, records := records, footer := footer, tornAt := tornAt }

/-- `read_footer`: does the file end with something that decodes as a footer? -/
def readFooter (file : Bytes) : Option FooterV6 :=
  if file.length < fileHeaderLen + footerLen then none
  else (FooterV6.decode (file.drop (file.length - footerLen))).toOption

/-- `footer_magic_at_eof`: do the bytes where a footer would begin spell its magic? -/
def footerMagicAtEof (file : Bytes) : Bool :=
  if file.length < fileHeaderLen + footerLen then false
  else (file.drop (file.length - footerLen)).take 4 == footerMagic

/-- `repair_active_tail`: where to cut the file, if anywhere. -/
def repairActiveTail (file : Bytes) : Except HeraclitusError (Option Nat) :=
  let refusal := corrupt "hrkl v6 raw recovery" "refusing to truncate a sealed segment; this is hard corruption"
  if (readFooter file).isSome || footerMagicAtEof file then .error refusal
  else match scanRawBytes file with
    | .error e => .error e
    | .ok scan => if scan.footer.isSome then .error refusal else .ok scan.tornAt

/-! ## The writer -/

structure RawSegmentWriter where
  header : FileHeaderV6
  acc : MerkleAccumulatorV1
  recordCount : Nat
  minLsn : Nat
  maxLsn : Nat
  minHlc : Nat
  maxHlc : Nat
  nextExpectedLsn : Nat
  contiguous : Bool
  monotonicHlc : Bool
  bytesWritten : Nat
  deriving DecidableEq

structure SegmentInit where
  segmentId : Nat
  createdHlc : Nat
  firstLsn : Nat
  writerEpoch : Nat
  storageNamespaceId : Bytes

/-- The header that `create` writes. -/
def SegmentInit.header (init : SegmentInit) : FileHeaderV6 :=
  { physicalLayout := .raw, canonicalCodec := canonicalCodecV1, flags := flagContiguousLsn, segmentId := init.segmentId,
    createdHlc := init.createdHlc, firstLsn := init.firstLsn, writerEpoch := init.writerEpoch,
    storageNamespaceId := init.storageNamespaceId }

/-- The writer of a segment that has no record yet. -/
def RawSegmentWriter.fresh (header : FileHeaderV6) : RawSegmentWriter :=
  { header := header, acc := .new, recordCount := 0, minLsn := u64Max, maxLsn := 0, minHlc := u64Max, maxHlc := 0,
    nextExpectedLsn := header.firstLsn, contiguous := true, monotonicHlc := true, bytesWritten := fileHeaderLen }

variable (blake3 : Bytes → Digest)

/-- What `append` keeps of a record of `size` bytes that it has written. -/
def RawSegmentWriter.record (w : RawSegmentWriter) (lsn hlc size : Nat) (canonicalRecordHash : Digest) :
    RawSegmentWriter :=
  { w with
    acc := w.acc.pushRecordHash blake3 canonicalRecordHash
    recordCount := w.recordCount + 1
    minLsn := min w.minLsn lsn
    maxLsn := max w.maxLsn lsn
    minHlc := min w.minHlc hlc
    maxHlc := max w.maxHlc hlc
    nextExpectedLsn := satAdd64 lsn 1
    contiguous := w.contiguous && lsn == w.nextExpectedLsn
    monotonicHlc := w.monotonicHlc && !(decide (0 < w.recordCount) && decide (hlc < w.maxHlc))
    bytesWritten := w.bytesWritten + size }

/-- The footer that `seal` writes. -/
def RawSegmentWriter.footer (w : RawSegmentWriter) : FooterV6 :=
  let ifAny (n : Nat) : Nat := if w.recordCount = 0 then 0 else n
  { recordCount := w.recordCount, minLsn := ifAny w.minLsn, maxLsn := ifAny w.maxLsn, minHlc := ifAny w.minHlc,
    maxHlc := ifAny w.maxHlc, blockCount := 0
    flags := (if w.contiguous && decide (0 < w.recordCount) then flagContiguousLsn else 0)
      + (if w.monotonicHlc then 0 else flagHasNonMonotonicHlc)
    blockDirectoryOffset := 0, blockDirectoryLen := 0, logicalRoot := w.acc.finalize blake3 }

/-- `CanonicalHasher`: the canonical hash of what is persisted under an LSN and an HLC. -/
abbrev CanonicalHasher : Type := Nat → Nat → Bytes → Except HeraclitusError Digest

variable (hasher : CanonicalHasher)

/-- One turn of the loop in `resume`. -/
def RawSegmentWriter.resumeRecord (w : RawSegmentWriter) (r : RawRecord) : Except HeraclitusError RawSegmentWriter :=
  match hasher r.lsn r.hlc r.payload with
  | .error e => .error e
  | .ok hash => .ok { w with
      acc := w.acc.pushRecordHash blake3 hash
      contiguous := w.contiguous && r.lsn == w.nextExpectedLsn
      nextExpectedLsn := satAdd64 r.lsn 1
      monotonicHlc := w.monotonicHlc && !(w.maxHlc != 0 && decide (r.hlc < w.maxHlc))
      minLsn := min w.minLsn r.lsn
      maxLsn := max w.maxLsn r.lsn
      minHlc := min w.minHlc r.hlc
      maxHlc := max w.maxHlc r.hlc }

def RawSegmentWriter.resumeRecords : RawSegmentWriter → List RawRecord → Except HeraclitusError RawSegmentWriter
  | w, [] => .ok w
  | w, r :: records =>
    match w.resumeRecord blake3 hasher r with
    | .error e => .error e
    | .ok w => w.resumeRecords records

def RawSegmentWriter.resume (file : Bytes) : Except HeraclitusError RawSegmentWriter :=
  let ctx := "hrkl v6 raw resume"
  match scanRawBytes file with
  | .error e => .error e
  | .ok scan =>
    if scan.footer.isSome then .error (corrupt ctx "refusing to resume a sealed segment")
    else if scan.tornAt.isSome then .error (corrupt ctx "refusing to resume before the torn tail is repaired")
    else if scan.header.canonicalCodec ≠ canonicalCodecV1 then
      .error (corrupt ctx s!"unsupported canonical codec {scan.header.canonicalCodec}")
    else match (RawSegmentWriter.fresh scan.header).resumeRecords blake3 hasher scan.records with
      | .error e => .error e
      | .ok w => .ok { w with recordCount := scan.records.length, bytesWritten := file.length }

/-- The root of the records of a scan. -/
def recomputeRoot : MerkleAccumulatorV1 → List RawRecord → Except HeraclitusError Digest
  | acc, [] => .ok (acc.finalize blake3)
  | acc, r :: records =>
    match hasher r.lsn r.hlc r.payload with
    | .error e => .error e
    | .ok hash => recomputeRoot (acc.pushRecordHash blake3 hash) records

/-- `verify_segment` of a RAW file at the `Logical` level: is the report ok? -/
def verifyRaw (file : Bytes) : Except HeraclitusError Bool :=
  match scanRawBytes file with
  | .error e => .error e
  | .ok scan =>
    match recomputeRoot blake3 hasher .new scan.records with
    | .error e => .error e
    | .ok root => .ok (root == scan.footer.elim (Digest.replicate 0) FooterV6.logicalRoot)

end V6
end Heraclitus
