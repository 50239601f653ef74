import Heraclitus.Format
import Heraclitus.Runtime
import Heraclitus.Lib.Fallible
import Heraclitus.Lib.Pieces
/-!
# V6Format — the bytes of a v6 segment (`heraclitus-log/src/v6/header.rs`, `footer.rs`, `raw.rs`)

`header(64) ++ record* ++ footer(128)?`, where a RAW record is `len u32 | crc u32 | lsn u64 | hlc u64 | payload`.  A valid
footer is what seals a file; nothing else tells a sealed one from the tail that is still written to.
-/
namespace Heraclitus
namespace V6

open Legacy (crc32c)

def hrklMagic : Bytes := [0x48, 0x52, 0x4b, 0x4c]
def formatVersionV6 : Nat := 6
def fileHeaderLen : Nat := 64
def footerMagic : Bytes := [0x48, 0x46, 0x54, 0x52]
def footerVersionV6 : Nat := 1
def footerLen : Nat := 128
def crcOffset : Nat := 104
def dirEntryLen : Nat := 56
def rawRecordHeaderLen : Nat := 24
def canonicalCodecV1 : Nat := 1
def hardMaxBlocks : Nat := 2 ^ 24
def hardMaxRecordBytes : Nat := 512 * 1024 * 1024

/-- `contiguous_lsn`, in the flags of the header and of the footer. -/
def flagContiguousLsn : Nat := 1
def flagHasNonMonotonicHlc : Nat := 2

/-- `{:#010x}`. -/
def hex8 (n : Nat) : String :=
  "0x" ++ String.ofList ((List.range 8).reverse.map (fun i => Nat.digitChar (n / 16 ^ i % 16)))

def crcMismatch (stored actual : Nat) : String := s!"crc32c mismatch: stored {hex8 stored}, actual {hex8 actual}"

/-! ## The header -/

structure FileHeaderV6 where
  physicalLayout : PhysicalLayout
  canonicalCodec : Nat
  flags : Nat
  segmentId : Nat
  createdHlc : Nat
  firstLsn : Nat
  writerEpoch : Nat
  storageNamespaceId : Bytes
  deriving DecidableEq

def layoutByte : PhysicalLayout → UInt8
  | .raw => 0
  | .packed => 1

def layoutFromByte (v : UInt8) : Except HeraclitusError PhysicalLayout :=
  if v = 0 then .ok .raw
  else if v = 1 then .ok .packed
  else .error (.corruption "physical layout" s!"unknown physical_layout {v}")

def FileHeaderV6.fields (h : FileHeaderV6) : List Bytes :=
  [hrklMagic, leBytes 2 formatVersionV6, leBytes 2 fileHeaderLen, [layoutByte h.physicalLayout],
    leBytes 1 h.canonicalCodec, leBytes 2 h.flags, leBytes 8 h.segmentId, leBytes 8 h.createdHlc, leBytes 8 h.firstLsn,
    leBytes 8 h.writerEpoch, h.storageNamespaceId]

def FileHeaderV6.encode (h : FileHeaderV6) : Bytes :=
  h.fields.flatten ++ leBytes 4 (crc32c h.fields.flatten).toNat

def FileHeaderV6.decode (buf : Bytes) : Except HeraclitusError FileHeaderV6 :=
  let ctx := "hrkl v6 file header"
  if buf.length < fileHeaderLen then .error (corrupt ctx "short header")
  else if buf.take 4 ≠ hrklMagic then .error (corrupt ctx "bad magic")
  else
    let version := leNat ((buf.drop 4).take 2)
    let headerLen := leNat ((buf.drop 6).take 2)
    let stored := leNat ((buf.drop 60).take 4)
    let actual := (crc32c (buf.take 60)).toNat
    if version ≠ formatVersionV6 then .error (corrupt ctx s!"format_version {version} is not v6")
    else if headerLen ≠ fileHeaderLen then .error (corrupt ctx s!"header_len {headerLen} != {fileHeaderLen}")
    else if stored ≠ actual then .error (corrupt ctx (crcMismatch stored actual))
    else
      match layoutFromByte ((buf.drop 8).headD 0) with
      | .error e => .error e
      | .ok layout => .ok {
          physicalLayout := layout
          canonicalCodec := leNat ((buf.drop 9).take 1)
          flags := leNat ((buf.drop 10).take 2)
          segmentId := leNat ((buf.drop 12).take 8)
          createdHlc := leNat ((buf.drop 20).take 8)
          firstLsn := leNat ((buf.drop 28).take 8)
          writerEpoch := leNat ((buf.drop 36).take 8)
          storageNamespaceId := (buf.drop 44).take 16 }

/-- The fields are of the widths that their types give them. -/
structure FileHeaderV6.Wide (h : FileHeaderV6) : Prop where
  canonicalCodec : h.canonicalCodec < 2 ^ 8
  flags : h.flags < 2 ^ 16
  segmentId : h.segmentId < 2 ^ 64
  createdHlc : h.createdHlc < 2 ^ 64
  firstLsn : h.firstLsn < 2 ^ 64
  writerEpoch : h.writerEpoch < 2 ^ 64
  storageNamespaceId : h.storageNamespaceId.length = 16

/-! ## The footer -/

structure FooterV6 where
  recordCount : Nat
  minLsn : Nat
  maxLsn : Nat
  minHlc : Nat
  maxHlc : Nat
  blockCount : Nat
  flags : Nat
  blockDirectoryOffset : Nat
  blockDirectoryLen : Nat
  logicalRoot : Digest
  deriving DecidableEq

/-- The fields in front of the checksum. -/
def FooterV6.fields (f : FooterV6) : List Bytes :=
  [footerMagic, leBytes 2 footerVersionV6, leBytes 2 footerLen, leBytes 8 f.recordCount, leBytes 8 f.minLsn,
    leBytes 8 f.maxLsn, leBytes 8 f.minHlc, leBytes 8 f.maxHlc, leBytes 4 f.blockCount, leBytes 4 f.flags,
    leBytes 8 f.blockDirectoryOffset, leBytes 8 f.blockDirectoryLen, f.logicalRoot.1]

def reserved : Bytes := List.replicate 20 0

/-- The checksum covers the whole footer, itself as zeros. -/
def FooterV6.encode (f : FooterV6) : Bytes :=
  let crc := crc32c (f.fields.flatten ++ (leBytes 4 0 ++ reserved))
  f.fields.flatten ++ (leBytes 4 crc.toNat ++ reserved)

def FooterV6.checkCoherence (f : FooterV6) : Except HeraclitusError Unit :=
  let ctx := "hrkl v6 footer"
  let span := f.maxLsn - f.minLsn
  if 0 < f.recordCount ∧ f.maxLsn < f.minLsn then .error (corrupt ctx s!"min_lsn {f.minLsn} > max_lsn {f.maxLsn}")
  else if 0 < f.recordCount ∧ f.maxHlc < f.minHlc then .error (corrupt ctx "min_hlc > max_hlc")
  else if 0 < f.recordCount ∧ satAdd64 span 1 < f.recordCount then
    .error (corrupt ctx s!"record_count {f.recordCount} exceeds LSN span {span + 1}")
  else if hardMaxBlocks < f.blockCount then .error (corrupt ctx s!"block_count {f.blockCount} above hard maximum")
  else if f.blockDirectoryLen ≠ f.blockCount * dirEntryLen then
    .error (corrupt ctx s!"block_directory_len {f.blockDirectoryLen} != block_count {f.blockCount} * {dirEntryLen}")
  else .ok ()

def FooterV6.decode (buf : Bytes) : Except HeraclitusError FooterV6 :=
  let ctx := "hrkl v6 footer"
  if buf.length < footerLen then .error (corrupt ctx "short footer")
  else
    let buf := buf.take footerLen
    if buf.take 4 ≠ footerMagic then .error (corrupt ctx "bad magic")
    else
      let version := leNat ((buf.drop 4).take 2)
      let len := leNat ((buf.drop 6).take 2)
      let stored := leNat ((buf.drop crcOffset).take 4)
      let actual := (crc32c (buf.take crcOffset ++ (leBytes 4 0 ++ buf.drop (crcOffset + 4)))).toNat
      if version ≠ footerVersionV6 then .error (corrupt ctx s!"footer_version {version} unsupported")
      else if len ≠ footerLen then .error (corrupt ctx s!"footer_len {len} != {footerLen}")
      else if stored ≠ actual then .error (corrupt ctx (crcMismatch stored actual))
      else
        let f : FooterV6 := {
          recordCount := leNat ((buf.drop 8).take 8)
          minLsn := leNat ((buf.drop 16).take 8)
          maxLsn := leNat ((buf.drop 24).take 8)
          minHlc := leNat ((buf.drop 32).take 8)
          maxHlc := leNat ((buf.drop 40).take 8)
          blockCount := leNat ((buf.drop 48).take 4)
          flags := leNat ((buf.drop 52).take 4)
          blockDirectoryOffset := leNat ((buf.drop 56).take 8)
          blockDirectoryLen := leNat ((buf.drop 64).take 8)
          logicalRoot := Legacy.toDigest ((buf.drop 72).take 32) }
        match f.checkCoherence with
        | .error e => .error e
        | .ok () => .ok f

def FooterV6.isContiguousLsn (f : FooterV6) : Bool := f.flags % 2 == 1

def FooterV6.lsnSpanIsContiguous (f : FooterV6) : Bool :=
  decide (0 < f.recordCount) && f.maxLsn - f.minLsn + 1 == f.recordCount

structure FooterV6.Wide (f : FooterV6) : Prop where
  recordCount : f.recordCount < 2 ^ 64
  minLsn : f.minLsn < 2 ^ 64
  maxLsn : f.maxLsn < 2 ^ 64
  minHlc : f.minHlc < 2 ^ 64
  maxHlc : f.maxHlc < 2 ^ 64
  blockCount : f.blockCount < 2 ^ 32
  flags : f.flags < 2 ^ 32
  blockDirectoryOffset : f.blockDirectoryOffset < 2 ^ 64
  blockDirectoryLen : f.blockDirectoryLen < 2 ^ 64

/-! ## Records -/

/-- The CRC covers all of a record but the CRC itself. -/
def rawRecordCrc (record : Bytes) : UInt32 := crc32c (record.take 4 ++ record.drop 8)

def encodeRawRecord (lsn hlc : Nat) (payload : Bytes) : Bytes :=
  let len := leBytes 4 payload.length
  let rest := leBytes 8 lsn ++ leBytes 8 hlc ++ payload
  len ++ leBytes 4 (rawRecordCrc (len ++ leBytes 4 0 ++ rest)).toNat ++ rest

inductive RawDecoded where
  | record (lsn hlc : Nat) (payload : Bytes) (total : Nat)
  | footer (f : FooterV6)
  | torn

def decodeRawRecord (buf : Bytes) : RawDecoded :=
  if buf.take 4 = footerMagic then
    match FooterV6.decode buf with
    | .ok f => .footer f
    | .error _ => .torn
  else if buf.length < rawRecordHeaderLen then .torn
  else
    let len := leNat (buf.take 4)
    if hardMaxRecordBytes < len then .torn
    else
      let total := rawRecordHeaderLen + len
      if buf.length < total then .torn
      else if (rawRecordCrc (buf.take total)).toNat ≠ leNat ((buf.drop 4).take 4) then .torn
      else .record (leNat ((buf.drop 8).take 8)) (leNat ((buf.drop 16).take 8)) ((buf.take total).drop rawRecordHeaderLen)
        total

/-! ## What the readers find -/

theorem FileHeaderV6.length_fields {h : FileHeaderV6} (hns : h.storageNamespaceId.length = 16) :
    h.fields.flatten.length = 60 := by
  simp [FileHeaderV6.fields, hrklMagic, hns]

theorem FileHeaderV6.length_encode {h : FileHeaderV6} (hns : h.storageNamespaceId.length = 16) :
    h.encode.length = fileHeaderLen := by
  rw [FileHeaderV6.encode, List.length_append, FileHeaderV6.length_fields hns, length_leBytes]
  rfl

/-- **A header is read back**, whatever follows it. -/
theorem FileHeaderV6.decode_encode {h : FileHeaderV6} (hw : h.Wide) (tail : Bytes) :
    FileHeaderV6.decode (h.encode ++ tail) = .ok h := by
  have h60 := FileHeaderV6.length_fields hw.storageNamespaceId
  have hbuf : h.encode ++ tail = h.fields.flatten ++ (leBytes 4 (crc32c h.fields.flatten).toNat ++ tail) := by
    rw [FileHeaderV6.encode, List.append_assoc]
  have hlen : ¬(h.encode ++ tail).length < fileHeaderLen := by
    rw [List.length_append, FileHeaderV6.length_encode hw.storageNamespaceId]
    omega
  have hfield : ∀ {i k n : Nat} {f : Bytes}, h.fields[i]? = some f → start h.fields i = k → f.length = n →
      ((h.encode ++ tail).drop k).take n = f := fun hf hk hn => by
    rw [hbuf]
    exact take_drop_piece hf hk hn
  have hmagic : (h.encode ++ tail).take 4 = hrklMagic := hfield (i := 0) (k := 0) rfl rfl rfl
  have hversion := hfield (i := 1) (k := 4) rfl rfl (length_leBytes 2 _)
  have hheaderLen := hfield (i := 2) (k := 6) rfl (by simp [start, fields, hrklMagic]) (length_leBytes 2 _)
  have hlayout := hfield (i := 3) (k := 8) rfl (by simp [start, fields, hrklMagic]) (n := 1) rfl
  have hcodec := hfield (i := 4) (k := 9) rfl (by simp [start, fields, hrklMagic]) (length_leBytes 1 _)
  have hflags := hfield (i := 5) (k := 10) rfl (by simp [start, fields, hrklMagic]) (length_leBytes 2 _)
  have hid := hfield (i := 6) (k := 12) rfl (by simp [start, fields, hrklMagic]) (length_leBytes 8 _)
  have hhlc := hfield (i := 7) (k := 20) rfl (by simp [start, fields, hrklMagic]) (length_leBytes 8 _)
  have hfirst := hfield (i := 8) (k := 28) rfl (by simp [start, fields, hrklMagic]) (length_leBytes 8 _)
  have hepoch := hfield (i := 9) (k := 36) rfl (by simp [start, fields, hrklMagic]) (length_leBytes 8 _)
  have hns := hfield (i := 10) (k := 44) rfl (by simp [start, fields, hrklMagic]) hw.storageNamespaceId
  have hcrc : ((h.encode ++ tail).drop 60).take 4 = leBytes 4 (crc32c h.fields.flatten).toNat := by
    rw [hbuf, List.drop_left' h60, List.take_left' (length_leBytes 4 _)]
  have hcovered : (h.encode ++ tail).take 60 = h.fields.flatten := by rw [hbuf, List.take_left' h60]
  have hhead : ((h.encode ++ tail).drop 8).headD 0 = layoutByte h.physicalLayout := by
    rw [List.headD_eq_head?_getD]
    have := congrArg List.head? hlayout
    rw [List.head?_take, if_neg (by decide)] at this
    rw [this]
    rfl
  have hfrom : layoutFromByte (layoutByte h.physicalLayout) = .ok h.physicalLayout := by
    cases h.physicalLayout <;> rfl
  unfold FileHeaderV6.decode
  dsimp only
  rw [if_neg hlen, hmagic, if_neg (fun hne => hne rfl), hversion, leNat_leBytes_of_lt (by decide),
    if_neg (fun hne => hne rfl), hheaderLen, leNat_leBytes_of_lt (by decide), if_neg (fun hne => hne rfl), hcrc, hcovered,
    leNat_leBytes_of_lt (crc32c h.fields.flatten).toNat_lt, if_neg (fun hne => hne rfl), hhead, hfrom]
  dsimp only
  rw [hcodec, hflags, hid, hhlc, hfirst, hepoch, hns, leNat_leBytes_of_lt hw.canonicalCodec, leNat_leBytes_of_lt hw.flags,
    leNat_leBytes_of_lt hw.segmentId, leNat_leBytes_of_lt hw.createdHlc, leNat_leBytes_of_lt hw.firstLsn,
    leNat_leBytes_of_lt hw.writerEpoch]

/-- A header that is read has fields of their widths. -/
theorem FileHeaderV6.wide_of_decode {buf : Bytes} {h : FileHeaderV6} (hh : FileHeaderV6.decode buf = .ok h) : h.Wide := by
  unfold FileHeaderV6.decode at hh
  dsimp only at hh
  obtain ⟨hlen, hh⟩ := guard_eq_ok.1 hh
  obtain ⟨-, hh⟩ := guard_eq_ok.1 hh
  obtain ⟨-, hh⟩ := guard_eq_ok.1 hh
  obtain ⟨-, hh⟩ := guard_eq_ok.1 hh
  obtain ⟨-, hh⟩ := guard_eq_ok.1 hh
  split at hh
  · cases hh
  · cases hh
    refine ⟨leNat_take_lt _ 1, leNat_take_lt _ 2, leNat_take_lt _ 8, leNat_take_lt _ 8, leNat_take_lt _ 8, leNat_take_lt _ 8, ?_⟩
    rw [List.length_take, List.length_drop]
    rw [fileHeaderLen] at hlen
    omega

/-- Only the header itself is read. -/
theorem FileHeaderV6.decode_take {buf : Bytes} (hlen : fileHeaderLen ≤ buf.length) :
    FileHeaderV6.decode (buf.take fileHeaderLen) = FileHeaderV6.decode buf := by
  have hslice : ∀ {k n : Nat}, k + n ≤ fileHeaderLen → ((buf.take fileHeaderLen).drop k).take n = (buf.drop k).take n := by
    intro k n hkn
    rw [List.drop_take, List.take_take, Nat.min_eq_left (by omega)]
  have hfront : ∀ {n : Nat}, n ≤ fileHeaderLen → (buf.take fileHeaderLen).take n = buf.take n := by
    intro n hn
    rw [List.take_take, Nat.min_eq_left hn]
  have hhead : ((buf.take fileHeaderLen).drop 8).headD 0 = (buf.drop 8).headD 0 := by
    have hone := congrArg List.head? (@hslice 8 1 (by decide))
    rw [List.head?_take, List.head?_take, if_neg (by decide), if_neg (by decide)] at hone
    rw [List.headD_eq_head?_getD, List.headD_eq_head?_getD, hone]
  have hlens : (buf.take fileHeaderLen).length < fileHeaderLen ↔ buf.length < fileHeaderLen := by
    rw [List.length_take]
    omega
  unfold FileHeaderV6.decode
  dsimp only
  simp only [hlens, hhead]
  rw [hfront (by decide), hfront (by decide), hslice (by decide), hslice (by decide), hslice (by decide), hslice (by decide),
    hslice (by decide), hslice (by decide), hslice (by decide), hslice (by decide), hslice (by decide), hslice (by decide)]

theorem FooterV6.length_fields (f : FooterV6) : f.fields.flatten.length = crcOffset := by
  simp [FooterV6.fields, footerMagic, crcOffset, f.logicalRoot.2]

@[simp] theorem FooterV6.length_encode (f : FooterV6) : f.encode.length = footerLen := by
  rw [FooterV6.encode, List.length_append, FooterV6.length_fields]
  simp [reserved, crcOffset, footerLen]

theorem FooterV6.take_four_encode (f : FooterV6) (tail : Bytes) : (f.encode ++ tail).take 4 = footerMagic := by
  have h : f.encode ++ tail = f.fields.flatten ++ (f.encode.drop crcOffset ++ tail) := by
    rw [← List.append_assoc]
    refine congrArg (· ++ tail) ?_
    conv_lhs => rw [← List.take_append_drop crcOffset f.encode]
    rw [FooterV6.encode, List.take_left' f.length_fields]
  rw [h]
  exact take_drop_piece (i := 0) (k := 0) rfl rfl rfl

/-- A footer as its fields leave room for it. -/
def FooterV6.narrow (f : FooterV6) : FooterV6 := { f with
  recordCount := f.recordCount % 2 ^ 64, minLsn := f.minLsn % 2 ^ 64, maxLsn := f.maxLsn % 2 ^ 64
  minHlc := f.minHlc % 2 ^ 64, maxHlc := f.maxHlc % 2 ^ 64, blockCount := f.blockCount % 2 ^ 32, flags := f.flags % 2 ^ 32
  blockDirectoryOffset := f.blockDirectoryOffset % 2 ^ 64, blockDirectoryLen := f.blockDirectoryLen % 2 ^ 64 }

theorem FooterV6.narrow_eq {f : FooterV6} (hw : f.Wide) : f.narrow = f := by
  rw [narrow, Nat.mod_eq_of_lt hw.recordCount, Nat.mod_eq_of_lt hw.minLsn, Nat.mod_eq_of_lt hw.maxLsn,
    Nat.mod_eq_of_lt hw.minHlc, Nat.mod_eq_of_lt hw.maxHlc, Nat.mod_eq_of_lt hw.blockCount, Nat.mod_eq_of_lt hw.flags,
    Nat.mod_eq_of_lt hw.blockDirectoryOffset, Nat.mod_eq_of_lt hw.blockDirectoryLen]

/-- **What is read back of any footer**: it is coherent as far as its fields go, or refused. -/
theorem FooterV6.decode_encode_eq (f : FooterV6) (tail : Bytes) :
    FooterV6.decode (f.encode ++ tail) = f.narrow.checkCoherence.map (fun _ => f.narrow) := by
  have htake : (f.encode ++ tail).take footerLen = f.encode := List.take_left' f.length_encode
  have hlen : ¬(f.encode ++ tail).length < footerLen := by
    rw [List.length_append, f.length_encode]
    omega
  generalize hcrc : (crc32c (f.fields.flatten ++ (leBytes 4 0 ++ reserved))).toNat = crc
  have hcrc32 : crc < 256 ^ 4 := hcrc ▸ (crc32c (f.fields.flatten ++ (leBytes 4 0 ++ reserved))).toNat_lt
  have hbuf : f.encode = f.fields.flatten ++ (leBytes 4 crc ++ reserved) := by
    rw [FooterV6.encode, hcrc]
  have hfield : ∀ {i k n : Nat} {b : Bytes}, f.fields[i]? = some b → start f.fields i = k → b.length = n →
      (f.encode.drop k).take n = b := fun hf hk hn => by
    rw [hbuf]
    exact take_drop_piece hf hk hn
  have hmagic : f.encode.take 4 = footerMagic := hfield (i := 0) (k := 0) rfl rfl rfl
  have hversion := hfield (i := 1) (k := 4) rfl rfl (length_leBytes 2 _)
  have hfooterLen := hfield (i := 2) (k := 6) rfl (by simp [start, fields, footerMagic]) (length_leBytes 2 _)
  have hcount := hfield (i := 3) (k := 8) rfl (by simp [start, fields, footerMagic]) (length_leBytes 8 _)
  have hminLsn := hfield (i := 4) (k := 16) rfl (by simp [start, fields, footerMagic]) (length_leBytes 8 _)
  have hmaxLsn := hfield (i := 5) (k := 24) rfl (by simp [start, fields, footerMagic]) (length_leBytes 8 _)
  have hminHlc := hfield (i := 6) (k := 32) rfl (by simp [start, fields, footerMagic]) (length_leBytes 8 _)
  have hmaxHlc := hfield (i := 7) (k := 40) rfl (by simp [start, fields, footerMagic]) (length_leBytes 8 _)
  have hblocks := hfield (i := 8) (k := 48) rfl (by simp [start, fields, footerMagic]) (length_leBytes 4 _)
  have hflags := hfield (i := 9) (k := 52) rfl (by simp [start, fields, footerMagic]) (length_leBytes 4 _)
  have hoffset := hfield (i := 10) (k := 56) rfl (by simp [start, fields, footerMagic]) (length_leBytes 8 _)
  have hdirLen := hfield (i := 11) (k := 64) rfl (by simp [start, fields, footerMagic]) (length_leBytes 8 _)
  have hroot := hfield (i := 12) (k := 72) rfl (by simp [start, fields, footerMagic]) f.logicalRoot.2
  have hstored : (f.encode.drop crcOffset).take 4 = leBytes 4 crc := by
    rw [hbuf, List.drop_left' f.length_fields, List.take_left' (length_leBytes 4 _)]
  have hcovered : f.encode.take crcOffset = f.fields.flatten := by
    rw [hbuf, List.take_left' f.length_fields]
  have hrest : f.encode.drop (crcOffset + 4) = reserved := by
    rw [hbuf, ← List.append_assoc]
    exact List.drop_left' (by rw [List.length_append, f.length_fields, length_leBytes])
  have hdigest : Legacy.toDigest f.logicalRoot.1 = f.logicalRoot := by
    rw [Legacy.toDigest, dif_pos f.logicalRoot.2]
  unfold FooterV6.decode
  dsimp only
  rw [if_neg hlen, htake, hmagic, if_neg (fun hne => hne rfl), hversion, leNat_leBytes_of_lt (by decide),
    if_neg (fun hne => hne rfl), hfooterLen, leNat_leBytes_of_lt (by decide), if_neg (fun hne => hne rfl), hstored,
    hcovered, hrest, leNat_leBytes_of_lt hcrc32, if_neg (fun hne => hne hcrc.symm), hcount, hminLsn, hmaxLsn, hminHlc,
    hmaxHlc, hblocks, hflags, hoffset, hdirLen, hroot, hdigest]
  simp only [leNat_leBytes]
  rw [narrow]
  cases FooterV6.checkCoherence _ <;> rfl

/-- A footer that is read has fields of their widths. -/
theorem FooterV6.wide_of_decode {buf : Bytes} {f : FooterV6} (hf : FooterV6.decode buf = .ok f) : f.Wide := by
  unfold FooterV6.decode at hf
  dsimp only at hf
  obtain ⟨-, hf⟩ := guard_eq_ok.1 hf
  obtain ⟨-, hf⟩ := guard_eq_ok.1 hf
  obtain ⟨-, hf⟩ := guard_eq_ok.1 hf
  obtain ⟨-, hf⟩ := guard_eq_ok.1 hf
  obtain ⟨-, hf⟩ := guard_eq_ok.1 hf
  split at hf
  · cases hf
  · cases hf
    exact ⟨leNat_take_lt _ 8, leNat_take_lt _ 8, leNat_take_lt _ 8, leNat_take_lt _ 8, leNat_take_lt _ 8, leNat_take_lt _ 4,
      leNat_take_lt _ 4, leNat_take_lt _ 8, leNat_take_lt _ 8⟩

/-- **A coherent footer is read back**, whatever follows it. -/
theorem FooterV6.decode_encode {f : FooterV6} (hw : f.Wide) (hcoherent : f.checkCoherence = .ok ()) (tail : Bytes) :
    FooterV6.decode (f.encode ++ tail) = .ok f := by
  rw [f.decode_encode_eq tail, f.narrow_eq hw, hcoherent]
  rfl

theorem leBytes_ne_footerMagic {n : Nat} (h : n ≤ hardMaxRecordBytes) : leBytes 4 n ≠ footerMagic :=
  Legacy.leBytes_ne_footerMagic h

section Record

variable (lsn hlc : Nat) (payload tail : Bytes)

@[simp] theorem length_encodeRawRecord :
    (encodeRawRecord lsn hlc payload).length = rawRecordHeaderLen + payload.length := by
  simp [encodeRawRecord, rawRecordHeaderLen]
  omega

theorem take_four_encodeRawRecord : (encodeRawRecord lsn hlc payload ++ tail).take 4 = leBytes 4 payload.length := by
  rw [encodeRawRecord, List.append_assoc, List.append_assoc]
  exact List.take_left' (length_leBytes 4 _)

theorem encodeRawRecord_eq : ∃ crc : Bytes, crc.length = 4 ∧
    leNat crc = (rawRecordCrc (encodeRawRecord lsn hlc payload)).toNat ∧
    encodeRawRecord lsn hlc payload = [leBytes 4 payload.length, crc, leBytes 8 lsn, leBytes 8 hlc, payload].flatten := by
  let rest := leBytes 8 lsn ++ leBytes 8 hlc ++ payload
  let crc := rawRecordCrc (leBytes 4 payload.length ++ leBytes 4 0 ++ rest)
  refine ⟨leBytes 4 crc.toNat, length_leBytes 4 _, ?_, by simp [encodeRawRecord, crc, rest]⟩
  rw [leNat_leBytes_of_lt crc.toNat_lt]
  -- the CRC field is not part of what the CRC covers
  have h8 : ∀ c : Bytes, c.length = 4 → (leBytes 4 payload.length ++ c ++ rest).drop 8 = rest :=
    fun c hc => List.drop_left' (by rw [List.length_append, length_leBytes, hc])
  have h4 : ∀ c : Bytes, (leBytes 4 payload.length ++ c ++ rest).take 4 = leBytes 4 payload.length :=
    fun c => by rw [List.append_assoc]; exact List.take_left' (length_leBytes 4 _)
  have hcover : ∀ c : Bytes, c.length = 4 →
      rawRecordCrc (leBytes 4 payload.length ++ c ++ rest) = crc32c (leBytes 4 payload.length ++ rest) := fun c hc => by
    rw [rawRecordCrc, h4, h8 c hc]
  exact congrArg UInt32.toNat ((hcover _ (length_leBytes 4 _)).trans (hcover _ (length_leBytes 4 _)).symm)

variable {lsn hlc payload}

/-- **A record decodes to what was encoded**, whatever follows it. -/
theorem decodeRawRecord_encode (hlsn : lsn < 2 ^ 64) (hhlc : hlc < 2 ^ 64) (hlen : payload.length ≤ hardMaxRecordBytes) :
    decodeRawRecord (encodeRawRecord lsn hlc payload ++ tail)
      = .record lsn hlc payload (rawRecordHeaderLen + payload.length) := by
  obtain ⟨crc, hcrclen, hcrc, heq⟩ := encodeRawRecord_eq lsn hlc payload
  have hlen4 : leNat (leBytes 4 payload.length) = payload.length :=
    leNat_leBytes_of_lt (by unfold hardMaxRecordBytes at hlen; omega)
  have htake : (encodeRawRecord lsn hlc payload ++ tail).take (rawRecordHeaderLen + payload.length)
      = encodeRawRecord lsn hlc payload := List.take_left' (length_encodeRawRecord lsn hlc payload)
  have hlength : (encodeRawRecord lsn hlc payload ++ tail).length = rawRecordHeaderLen + payload.length + tail.length := by
    rw [List.length_append, length_encodeRawRecord]
  have hfield : ∀ {i k n : Nat} {b : Bytes},
      [leBytes 4 payload.length, crc, leBytes 8 lsn, leBytes 8 hlc, payload][i]? = some b →
      start [leBytes 4 payload.length, crc, leBytes 8 lsn, leBytes 8 hlc, payload] i = k → b.length = n →
      ((encodeRawRecord lsn hlc payload ++ tail).drop k).take n = b := fun hf hk hn => by
    rw [heq]
    exact take_drop_piece hf hk hn
  have hcrc4 := hfield (i := 1) (k := 4) rfl (by simp [start]) hcrclen
  have hlsn8 := hfield (i := 2) (k := 8) rfl (by simp [start, hcrclen]) (length_leBytes 8 _)
  have hhlc8 := hfield (i := 3) (k := 16) rfl (by simp [start, hcrclen]) (length_leBytes 8 _)
  have hpayload : (encodeRawRecord lsn hlc payload).drop rawRecordHeaderLen = payload := by
    have : encodeRawRecord lsn hlc payload
        = (leBytes 4 payload.length ++ crc ++ leBytes 8 lsn ++ leBytes 8 hlc) ++ payload := by simp [heq]
    rw [this]
    exact List.drop_left' (by simp [hcrclen, rawRecordHeaderLen])
  unfold decodeRawRecord
  dsimp only
  rw [take_four_encodeRawRecord, if_neg (leBytes_ne_footerMagic hlen), hlength, hlen4,
    if_neg (by omega), if_neg (by omega), if_neg (by omega), htake, hcrc4, if_neg (by rw [hcrc]; exact fun h => h rfl),
    hlsn8, hhlc8, hpayload, leNat_leBytes_of_lt hlsn, leNat_leBytes_of_lt hhlc]

end Record

end V6
end Heraclitus
