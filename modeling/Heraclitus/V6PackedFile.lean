import Heraclitus.V6Packed
/-!
# V6PackedFile — the file of a PACKED segment (`heraclitus-log/src/v6/packed.rs`)

The writer leaves the records in groups, one group to a block.  A segment that opens has the directory of these groups, and
what a read finds by way of the directory is what a scan through all blocks finds.
-/
namespace Heraclitus
namespace V6

/-! ## What the writer leaves -/

/-- The records of a block, and the block. -/
abbrev Group : Type := List RawRecord × BuiltBlock

def Group.bytes (g : Group) : Bytes := g.2.headerBytes ++ g.2.stored

def blockBytes (gs : List Group) : Bytes := gs.flatMap Group.bytes

def recordsIn (gs : List Group) : List RawRecord := gs.flatMap Prod.fst

/-- The directory of groups whose first block is at `offset`. -/
def entriesFrom : Nat → List Group → BlockDirectory
  | _, [] => []
  | offset, g :: gs => g.2.header.toDirectoryEntry offset :: entriesFrom (offset + g.bytes.length) gs

theorem blockBytes_concat (gs : List Group) (g : Group) : blockBytes (gs ++ [g]) = blockBytes gs ++ g.bytes := by
  simp [blockBytes]

theorem recordsIn_concat (gs : List Group) (g : Group) : recordsIn (gs ++ [g]) = recordsIn gs ++ g.1 := by
  simp [recordsIn]

theorem entriesFrom_concat : ∀ (offset : Nat) (gs : List Group) (g : Group),
    entriesFrom offset (gs ++ [g]) = entriesFrom offset gs ++ [g.2.header.toDirectoryEntry (offset + (blockBytes gs).length)]
  | offset, [], g => by simp [entriesFrom, blockBytes]
  | offset, g' :: gs, g => by
    rw [List.cons_append, entriesFrom, entriesFrom_concat (offset + g'.bytes.length) gs g, entriesFrom, blockBytes, blockBytes,
      List.flatMap_cons, List.length_append, Nat.add_assoc]
    rfl

@[simp] theorem length_entriesFrom : ∀ (offset : Nat) (gs : List Group), (entriesFrom offset gs).length = gs.length
  | _, [] => rfl
  | offset, g :: gs => by rw [entriesFrom, List.length_cons, length_entriesFrom, List.length_cons]

theorem getElem?_entriesFrom : ∀ (offset : Nat) (gs : List Group) (i : Nat), (entriesFrom offset gs)[i]?
    = gs[i]?.map (fun g => g.2.header.toDirectoryEntry (offset + (blockBytes (gs.take i)).length))
  | _, [], _ => rfl
  | offset, g :: gs, 0 => rfl
  | offset, g :: gs, i + 1 => by
    rw [entriesFrom, List.getElem?_cons_succ, getElem?_entriesFrom (offset + g.bytes.length) gs i, List.getElem?_cons_succ,
      List.take_succ_cons, blockBytes, blockBytes, List.flatMap_cons, List.length_append, Nat.add_assoc]

variable {codecs : Codecs} {blake3 : Bytes → Digest}

theorem buildBlock_header {records : List RawRecord} {k : Nat} {profile : PackingProfile} {worth : Nat → Nat → Bool}
    {b : BuiltBlock} (h : buildBlock codecs records k profile worth = .ok b) :
    records ≠ [] ∧ b.headerBytes = b.header.encode b.stored ∧ b.header.compressedLen = b.stored.length := by
  cases records with
  | nil => cases h
  | cons first rest =>
    unfold buildBlock at h
    dsimp only at h
    split at h
    · cases h
    · obtain ⟨-, h⟩ := guard_eq_ok.1 h
      split at h
      · cases h
      · obtain ⟨-, h⟩ := guard_eq_ok.1 h
        obtain ⟨-, h⟩ := guard_eq_ok.1 h
        cases h
        exact ⟨List.cons_ne_nil _ _, rfl, rfl⟩

/-- The blocks were built of their groups. -/
def AllBuilt (codecs : Codecs) (opts : PackOptions) (gs : List Group) : Prop :=
  ∀ g ∈ gs, buildBlock codecs g.1 (max opts.restartInterval 1) opts.profile opts.worth = .ok g.2

theorem AllBuilt.length_bytes {opts : PackOptions} {gs : List Group} (h : AllBuilt codecs opts gs) {g : Group} (hg : g ∈ gs) :
    g.bytes.length = blockHeaderLen + g.2.stored.length := by
  obtain ⟨-, hbytes, -⟩ := buildBlock_header (h g hg)
  rw [Group.bytes, List.length_append, hbytes, BlockHeaderV1.encode, BlockHeaderV1.length_encodeWithCrc]

/-- What the writer has written, and has still to write. -/
structure PackedSegmentWriter.Wrote (codecs : Codecs) (init : SegmentInit) (opts : PackOptions) (gs : List Group)
    (pushed : List RawRecord) (w : PackedSegmentWriter) : Prop where
  file : w.file = init.packedHeader.encode ++ blockBytes gs
  offset : w.offset = fileHeaderLen + (blockBytes gs).length
  directory : w.directory = entriesFrom fileHeaderLen gs
  sameOpts : w.opts = opts
  restartInterval : w.builder.restartInterval = max opts.restartInterval 1
  built : AllBuilt codecs opts gs
  records : recordsIn gs ++ w.builder.records = pushed

section Writer

variable {init : SegmentInit} {opts : PackOptions} {gs : List Group} {pushed : List RawRecord} {w w' : PackedSegmentWriter}

/-- **A flush** writes one more group, if there is anything to write. -/
theorem PackedSegmentWriter.Wrote.flushBlock (h : w.Wrote codecs init opts gs pushed) (hflush : w.flushBlock codecs = .ok w') :
    (∃ gs', w'.Wrote codecs init opts gs' pushed) ∧ w'.builder.records = [] := by
  unfold PackedSegmentWriter.flushBlock at hflush
  by_cases hempty : w.builder.records = []
  · rw [if_pos hempty] at hflush
    cases hflush
    exact ⟨⟨gs, h⟩, hempty⟩
  · rw [if_neg hempty, h.sameOpts, h.restartInterval] at hflush
    cases hbuild : buildBlock codecs w.builder.records (max opts.restartInterval 1) opts.profile opts.worth with
    | error e =>
      rw [hbuild] at hflush
      cases hflush
    | ok b =>
      rw [hbuild] at hflush
      cases hflush
      have hbuilt : AllBuilt codecs opts (gs ++ [(w.builder.records, b)]) := by
        intro g hg
        rcases List.mem_append.1 hg with hg | hg
        · exact h.built g hg
        · cases List.mem_singleton.1 hg
          exact hbuild
      have hlen := hbuilt.length_bytes (List.mem_append_right gs List.mem_cons_self)
      refine ⟨⟨gs ++ [(w.builder.records, b)], ⟨?_, ?_, ?_, rfl, h.restartInterval, hbuilt, ?_⟩⟩, rfl⟩
      · dsimp only
        rw [h.file, blockBytes_concat, List.append_assoc]
        rfl
      · dsimp only
        rw [h.offset, blockBytes_concat, List.length_append, hlen, Nat.add_assoc]
      · dsimp only
        rw [h.directory, entriesFrom_concat, ← h.offset]
      · dsimp only
        rw [recordsIn_concat, List.append_nil]
        exact h.records

/-- **A push** keeps the record for a block to come, and may flush before or after that. -/
theorem PackedSegmentWriter.Wrote.push (h : w.Wrote codecs init opts gs pushed) {r : RawRecord} {hash : Digest}
    (hpush : w.push codecs blake3 r hash = .ok w') : ∃ gs', w'.Wrote codecs init opts gs' (pushed ++ [r]) := by
  unfold PackedSegmentWriter.push at hpush
  have hbefore : ∀ {w₁ : PackedSegmentWriter},
      (if w.builder.wouldOverflow r.payload.length then w.flushBlock codecs else .ok w) = .ok w₁ →
        ∃ gs₁, w₁.Wrote codecs init opts gs₁ pushed := by
    intro w₁ h₁
    split at h₁
    · exact (h.flushBlock h₁).1
    · cases h₁
      exact ⟨gs, h⟩
  cases hfirst : (if w.builder.wouldOverflow r.payload.length then w.flushBlock codecs else .ok w) with
  | error e =>
    rw [hfirst] at hpush
    cases hpush
  | ok w₁ =>
    rw [hfirst] at hpush
    dsimp only at hpush
    obtain ⟨gs₁, h₁⟩ := hbefore hfirst
    have hrecords : recordsIn gs₁ ++ (w₁.builder.push r).records = pushed ++ [r] := by
      rw [← h₁.records, List.append_assoc]
      rfl
    split at hpush
    · refine (@PackedSegmentWriter.Wrote.flushBlock codecs init opts gs₁ _ _ _ ?_ hpush).1
      exact ⟨h₁.file, h₁.offset, h₁.directory, h₁.sameOpts, h₁.restartInterval, h₁.built, hrecords⟩
    · cases hpush
      exact ⟨gs₁, h₁.file, h₁.offset, h₁.directory, h₁.sameOpts, h₁.restartInterval, h₁.built, hrecords⟩

/-- **All pushes.** -/
theorem PackedSegmentWriter.Wrote.pushAll : ∀ (rs : List (RawRecord × Digest)) {gs : List Group} {pushed : List RawRecord}
    {w : PackedSegmentWriter}, w.Wrote codecs init opts gs pushed → w.pushAll codecs blake3 rs = .ok w' →
      ∃ gs', w'.Wrote codecs init opts gs' (pushed ++ rs.map Prod.fst)
  | [], gs, pushed, w, h, hpush => by
    cases hpush
    exact ⟨gs, by rw [List.map_nil, List.append_nil]; exact h⟩
  | r :: rs, gs, pushed, w, h, hpush => by
    rw [PackedSegmentWriter.pushAll] at hpush
    cases hfirst : w.push codecs blake3 r.1 r.2 with
    | error e =>
      rw [hfirst] at hpush
      cases hpush
    | ok w₁ =>
      rw [hfirst] at hpush
      obtain ⟨gs₁, h₁⟩ := h.push hfirst
      obtain ⟨gs', h'⟩ := PackedSegmentWriter.Wrote.pushAll rs h₁ hpush
      rw [List.append_assoc] at h'
      exact ⟨gs', h'⟩

theorem PackedSegmentWriter.wrote_create :
    (PackedSegmentWriter.create init opts).Wrote codecs init opts [] [] where
  file := (List.append_nil _).symm
  offset := rfl
  directory := rfl
  sameOpts := rfl
  restartInterval := rfl
  built := fun g hg => by cases hg
  records := rfl

end Writer

theorem length_encode_entry (e : BlockDirectoryEntryV1) : e.encode.length = dirEntryLen := by
  simp [BlockDirectoryEntryV1.encode, BlockDirectoryEntryV1.fields, dirEntryLen]

theorem BlockDirectory.length_encode : ∀ entries : BlockDirectory,
    (BlockDirectory.encode entries).length = entries.length * dirEntryLen
  | [] => by simp [BlockDirectory.encode]
  | e :: entries => by
    have ih := BlockDirectory.length_encode entries
    rw [BlockDirectory.encode] at ih ⊢
    rw [List.flatMap_cons, List.length_append, ih, length_encode_entry, List.length_cons, Nat.succ_mul, Nat.add_comm]

/-- A finished segment. -/
structure PackedLayout (codecs : Codecs) (header : FileHeaderV6) (opts : PackOptions) (gs : List Group) (footer : FooterV6)
    (file : Bytes) : Prop where
  file : file = header.encode ++ (blockBytes gs ++ (BlockDirectory.encode (entriesFrom fileHeaderLen gs) ++ footer.encode))
  built : AllBuilt codecs opts gs
  blockCount : footer.blockCount = gs.length % 2 ^ 32
  blockDirectoryOffset : footer.blockDirectoryOffset = fileHeaderLen + (blockBytes gs).length
  blockDirectoryLen : footer.blockDirectoryLen = gs.length * dirEntryLen

/-- **What a finished segment is.** -/
theorem writePacked_ok {init : SegmentInit} {opts : PackOptions} {records : List (RawRecord × Digest)} {footer : FooterV6}
    {file : Bytes} (h : writePacked codecs blake3 init opts records = .ok (footer, file)) :
    ∃ gs, PackedLayout codecs init.packedHeader opts gs footer file ∧ recordsIn gs = records.map Prod.fst := by
  unfold writePacked at h
  cases hpush : (PackedSegmentWriter.create init opts).pushAll codecs blake3 records with
  | error e =>
    rw [hpush] at h
    cases h
  | ok w =>
    rw [hpush] at h
    dsimp only at h
    obtain ⟨gs, hw⟩ := PackedSegmentWriter.Wrote.pushAll records PackedSegmentWriter.wrote_create hpush
    unfold PackedSegmentWriter.finish at h
    cases hflush : w.flushBlock codecs with
    | error e =>
      rw [hflush] at h
      cases h
    | ok w' =>
      rw [hflush] at h
      cases h
      obtain ⟨⟨gs', hw'⟩, hempty⟩ := hw.flushBlock hflush
      have hrecords := hw'.records
      rw [hempty, List.append_nil] at hrecords
      refine ⟨gs', ⟨?_, hw'.built, ?_, hw'.offset, ?_⟩, hrecords⟩
      · rw [hw'.file, hw'.directory, List.append_assoc]
      · dsimp only
        rw [hw'.directory, length_entriesFrom]
      · dsimp only
        rw [BlockDirectory.length_encode, hw'.directory, length_entriesFrom]

/-! ## Opening -/

/-- A source with these bytes. -/
structure BlockSource.Holds (source : BlockSource) (file : Bytes) : Prop where
  len : source.len = file.length
  readAt : ∀ offset len, offset + len ≤ file.length → source.readAt offset len = .ok ((file.drop offset).take len)

theorem memorySource_holds {data : Bytes} (h : data.length < 2 ^ 64) : (memorySource data).Holds data where
  len := rfl
  readAt offset len hle := by
    unfold memorySource
    dsimp only
    rw [if_neg (by omega), if_neg (by omega)]

theorem fileSource_holds (data : Bytes) : (fileSource data).Holds data where
  len := rfl
  readAt offset len hle := by
    have hmin : satAdd64 offset len ≤ data.length := Nat.le_trans (Nat.min_le_left _ _) hle
    unfold fileSource
    dsimp only
    rw [if_neg (Nat.not_lt.2 hmin)]

theorem BlockSource.Holds.readAt_piece {source : BlockSource} {front bytes rest : Bytes}
    (h : source.Holds (front ++ (bytes ++ rest))) {offset len : Nat} (hoffset : front.length = offset)
    (hlen : bytes.length = len) : source.readAt offset len = .ok bytes := by
  rw [h.readAt offset len (by rw [List.length_append, List.length_append]; omega), List.drop_left' hoffset,
    List.take_left' hlen]

theorem BlockDirectoryEntryV1.decode_encode {e : BlockDirectoryEntryV1} (hw : e.Wide) (tail : Bytes) :
    BlockDirectoryEntryV1.decode (e.encode ++ tail) = .ok e := by
  have hlen : ¬(e.encode ++ tail).length < dirEntryLen := by
    rw [List.length_append, length_encode_entry]
    omega
  have hfield : ∀ {i k n : Nat} {b : Bytes}, e.fields[i]? = some b → start e.fields i = k → b.length = n →
      ((e.encode ++ tail).drop k).take n = b := fun hf hk hn => take_drop_piece hf hk hn
  have hoffset : (e.encode ++ tail).take 8 = leBytes 8 e.offset := hfield (i := 0) (k := 0) rfl rfl (length_leBytes 8 _)
  have hstored := hfield (i := 1) (k := 8) rfl (by simp [start, fields]) (length_leBytes 4 _)
  have huncompressed := hfield (i := 2) (k := 12) rfl (by simp [start, fields]) (length_leBytes 4 _)
  have hcount := hfield (i := 3) (k := 16) rfl (by simp [start, fields]) (length_leBytes 4 _)
  have hflags := hfield (i := 4) (k := 20) rfl (by simp [start, fields]) (length_leBytes 4 _)
  have hfirst := hfield (i := 5) (k := 24) rfl (by simp [start, fields]) (length_leBytes 8 _)
  have hlast := hfield (i := 6) (k := 32) rfl (by simp [start, fields]) (length_leBytes 8 _)
  have hmin := hfield (i := 7) (k := 40) rfl (by simp [start, fields]) (length_leBytes 8 _)
  have hmax := hfield (i := 8) (k := 48) rfl (by simp [start, fields]) (length_leBytes 8 _)
  rw [BlockDirectoryEntryV1.decode, if_neg hlen, hoffset, hstored, huncompressed, hcount, hflags, hfirst, hlast, hmin, hmax,
    leNat_leBytes_of_lt hw.offset, leNat_leBytes_of_lt hw.storedLen, leNat_leBytes_of_lt hw.uncompressedLen,
    leNat_leBytes_of_lt hw.recordCount, leNat_leBytes_of_lt hw.flags, leNat_leBytes_of_lt hw.firstLsn,
    leNat_leBytes_of_lt hw.lastLsn, leNat_leBytes_of_lt hw.minHlc, leNat_leBytes_of_lt hw.maxHlc]

theorem checkEntry_ok {regionEnd i prevEnd : Nat} {e : BlockDirectoryEntryV1} (h : checkEntry regionEnd i prevEnd e = .ok ()) :
    e.uncompressedLen ≤ hardMaxBlockBytes := by
  unfold checkEntry at h
  dsimp only at h
  obtain ⟨-, h⟩ := guard_eq_ok.1 h
  obtain ⟨-, h⟩ := guard_eq_ok.1 h
  obtain ⟨-, h⟩ := guard_eq_ok.1 h
  obtain ⟨-, h⟩ := guard_eq_ok.1 h
  exact Nat.not_lt.1 (guard_eq_ok.1 h).1

/-- **The entries that are accepted** are the ones that were written. -/
theorem decodeEntries_ok {buf : Bytes} {regionEnd : Nat} : ∀ (entries : BlockDirectory) {i prevEnd : Nat} {tail : Bytes}
    {out : BlockDirectory}, (∀ e ∈ entries, e.Wide) → buf.drop (i * dirEntryLen) = BlockDirectory.encode entries ++ tail →
    decodeEntries buf regionEnd i prevEnd entries.length = .ok out →
    out = entries ∧ ∀ e ∈ entries, e.uncompressedLen ≤ hardMaxBlockBytes
  | [], i, prevEnd, tail, out, _, _, h => by
    cases h
    exact ⟨rfl, fun e he => by cases he⟩
  | e :: entries, i, prevEnd, tail, out, hwide, hbuf, h => by
    have hcons : BlockDirectory.encode (e :: entries) ++ tail = e.encode ++ (BlockDirectory.encode entries ++ tail) := by
      rw [BlockDirectory.encode, List.flatMap_cons, List.append_assoc]
      rfl
    have hrest : buf.drop ((i + 1) * dirEntryLen) = BlockDirectory.encode entries ++ tail := by
      rw [Nat.succ_mul, ← List.drop_drop, hbuf, hcons, List.drop_left' (length_encode_entry e)]
    rw [List.length_cons, decodeEntries, hbuf, hcons, BlockDirectoryEntryV1.decode_encode (hwide e List.mem_cons_self)] at h
    dsimp only at h
    cases hcheck : checkEntry regionEnd i prevEnd e with
    | error err =>
      rw [hcheck] at h
      cases h
    | ok u =>
      rw [hcheck] at h
      obtain ⟨out', hout, heq⟩ := map_eq_ok h
      obtain ⟨htail, hbounds⟩ := decodeEntries_ok entries (fun e' he' => hwide e' (List.mem_cons_of_mem e he')) hrest hout
      refine ⟨by rw [← heq, htail], fun e' he' => ?_⟩
      rcases List.mem_cons.1 he' with rfl | he'
      · exact checkEntry_ok hcheck
      · exact hbounds e' he'

/-- The groups of a finished segment are of the widths that the format has. -/
def AllWide (gs : List Group) : Prop := ∀ g ∈ gs, g.2.header.Wide

theorem entriesFrom_wide : ∀ {gs : List Group} {offset : Nat}, AllWide gs → offset + (blockBytes gs).length < 2 ^ 64 →
    ∀ e ∈ entriesFrom offset gs, e.Wide
  | [], _, _, _, e, he => by cases he
  | g :: gs, offset, hwide, hend, e, he => by
    have hlen : (blockBytes (g :: gs)).length = g.bytes.length + (blockBytes gs).length := by
      rw [blockBytes, List.flatMap_cons, List.length_append]
      rfl
    rw [entriesFrom] at he
    rcases List.mem_cons.1 he with rfl | he
    · have hg := hwide g List.mem_cons_self
      exact ⟨by dsimp only [BlockHeaderV1.toDirectoryEntry]; omega, hg.compressedLen, hg.uncompressedLen, hg.recordCount,
        Nat.lt_trans hg.flags (by decide), hg.firstLsn, hg.lastLsn, hg.baseHlc, hg.maxHlc⟩
    · exact entriesFrom_wide (fun g' hg' => hwide g' (List.mem_cons_of_mem g hg')) (by omega) e he

/-- What an opened segment says of itself. -/
structure Opens (source : BlockSource) (header : FileHeaderV6) (gs : List Group) (footer : FooterV6) (maxBlockBytes : Nat)
    (reader : PackedSegmentReader) : Prop where
  source : reader.source = source
  header : FileHeaderV6.decode header.encode = .ok reader.header
  footer : reader.footer = footer.narrow
  directory : reader.directory = entriesFrom fileHeaderLen gs
  maxBlockBytes : reader.maxBlockBytes = maxBlockBytes
  bounded : ∀ g ∈ gs, g.2.header.uncompressedLen ≤ hardMaxBlockBytes

variable {header : FileHeaderV6} {opts : PackOptions} {gs : List Group} {footer : FooterV6} {file : Bytes}

theorem BlockDirectory.decode_ok {entries out : BlockDirectory} (hwide : ∀ e ∈ entries, e.Wide) {regionEnd : Nat}
    (h : BlockDirectory.decode (BlockDirectory.encode entries) entries.length regionEnd = .ok out) :
    out = entries ∧ ∀ e ∈ entries, e.uncompressedLen ≤ hardMaxBlockBytes := by
  unfold BlockDirectory.decode at h
  dsimp only at h
  obtain ⟨-, h⟩ := guard_eq_ok.1 h
  obtain ⟨-, h⟩ := guard_eq_ok.1 h
  split at h
  · cases h
  · rename_i entries' hentries
    split at h
    · cases h
      exact decodeEntries_ok entries hwide (List.append_nil _).symm hentries
    · cases h

theorem mem_entriesFrom {offset : Nat} {g : Group} (hg : g ∈ gs) :
    ∃ at', g.2.header.toDirectoryEntry at' ∈ entriesFrom offset gs := by
  obtain ⟨i, hi⟩ := List.getElem?_of_mem hg
  refine ⟨offset + (blockBytes (gs.take i)).length, List.mem_of_getElem? (i := i) ?_⟩
  rw [getElem?_entriesFrom, hi]
  rfl

/-- **What opens** is the segment that was written. -/
theorem open_ok (h : PackedLayout codecs header opts gs footer file) (hns : header.storageNamespaceId.length = 16)
    (hwide : AllWide gs) (h64 : file.length < 2 ^ 64) {source : BlockSource} (hsource : source.Holds file) {maxBlockBytes : Nat}
    {reader : PackedSegmentReader} (hopen : PackedSegmentReader.open source maxBlockBytes = .ok reader) :
    Opens source header gs footer maxBlockBytes reader := by
  have hheaderLen := FileHeaderV6.length_encode hns
  have hfile := h.file
  generalize hdir : BlockDirectory.encode (entriesFrom fileHeaderLen gs) = dir at hfile
  have hdirLen : dir.length = gs.length * dirEntryLen := by
    rw [← hdir, BlockDirectory.length_encode, length_entriesFrom]
  have hhead : source.readAt 0 fileHeaderLen = .ok header.encode := by
    have hholds : source.Holds ([] ++ (header.encode ++ (blockBytes gs ++ (dir ++ footer.encode)))) := by
      rw [List.nil_append, ← hfile]
      exact hsource
    exact hholds.readAt_piece rfl hheaderLen
  have hdirectory : source.readAt (fileHeaderLen + (blockBytes gs).length) (gs.length * dirEntryLen) = .ok dir := by
    have hholds : source.Holds ((header.encode ++ blockBytes gs) ++ (dir ++ footer.encode)) := by
      rw [List.append_assoc, ← hfile]
      exact hsource
    exact hholds.readAt_piece (by rw [List.length_append, hheaderLen]) hdirLen
  have hfoot : source.readAt (source.len - footerLen) footerLen = .ok footer.encode := by
    have heq : file = (header.encode ++ (blockBytes gs ++ dir)) ++ (footer.encode ++ []) := by
      rw [hfile, List.append_nil, List.append_assoc, List.append_assoc]
    have hlen := congrArg List.length heq
    rw [List.length_append, List.append_nil, footer.length_encode] at hlen
    rw [heq] at hsource
    rw [hsource.len, ← heq]
    exact hsource.readAt_piece (by omega) footer.length_encode
  have hend : fileHeaderLen + (blockBytes gs).length + gs.length * dirEntryLen ≤ file.length := by
    rw [hfile]
    simp only [List.length_append, hheaderLen, hdirLen]
    omega
  have hoffset : footer.narrow.blockDirectoryOffset = fileHeaderLen + (blockBytes gs).length := by
    rw [FooterV6.narrow, h.blockDirectoryOffset]
    exact Nat.mod_eq_of_lt (by omega)
  have hdirectoryLen : footer.narrow.blockDirectoryLen = gs.length * dirEntryLen := by
    rw [FooterV6.narrow, h.blockDirectoryLen]
    exact Nat.mod_eq_of_lt (by omega)
  unfold PackedSegmentReader.open at hopen
  dsimp only at hopen
  obtain ⟨-, hopen⟩ := guard_eq_ok.1 hopen
  obtain ⟨_, hheaderBytes, hopen⟩ := ok_of_bind hopen
  cases hhead.symm.trans hheaderBytes
  obtain ⟨fileHeader, hfileHeader, hopen⟩ := ok_of_bind hopen
  obtain ⟨-, hopen⟩ := guard_eq_ok.1 hopen
  obtain ⟨_, hfooterBytes, hopen⟩ := ok_of_bind hopen
  cases hfoot.symm.trans hfooterBytes
  obtain ⟨readFooter, hreadFooter, hopen⟩ := ok_of_bind hopen
  have hdecode := footer.decode_encode_eq []
  rw [List.append_nil, hreadFooter] at hdecode
  obtain ⟨-, -, hnarrow⟩ := map_eq_ok hdecode.symm
  subst hnarrow
  obtain ⟨-, hopen⟩ := guard_eq_ok.1 hopen
  obtain ⟨-, hopen⟩ := guard_eq_ok.1 hopen
  obtain ⟨hcount, hopen⟩ := guard_eq_ok.1 hopen
  have hblocks : footer.narrow.blockCount = (entriesFrom fileHeaderLen gs).length := by
    rw [length_entriesFrom]
    rw [hdirectoryLen] at hcount
    exact (Nat.eq_of_mul_eq_mul_right (by decide) (not_not.1 hcount)).symm
  rw [hoffset, hdirectoryLen, hblocks] at hopen
  obtain ⟨_, hdirectoryBytes, hopen⟩ := ok_of_bind hopen
  cases hdirectory.symm.trans hdirectoryBytes
  obtain ⟨directory, hdecoded, hopen⟩ := ok_of_bind hopen
  obtain ⟨-, hopen⟩ := guard_eq_ok.1 hopen
  rw [← hdir] at hdecoded
  obtain ⟨hentries, hbounds⟩ := BlockDirectory.decode_ok (entriesFrom_wide hwide (by omega)) hdecoded
  cases hopen
  refine ⟨rfl, hfileHeader, rfl, hentries, rfl, fun g hg => ?_⟩
  obtain ⟨offset, hentry⟩ := @mem_entriesFrom gs fileHeaderLen g hg
  exact hbounds _ hentry

end V6
end Heraclitus
