import Heraclitus.V6PackedFile
import Heraclitus.V6Proof
/-!
# V6PackedRead — point and range reads of a PACKED segment (`heraclitus-log/src/v6/packed.rs`)

A reader that opened what the writer wrote restores the groups, block by block.  What it finds by way of the directory is
what a scan through all blocks finds.
-/
namespace Heraclitus
namespace V6

variable {codecs : Codecs} {blake3 : Bytes → Digest} {header : FileHeaderV6} {opts : PackOptions} {gs : List Group}
variable {footer : FooterV6} {file : Bytes} {reader : PackedSegmentReader} {maxBlockBytes : Nat}

/-- The blocks are where the directory says, and each was built of its group. -/
structure PackedSegmentReader.Serves (codecs : Codecs) (opts : PackOptions) (gs : List Group) (maxBlockBytes : Nat)
    (reader : PackedSegmentReader) : Prop where
  directory : reader.directory = entriesFrom fileHeaderLen gs
  maxBlockBytes : reader.maxBlockBytes = maxBlockBytes
  readAt : ∀ {i g}, gs[i]? = some g → reader.source.readAt (fileHeaderLen + (blockBytes (gs.take i)).length)
    (blockHeaderLen + g.2.stored.length) = .ok g.bytes
  built : AllBuilt codecs opts gs
  wide : ∀ g ∈ gs, ∀ r ∈ g.1, r.lsn < 2 ^ 64 ∧ r.hlc < 2 ^ 64
  interval : opts.restartInterval < 2 ^ 16

theorem recordsIn_mem {g : Group} (hg : g ∈ gs) {r : RawRecord} (hr : r ∈ g.1) : r ∈ recordsIn gs :=
  List.mem_flatMap_of_mem hg hr

/-- How a group is laid out in its block. -/
theorem AllBuilt.builtOf (hbuilt : AllBuilt codecs opts gs) (hwide : ∀ g ∈ gs, ∀ r ∈ g.1, r.lsn < 2 ^ 64 ∧ r.hlc < 2 ^ 64)
    (h16 : opts.restartInterval < 2 ^ 16) {g : Group} (hg : g ∈ gs) : ∃ k sparse hlcAbsolute body,
    BuiltOf codecs g.1 k sparse hlcAbsolute opts.profile opts.worth g.2 body := by
  obtain ⟨sparse, hlcAbsolute, body, h⟩ := buildBlock_builtOf (hwide g hg) (by omega) (hbuilt g hg)
  exact ⟨_, sparse, hlcAbsolute, body, h⟩

/-- **A reader that opened the segment serves its groups.** -/
theorem serves_of_open (h : PackedLayout codecs header opts gs footer file) (hns : header.storageNamespaceId.length = 16)
    (hwide : ∀ g ∈ gs, ∀ r ∈ g.1, r.lsn < 2 ^ 64 ∧ r.hlc < 2 ^ 64) (h16 : opts.restartInterval < 2 ^ 16)
    (h64 : file.length < 2 ^ 64) {source : BlockSource} (hsource : source.Holds file)
    (hopen : PackedSegmentReader.open source maxBlockBytes = .ok reader) :
    reader.Serves codecs opts gs maxBlockBytes ∧ Opens source header gs footer maxBlockBytes reader := by
  have hheaders : AllWide gs := fun g hg => by
    obtain ⟨_, _, _, _, hbuilt⟩ := h.built.builtOf hwide h16 hg
    exact hbuilt.wide
  have hopens := open_ok h hns hheaders h64 hsource hopen
  refine ⟨⟨hopens.directory, hopens.maxBlockBytes, fun {i g} hi => ?_, h.built, hwide, h16⟩, hopens⟩
  obtain ⟨hlt, hget⟩ := List.getElem?_eq_some_iff.1 hi
  have hsplit : blockBytes gs = blockBytes (gs.take i) ++ (g.bytes ++ blockBytes (gs.drop (i + 1))) := by
    conv_lhs => rw [← List.take_append_drop i gs, List.drop_eq_getElem_cons hlt, hget]
    simp [blockBytes]
  have hlen := h.built.length_bytes (List.mem_of_getElem? hi)
  have hholds : source.Holds ((header.encode ++ blockBytes (gs.take i)) ++ (g.bytes ++ (blockBytes (gs.drop (i + 1)) ++
      (BlockDirectory.encode (entriesFrom fileHeaderLen gs) ++ footer.encode)))) := by
    have hfile := h.file
    rw [hsplit] at hfile
    simp only [List.append_assoc] at hfile ⊢
    rw [← hfile]
    exact hsource
  rw [hopens.source]
  exact hholds.readAt_piece (by rw [List.length_append, FileHeaderV6.length_encode hns]) hlen

/-- A group that the reader takes back. -/
structure Group.Readable (codecs : Codecs) (maxBlockBytes : Nat) (g : Group) (body : Bytes) : Prop where
  coherent : g.2.header.checkCoherence g.2.stored.length = .ok ()
  restored : decompressBody codecs g.2.header g.2.stored maxBlockBytes = .ok body
  decoded : decodeBlockRecords g.2.header body = .ok g.1

/-! ## One block -/

section Block

variable (hs : reader.Serves codecs opts gs maxBlockBytes) {i : Nat} {g : Group} (hi : gs[i]? = some g)
include hs hi

theorem getElem?_directory : reader.directory[i]?
    = some (g.2.header.toDirectoryEntry (fileHeaderLen + (blockBytes (gs.take i)).length)) := by
  rw [hs.directory, getElem?_entriesFrom, hi]
  rfl

/-- A block that is read back has the header and the body that were written. -/
theorem readBlock_ok {counters : ScanCounters} {x : BlockHeaderV1 × Bytes}
    (h : (reader.readBlock codecs i counters).1 = .ok x) : x.1 = g.2.header ∧
      g.2.header.checkCoherence g.2.stored.length = .ok () ∧ decompressBody codecs g.2.header g.2.stored maxBlockBytes = .ok x.2 := by
  have hg := List.mem_of_getElem? hi
  obtain ⟨_, _, _, _, hbuilt⟩ := hs.built.builtOf hs.wide hs.interval hg
  have hlen : g.2.headerBytes.length = blockHeaderLen := by
    rw [hbuilt.headerBytes, BlockHeaderV1.encode, BlockHeaderV1.length_encodeWithCrc]
  unfold PackedSegmentReader.readBlock at h
  rw [getElem?_directory hs hi] at h
  dsimp only [BlockHeaderV1.toDirectoryEntry] at h
  rw [hbuilt.compressedLen, hs.readAt hi] at h
  dsimp only at h
  rw [Group.bytes, List.take_left' hlen, List.drop_left' hlen, hbuilt.headerBytes,
    BlockHeaderV1.decode_encode_eq hbuilt.wide] at h
  cases hcoherent : g.2.header.checkCoherence g.2.stored.length with
  | error e =>
    rw [hcoherent] at h
    cases h
  | ok u =>
    rw [hcoherent] at h
    dsimp only [Except.map] at h
    rw [if_neg (by simp), hs.maxBlockBytes] at h
    cases hbody : decompressBody codecs g.2.header g.2.stored maxBlockBytes with
    | error e =>
      rw [hbody] at h
      cases h
    | ok body =>
      rw [hbody] at h
      cases h
      exact ⟨rfl, rfl, rfl⟩

/-- **A readable block is read**, and that is one read. -/
theorem readBlock_eq {body : Bytes} (hread : g.Readable codecs maxBlockBytes body) (counters : ScanCounters) :
    ∃ counters', reader.readBlock codecs i counters = (.ok (g.2.header, body), counters') ∧
      counters'.blocksRead = counters.blocksRead + 1 := by
  have hg := List.mem_of_getElem? hi
  obtain ⟨_, _, _, _, hbuilt⟩ := hs.built.builtOf hs.wide hs.interval hg
  have hlen : g.2.headerBytes.length = blockHeaderLen := by
    rw [hbuilt.headerBytes, BlockHeaderV1.encode, BlockHeaderV1.length_encodeWithCrc]
  unfold PackedSegmentReader.readBlock
  rw [getElem?_directory hs hi]
  dsimp only [BlockHeaderV1.toDirectoryEntry]
  rw [hbuilt.compressedLen, hs.readAt hi]
  dsimp only
  rw [Group.bytes, List.take_left' hlen, List.drop_left' hlen, hbuilt.headerBytes,
    BlockHeaderV1.decode_encode hbuilt.wide hread.coherent]
  dsimp only
  rw [if_neg (by simp), hs.maxBlockBytes, hread.restored]
  exact ⟨_, rfl, rfl⟩

end Block

theorem decompressBlock_ceiling {codec : CompressionCodec} {stored out : Bytes} {len maxBlock : Nat}
    (h : decompressBlock codecs codec stored len maxBlock = .ok out) : len ≤ min maxBlock hardMaxBlockBytes := by
  unfold decompressBlock at h
  exact Nat.not_lt.1 (guard_eq_ok.1 h).1

/-- What a block is restored to is what it was made of. -/
theorem restored_eq (hcodecs : codecs.Inverse) {profile : PackingProfile} {worth : Nat → Nat → Bool} {b : BuiltBlock}
    {body out : Bytes} {maxBlock : Nat}
    (hcompressed : compressBlock codecs body profile worth = .ok { codec := b.header.codec, bytes := b.stored })
    (hlen : b.header.uncompressedLen = body.length) (hout : decompressBody codecs b.header b.stored maxBlock = .ok out) :
    out = body := by
  have hceiling := decompressBlock_ceiling hout
  rw [hlen] at hceiling
  have hback := decompressBlock_compressBlock hcodecs hcompressed hceiling
  rw [decompressBody, hlen] at hout
  exact Except.ok.inj (hout.symm.trans hback)

/-- **A group that was read and decoded** is readable. -/
theorem readable_of_ok (hcodecs : codecs.Inverse) (hs : reader.Serves codecs opts gs maxBlockBytes) {i : Nat} {g : Group}
    (hi : gs[i]? = some g) {counters : ScanCounters} {x : BlockHeaderV1 × Bytes}
    (hread : (reader.readBlock codecs i counters).1 = .ok x) {records : List RawRecord}
    (hdecode : decodeBlockRecords x.1 x.2 = .ok records) : g.Readable codecs maxBlockBytes x.2 ∧ records = g.1 := by
  obtain ⟨_, _, _, _, hbuilt⟩ := hs.built.builtOf hs.wide hs.interval (List.mem_of_getElem? hi)
  obtain ⟨hheader, hcoherent, hrestored⟩ := readBlock_ok hs hi hread
  have hbody := restored_eq hcodecs hbuilt.compressed hbuilt.uncompressedLen hrestored
  rw [hheader] at hdecode
  have hrecords := decodeBlockRecords_ok hbuilt.describes (hbody.trans hbuilt.layout) hdecode
  rw [hrecords] at hdecode
  exact ⟨⟨hcoherent, hrestored, hdecode⟩, hrecords⟩

/-! ## Many blocks -/

/-- The records of group `i` that `keep` keeps. -/
def keptAt (gs : List Group) (keep : RawRecord → Bool) (i : Nat) : List RawRecord := gs[i]?.elim [] (fun g => g.1.filter keep)

theorem scanBlocks_ok (hcodecs : codecs.Inverse) (hs : reader.Serves codecs opts gs maxBlockBytes) {keep : RawRecord → Bool} :
    ∀ (is : List Nat) {counters : ScanCounters} {out : List RawRecord},
      (reader.scanBlocks codecs keep is counters).1 = .ok out →
        ∀ i ∈ is, ∀ g, gs[i]? = some g → ∃ body, g.Readable codecs maxBlockBytes body
  | [], _, _, _, i, hi => by cases hi
  | j :: is, counters, out, h, i, hmem => by
    intro g hg
    rw [PackedSegmentReader.scanBlocks] at h
    cases hread : reader.readBlock codecs j counters with
    | mk result counters₁ =>
      rw [hread] at h
      cases result with
      | error e => cases h
      | ok x =>
        dsimp only at h
        cases hdecode : decodeBlockRecords x.1 x.2 with
        | error e =>
          rw [hdecode] at h
          cases h
        | ok records =>
          rw [hdecode] at h
          dsimp only at h
          rcases List.mem_cons.1 hmem with rfl | hmem
          · have hfirst : (reader.readBlock codecs i counters).1 = .ok x := by rw [hread]
            exact ⟨_, (readable_of_ok hcodecs hs hg hfirst hdecode).1⟩
          · cases hrest : reader.scanBlocks codecs keep is counters₁ with
            | mk result counters₂ =>
              rw [hrest] at h
              cases result with
              | error e => cases h
              | ok rest => exact scanBlocks_ok hcodecs hs is (by rw [hrest]) i hmem g hg

/-- **Readable blocks are scanned** for what is kept of their records. -/
theorem scanBlocks_eq (hs : reader.Serves codecs opts gs maxBlockBytes) (keep : RawRecord → Bool) :
    ∀ (is : List Nat) (counters : ScanCounters), (∀ i ∈ is, ∃ g body, gs[i]? = some g ∧ g.Readable codecs maxBlockBytes body) →
      (reader.scanBlocks codecs keep is counters).1 = .ok (is.flatMap (keptAt gs keep))
  | [], _, _ => rfl
  | i :: is, counters, hreadable => by
    obtain ⟨g, body, hi, hread⟩ := hreadable i List.mem_cons_self
    obtain ⟨counters₁, hblock, -⟩ := readBlock_eq hs hi hread counters
    have hkept : keptAt gs keep i = g.1.filter keep := by rw [keptAt, hi, Option.elim_some]
    have hrest := scanBlocks_eq hs keep is counters₁ (fun j hj => hreadable j (List.mem_cons_of_mem i hj))
    rw [PackedSegmentReader.scanBlocks, hblock]
    dsimp only
    rw [hread.decoded]
    dsimp only
    cases hscan : reader.scanBlocks codecs keep is counters₁ with
    | mk result counters₂ =>
      rw [hscan] at hrest
      dsimp only at hrest
      rw [hrest, List.flatMap_cons, hkept]

/-- The groups that are candidates give what all give, if the others have nothing to give. -/
theorem flatMap_candidates (p : BlockDirectoryEntryV1 → Bool) {f : Nat → List RawRecord} (kept : Group → List RawRecord) :
    ∀ (gs : List Group) (offset k : Nat), (∀ j g, gs[j]? = some g → f (k + j) = kept g) →
      (∀ g ∈ gs, ∀ offset, p (g.2.header.toDirectoryEntry offset) = false → kept g = []) →
      ((((entriesFrom offset gs).zipIdx k).filter (fun e => p e.1)).map Prod.snd).flatMap f = gs.flatMap kept
  | [], _, _, _, _ => rfl
  | g :: gs, offset, k, hf, hout => by
    have hrest := flatMap_candidates p kept gs (offset + g.bytes.length) (k + 1)
      (fun j g' hj => by rw [Nat.add_assoc, Nat.add_comm 1]; exact hf (j + 1) g' hj)
      (fun g' hg' => hout g' (List.mem_cons_of_mem g hg'))
    rw [entriesFrom, List.zipIdx_cons, List.filter_cons, List.flatMap_cons]
    cases hp : p (g.2.header.toDirectoryEntry offset) with
    | true =>
      have hhead := hf 0 g rfl
      rw [Nat.add_zero] at hhead
      rw [if_pos rfl, List.map_cons, List.flatMap_cons, hrest, hhead]
    | false => rw [if_neg Bool.false_ne_true, hrest, hout g List.mem_cons_self offset hp, List.nil_append]

theorem blocksForLsnRange_lt {entries : BlockDirectory} {lo hi i : Nat} (h : i ∈ entries.blocksForLsnRange lo hi) :
    i < entries.length := by
  obtain ⟨e, he, rfl⟩ := List.mem_map.1 h
  have := List.mem_zipIdx (List.mem_filter.1 he).1
  omega

theorem flatMap_range_keptAt (gs : List Group) (keep : RawRecord → Bool) :
    (List.range gs.length).flatMap (keptAt gs keep) = (recordsIn gs).filter keep := by
  have hmap : (List.range gs.length).map (keptAt gs keep) = gs.map (fun g => g.1.filter keep) := by
    refine List.ext_getElem? (fun i => ?_)
    rw [List.getElem?_map, List.getElem?_map]
    by_cases hi : i < gs.length
    · rw [List.getElem?_range hi, List.getElem?_eq_getElem hi, Option.map_some, Option.map_some, keptAt,
        List.getElem?_eq_getElem hi, Option.elim_some]
    · rw [List.getElem?_eq_none (by rw [List.length_range]; omega), List.getElem?_eq_none (by omega)]
      rfl
  rw [List.flatMap_def, hmap, recordsIn, List.filter_flatMap, List.flatMap_def]

/-- **A full scan** gives all records, if it gives any. -/
theorem scanAll_ok (hcodecs : codecs.Inverse) (hs : reader.Serves codecs opts gs maxBlockBytes) {counters : ScanCounters}
    {all : List RawRecord} (h : (reader.scanAll codecs counters).1 = .ok all) :
    all = recordsIn gs ∧ ∀ g ∈ gs, ∃ body, g.Readable codecs maxBlockBytes body := by
  unfold PackedSegmentReader.scanAll at h
  rw [hs.directory, length_entriesFrom] at h
  have hreadable : ∀ g ∈ gs, ∃ body, g.Readable codecs maxBlockBytes body := by
    intro g hg
    obtain ⟨i, hi⟩ := List.getElem?_of_mem hg
    exact scanBlocks_ok hcodecs hs _ h i (List.mem_range.2 (List.getElem?_eq_some_iff.1 hi).1) g hi
  have heq := scanBlocks_eq hs (fun _ => true) (List.range gs.length) counters (fun i hi => by
    have hlt := List.mem_range.1 hi
    obtain ⟨body, hread⟩ := hreadable _ (List.getElem_mem hlt)
    exact ⟨_, body, List.getElem?_eq_getElem hlt, hread⟩)
  rw [flatMap_range_keptAt, List.filter_true] at heq
  exact ⟨Except.ok.inj (h.symm.trans heq), hreadable⟩

/-! ## By way of the directory -/

theorem partitionPoint_entriesFrom (q : Nat → Bool) : ∀ (offset : Nat) (gs : List Group),
    partitionPoint (fun e => q e.lastLsn) (entriesFrom offset gs) = partitionPoint (fun g : Group => q g.2.header.lastLsn) gs
  | _, [] => rfl
  | offset, g :: gs => by
    have ih := partitionPoint_entriesFrom q (offset + g.bytes.length) gs
    have hlast : (g.2.header.toDirectoryEntry offset).lastLsn = g.2.header.lastLsn := rfl
    unfold partitionPoint at ih ⊢
    rw [entriesFrom, List.takeWhile_cons, List.takeWhile_cons, hlast]
    cases q g.2.header.lastLsn with
    | true => simp [ih]
    | false => rfl

section Sorted

variable (hs : reader.Serves codecs opts gs maxBlockBytes) (hsorted : (recordsIn gs).Pairwise (fun a b => a.lsn < b.lsn))
variable (hreadable : ∀ g ∈ gs, ∃ body, g.Readable codecs maxBlockBytes body)
include hs hsorted

theorem fits_of_mem {g : Group} (hg : g ∈ gs) : ∃ k sparse hlcAbsolute body,
    WellBuilt codecs g.1 k sparse hlcAbsolute opts.profile opts.worth g.2 body := by
  obtain ⟨k, sparse, hlcAbsolute, body, hbuilt⟩ := hs.built.builtOf hs.wide hs.interval hg
  rw [recordsIn, List.flatMap_def] at hsorted
  have hgroup := (List.pairwise_flatten.1 hsorted).1 g.1 (List.mem_map_of_mem hg)
  exact ⟨k, sparse, hlcAbsolute, body, hbuilt.wellBuilt hgroup⟩

/-- The records of a group are in the range that its header declares, and the last one is at its end. -/
theorem group_range {g : Group} (hg : g ∈ gs) : 0 < g.2.header.recordCount ∧
    (∀ r ∈ g.1, g.2.header.firstLsn ≤ r.lsn ∧ r.lsn ≤ g.2.header.lastLsn) ∧ ∃ r ∈ g.1, r.lsn = g.2.header.lastLsn := by
  obtain ⟨_, _, _, _, hbuilt⟩ := fits_of_mem hs hsorted hg
  have hfits := hbuilt.fits
  have hpos := hfits.nonempty
  refine ⟨by rw [hfits.recordCount]; exact hpos, hfits.lsns, nth g.1 (g.1.length - 1), nth_mem (by omega), ?_⟩
  rw [hfits.lastLsn]

theorem find?_eq_none_of_not_contains {g : Group} (hg : g ∈ gs) {offset lsn : Nat}
    (hout : (g.2.header.toDirectoryEntry offset).containsLsn lsn = false) : g.1.find? (fun r => r.lsn == lsn) = none := by
  obtain ⟨hcount, hrange, -⟩ := group_range hs hsorted hg
  refine find?_eq_none_of_forall (fun r hr heq => of_decide_eq_false hout ⟨hcount, ?_⟩)
  have := hrange r hr
  rw [heq] at this
  exact this

theorem find?_recordsIn (lsn : Nat) : (recordsIn gs).find? (fun r => r.lsn == lsn)
    = (gs[partitionPoint (fun g : Group => decide (g.2.header.lastLsn < lsn)) gs]?).elim none
      (fun g => g.1.find? (fun r => r.lsn == lsn)) := by
  refine find?_flatMap_partitionPoint (fun g : Group => g.2.header.lastLsn) hsorted (fun g hg => ?_)
  obtain ⟨-, hrange, hlast⟩ := group_range hs hsorted hg
  exact ⟨fun r hr => (hrange r hr).2, hlast⟩

include hreadable

/-- **A point read** finds what a search through all records finds, and reads one block at most. -/
theorem get_eq (hcodecs : codecs.Inverse) (lsn : Nat) (counters : ScanCounters) :
    (reader.get codecs lsn counters).1
      = .ok (((recordsIn gs).find? (fun r => r.lsn == lsn)).map (fun r => (r.hlc, r.payload))) ∧
    (reader.get codecs lsn counters).2.blocksRead ≤ counters.blocksRead + 1 := by
  have hpoint := partitionPoint_entriesFrom (fun last => decide (last < lsn)) fileHeaderLen gs
  unfold PackedSegmentReader.get BlockDirectory.findBlockForLsn
  rw [hs.directory, find?_recordsIn hs hsorted, hpoint]
  generalize partitionPoint (fun g : Group => decide (g.2.header.lastLsn < lsn)) gs = idx
  dsimp only
  rw [getElem?_entriesFrom]
  cases hi : gs[idx]? with
  | none => exact ⟨rfl, Nat.le_succ _⟩
  | some g =>
    have hg := List.mem_of_getElem? hi
    rw [Option.map_some, Option.elim_some]
    dsimp only
    cases hin : (g.2.header.toDirectoryEntry (fileHeaderLen + (blockBytes (gs.take idx)).length)).containsLsn lsn with
    | false =>
      rw [if_neg Bool.false_ne_true, find?_eq_none_of_not_contains hs hsorted hg hin]
      exact ⟨rfl, Nat.le_succ _⟩
    | true =>
      obtain ⟨body, hread⟩ := hreadable g hg
      obtain ⟨_, _, _, _, hbuilt⟩ := fits_of_mem hs hsorted hg
      have hbody := restored_eq hcodecs hbuilt.compressed hbuilt.uncompressedLen hread.restored
      have hfound := findRecordInBlock_eq hbuilt.fits hbuilt.wide (hbody.trans hbuilt.layout)
        (by rw [hbody, hbuilt.uncompressedLen]) lsn
      obtain ⟨counters', hblock, hreads⟩ := readBlock_eq hs hi hread { counters with
        blocksCandidate := counters.blocksCandidate + (entriesFrom fileHeaderLen gs).length
        blocksPruned := counters.blocksPruned + ((entriesFrom fileHeaderLen gs).length - 1) }
      rw [if_pos rfl]
      dsimp only
      rw [hblock]
      dsimp only
      rw [hfound]
      exact ⟨rfl, Nat.le_of_eq hreads⟩

/-- **A range read** finds the records of all blocks that are in the range. -/
theorem scanLsnRange_eq (lo hi : Nat) (counters : ScanCounters) : (reader.scanLsnRange codecs lo hi counters).1
    = .ok ((recordsIn gs).filter (fun r => decide (lo ≤ r.lsn ∧ r.lsn ≤ hi))) := by
  unfold PackedSegmentReader.scanLsnRange
  dsimp only
  rw [hs.directory, scanBlocks_eq hs _ _ _ (fun i hmem => ?_), BlockDirectory.blocksForLsnRange,
    flatMap_candidates (fun e => e.mayContainLsnRange lo hi) (fun g => g.1.filter (fun r => decide (lo ≤ r.lsn ∧ r.lsn ≤ hi))) gs
      fileHeaderLen 0, recordsIn, List.filter_flatMap]
  · intro j g hj
    rw [Nat.zero_add, keptAt, hj, Option.elim_some]
  · intro g hg offset hout
    obtain ⟨hcount, hrange, -⟩ := group_range hs hsorted hg
    refine List.filter_eq_nil_iff.2 (fun r hr hin => of_decide_eq_false hout ?_)
    have := hrange r hr
    have hkeep := of_decide_eq_true hin
    refine ⟨hcount, ?_, ?_⟩
    · show lo ≤ g.2.header.lastLsn
      omega
    · show g.2.header.firstLsn ≤ hi
      omega
  · have hlt := blocksForLsnRange_lt hmem
    rw [length_entriesFrom] at hlt
    obtain ⟨body, hread⟩ := hreadable _ (List.getElem_mem hlt)
    exact ⟨_, body, List.getElem?_eq_getElem hlt, hread⟩

end Sorted

/-- **Point and range reads of a PACKED segment agree with a full scan.** -/
theorem packed_reads_agree (hcodecs : codecs.Inverse) {init : SegmentInit} (hns : init.storageNamespaceId.length = 16)
    (h16 : opts.restartInterval < 2 ^ 16) {records : List (RawRecord × Digest)}
    (hwide : ∀ r ∈ records, r.1.lsn < 2 ^ 64 ∧ r.1.hlc < 2 ^ 64) (hsorted : records.Pairwise (fun a b => a.1.lsn < b.1.lsn))
    (hwrite : writePacked codecs blake3 init opts records = .ok (footer, file)) (h64 : file.length < 2 ^ 64)
    {source : BlockSource} (hsource : source.Holds file) (hopen : PackedSegmentReader.open source maxBlockBytes = .ok reader)
    {counters : ScanCounters} {all : List RawRecord} (hscan : (reader.scanAll codecs counters).1 = .ok all) :
    (∀ lsn counters, (reader.get codecs lsn counters).1
        = .ok ((all.find? (fun r => r.lsn == lsn)).map (fun r => (r.hlc, r.payload))) ∧
      (reader.get codecs lsn counters).2.blocksRead ≤ counters.blocksRead + 1) ∧
    ∀ lo hi counters, (reader.scanLsnRange codecs lo hi counters).1
      = .ok (all.filter (fun r => decide (lo ≤ r.lsn ∧ r.lsn ≤ hi))) := by
  obtain ⟨gs, hlayout, hrecords⟩ := writePacked_ok hwrite
  have hwides : ∀ g ∈ gs, ∀ r ∈ g.1, r.lsn < 2 ^ 64 ∧ r.hlc < 2 ^ 64 := by
    intro g hg r hr
    have hmem := recordsIn_mem hg hr
    rw [hrecords] at hmem
    obtain ⟨p, hp, rfl⟩ := List.mem_map.1 hmem
    exact hwide p hp
  have hsorteds : (recordsIn gs).Pairwise (fun a b => a.lsn < b.lsn) := by
    rw [hrecords, List.pairwise_map]
    exact hsorted
  obtain ⟨hs, -⟩ := serves_of_open hlayout hns hwides h16 h64 hsource hopen
  obtain ⟨rfl, hreadable⟩ := scanAll_ok hcodecs hs hscan
  exact ⟨get_eq hs hsorteds hreadable hcodecs, scanLsnRange_eq hs hsorteds hreadable⟩

/-! ## Three records in two blocks -/

def gapInit : SegmentInit :=
  { segmentId := 88, createdHlc := 1000, firstLsn := 5, writerEpoch := 3, storageNamespaceId := List.replicate 16 0x11 }

def gapOptions : PackOptions :=
  { blockTargetBytes := 30, restartInterval := 2, profile := .balanced, worth := defaultWorth, maxBlockBytes := hardMaxBlockBytes }

set_option maxRecDepth 20000 in
theorem packed_reads_agree_sample : ∃ footer file reader,
    writePacked literalCodecs proofBlake3 gapInit gapOptions (gapRecords.zip proofHashes) = .ok (footer, file) ∧
    PackedSegmentReader.open (memorySource file) hardMaxBlockBytes = .ok reader ∧ reader.directory.length = 2 ∧
    (reader.scanAll literalCodecs .zero).1 = .ok gapRecords ∧
    (∀ lsn counters, (reader.get literalCodecs lsn counters).1
        = .ok ((gapRecords.find? (fun r => r.lsn == lsn)).map (fun r => (r.hlc, r.payload))) ∧
      (reader.get literalCodecs lsn counters).2.blocksRead ≤ counters.blocksRead + 1) ∧
    ∀ lo hi counters, (reader.scanLsnRange literalCodecs lo hi counters).1
      = .ok (gapRecords.filter (fun r => decide (lo ≤ r.lsn ∧ r.lsn ≤ hi))) := by
  have hrun : ((writePacked literalCodecs proofBlake3 gapInit gapOptions (gapRecords.zip proofHashes)).toOption.bind
      (fun w => (PackedSegmentReader.open (memorySource w.2) hardMaxBlockBytes).toOption.bind
        (fun reader => (reader.scanAll literalCodecs .zero).1.toOption.map
          (fun all => (decide (w.2.length < 2 ^ 64), reader.directory.length, all))))) = some (true, 2, gapRecords) := by
    decide +kernel
  obtain ⟨⟨footer, file⟩, hwrite, hrun⟩ := Option.bind_eq_some_iff.1 hrun
  obtain ⟨reader, hopen, hrun⟩ := Option.bind_eq_some_iff.1 hrun
  obtain ⟨all, hscan, hdata⟩ := Option.map_eq_some_iff.1 hrun
  have hwrite := Except.toOption_eq_some hwrite
  have hopen := Except.toOption_eq_some hopen
  have hscan := Except.toOption_eq_some hscan
  have h64 := of_decide_eq_true (congrArg Prod.fst hdata)
  have hblocks := congrArg (fun x => x.2.1) hdata
  cases congrArg (fun x => x.2.2) hdata
  exact ⟨footer, file, reader, hwrite, hopen, hblocks, hscan, packed_reads_agree literalCodecs_inverse rfl (by decide) (by decide)
    (by decide) hwrite h64 (memorySource_holds h64) hopen hscan⟩

end V6
end Heraclitus
