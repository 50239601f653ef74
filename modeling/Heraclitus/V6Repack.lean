import Heraclitus.V6Engine
import Heraclitus.V6Prove
/-!
# V6Repack — a PACKED generation from another one (`heraclitus-log/src/v6/packer.rs`)

A repack reads its source under the ceiling of the new options and writes what a pack of the RAW segment would write.  Up to
the renaming nothing but the temporary file is touched; a step that fails after it leaves the new generation where it is.
-/
namespace Heraclitus
namespace V6

variable (codecs : Codecs) (blake3 : Bytes → Digest) (hasher : CanonicalHasher)

/-! ## The copy -/

def Packer.packRecord (w : PackedSegmentWriter) (r : RawRecord) : Except HeraclitusError PackedSegmentWriter :=
  match hasher r.lsn r.hlc r.payload with
  | .error e => .error e
  | .ok hash => w.push codecs blake3 r hash

/-- The records of the source as a new segment. -/
def Packer.copyRecords (reader : PackedSegmentReader) (opts : PackOptions) : Except HeraclitusError (FooterV6 × Bytes) := do
  let init : SegmentInit := {
    segmentId := reader.header.segmentId, createdHlc := reader.header.createdHlc, firstLsn := reader.header.firstLsn
    writerEpoch := reader.header.writerEpoch, storageNamespaceId := reader.header.storageNamespaceId }
  let writer ← (reader.forEachRecord codecs (Packer.packRecord codecs blake3 hasher) (.create init opts) .zero).1
  writer.finish codecs blake3

/-! ## The files -/

abbrev Files : Type := String → Option Bytes

def readFile (path : String) (files : Files) : Except HeraclitusError Bytes := (files path).elim (.error notFound) .ok

def tempPath (target : String) : String := target ++ ".tmp"

inductive RepackStep where
  | openSource
  | createTemp
  | copy
  | rename
  | syncParent
  | digestSource
  | digestTarget
  | sizeSource
  | sizeTarget
  deriving DecidableEq

/-- The steps behind the renaming. -/
def RepackStep.late : RepackStep → Bool
  | .openSource | .createTemp | .copy | .rename => false
  | .syncParent | .digestSource | .digestTarget | .sizeSource | .sizeTarget => true

/-- What the code does not learn of the file system: whether a temporary file can be removed, and what a copy that stops
leaves in it. -/
structure TempFile where
  removable : Bool
  left : Nat → Bytes

def TempFile.remove (temp : TempFile) (path : String) (files : Files) : Files :=
  if temp.removable then Function.update files path none else files

structure PackOutcome where
  receipt : PackReceipt
  footer : FooterV6
  targetPath : String

def Packer.repackSegment (temp : TempFile) (source target : String) (opts : PackOptions)
    (sourceGeneration targetGeneration : Nat) : Prog RepackStep Files HeraclitusError PackOutcome := do
  let ctx := "hrkl v6 repacker"
  let files ← Prog.get
  if (files target).isSome then Prog.refuse (corrupt ctx "target generation already exists; generations are immutable")
  else do
    -- the file stays open, whatever becomes of its name
    let data ← Prog.look .openSource (readFile source)
    let reader ← Prog.ofExcept (PackedSegmentReader.open (fileSource data) opts.maxBlockBytes)
    let tmp := tempPath target
    Prog.modify (temp.remove tmp)
    let files ← Prog.get
    if (files tmp).isSome then Prog.refuse (.storage "File exists")
    else do
      Prog.step .createTemp (fun files => Function.update files tmp (some []))
      Prog.write .copy (fun n files => Function.update files tmp (some (temp.left n))) id
      let (targetFooter, bytes) ← Prog.onError (Prog.ofExcept (Packer.copyRecords codecs blake3 hasher reader opts))
        (fun files => Function.update files tmp (some (temp.left 0)))
      Prog.modify (fun files => Function.update files tmp (some bytes))
      if targetFooter.logicalRoot ≠ reader.footer.logicalRoot then do
        Prog.modify (temp.remove tmp)
        Prog.refuse (corrupt ctx "repacked generation has a different logical_root")
      else do
        Prog.step .rename (fun files => Function.update (Function.update files target (files tmp)) tmp none)
        Prog.step .syncParent id
        let sourcePhysicalDigest ← Prog.look .digestSource (fun files => (readFile source files).map blake3)
        let targetPhysicalDigest ← Prog.look .digestTarget (fun files => (readFile target files).map blake3)
        let sourcePhysicalSize ← Prog.look .sizeSource (fun files => (readFile source files).map List.length)
        let targetPhysicalSize ← Prog.look .sizeTarget (fun files => (readFile target files).map List.length)
        let receipt : PackReceipt := {
          segmentId := reader.header.segmentId, storageNamespaceId := reader.header.storageNamespaceId
          sourceGeneration := sourceGeneration, sourcePhysicalDigest := sourcePhysicalDigest
          targetGeneration := targetGeneration, targetPhysicalDigest := targetPhysicalDigest
          logicalRoot := targetFooter.logicalRoot, canonicalCodec := canonicalCodecV1, codec := opts.profile.codec
          blockSize := opts.blockTargetBytes % 2 ^ 32, firstLsn := targetFooter.minLsn, lastLsn := targetFooter.maxLsn
          recordCount := targetFooter.recordCount, sourcePhysicalSize := sourcePhysicalSize
          targetPhysicalSize := targetPhysicalSize, packerVersion := packerVersion, createdHlc := reader.header.createdHlc }
        pure { receipt := receipt, footer := targetFooter, targetPath := target }

variable {codecs blake3 hasher} {opts : PackOptions} {raw data : Bytes} {footer : FooterV6}

/-! ## What a repack leaves -/

/-- A new generation of these bytes, with the root of the old one. -/
structure Packer.Copies (codecs : Codecs) (blake3 : Bytes → Digest) (hasher : CanonicalHasher) (opts : PackOptions) (data : Bytes)
    (footer : FooterV6) (new : Bytes) : Prop where
  copied : ∃ reader, PackedSegmentReader.open (fileSource data) opts.maxBlockBytes = .ok reader ∧
    Packer.copyRecords codecs blake3 hasher reader opts = .ok (footer, new) ∧ footer.logicalRoot = reader.footer.logicalRoot

/-- The files, but for the temporary one. -/
def Same (target : String) (files files' : Files) : Prop := ∀ path, path ≠ tempPath target → files' path = files path

/-- The bytes of the source are published as `target`. -/
def Published (codecs : Codecs) (blake3 : Bytes → Digest) (hasher : CanonicalHasher) (opts : PackOptions) (source target : String)
    (files : Files) (footer : FooterV6) (files' : Files) : Prop :=
  files target = none ∧ ∃ data new, files source = some data ∧ Packer.Copies codecs blake3 hasher opts data footer new ∧
    Same target (Function.update files target (some new)) files'

/-- There is something to copy, which can be copied, and room for it. -/
structure Feasible (codecs : Codecs) (blake3 : Bytes → Digest) (hasher : CanonicalHasher) (temp : TempFile) (opts : PackOptions)
    (source target : String) (files : Files) : Prop where
  source_ne : source ≠ tempPath target
  fresh : files target = none
  temp : temp.remove (tempPath target) files (tempPath target) = none
  copies : ∃ data footer new, files source = some data ∧ Packer.Copies codecs blake3 hasher opts data footer new

/-- What a repack leaves, when it returns and when it does not. -/
def repackPost (codecs : Codecs) (blake3 : Bytes → Digest) (hasher : CanonicalHasher) (temp : TempFile) (opts : PackOptions)
    (source target : String) (files : Files) : Post RepackStep Files HeraclitusError PackOutcome where
  ok outcome files' := Published codecs blake3 hasher opts source target files outcome.footer files'
  refused _ files' := (source ≠ tempPath target → Same target files files') ∧
    ¬Feasible codecs blake3 hasher temp opts source target files
  failed k _ files' := if k.late then ∃ footer, Published codecs blake3 hasher opts source target files footer files'
    else Same target files files'
  died _ := True

section Files

variable {temp : TempFile} {source target : String} {files files' : Files}

theorem ne_tempPath (target : String) : target ≠ tempPath target := by
  intro h
  have hlength := congrArg String.length h
  rw [tempPath, String.length_append] at hlength
  exact absurd hlength (Nat.ne_of_lt (Nat.lt_add_of_pos_right (by decide)))

theorem Same.refl : Same target files files := fun _ _ => rfl

theorem Same.update (h : Same target files files') (x : Option Bytes) :
    Same target files (Function.update files' (tempPath target) x) :=
  fun path hpath => (Function.update_of_ne hpath _ _).trans (h path hpath)

theorem Same.remove (h : Same target files files') : Same target files (temp.remove (tempPath target) files') := by
  unfold TempFile.remove
  split
  · exact h.update none
  · exact h

/-- The temporary file takes the name. -/
theorem Same.rename (h : Same target files files') {new : Bytes} (htemp : files' (tempPath target) = some new) :
    Same target (Function.update files target (some new))
      (Function.update (Function.update files' target (files' (tempPath target))) (tempPath target) none) := by
  refine Same.update (fun path hpath => ?_) none
  rw [htemp]
  by_cases heq : path = target
  · rw [heq, Function.update_self, Function.update_self]
  · rw [Function.update_of_ne heq, Function.update_of_ne heq]
    exact h path hpath

theorem readFile_eq_ok {path : String} {data : Bytes} : readFile path files = .ok data ↔ files path = some data := by
  unfold readFile
  cases files path with
  | none => exact iff_of_false (fun h => nomatch h) (fun h => nomatch h)
  | some data' => exact ⟨fun h => congrArg some (Except.ok.inj h), fun h => congrArg Except.ok (Option.some.inj h)⟩

/-- **What a repack leaves**: nothing new up to the renaming, and from then on the whole new generation. -/
theorem wp_repackSegment (temp : TempFile) (source target : String) (opts : PackOptions)
    (sourceGeneration targetGeneration : Nat) (files : Files) :
    (Packer.repackSegment codecs blake3 hasher temp source target opts sourceGeneration targetGeneration).wp
      (repackPost codecs blake3 hasher temp opts source target files) files := by
  unfold Packer.repackSegment
  refine Prog.wp_get_bind ?_
  split
  · rename_i htaken
    exact Prog.wp_refuse ⟨fun _ => .refl, fun hf => by rw [hf.fresh] at htaken; cases htaken⟩
  · rename_i hfree
    have hnone : files target = none := Option.not_isSome_iff_eq_none.1 hfree
    refine Prog.wp_bind (Prog.wp_look (fun data hdata => ?_) (fun e he => ⟨fun _ => .refl, fun hf => by
      obtain ⟨data, _, _, hsource, -⟩ := hf.copies
      cases he.symm.trans (readFile_eq_ok.2 hsource)⟩) (fun _ => .refl) trivial)
    have hsource := readFile_eq_ok.1 hdata
    have hcopies : Feasible codecs blake3 hasher temp opts source target files →
        ∃ footer new, Packer.Copies codecs blake3 hasher opts data footer new := fun hf => by
      obtain ⟨data', footer, new, hsource', hcopies⟩ := hf.copies
      cases hsource.symm.trans hsource'
      exact ⟨footer, new, hcopies⟩
    refine Prog.wp_ofExcept_bind (fun reader hopen => ?_) (fun e he => ⟨fun _ => .refl, fun hf => by
      obtain ⟨_, _, ⟨reader, hopen, -⟩⟩ := hcopies hf
      cases he.symm.trans hopen⟩)
    have hcopied : Feasible codecs blake3 hasher temp opts source target files → ∃ footer new,
        Packer.copyRecords codecs blake3 hasher reader opts = .ok (footer, new) ∧
          footer.logicalRoot = reader.footer.logicalRoot := fun hf => by
      obtain ⟨footer, new, ⟨reader', hopen', hcopy, hroot⟩⟩ := hcopies hf
      cases hopen.symm.trans hopen'
      exact ⟨footer, new, hcopy, hroot⟩
    refine Prog.wp_modify_bind (Prog.wp_get_bind ?_)
    have hremoved : Same target files (temp.remove (tempPath target) files) := Same.refl.remove
    split
    · rename_i hthere
      exact Prog.wp_refuse ⟨fun _ => hremoved, fun hf => by rw [hf.temp] at hthere; cases hthere⟩
    · refine Prog.wp_step_bind (fun _ => hremoved) trivial ?_
      have hcreated := hremoved.update (some [])
      refine Prog.wp_write_bind (fun n => hcreated.update _) (fun _ => trivial) ?_
      rw [id_eq]
      refine Prog.wp_bind (Prog.wp_onError ?_)
      cases hcopy : Packer.copyRecords codecs blake3 hasher reader opts with
      | error e =>
        refine Prog.wp_eval (fun _ _ h => nomatch h) (fun _ _ => ⟨fun _ => hcreated.update _, fun hf => ?_⟩)
        obtain ⟨_, _, hcopy', -⟩ := hcopied hf
        cases hcopy.symm.trans hcopy'
      | ok x =>
        refine Prog.wp_eval (fun x' files' h => ?_) (fun _ h => nomatch h)
        cases h
        obtain ⟨targetFooter, new⟩ := x
        refine Prog.wp_modify_bind ?_
        have hwritten := hcreated.update (some new)
        dsimp only
        split
        · rename_i hroot
          refine Prog.wp_modify_bind (Prog.wp_refuse ⟨fun _ => hwritten.remove, fun hf => ?_⟩)
          obtain ⟨_, _, hcopy', hroot'⟩ := hcopied hf
          cases hcopy.symm.trans hcopy'
          exact hroot hroot'
        · rename_i hroot
          refine Prog.wp_step_bind (fun _ => hwritten) trivial ?_
          have hrenamed := hwritten.rename (Function.update_self _ _ _)
          generalize Function.update (_ : Files) (tempPath target) none = renamed at hrenamed ⊢
          have hpublished : Published codecs blake3 hasher opts source target files targetFooter renamed :=
            ⟨hnone, data, new, hsource, ⟨reader, hopen, hcopy, not_not.1 hroot⟩, hrenamed⟩
          have hlate : ∃ footer, Published codecs blake3 hasher opts source target files footer renamed := ⟨_, hpublished⟩
          have hnew : readFile target renamed = .ok new :=
            readFile_eq_ok.2 ((hrenamed target (ne_tempPath target)).trans (Function.update_self _ _ _))
          -- a source that is there is read, unless the copy has taken its name
          have hread : ∀ {α : Type} {g : Bytes → α} {e : HeraclitusError}, source ≠ tempPath target →
              (readFile source renamed).map g ≠ .error e := fun hne he => by
            have hother : source ≠ target := fun heq => by
              rw [heq, hnone] at hsource
              cases hsource
            rw [readFile_eq_ok.2 ((hrenamed source hne).trans ((Function.update_of_ne hother _ _).trans hsource))] at he
            cases he
          have hrefused : ∀ {α : Type} {g : Bytes → α} {e : HeraclitusError}, (readFile source renamed).map g = .error e →
              (source ≠ tempPath target → Same target files renamed) ∧
                ¬Feasible codecs blake3 hasher temp opts source target files := fun he =>
            ⟨fun hne => absurd he (hread hne), fun hf => hread hf.source_ne he⟩
          refine Prog.wp_step_bind (fun _ => hlate) trivial ?_
          rw [id_eq]
          refine Prog.wp_bind (Prog.wp_look (fun _ _ => ?_) (fun _ he => hrefused he) (fun _ => hlate) trivial)
          refine Prog.wp_look_ok (by rw [hnew]; rfl) (fun _ => hlate) trivial ?_
          refine Prog.wp_bind (Prog.wp_look (fun _ _ => ?_) (fun _ he => hrefused he) (fun _ => hlate) trivial)
          refine Prog.wp_look_ok (by rw [hnew]; rfl) (fun _ => hlate) trivial ?_
          exact Prog.wp_pure hpublished

end Files

/-! ## Generations of one RAW segment -/

/-- A PACKED segment that was packed from the RAW one, or repacked from one that was, whatever failed on the way. -/
inductive PackedFrom (codecs : Codecs) (blake3 : Bytes → Digest) (raw : Bytes) : Bytes → Prop
  | pack {hasher : CanonicalHasher} {opts : PackOptions} {footer : FooterV6} {new : Bytes} (h16 : opts.restartInterval < 2 ^ 16)
    (h64 : new.length < 2 ^ 64) (hpack : Packer.packSegment codecs blake3 hasher raw opts = .ok (footer, new)) :
    PackedFrom codecs blake3 raw new
  | repack {hasher : CanonicalHasher} {opts : PackOptions} {temp : TempFile} {source target : String}
    {sourceGeneration targetGeneration : Nat} {files files' : Files} {m m' : Option (Mishap RepackStep)} {outcome : PackOutcome}
    {old new : Bytes} (h16 : opts.restartInterval < 2 ^ 16) (h64 : new.length < 2 ^ 64) (hold : PackedFrom codecs blake3 raw old)
    (hsource : files source = some old)
    (hrepack : Packer.repackSegment codecs blake3 hasher temp source target opts sourceGeneration targetGeneration files m
      = (.ok outcome, files', m')) (htarget : files' target = some new) : PackedFrom codecs blake3 raw new

/-- A PACKED segment with the records and the root of the RAW one. -/
structure GenerationOf (codecs : Codecs) (scan : RawScan) (rawFooter : FooterV6) (opts : PackOptions) (gs : List Group)
    (footer : FooterV6) (file : Bytes) : Prop where
  layout : PackedLayout codecs scan.init.packedHeader opts gs footer file
  records : recordsIn gs = scan.records
  root : footer.logicalRoot = rawFooter.logicalRoot
  interval : opts.restartInterval < 2 ^ 16
  length : file.length < 2 ^ 64

theorem foldlM_packRecord : ∀ (rs : List RawRecord) (w : PackedSegmentWriter),
    rs.foldlM (Packer.packRecord codecs blake3 hasher) w = Packer.packRecords codecs blake3 hasher w rs
  | [], w => rfl
  | r :: rs, w => by
    rw [List.foldlM_cons, Packer.packRecords, Packer.packRecord]
    cases hasher r.lsn r.hlc r.payload with
    | error e => rfl
    | ok hash =>
      dsimp only
      cases w.push codecs blake3 r hash with
      | error e => rfl
      | ok w => exact foldlM_packRecord rs w

section Generation

variable {scan : RawScan} {rawFooter : FooterV6} {gs : List Group} {file : Bytes}
variable (hscan : scanRawBytes raw = .ok scan) (h : GenerationOf codecs scan rawFooter opts gs footer file)
include hscan h

/-- **A reader of a generation.** -/
theorem GenerationOf.opened {m : Nat} {reader : PackedSegmentReader}
    (hopen : PackedSegmentReader.open (fileSource file) m = .ok reader) :
    reader.Serves codecs opts gs m ∧ reader.header = scan.init.packedHeader ∧
      reader.footer.logicalRoot = rawFooter.logicalRoot := by
  obtain ⟨hheader, -, hwide, -⟩ := scanRawBytes_wide hscan
  have hw := FileHeaderV6.wide_of_decode hheader
  obtain ⟨hs, hopens⟩ := serves_of_open h.layout hw.storageNamespaceId (wide_groups h.records hwide) h.interval h.length
    (fileSource_holds _) hopen
  have hpacked : scan.init.packedHeader.Wide :=
    ⟨show canonicalCodecV1 < 2 ^ 8 by decide, show flagContiguousLsn < 2 ^ 16 by decide, hw.segmentId, hw.createdHlc,
      hw.firstLsn, hw.writerEpoch, hw.storageNamespaceId⟩
  refine ⟨hs, ?_, ?_⟩
  · have hdecode := FileHeaderV6.decode_encode hpacked []
    rw [List.append_nil, hopens.header] at hdecode
    exact Except.ok.inj hdecode
  · rw [hopens.footer]
    exact h.root

/-- **What is copied** is what a pack of the RAW segment writes. -/
theorem GenerationOf.copyRecords_ok (hcodecs : codecs.Inverse) {m : Nat} {reader : PackedSegmentReader}
    (hopen : PackedSegmentReader.open (fileSource file) m = .ok reader) {opts' : PackOptions} {footer' : FooterV6} {new : Bytes}
    (hcopy : Packer.copyRecords codecs blake3 hasher reader opts' = .ok (footer', new)) :
    (∀ g ∈ gs, ∃ body, g.Readable codecs m body) ∧ ∃ writer,
      Packer.packRecords codecs blake3 hasher (.create scan.init opts') scan.records = .ok writer ∧
        writer.finish codecs blake3 = .ok (footer', new) := by
  obtain ⟨hs, hheader, -⟩ := h.opened hscan hopen
  unfold Packer.copyRecords at hcopy
  dsimp only at hcopy
  obtain ⟨writer, hwriter, hfinish⟩ := ok_of_bind hcopy
  obtain ⟨hreadable, hfold⟩ := forEachRecord_ok hcodecs hs hwriter
  rw [h.records, foldlM_packRecord, hheader] at hfold
  exact ⟨hreadable, writer, hfold, hfinish⟩

/-- **A readable generation is copied** as the RAW segment is packed. -/
theorem GenerationOf.copyRecords_eq {m : Nat} {reader : PackedSegmentReader}
    (hopen : PackedSegmentReader.open (fileSource file) m = .ok reader)
    (hreadable : ∀ g ∈ gs, ∃ body, g.Readable codecs m body) {opts' : PackOptions} {writer : PackedSegmentWriter}
    (hwriter : Packer.packRecords codecs blake3 hasher (.create scan.init opts') scan.records = .ok writer) :
    Packer.copyRecords codecs blake3 hasher reader opts' = writer.finish codecs blake3 := by
  obtain ⟨hs, hheader, -⟩ := h.opened hscan hopen
  unfold Packer.copyRecords
  dsimp only
  rw [forEachRecord_eq hs _ _ hreadable, h.records, foldlM_packRecord, hheader]
  show (Packer.packRecords codecs blake3 hasher (.create scan.init opts') scan.records >>= _) = _
  rw [hwriter]
  rfl

end Generation

theorem packRecords_layout {init : SegmentInit} {records : List RawRecord} {writer : PackedSegmentWriter} {new : Bytes}
    (hwriter : Packer.packRecords codecs blake3 hasher (.create init opts) records = .ok writer)
    (hfinish : writer.finish codecs blake3 = .ok (footer, new)) :
    ∃ gs, PackedLayout codecs init.packedHeader opts gs footer new ∧ recordsIn gs = records := by
  obtain ⟨hashes, hhashes, hpush⟩ := packRecords_ok records hwriter
  have hwrite : writePacked codecs blake3 init opts (records.zip hashes) = .ok (footer, new) := by
    unfold writePacked
    rw [hpush]
    exact hfinish
  obtain ⟨gs, hlayout, hrecords⟩ := writePacked_ok hwrite
  rw [hhashes.map_fst_zip] at hrecords
  exact ⟨gs, hlayout, hrecords⟩

/-- What a pack writes. -/
theorem packSegment_writes {new : Bytes} (h : Packer.packSegment codecs blake3 hasher raw opts = .ok (footer, new)) :
    ∃ scan rawFooter writer, scanRawBytes raw = .ok scan ∧ scan.footer = some rawFooter ∧
      Packer.packRecords codecs blake3 hasher (.create scan.init opts) scan.records = .ok writer ∧
      writer.finish codecs blake3 = .ok (footer, new) ∧ footer.logicalRoot = rawFooter.logicalRoot := by
  unfold Packer.packSegment at h
  dsimp only at h
  obtain ⟨scan, hscan, h⟩ := ok_of_bind h
  obtain ⟨-, h⟩ := guard_eq_ok.1 h
  cases hsealed : scan.footer with
  | none =>
    rw [hsealed] at h
    cases h
  | some rawFooter =>
    rw [hsealed] at h
    dsimp only at h
    obtain ⟨-, h⟩ := guard_eq_ok.1 h
    obtain ⟨-, h⟩ := guard_eq_ok.1 h
    obtain ⟨-, h⟩ := guard_eq_ok.1 h
    obtain ⟨writer, hwriter, h⟩ := ok_of_bind h
    obtain ⟨⟨footer', new'⟩, hfinish, h⟩ := ok_of_bind h
    obtain ⟨hroots, h⟩ := guard_eq_ok.1 h
    obtain ⟨-, h⟩ := guard_eq_ok.1 h
    obtain ⟨reader, hopen, h⟩ := ok_of_bind h
    obtain ⟨⟨acc, n⟩, hcounted, h⟩ := ok_of_bind h
    obtain ⟨-, h⟩ := guard_eq_ok.1 h
    obtain ⟨rfl, rfl⟩ := Prod.mk.inj (Except.ok.inj h)
    exact ⟨scan, rawFooter, writer, hscan, hsealed, hwriter, hfinish, not_not.1 hroots⟩

/-- **Every generation** has the records and the root of the RAW segment. -/
theorem PackedFrom.generation (hcodecs : codecs.Inverse) {file : Bytes} (h : PackedFrom codecs blake3 raw file) :
    ∃ scan rawFooter opts gs footer, scanRawBytes raw = .ok scan ∧ scan.footer = some rawFooter ∧
      GenerationOf codecs scan rawFooter opts gs footer file := by
  induction h with
  | pack h16 h64 hpack =>
    obtain ⟨scan, rawFooter, writer, hscan, hsealed, hwriter, hfinish, hroot⟩ := packSegment_writes hpack
    obtain ⟨gs, hlayout, hrecords⟩ := packRecords_layout hwriter hfinish
    exact ⟨scan, rawFooter, _, gs, _, hscan, hsealed, hlayout, hrecords, hroot, h16, h64⟩
  | @repack hasher opts temp source target _ _ files files' m m' outcome old new h16 h64 _ hsource hrepack htarget ih =>
    obtain ⟨scan, rawFooter, opts₀, gs₀, footer₀, hscan, hsealed, hgen⟩ := ih
    have hpost : (repackPost codecs blake3 hasher temp opts source target files).Holds m (.ok outcome, files', m') := by
      rw [← hrepack]
      exact wp_repackSegment temp source target opts _ _ files m
    obtain ⟨⟨-, data, new', hdata, hcopies, hsame⟩, -⟩ := hpost
    cases hsource.symm.trans hdata
    have hnew := hsame target (ne_tempPath target)
    rw [Function.update_self, htarget] at hnew
    cases hnew
    obtain ⟨reader, hopen, hcopy, hroot⟩ := hcopies.copied
    obtain ⟨-, writer, hwriter, hfinish⟩ := hgen.copyRecords_ok hscan hcodecs hopen hcopy
    obtain ⟨gs, hlayout, hrecords⟩ := packRecords_layout hwriter hfinish
    exact ⟨scan, rawFooter, opts, gs, outcome.footer, hscan, hsealed, hlayout, hrecords,
      hroot.trans (hgen.opened hscan hopen).2.2, h16, h64⟩

/-! ## What is read -/

/-- A reader with this ceiling finds this root and these records. -/
def ReadsAs (codecs : Codecs) (file : Bytes) (maxBlockBytes : Nat) (root : Digest) (all : List RawRecord) : Prop :=
  ∃ reader, PackedSegmentReader.open (fileSource file) maxBlockBytes = .ok reader ∧ reader.footer.logicalRoot = root ∧
    (reader.scanAll codecs .zero).1 = .ok all

/-- No block of the file is above the ceiling. -/
def BlocksWithin (file : Bytes) (maxBlockBytes : Nat) : Prop :=
  ∀ reader m, PackedSegmentReader.open (fileSource file) m = .ok reader →
    ∀ e ∈ reader.directory, e.uncompressedLen ≤ maxBlockBytes

theorem scanAll_eq {gs : List Group} {m : Nat} {reader : PackedSegmentReader} (hs : reader.Serves codecs opts gs m)
    (hreadable : ∀ g ∈ gs, ∃ body, g.Readable codecs m body) (counters : ScanCounters) :
    (reader.scanAll codecs counters).1 = .ok (recordsIn gs) := by
  unfold PackedSegmentReader.scanAll
  rw [hs.directory, length_entriesFrom, scanBlocks_eq hs _ _ _ (fun i hi => ?_), flatMap_range_keptAt, List.filter_true]
  have hlt := List.mem_range.1 hi
  obtain ⟨body, hread⟩ := hreadable _ (List.getElem_mem hlt)
  exact ⟨_, body, List.getElem?_eq_getElem hlt, hread⟩

section Reads

variable {scan : RawScan} {rawFooter : FooterV6} {gs : List Group} {file : Bytes} {m : Nat} {root : Digest} {all : List RawRecord}
variable (hscan : scanRawBytes raw = .ok scan) (h : GenerationOf codecs scan rawFooter opts gs footer file)
include hscan h

/-- **A generation is read** as the RAW segment. -/
theorem GenerationOf.readsAs (hcodecs : codecs.Inverse) (hreads : ReadsAs codecs file m root all) :
    root = rawFooter.logicalRoot ∧ all = scan.records ∧ ∀ g ∈ gs, ∃ body, g.Readable codecs m body := by
  obtain ⟨reader, hopen, rfl, hall⟩ := hreads
  obtain ⟨hs, -, hroot⟩ := h.opened hscan hopen
  obtain ⟨hrecords, hreadable⟩ := scanAll_ok hcodecs hs hall
  exact ⟨hroot, hrecords.trans h.records, hreadable⟩

/-- **What is readable is so under every ceiling** that its blocks are within. -/
theorem GenerationOf.readable (hcodecs : codecs.Inverse) (hreads : ReadsAs codecs file m root all) {ceiling : Nat}
    (hblocks : BlocksWithin file ceiling) : ∀ g ∈ gs, ∃ body, g.Readable codecs ceiling body := by
  intro g hg
  obtain ⟨-, -, hreadable⟩ := h.readsAs hscan hcodecs hreads
  obtain ⟨reader, hopen, -, -⟩ := hreads
  obtain ⟨body, hread⟩ := hreadable g hg
  obtain ⟨hs, -, -⟩ := h.opened hscan hopen
  obtain ⟨offset, hentry⟩ := @mem_entriesFrom gs fileHeaderLen g hg
  have hle : g.2.header.uncompressedLen ≤ ceiling := hblocks reader m hopen _ (hs.directory ▸ hentry)
  have hceiling := decompressBlock_ceiling hread.restored
  exact ⟨body, hread.ceiling (by omega)⟩

end Reads

/-- **What a pack makes is read** under the ceiling it was packed with. -/
theorem pack_readsAs (hcodecs : codecs.Inverse) (h16 : opts.restartInterval < 2 ^ 16) {packed : Bytes}
    (hpack : Packer.packSegment codecs blake3 hasher raw opts = .ok (footer, packed)) (h64 : packed.length < 2 ^ 64) :
    ∃ scan rawFooter, scanRawBytes raw = .ok scan ∧ scan.footer = some rawFooter ∧
      ReadsAs codecs packed opts.maxBlockBytes rawFooter.logicalRoot scan.records := by
  obtain ⟨scan, rawFooter, hashes, gs, h⟩ := packSegment_ok hcodecs h16 hpack h64
  have hgen : GenerationOf codecs scan rawFooter opts gs footer packed := ⟨h.layout, h.records, h.footerRoot, h16, h64⟩
  obtain ⟨reader, hopen⟩ := h.opens
  obtain ⟨hs, -, hroot⟩ := hgen.opened h.scanned hopen
  exact ⟨scan, rawFooter, h.scanned, h.sealed_, reader, hopen, hroot, h.records ▸ scanAll_eq hs h.readable .zero⟩

theorem blocksWithin_of_open {file : Bytes} {m ceiling : Nat} {reader : PackedSegmentReader}
    (hopen : PackedSegmentReader.open (fileSource file) m = .ok reader)
    (h : ∀ e ∈ reader.directory, e.uncompressedLen ≤ ceiling) : BlocksWithin file ceiling := by
  intro reader' m' hopen' e he
  cases (open_ceiling hopen' m).symm.trans hopen
  exact h e he

/-- **What can be packed can be copied** from every generation within the ceiling. -/
theorem copies_of_pack (hcodecs : codecs.Inverse) {old packed : Bytes} (hfrom : PackedFrom codecs blake3 raw old)
    (hpack : Packer.packSegment codecs blake3 hasher raw opts = .ok (footer, packed)) {m : Nat} {root : Digest}
    {all : List RawRecord} (hreads : ReadsAs codecs old m root all) (hblocks : BlocksWithin old opts.maxBlockBytes) :
    Packer.Copies codecs blake3 hasher opts old footer packed := by
  obtain ⟨scan, rawFooter, opts₀, gs, footer₀, hscan, hsealed, hgen⟩ := hfrom.generation hcodecs
  obtain ⟨scan', rawFooter', writer, hscan', hsealed', hwriter, hfinish, hroot⟩ := packSegment_writes hpack
  cases hscan.symm.trans hscan'
  cases hsealed.symm.trans hsealed'
  have hreadable := hgen.readable hscan hcodecs hreads hblocks
  obtain ⟨reader, hopen, -, -⟩ := hreads
  have hopen' := open_ceiling hopen opts.maxBlockBytes
  refine ⟨_, hopen', ?_, hroot.trans (hgen.opened hscan hopen').2.2.symm⟩
  rw [hgen.copyRecords_eq hscan hopen' hreadable hwriter]
  exact hfinish

/-- **A repack keeps the history** where the blocks of the old generation are within the ceiling of the new options; and a step
that fails leaves nothing new, or else comes after the renaming and leaves the whole new generation. -/
theorem repack_keeps_history (hcodecs : codecs.Inverse) (temp : TempFile) {source target : String}
    (hne : source ≠ tempPath target) (opts : PackOptions) (sourceGeneration targetGeneration : Nat) (files : Files) :
    (∀ {raw old packed footer m root all}, PackedFrom codecs blake3 raw old → opts.restartInterval < 2 ^ 16 →
      Packer.packSegment codecs blake3 hasher raw opts = .ok (footer, packed) → packed.length < 2 ^ 64 →
      ReadsAs codecs old m root all → BlocksWithin old opts.maxBlockBytes → files source = some old → files target = none →
      temp.remove (tempPath target) files (tempPath target) = none →
      ∃ outcome files', Packer.repackSegment codecs blake3 hasher temp source target opts sourceGeneration targetGeneration files
          none = (.ok outcome, files', none) ∧
        ∃ new, files' target = some new ∧ outcome.footer.logicalRoot = root ∧ ReadsAs codecs new opts.maxBlockBytes root all) ∧
    ∀ x stop files' m', Packer.repackSegment codecs blake3 hasher temp source target opts sourceGeneration targetGeneration files
        (some x) = (.error stop, files', m') → stop ≠ .died →
      Same target files files' ∨
        x.site.late = true ∧ ∃ footer, Published codecs blake3 hasher opts source target files footer files' := by
  have hwp : (Packer.repackSegment codecs blake3 hasher temp source target opts sourceGeneration targetGeneration).wp
      (repackPost codecs blake3 hasher temp opts source target files) files := wp_repackSegment temp source target opts _ _ files
  constructor
  · intro raw old packed footer m root all hfrom h16 hpack h64 hreads hblocks hsource htarget htemp
    have hcopies := copies_of_pack hcodecs hfrom hpack hreads hblocks
    rcases hwp.run with ⟨outcome, files', hrun, -, data, new, hdata, hcopies', hsame⟩ | ⟨_, _, _, -, -, hinfeasible⟩
    · cases hsource.symm.trans hdata
      have hsame' := hsame target (ne_tempPath target)
      rw [Function.update_self] at hsame'
      obtain ⟨reader, hopen, hcopy, hroot⟩ := hcopies.copied
      obtain ⟨reader', hopen', hcopy', -⟩ := hcopies'.copied
      cases hopen.symm.trans hopen'
      obtain ⟨rfl, rfl⟩ := Prod.mk.inj (Except.ok.inj (hcopy'.symm.trans hcopy))
      obtain ⟨scan, rawFooter, hscan, hsealed, hpacked⟩ := pack_readsAs hcodecs h16 hpack h64
      obtain ⟨scan', rawFooter', opts₀, gs, footer₀, hscan', hsealed', hgen⟩ := hfrom.generation hcodecs
      cases hscan.symm.trans hscan'
      cases hsealed.symm.trans hsealed'
      obtain ⟨rfl, rfl, -⟩ := hgen.readsAs hscan hcodecs hreads
      exact ⟨outcome, files', hrun, _, hsame', hroot.trans (hgen.opened hscan hopen).2.2, hpacked⟩
    · exact absurd ⟨hne, htarget, htemp, old, footer, packed, hsource, hcopies⟩ hinfeasible
  · intro x stop files' m' hrun hlives
    have hholds := hwp (some x)
    rw [hrun] at hholds
    cases stop with
    | died => exact absurd rfl hlives
    | refused e => exact .inl (hholds.1 hne)
    | failed =>
      obtain ⟨k, part, hkind, hfailed⟩ := hholds
      have hsite : x.site = k := congrArg Prod.fst (Option.some.inj hkind)
      rw [hsite]
      have hleft : if k.late then ∃ footer, Published codecs blake3 hasher opts source target files footer files'
        else Same target files files' := hfailed
      split at hleft
      · rename_i hlate
        exact .inr ⟨hlate, hleft⟩
      · exact .inl hleft

/-! ## Repacks of three records and of four -/

/-- One block of the three records. -/
def wideOptions : PackOptions := { gapOptions with blockTargetBytes := 1000 }

/-- Two blocks, and a ceiling that the one block is above. -/
def tightOptions : PackOptions := { gapOptions with maxBlockBytes := 60 }

def onlyFile (path : String) (data : Bytes) : Files := fun path' => if path' = path then some data else none

def sampleRepack (hasher : CanonicalHasher) (source target : String) (opts : PackOptions) (old : Bytes) :
    Option (Mishap RepackStep) → Except (Stop HeraclitusError) PackOutcome × Files × Option (Mishap RepackStep) :=
  Packer.repackSegment literalCodecs proofBlake3 hasher ⟨true, fun _ => []⟩ source target opts 1 2 (onlyFile source old)

set_option maxRecDepth 20000 in
theorem repack_of_three : ∃ footer old, Packer.packSegment literalCodecs proofBlake3 gapHasher gapSource gapOptions = .ok (footer, old) ∧
    ∃ root all, ReadsAs literalCodecs old gapOptions.maxBlockBytes root all ∧
      ∃ outcome files', sampleRepack gapHasher "g1" "g2" wideOptions old none = (.ok outcome, files', none) ∧
        ∃ new, files' "g2" = some new ∧ outcome.footer.logicalRoot = root ∧
          ReadsAs literalCodecs new wideOptions.maxBlockBytes root all := by
  have hrun : ((Packer.packSegment literalCodecs proofBlake3 gapHasher gapSource gapOptions).toOption.bind
      (fun x => (PackedSegmentReader.open (fileSource x.2) 0).toOption.bind (fun reader =>
        (Packer.packSegment literalCodecs proofBlake3 gapHasher gapSource wideOptions).toOption.map (fun y =>
          (decide (x.2.length < 2 ^ 64), decide (∀ e ∈ reader.directory, e.uncompressedLen ≤ wideOptions.maxBlockBytes),
            decide (y.2.length < 2 ^ 64)))))) = some (true, true, true) := by
    decide +kernel
  obtain ⟨⟨footer, old⟩, hold, hrun⟩ := Option.bind_eq_some_iff.1 hrun
  obtain ⟨reader, hopen, hrun⟩ := Option.bind_eq_some_iff.1 hrun
  obtain ⟨⟨footer', packed⟩, hpacked, hrun⟩ := Option.map_eq_some_iff.1 hrun
  obtain ⟨hlength, hrun⟩ := Prod.mk.inj hrun
  obtain ⟨hblocks, hlength'⟩ := Prod.mk.inj hrun
  have hold := Except.toOption_eq_some hold
  obtain ⟨scan, rawFooter, -, -, hreads⟩ := pack_readsAs literalCodecs_inverse (by decide) hold (of_decide_eq_true hlength)
  exact ⟨footer, old, hold, _, _, hreads, (repack_keeps_history literalCodecs_inverse ⟨true, fun _ => []⟩ (by decide) wideOptions 1 2
    (onlyFile "g1" old)).1 (.pack (by decide) (of_decide_eq_true hlength) hold) (by decide) (Except.toOption_eq_some hpacked)
    (of_decide_eq_true hlength') hreads (blocksWithin_of_open (Except.toOption_eq_some hopen) (of_decide_eq_true hblocks)) rfl rfl rfl⟩

/-- Two pairs of records whose LSNs cross. -/
def crossedRecords : List RawRecord :=
  [{ lsn := 5, hlc := 1, payload := [] }, { lsn := 7, hlc := 1, payload := [] }, { lsn := 6, hlc := 1, payload := [] },
    { lsn := 8, hlc := 1, payload := [] }]

def crossedHasher : CanonicalHasher := fun _ _ _ => .ok (Digest.replicate 1)

def crossedSource : Bytes :=
  let writer : RawSegmentWriter :=
    crossedRecords.foldl (fun w r => w.record proofBlake3 r.lsn r.hlc r.size (Digest.replicate 1)) (.fresh gapInit.header)
  gapInit.header.encode ++ (encodeRecords crossedRecords ++ (writer.footer proofBlake3).encode)

/-- All records in one block, or each in its own; every record is at a restart point. -/
def crossedOptions (blockTargetBytes : Nat) : PackOptions :=
  { gapOptions with blockTargetBytes := blockTargetBytes, restartInterval := 1 }

set_option maxRecDepth 20000 in
/-- **A repack does not read again what it wrote**: of records whose LSNs cross it makes a generation that does not open. -/
theorem crossed_generation : ∃ footer old new,
    Packer.packSegment literalCodecs proofBlake3 crossedHasher crossedSource (crossedOptions 1000) = .ok (footer, old) ∧
    (sampleRepack crossedHasher "g1" "g2" (crossedOptions 1) old none).1.isOk = true ∧
    (sampleRepack crossedHasher "g1" "g2" (crossedOptions 1) old none).2.1 "g2" = some new ∧
    (sampleRepack crossedHasher "g2" "g3" (crossedOptions 1000) new none).1.isOk = false := by
  have hrun : ((Packer.packSegment literalCodecs proofBlake3 crossedHasher crossedSource (crossedOptions 1000)).toOption.bind
      (fun x => ((sampleRepack crossedHasher "g1" "g2" (crossedOptions 1) x.2 none).2.1 "g2").map (fun new =>
        ((sampleRepack crossedHasher "g1" "g2" (crossedOptions 1) x.2 none).1.isOk,
          (sampleRepack crossedHasher "g2" "g3" (crossedOptions 1000) new none).1.isOk)))) = some (true, false) := by
    decide +kernel
  obtain ⟨⟨footer, old⟩, hold, hrun⟩ := Option.bind_eq_some_iff.1 hrun
  obtain ⟨new, hnew, hrun⟩ := Option.map_eq_some_iff.1 hrun
  obtain ⟨hmade, hrefused⟩ := Prod.mk.inj hrun
  exact ⟨footer, old, new, Except.toOption_eq_some hold, hmade, hnew, hrefused⟩

set_option maxRecDepth 20000 in
/-- **A repack refuses** a source whose block is above the new ceiling, though the records can be packed, and one that another
repack made and did not read; it leaves the new generation when the directory is not synced, or when the source has the name
of the temporary file. -/
theorem source_above_the_ceiling : (∃ footer old footer' packed,
    Packer.packSegment literalCodecs proofBlake3 gapHasher gapSource wideOptions = .ok (footer, old) ∧
    Packer.packSegment literalCodecs proofBlake3 gapHasher gapSource tightOptions = .ok (footer', packed) ∧
    (sampleRepack gapHasher "g1" "g2" tightOptions old none).1.isOk = false ∧
    ((sampleRepack gapHasher "g1" "g2" wideOptions old (some ⟨.syncParent, 0, 0, false⟩)).1.isOk = false ∧
      ((sampleRepack gapHasher "g1" "g2" wideOptions old (some ⟨.syncParent, 0, 0, false⟩)).2.1 "g2").isSome = true) ∧
    (sampleRepack gapHasher "g2.tmp" "g2" wideOptions old none).1.isOk = false) ∧
    ∃ footer old new,
      Packer.packSegment literalCodecs proofBlake3 crossedHasher crossedSource (crossedOptions 1000) = .ok (footer, old) ∧
      (sampleRepack crossedHasher "g1" "g2" (crossedOptions 1) old none).1.isOk = true ∧
      (sampleRepack crossedHasher "g1" "g2" (crossedOptions 1) old none).2.1 "g2" = some new ∧
      (sampleRepack crossedHasher "g2" "g3" (crossedOptions 1000) new none).1.isOk = false := by
  have hrun : ((Packer.packSegment literalCodecs proofBlake3 gapHasher gapSource wideOptions).toOption.bind
      (fun x => (Packer.packSegment literalCodecs proofBlake3 gapHasher gapSource tightOptions).toOption.map
        (fun _ => ((sampleRepack gapHasher "g1" "g2" tightOptions x.2 none).1.isOk,
          ((sampleRepack gapHasher "g1" "g2" wideOptions x.2 (some ⟨.syncParent, 0, 0, false⟩)).1.isOk,
            ((sampleRepack gapHasher "g1" "g2" wideOptions x.2 (some ⟨.syncParent, 0, 0, false⟩)).2.1 "g2").isSome),
          (sampleRepack gapHasher "g2.tmp" "g2" wideOptions x.2 none).1.isOk)))) =
        some (false, (false, true), false) := by
    decide +kernel
  obtain ⟨⟨footer, old⟩, hold, hrun⟩ := Option.bind_eq_some_iff.1 hrun
  obtain ⟨⟨footer', packed⟩, hpacked, hrun⟩ := Option.map_eq_some_iff.1 hrun
  obtain ⟨htight, hrun⟩ := Prod.mk.inj hrun
  obtain ⟨hfault, htemp⟩ := Prod.mk.inj hrun
  exact ⟨⟨footer, old, footer', packed, Except.toOption_eq_some hold, Except.toOption_eq_some hpacked, htight,
    Prod.mk.inj hfault, htemp⟩, crossed_generation⟩

end V6
end Heraclitus
