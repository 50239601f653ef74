import Heraclitus.V6PackedRead
/-!
# V6Prove — the proof of one record, from a RAW segment and from its PACKED generation
(`heraclitus-log/src/v6/verify.rs`, `packer.rs`, `receipts.rs`)

A pack reads its own output again and compares the roots before it publishes.  What it publishes holds the records of the
RAW segment in their order, so a proof does not depend on the layout.
-/
namespace Heraclitus
namespace V6

variable (codecs : Codecs) (blake3 : Bytes → Digest) (hasher : CanonicalHasher)

/-! ## Packing -/

/-- `f` on every record of these blocks. -/
def PackedSegmentReader.forEachIn {σ : Type} (reader : PackedSegmentReader) (f : σ → RawRecord → Except HeraclitusError σ) :
    List Nat → σ → ScanCounters → Except HeraclitusError σ × ScanCounters
  | [], s, counters => (.ok s, counters)
  | i :: blocks, s, counters =>
    match reader.readBlock codecs i counters with
    | (.error e, counters) => (.error e, counters)
    | (.ok (header, body), counters) =>
      match decodeBlockRecords header body with
      | .error e => (.error e, counters)
      | .ok records =>
        match records.foldlM f s with
        | .error e => (.error e, counters)
        | .ok s => reader.forEachIn f blocks s counters

def PackedSegmentReader.forEachRecord {σ : Type} (reader : PackedSegmentReader) (f : σ → RawRecord → Except HeraclitusError σ)
    (s : σ) (counters : ScanCounters) : Except HeraclitusError σ × ScanCounters :=
  reader.forEachIn codecs f (List.range reader.directory.length) s counters

def Packer.packRecords (w : PackedSegmentWriter) : List RawRecord → Except HeraclitusError PackedSegmentWriter
  | [] => .ok w
  | r :: records =>
    match hasher r.lsn r.hlc r.payload with
    | .error e => .error e
    | .ok hash =>
      match w.push codecs blake3 r hash with
      | .error e => .error e
      | .ok w => Packer.packRecords w records

/-- What the second reading counts. -/
def recount (s : MerkleAccumulatorV1 × Nat) (r : RawRecord) : Except HeraclitusError (MerkleAccumulatorV1 × Nat) :=
  (hasher r.lsn r.hlc r.payload).map (fun hash => (s.1.pushRecordHash blake3 hash, s.2 + 1))

/-- `pack_segment`, from the bytes of the source to those of the target: its steps 1 to 9. -/
def Packer.packSegment (source : Bytes) (opts : PackOptions) : Except HeraclitusError (FooterV6 × Bytes) := do
  let ctx := "hrkl v6 packer"
  let scan ← scanRawBytes source
  if scan.header.physicalLayout ≠ .raw then .error (corrupt ctx "source segment is not RAW")
  else
    match scan.footer with
    | none => .error (corrupt ctx "refusing to pack an unsealed segment")
    | some sourceFooter =>
      if scan.tornAt.isSome then .error (corrupt ctx "sealed segment has trailing bytes after the footer")
      else if scan.header.canonicalCodec ≠ canonicalCodecV1 then
        .error (corrupt ctx s!"unsupported canonical codec {scan.header.canonicalCodec}")
      else if scan.records.length ≠ sourceFooter.recordCount then
        .error (corrupt ctx s!"source has {scan.records.length} records, footer declares {sourceFooter.recordCount}")
      else do
        let init : SegmentInit := {
          segmentId := scan.header.segmentId, createdHlc := scan.header.createdHlc, firstLsn := scan.header.firstLsn
          writerEpoch := scan.header.writerEpoch, storageNamespaceId := scan.header.storageNamespaceId }
        let writer ← Packer.packRecords codecs blake3 hasher (.create init opts) scan.records
        let (targetFooter, target) ← writer.finish codecs blake3
        if targetFooter.logicalRoot ≠ sourceFooter.logicalRoot then
          .error (corrupt ctx
            "PACKED logical_root differs from RAW; refusing to publish a non-equivalent generation")
        else if targetFooter.recordCount ≠ sourceFooter.recordCount ∨ targetFooter.minLsn ≠ sourceFooter.minLsn ∨
            targetFooter.maxLsn ≠ sourceFooter.maxLsn then
          .error (corrupt ctx "PACKED footer disagrees with RAW footer")
        else do
          let reader ← PackedSegmentReader.open (fileSource target) opts.maxBlockBytes
          let (acc, n) ← (reader.forEachRecord codecs (recount blake3 hasher) (.new, 0) .zero).1
          if n ≠ sourceFooter.recordCount ∨ acc.finalize blake3 ≠ sourceFooter.logicalRoot then
            .error (corrupt ctx "re-read of the packed generation does not reproduce the canonical root")
          else .ok (targetFooter, target)

/-! ## Proving -/

def readHead (file : Bytes) : Except HeraclitusError PhysicalLayout :=
  if file.length < fileHeaderLen then .error (.storage "failed to fill whole buffer")
  else (FileHeaderV6.decode (file.take fileHeaderLen)).map FileHeaderV6.physicalLayout

structure AttestationEnvelopeV1 where
  storageNamespaceId : Bytes
  segmentId : Nat
  canonicalCodecVersion : Nat
  firstLsn : Nat
  lastLsn : Nat
  recordCount : Nat
  logicalRoot : Digest
  deriving DecidableEq

def attestationFor (storageNamespaceId : Bytes) (segmentId : Nat) (footer : FooterV6) : AttestationEnvelopeV1 := {
  storageNamespaceId := storageNamespaceId, segmentId := segmentId, canonicalCodecVersion := canonicalCodecV1
  firstLsn := footer.minLsn, lastLsn := footer.maxLsn, recordCount := footer.recordCount, logicalRoot := footer.logicalRoot }

structure LsnProof where
  lsn : Nat
  canonicalRecordHash : Digest
  proof : InclusionProof
  logicalRoot : Digest
  envelope : AttestationEnvelopeV1
  deriving DecidableEq

def LsnProof.verify (p : LsnProof) : Bool :=
  verifyInclusionProof blake3 p.canonicalRecordHash p.proof p.logicalRoot && p.envelope.logicalRoot == p.logicalRoot

/-- The hashes, and the index of the record with the LSN: the last one, if there are several. -/
abbrev Hashed : Type := List Digest × Option Nat

/-- The loop over the records of a RAW segment, from number `i` on. -/
def hashRaw (lsn : Nat) : Nat → Hashed → List RawRecord → Except HeraclitusError Hashed
  | _, s, [] => .ok s
  | i, s, r :: records =>
    match hasher r.lsn r.hlc r.payload with
    | .error e => .error e
    | .ok hash => hashRaw lsn (i + 1) (s.1 ++ [hash], if r.lsn = lsn then some i else s.2) records

/-- One record of a PACKED segment. -/
def hashPacked (lsn : Nat) (s : Hashed) (r : RawRecord) : Except HeraclitusError Hashed :=
  let index := if r.lsn = lsn then some s.1.length else s.2
  (hasher r.lsn r.hlc r.payload).map (fun hash => (s.1 ++ [hash], index))

/-- What both layouts come to. -/
def finishProof (lsn : Nat) (hashed : Hashed) (footer : FooterV6) (segmentId : Nat) (namespaceId : Bytes) :
    Except HeraclitusError (Option LsnProof) :=
  match hashed.2 with
  | none => .ok none
  | some index =>
    match buildInclusionProof blake3 hashed.1 index, hashed.1[index]? with
    | some proof, some hash => .ok (some {
        lsn := lsn, canonicalRecordHash := hash, proof := proof, logicalRoot := footer.logicalRoot
        envelope := attestationFor namespaceId segmentId footer })
    | _, _ => .error (corrupt "hrkl v6 prove" "inclusion proof index out of range")

def proveLsn (file : Bytes) (lsn maxBlockBytes : Nat) : Except HeraclitusError (Option LsnProof) := do
  match ← readHead file with
  | .raw =>
    let scan ← scanRawBytes file
    match scan.footer with
    | none => .error (corrupt "hrkl v6 prove" "cannot prove against an unsealed segment")
    | some footer =>
      let hashed ← hashRaw hasher lsn 0 ([], none) scan.records
      finishProof blake3 lsn hashed footer scan.header.segmentId scan.header.storageNamespaceId
  | .packed =>
    let reader ← PackedSegmentReader.open (fileSource file) maxBlockBytes
    let hashed ← (reader.forEachRecord codecs (hashPacked hasher lsn) ([], none) .zero).1
    finishProof blake3 lsn hashed reader.footer reader.header.segmentId reader.header.storageNamespaceId

/-! ## The widths of what was scanned -/

theorem decodeRawRecord_record {buf payload : Bytes} {lsn hlc total : Nat}
    (h : decodeRawRecord buf = .record lsn hlc payload total) : lsn < 2 ^ 64 ∧ hlc < 2 ^ 64 := by
  unfold decodeRawRecord at h
  dsimp only at h
  split at h
  · split at h <;> cases h
  · split at h
    · cases h
    · split at h
      · cases h
      · split at h
        · cases h
        · split at h <;> cases h
          exact ⟨leNat_take_lt _ 8, leNat_take_lt _ 8⟩

theorem decodeRawRecord_footer {buf : Bytes} {f : FooterV6} (h : decodeRawRecord buf = .footer f) : f.Wide := by
  unfold decodeRawRecord at h
  dsimp only at h
  split at h
  · split at h
    · rename_i hdecode
      cases h
      exact FooterV6.wide_of_decode hdecode
    · cases h
  · split at h
    · cases h
    · split at h
      · cases h
      · split at h
        · cases h
        · split at h <;> cases h

theorem scanRecords_wide : ∀ (fuel : Nat) {rest : Bytes} {pos : Nat} {records : List RawRecord}
    {x : List RawRecord × Option FooterV6 × Option Nat}, (∀ r ∈ records, r.lsn < 2 ^ 64 ∧ r.hlc < 2 ^ 64) →
    scanRecords fuel rest pos records = .ok x →
    (∀ r ∈ x.1, r.lsn < 2 ^ 64 ∧ r.hlc < 2 ^ 64) ∧ ∀ f, x.2.1 = some f → f.Wide
  | 0, rest, pos, records, x, hwide, h => by
    cases h
    exact ⟨hwide, fun f hf => by cases hf⟩
  | fuel + 1, rest, pos, records, x, hwide, h => by
    rw [scanRecords] at h
    split at h
    · cases h
      exact ⟨hwide, fun f hf => by cases hf⟩
    · cases hdecode : decodeRawRecord rest with
      | record lsn hlc payload total =>
        rw [hdecode] at h
        refine scanRecords_wide fuel (fun r hr => ?_) h
        rcases List.mem_append.1 hr with hr | hr
        · exact hwide r hr
        · cases List.mem_singleton.1 hr
          exact decodeRawRecord_record hdecode
      | footer f =>
        rw [hdecode] at h
        dsimp only at h
        split at h
        · cases h
        · split at h <;> cases h
          exact ⟨hwide, fun f' hf' => by cases hf'; exact decodeRawRecord_footer hdecode⟩
      | torn =>
        rw [hdecode] at h
        dsimp only at h
        split at h <;> cases h
        exact ⟨hwide, fun f hf => by cases hf⟩

/-- **What a scan finds** is of the widths that the format has. -/
theorem scanRawBytes_wide {file : Bytes} {scan : RawScan} (h : scanRawBytes file = .ok scan) :
    FileHeaderV6.decode file = .ok scan.header ∧ scan.header.physicalLayout = .raw ∧
      (∀ r ∈ scan.records, r.lsn < 2 ^ 64 ∧ r.hlc < 2 ^ 64) ∧ ∀ f, scan.footer = some f → f.Wide := by
  unfold scanRawBytes at h
  split at h
  · cases h
  · rename_i header hheader
    split at h
    · cases h
    · rename_i hlayout
      split at h
      · cases h
      · rename_i records footer tornAt hrecords
        cases h
        obtain ⟨hwide, hfooter⟩ := scanRecords_wide _ (fun r hr => by cases hr) hrecords
        exact ⟨hheader, not_not.1 hlayout, hwide, hfooter⟩

/-! ## The records, one by one -/

variable {codecs blake3 hasher}

/-- The canonical hashes of the records. -/
abbrev HashesOf (hasher : CanonicalHasher) : List RawRecord → List Digest → Prop :=
  List.Forall₂ (fun r hash => hasher r.lsn r.hlc r.payload = .ok hash)

/-- **A pack hashes and pushes every record.** -/
theorem packRecords_ok : ∀ (rs : List RawRecord) {w w' : PackedSegmentWriter},
    Packer.packRecords codecs blake3 hasher w rs = .ok w' →
      ∃ hashes, HashesOf hasher rs hashes ∧ w.pushAll codecs blake3 (rs.zip hashes) = .ok w'
  | [], w, w', h => ⟨[], .nil, h⟩
  | r :: rs, w, w', h => by
    rw [Packer.packRecords] at h
    cases hhash : hasher r.lsn r.hlc r.payload with
    | error e =>
      rw [hhash] at h
      cases h
    | ok hash =>
      rw [hhash] at h
      dsimp only at h
      cases hpush : w.push codecs blake3 r hash with
      | error e =>
        rw [hpush] at h
        cases h
      | ok w₁ =>
        rw [hpush] at h
        obtain ⟨hashes, hhashes, hall⟩ := packRecords_ok rs h
        refine ⟨hash :: hashes, .cons hhash hhashes, ?_⟩
        rw [List.zip_cons_cons, PackedSegmentWriter.pushAll, hpush]
        exact hall

theorem HashesOf.map_fst_zip {rs : List RawRecord} {hashes : List Digest} (h : HashesOf hasher rs hashes) :
    (rs.zip hashes).map Prod.fst = rs := List.map_fst_zip (Nat.le_of_eq h.length_eq)

/-- **The second reading** comes to the root of the hashes. -/
theorem foldlM_recount {rs : List RawRecord} {hashes : List Digest} (h : HashesOf hasher rs hashes) :
    ∀ (acc : MerkleAccumulatorV1) (n : Nat), rs.foldlM (recount blake3 hasher) (acc, n)
      = .ok (hashes.foldl (MerkleAccumulatorV1.pushRecordHash blake3) acc, n + hashes.length) := by
  induction h with
  | nil => exact fun acc n => rfl
  | @cons r hash rs hashes hhash _ ih =>
    intro acc n
    have hstep : recount blake3 hasher (acc, n) r = .ok (acc.pushRecordHash blake3 hash, n + 1) := by
      rw [recount, hhash]
      rfl
    rw [List.foldlM_cons, hstep, List.foldl_cons, List.length_cons, Nat.add_comm hashes.length, ← Nat.add_assoc]
    exact ih _ _

/-- **Both layouts hash alike.** -/
theorem foldlM_hashPacked (lsn : Nat) : ∀ (rs : List RawRecord) (done : List Digest) (index : Option Nat),
    rs.foldlM (hashPacked hasher lsn) (done, index) = hashRaw hasher lsn done.length (done, index) rs
  | [], done, index => rfl
  | r :: rs, done, index => by
    rw [List.foldlM_cons, hashRaw, hashPacked]
    cases hhash : hasher r.lsn r.hlc r.payload with
    | error e => rfl
    | ok hash =>
      have ih := foldlM_hashPacked lsn rs (done ++ [hash]) (if r.lsn = lsn then some done.length else index)
      rw [List.length_append] at ih
      exact ih

/-- What the index says. -/
structure Located (hasher : CanonicalHasher) (lsn : Nat) (records : List RawRecord) (s : Hashed) : Prop where
  absent : s.2 = none ↔ ∀ r ∈ records, r.lsn ≠ lsn
  present : ∀ j, s.2 = some j → ∃ r ∈ records, r.lsn = lsn ∧ ∃ hash, s.1[j]? = some hash ∧ hasher r.lsn r.hlc r.payload = .ok hash

theorem hashRaw_ok {lsn : Nat} {rs : List RawRecord} {hashes : List Digest} (h : HashesOf hasher rs hashes) :
    ∀ {front : List RawRecord} {s : Hashed}, s.1.length = front.length → Located hasher lsn front s →
      ∃ s', hashRaw hasher lsn front.length s rs = .ok s' ∧ s'.1 = s.1 ++ hashes ∧ Located hasher lsn (front ++ rs) s' := by
  induction h with
  | nil =>
    intro front s _ hs
    exact ⟨s, rfl, (List.append_nil _).symm, by rw [List.append_nil]; exact hs⟩
  | @cons r hash rs hashes hhash _ ih =>
    intro front s hlen hs
    have hnext : Located hasher lsn (front ++ [r]) (s.1 ++ [hash], if r.lsn = lsn then some front.length else s.2) := by
      by_cases heq : r.lsn = lsn
      · rw [if_pos heq]
        refine ⟨⟨fun hnone => (by cases hnone), fun hall => absurd heq (hall r (List.mem_append_right _ List.mem_cons_self))⟩, ?_⟩
        intro j hj
        cases hj
        refine ⟨r, List.mem_append_right _ List.mem_cons_self, heq, hash, ?_, hhash⟩
        dsimp only
        rw [← hlen, List.getElem?_append_right (Nat.le_refl _), Nat.sub_self]
        rfl
      · rw [if_neg heq]
        refine ⟨hs.absent.trans ⟨fun hall r' hr' => ?_, fun hall r' hr' => hall r' (List.mem_append_left _ hr')⟩, fun j hj => ?_⟩
        · rcases List.mem_append.1 hr' with hr' | hr'
          · exact hall r' hr'
          · rw [List.mem_singleton.1 hr']
            exact heq
        · obtain ⟨r', hr', hlsn, hash', hget, hhash'⟩ := hs.present j hj
          refine ⟨r', List.mem_append_left _ hr', hlsn, hash', ?_, hhash'⟩
          dsimp only
          rw [List.getElem?_append_left (List.getElem?_eq_some_iff.1 hget).1]
          exact hget
    have hlen' : (s.1 ++ [hash]).length = (front ++ [r]).length := by rw [List.length_append, List.length_append, hlen]; rfl
    obtain ⟨s', hrun, hhashes, hlocated⟩ := ih hlen' hnext
    refine ⟨s', ?_, ?_, ?_⟩
    · rw [hashRaw, hhash]
      dsimp only
      rw [List.length_append] at hrun
      exact hrun
    · rw [hhashes, List.append_assoc]
      rfl
    · rw [List.append_assoc] at hlocated
      exact hlocated

/-! ## Block by block -/

variable {opts : PackOptions} {gs : List Group} {reader : PackedSegmentReader} {maxBlockBytes : Nat}

/-- All records of these blocks. -/
abbrev recordsAt (gs : List Group) (is : List Nat) : List RawRecord := is.flatMap (keptAt gs (fun _ => true))

theorem keptAt_true {i : Nat} {g : Group} (hi : gs[i]? = some g) : keptAt gs (fun _ => true) i = g.1 := by
  rw [keptAt, hi, Option.elim_some, List.filter_true]

theorem forEachIn_ok (hcodecs : codecs.Inverse) (hs : reader.Serves codecs opts gs maxBlockBytes) {σ : Type}
    {f : σ → RawRecord → Except HeraclitusError σ} : ∀ (is : List Nat) {s s' : σ} {counters : ScanCounters},
    (∀ i ∈ is, i < gs.length) → (reader.forEachIn codecs f is s counters).1 = .ok s' →
    (∀ i ∈ is, ∀ g, gs[i]? = some g → ∃ body, g.Readable codecs maxBlockBytes body) ∧ (recordsAt gs is).foldlM f s = .ok s'
  | [], s, s', counters, _, h => ⟨fun i hi => (by cases hi), h⟩
  | j :: is, s, s', counters, hlt, h => by
    have hj := List.getElem?_eq_getElem (hlt j List.mem_cons_self)
    rw [PackedSegmentReader.forEachIn] at h
    cases hread : reader.readBlock codecs j counters with
    | mk result counters₁ =>
      rw [hread] at h
      cases result with
      | error e => cases h
      | ok x =>
        dsimp only at h
        cases hdecode : decodeBlockRecords x.1 x.2 with
        | error e =>
          rw [hdecode] at h
          cases h
        | ok records =>
          rw [hdecode] at h
          dsimp only at h
          have hfirst : (reader.readBlock codecs j counters).1 = .ok x := by rw [hread]
          obtain ⟨hreadable, hrecords⟩ := readable_of_ok hcodecs hs hj hfirst hdecode
          cases hfold : records.foldlM f s with
          | error e =>
            rw [hfold] at h
            cases h
          | ok s₁ =>
            rw [hfold] at h
            obtain ⟨hrest, hfolds⟩ := forEachIn_ok hcodecs hs is (fun i hi => hlt i (List.mem_cons_of_mem j hi)) h
            refine ⟨fun i hi g hg => ?_, ?_⟩
            · rcases List.mem_cons.1 hi with rfl | hi
              · cases hj.symm.trans hg
                exact ⟨_, hreadable⟩
              · exact hrest i hi g hg
            · rw [recordsAt, List.flatMap_cons, keptAt_true hj, List.foldlM_append, ← hrecords, hfold]
              exact hfolds

/-- **Readable blocks are folded over**, record by record. -/
theorem forEachIn_eq (hs : reader.Serves codecs opts gs maxBlockBytes) {σ : Type} (f : σ → RawRecord → Except HeraclitusError σ) :
    ∀ (is : List Nat) (s : σ) (counters : ScanCounters),
      (∀ i ∈ is, ∃ g body, gs[i]? = some g ∧ g.Readable codecs maxBlockBytes body) →
      (reader.forEachIn codecs f is s counters).1 = (recordsAt gs is).foldlM f s
  | [], _, _, _ => rfl
  | i :: is, s, counters, hreadable => by
    obtain ⟨g, body, hi, hread⟩ := hreadable i List.mem_cons_self
    obtain ⟨counters₁, hblock, -⟩ := readBlock_eq hs hi hread counters
    rw [PackedSegmentReader.forEachIn, hblock, recordsAt, List.flatMap_cons, keptAt_true hi, List.foldlM_append]
    dsimp only
    rw [hread.decoded]
    dsimp only
    cases g.1.foldlM f s with
    | error e => rfl
    | ok s₁ => exact forEachIn_eq hs f is s₁ counters₁ (fun j hj => hreadable j (List.mem_cons_of_mem i hj))

theorem recordsAt_range (gs : List Group) : recordsAt gs (List.range gs.length) = recordsIn gs := by
  rw [recordsAt, flatMap_range_keptAt, List.filter_true]

theorem forEachRecord_ok (hcodecs : codecs.Inverse) (hs : reader.Serves codecs opts gs maxBlockBytes) {σ : Type}
    {f : σ → RawRecord → Except HeraclitusError σ} {s s' : σ} {counters : ScanCounters}
    (h : (reader.forEachRecord codecs f s counters).1 = .ok s') :
    (∀ g ∈ gs, ∃ body, g.Readable codecs maxBlockBytes body) ∧ (recordsIn gs).foldlM f s = .ok s' := by
  unfold PackedSegmentReader.forEachRecord at h
  rw [hs.directory, length_entriesFrom] at h
  obtain ⟨hreadable, hfold⟩ := forEachIn_ok hcodecs hs _ (fun i hi => List.mem_range.1 hi) h
  rw [recordsAt_range] at hfold
  refine ⟨fun g hg => ?_, hfold⟩
  obtain ⟨i, hi⟩ := List.getElem?_of_mem hg
  exact hreadable i (List.mem_range.2 (List.getElem?_eq_some_iff.1 hi).1) g hi

theorem forEachRecord_eq (hs : reader.Serves codecs opts gs maxBlockBytes) {σ : Type} {f : σ → RawRecord → Except HeraclitusError σ}
    (s : σ) (counters : ScanCounters) (hreadable : ∀ g ∈ gs, ∃ body, g.Readable codecs maxBlockBytes body) :
    (reader.forEachRecord codecs f s counters).1 = (recordsIn gs).foldlM f s := by
  unfold PackedSegmentReader.forEachRecord
  rw [hs.directory, length_entriesFrom, forEachIn_eq hs f _ _ _ (fun i hi => ?_), recordsAt_range]
  have hlt := List.mem_range.1 hi
  obtain ⟨body, hread⟩ := hreadable _ (List.getElem_mem hlt)
  exact ⟨_, body, List.getElem?_eq_getElem hlt, hread⟩

/-! ## The ceiling of the reader -/

/-- The ceiling is only looked at when a block is read. -/
theorem open_ceiling {source : BlockSource} (h : PackedSegmentReader.open source maxBlockBytes = .ok reader) (m : Nat) :
    PackedSegmentReader.open source m = .ok { reader with maxBlockBytes := m } := by
  unfold PackedSegmentReader.open at h ⊢
  dsimp only at h ⊢
  obtain ⟨hlen, h⟩ := guard_eq_ok.1 h
  obtain ⟨headerBytes, hheaderBytes, h⟩ := ok_of_bind h
  obtain ⟨header, hheader, h⟩ := ok_of_bind h
  obtain ⟨hlayout, h⟩ := guard_eq_ok.1 h
  obtain ⟨footerBytes, hfooterBytes, h⟩ := ok_of_bind h
  obtain ⟨footer, hfooter, h⟩ := ok_of_bind h
  obtain ⟨hover, h⟩ := guard_eq_ok.1 h
  obtain ⟨hend, h⟩ := guard_eq_ok.1 h
  obtain ⟨hcount, h⟩ := guard_eq_ok.1 h
  obtain ⟨dirBytes, hdirBytes, h⟩ := ok_of_bind h
  obtain ⟨directory, hdirectory, h⟩ := ok_of_bind h
  obtain ⟨hdeclared, h⟩ := guard_eq_ok.1 h
  cases h
  rw [if_neg hlen, hheaderBytes]
  dsimp only [bind, Except.bind]
  rw [hheader]
  dsimp only
  rw [if_neg hlayout, hfooterBytes]
  dsimp only
  rw [hfooter]
  dsimp only
  rw [if_neg hover, if_neg hend, if_neg hcount, hdirBytes]
  dsimp only
  rw [hdirectory]
  dsimp only
  rw [if_neg hdeclared]

theorem Group.Readable.ceiling {g : Group} {body : Bytes} (h : g.Readable codecs maxBlockBytes body) {m : Nat}
    (hm : g.2.header.uncompressedLen ≤ min m hardMaxBlockBytes) : g.Readable codecs m body := by
  refine ⟨h.coherent, ?_, h.decoded⟩
  have hrestored := h.restored
  unfold decompressBody decompressBlock at hrestored ⊢
  rw [if_neg (Nat.not_lt.2 hm)]
  exact (guard_eq_ok.1 hrestored).2

theorem PackedSegmentReader.Serves.ceiling (hs : reader.Serves codecs opts gs maxBlockBytes) (m : Nat) :
    PackedSegmentReader.Serves codecs opts gs m { reader with maxBlockBytes := m } :=
  ⟨hs.directory, rfl, hs.readAt, hs.built, hs.wide, hs.interval⟩

/-! ## A pack that succeeds -/

def RawScan.init (scan : RawScan) : SegmentInit := {
  segmentId := scan.header.segmentId, createdHlc := scan.header.createdHlc, firstLsn := scan.header.firstLsn
  writerEpoch := scan.header.writerEpoch, storageNamespaceId := scan.header.storageNamespaceId }

/-- What a pack that succeeds has checked. -/
structure Repacks (codecs : Codecs) (blake3 : Bytes → Digest) (hasher : CanonicalHasher) (source : Bytes) (opts : PackOptions)
    (scan : RawScan) (rawFooter footer : FooterV6) (hashes : List Digest) (gs : List Group) (target : Bytes) : Prop where
  scanned : scanRawBytes source = .ok scan
  sealed_ : scan.footer = some rawFooter
  hashed : HashesOf hasher scan.records hashes
  count : scan.records.length = rawFooter.recordCount
  footerRoot : footer.logicalRoot = rawFooter.logicalRoot
  footerCount : footer.recordCount = rawFooter.recordCount
  footerMin : footer.minLsn = rawFooter.minLsn
  footerMax : footer.maxLsn = rawFooter.maxLsn
  layout : PackedLayout codecs scan.init.packedHeader opts gs footer target
  records : recordsIn gs = scan.records
  opens : ∃ reader, PackedSegmentReader.open (fileSource target) opts.maxBlockBytes = .ok reader
  readable : ∀ g ∈ gs, ∃ body, g.Readable codecs opts.maxBlockBytes body
  root : rootOfRecordHashes blake3 hashes = rawFooter.logicalRoot

theorem wide_groups {records : List RawRecord} (hrecords : recordsIn gs = records)
    (hwide : ∀ r ∈ records, r.lsn < 2 ^ 64 ∧ r.hlc < 2 ^ 64) : ∀ g ∈ gs, ∀ r ∈ g.1, r.lsn < 2 ^ 64 ∧ r.hlc < 2 ^ 64 :=
  fun _ hg r hr => hwide r (hrecords ▸ recordsIn_mem hg hr)

/-- **What a pack that succeeds has checked.** -/
theorem packSegment_ok (hcodecs : codecs.Inverse) (h16 : opts.restartInterval < 2 ^ 16) {source target : Bytes} {footer : FooterV6}
    (h : Packer.packSegment codecs blake3 hasher source opts = .ok (footer, target)) (h64 : target.length < 2 ^ 64) :
    ∃ scan rawFooter hashes gs, Repacks codecs blake3 hasher source opts scan rawFooter footer hashes gs target := by
  unfold Packer.packSegment at h
  dsimp only at h
  obtain ⟨scan, hscan, h⟩ := ok_of_bind h
  obtain ⟨hheader, -, hwide, hfooter⟩ := scanRawBytes_wide hscan
  obtain ⟨-, h⟩ := guard_eq_ok.1 h
  cases hsealed : scan.footer with
  | none =>
    rw [hsealed] at h
    cases h
  | some rawFooter =>
    rw [hsealed] at h
    dsimp only at h
    obtain ⟨-, h⟩ := guard_eq_ok.1 h
    obtain ⟨-, h⟩ := guard_eq_ok.1 h
    obtain ⟨hcount, h⟩ := guard_eq_ok.1 h
    obtain ⟨writer, hwriter, h⟩ := ok_of_bind h
    obtain ⟨⟨footer', target'⟩, hfinish, h⟩ := ok_of_bind h
    obtain ⟨hroots, h⟩ := guard_eq_ok.1 h
    obtain ⟨hfooters, h⟩ := guard_eq_ok.1 h
    obtain ⟨reader, hopen, h⟩ := ok_of_bind h
    obtain ⟨⟨acc, n⟩, hcounted, h⟩ := ok_of_bind h
    obtain ⟨hagain, h⟩ := guard_eq_ok.1 h
    obtain ⟨rfl, rfl⟩ := Prod.mk.inj (Except.ok.inj h)
    obtain ⟨hashes, hhashes, hpush⟩ := packRecords_ok scan.records hwriter
    have hwrite : writePacked codecs blake3 scan.init opts (scan.records.zip hashes) = .ok (footer', target') := by
      unfold writePacked
      rw [RawScan.init, hpush]
      exact hfinish
    obtain ⟨gs, hlayout, hrecords⟩ := writePacked_ok hwrite
    rw [hhashes.map_fst_zip] at hrecords
    have hns := (FileHeaderV6.wide_of_decode hheader).storageNamespaceId
    obtain ⟨hs, -⟩ := serves_of_open hlayout hns (wide_groups hrecords hwide) h16 h64 (fileSource_holds _) hopen
    obtain ⟨hreadable, hfold⟩ := forEachRecord_ok hcodecs hs hcounted
    rw [hrecords, foldlM_recount hhashes] at hfold
    cases hfold
    refine ⟨scan, rawFooter, hashes, gs, hscan, hsealed, hhashes, not_not.1 hcount, not_not.1 hroots, ?_, ?_, ?_, hlayout, hrecords,
      ⟨reader, hopen⟩, hreadable, ?_⟩
    · exact not_not.1 (fun hne => hfooters (.inl hne))
    · exact not_not.1 (fun hne => hfooters (.inr (.inl hne)))
    · exact not_not.1 (fun hne => hfooters (.inr (.inr hne)))
    · exact not_not.1 (fun hne => hagain (.inr hne))

/-! ## Proofs -/

theorem readHead_of_decode {file : Bytes} {header : FileHeaderV6} (h : FileHeaderV6.decode file = .ok header) :
    readHead file = .ok header.physicalLayout := by
  have hlen : fileHeaderLen ≤ file.length := by
    unfold FileHeaderV6.decode at h
    exact Nat.not_lt.1 (guard_eq_ok.1 h).1
  rw [readHead, if_neg (Nat.not_lt.2 hlen), FileHeaderV6.decode_take hlen, h]
  rfl

theorem finishProof_congr {lsn segmentId : Nat} {hashed : Hashed} {namespaceId : Bytes} {footer footer' : FooterV6}
    (hroot : footer.logicalRoot = footer'.logicalRoot) (hmin : footer.minLsn = footer'.minLsn)
    (hmax : footer.maxLsn = footer'.maxLsn) (hcount : footer.recordCount = footer'.recordCount) :
    finishProof blake3 lsn hashed footer segmentId namespaceId = finishProof blake3 lsn hashed footer' segmentId namespaceId := by
  have henvelope : attestationFor namespaceId segmentId footer = attestationFor namespaceId segmentId footer' := by
    rw [attestationFor, attestationFor, hroot, hmin, hmax, hcount]
  unfold finishProof
  rw [henvelope, hroot]

section Proofs

variable {source target : Bytes} {scan : RawScan} {rawFooter footer : FooterV6} {hashes : List Digest}
variable (h : Repacks codecs blake3 hasher source opts scan rawFooter footer hashes gs target)
include h

theorem proveRaw_eq (lsn m : Nat) : proveLsn codecs blake3 hasher source lsn m = (hashRaw hasher lsn 0 ([], none) scan.records >>=
    fun hashed => finishProof blake3 lsn hashed rawFooter scan.header.segmentId scan.header.storageNamespaceId) := by
  obtain ⟨hheader, hlayout, -, -⟩ := scanRawBytes_wide h.scanned
  have hhead := readHead_of_decode hheader
  rw [hlayout] at hhead
  unfold proveLsn
  rw [hhead]
  dsimp only [bind, Except.bind]
  rw [h.scanned]
  dsimp only
  rw [h.sealed_]

theorem provePacked_eq (h16 : opts.restartInterval < 2 ^ 16) (h64 : target.length < 2 ^ 64) (lsn m : Nat) :
    ∃ reader : PackedSegmentReader, reader.Serves codecs opts gs m ∧ proveLsn codecs blake3 hasher target lsn m
      = ((reader.forEachRecord codecs (hashPacked hasher lsn) ([], none) .zero).1 >>=
        fun hashed => finishProof blake3 lsn hashed rawFooter scan.header.segmentId scan.header.storageNamespaceId) := by
  obtain ⟨hheader, -, hwide, hfooter⟩ := scanRawBytes_wide h.scanned
  have hw := FileHeaderV6.wide_of_decode hheader
  have hwf := hfooter rawFooter h.sealed_
  have hpacked : scan.init.packedHeader.Wide :=
    ⟨show canonicalCodecV1 < 2 ^ 8 by decide, show flagContiguousLsn < 2 ^ 16 by decide, hw.segmentId, hw.createdHlc, hw.firstLsn, hw.writerEpoch, hw.storageNamespaceId⟩
  obtain ⟨reader, hopen⟩ := h.opens
  obtain ⟨hs, hopens⟩ := serves_of_open h.layout hw.storageNamespaceId (wide_groups h.records hwide) h16 h64
    (fileSource_holds _) hopen
  have hreader : reader.header = scan.init.packedHeader := by
    have hdecode := FileHeaderV6.decode_encode hpacked []
    rw [List.append_nil, hopens.header] at hdecode
    exact Except.ok.inj hdecode
  have hhead : readHead target = .ok .packed := by
    rw [h.layout.file]
    exact readHead_of_decode (FileHeaderV6.decode_encode hpacked _)
  refine ⟨_, hs.ceiling m, ?_⟩
  unfold proveLsn
  rw [hhead]
  dsimp only [bind, Except.bind]
  rw [open_ceiling hopen m]
  dsimp only
  have hfinish : ∀ hashed : Hashed,
      finishProof blake3 lsn hashed reader.footer reader.header.segmentId reader.header.storageNamespaceId
        = finishProof blake3 lsn hashed rawFooter scan.header.segmentId scan.header.storageNamespaceId := by
    intro hashed
    rw [hreader, hopens.footer]
    refine finishProof_congr h.footerRoot ?_ ?_ ?_
    · rw [FooterV6.narrow, h.footerMin]
      exact Nat.mod_eq_of_lt hwf.minLsn
    · rw [FooterV6.narrow, h.footerMax]
      exact Nat.mod_eq_of_lt hwf.maxLsn
    · rw [FooterV6.narrow, h.footerCount]
      exact Nat.mod_eq_of_lt hwf.recordCount
  simp only [hfinish]

/-- **What is proved** of an LSN. -/
theorem finishProof_ok (lsn : Nat) {hashed : Hashed} (hhashes : hashed.1 = hashes)
    (hlocated : Located hasher lsn scan.records hashed) (segmentId : Nat) (namespaceId : Bytes) :
    ∃ found, finishProof blake3 lsn hashed rawFooter segmentId namespaceId = .ok found ∧
      (found = none ↔ ∀ r ∈ scan.records, r.lsn ≠ lsn) ∧
      ∀ p, found = some p → p.verify blake3 = true ∧ p.logicalRoot = rawFooter.logicalRoot ∧
        ∃ r ∈ scan.records, r.lsn = lsn ∧ hasher r.lsn r.hlc r.payload = .ok p.canonicalRecordHash := by
  unfold finishProof
  cases hindex : hashed.2 with
  | none => exact ⟨none, rfl, ⟨fun _ => hlocated.absent.1 hindex, fun _ => rfl⟩, fun p hp => by cases hp⟩
  | some j =>
    obtain ⟨r, hr, hlsn, hash, hget, hhash⟩ := hlocated.present j hindex
    have hlen : hashes.length < 2 ^ 64 := by
      obtain ⟨-, -, -, hfooter⟩ := scanRawBytes_wide h.scanned
      rw [← h.hashed.length_eq, h.count]
      exact (hfooter rawFooter h.sealed_).recordCount
    have hbuild : buildInclusionProof blake3 hashed.1 j = some {
        leafIndex := j, leafCount := hashed.1.length
        path := levelLoop blake3 hashed.1.length (hashed.1.map (merkleLeaf blake3)) j [] } :=
      if_neg (Nat.not_le.2 (List.getElem?_eq_some_iff.1 hget).1)
    dsimp only
    rw [hbuild, hget]
    refine ⟨_, rfl, ⟨fun hnone => (by cases hnone), fun hall => absurd hlsn (hall r hr)⟩, ?_⟩
    intro p hp
    cases hp
    rw [hhashes] at hbuild hget
    have hverify := verify_honest hlen rfl hbuild hget rfl
    rw [h.root] at hverify
    refine ⟨?_, rfl, r, hr, hlsn, hhash⟩
    rw [LsnProof.verify, Bool.and_eq_true, hhashes]
    exact ⟨hverify, beq_self_eq_true _⟩

end Proofs

/-- **Proofs do not depend on the layout.**  Where the ceiling of the reader is below that of the pack, the PACKED segment may
be refused, and else the answer is the same. -/
theorem proofs_agree (hcodecs : codecs.Inverse) (h16 : opts.restartInterval < 2 ^ 16) {source target : Bytes} {footer : FooterV6}
    (hpack : Packer.packSegment codecs blake3 hasher source opts = .ok (footer, target)) (h64 : target.length < 2 ^ 64) :
    ∃ scan rawFooter, scanRawBytes source = .ok scan ∧ scan.footer = some rawFooter ∧ ∀ lsn, ∃ found,
      (∀ maxBlock, proveLsn codecs blake3 hasher source lsn maxBlock = .ok found) ∧
      (∀ maxBlock, min opts.maxBlockBytes hardMaxBlockBytes ≤ maxBlock →
        proveLsn codecs blake3 hasher target lsn maxBlock = .ok found) ∧
      (∀ maxBlock found', proveLsn codecs blake3 hasher target lsn maxBlock = .ok found' → found' = found) ∧
      (found = none ↔ ∀ r ∈ scan.records, r.lsn ≠ lsn) ∧
      ∀ p, found = some p → p.verify blake3 = true ∧ p.logicalRoot = rawFooter.logicalRoot ∧
        ∃ r ∈ scan.records, r.lsn = lsn ∧ hasher r.lsn r.hlc r.payload = .ok p.canonicalRecordHash := by
  obtain ⟨scan, rawFooter, hashes, gs, h⟩ := packSegment_ok hcodecs h16 hpack h64
  refine ⟨scan, rawFooter, h.scanned, h.sealed_, fun lsn => ?_⟩
  have hnone : Located hasher lsn [] ([], none) := ⟨⟨fun _ r hr => (by cases hr), fun _ => rfl⟩, fun j hj => by cases hj⟩
  obtain ⟨hashed, hrun, hhashes, hlocated⟩ := hashRaw_ok h.hashed rfl hnone
  obtain ⟨found, hfinish, hfound⟩ := finishProof_ok h lsn hhashes hlocated scan.header.segmentId scan.header.storageNamespaceId
  have hfold : (recordsIn gs).foldlM (hashPacked hasher lsn) ([], none) = .ok hashed := by
    rw [h.records, foldlM_hashPacked]
    exact hrun
  refine ⟨found, fun m => ?_, fun m hm => ?_, fun m found' hfound' => ?_, hfound⟩
  · rw [proveRaw_eq h]
    have hrun' : hashRaw hasher lsn 0 ([], none) scan.records = .ok hashed := hrun
    rw [hrun']
    exact hfinish
  · obtain ⟨reader, hs, hprove⟩ := provePacked_eq h h16 h64 lsn m
    rw [hprove, forEachRecord_eq hs _ _ (fun g hg => ?_), hfold]
    · exact hfinish
    · obtain ⟨body, hread⟩ := h.readable g hg
      have hceiling := decompressBlock_ceiling hread.restored
      exact ⟨body, hread.ceiling (by omega)⟩
  · obtain ⟨reader, hs, hprove⟩ := provePacked_eq h h16 h64 lsn m
    rw [hprove] at hfound'
    obtain ⟨hashed', hrun', hfinish'⟩ := ok_of_bind hfound'
    cases (forEachRecord_ok hcodecs hs hrun').2.symm.trans hfold
    exact Except.ok.inj (hfinish'.symm.trans hfinish)

/-! ## A segment with a gap -/

def gapHasher : CanonicalHasher := fun lsn _ _ =>
  .ok (if lsn = 5 then Digest.replicate 1 else if lsn = 7 then Digest.replicate 2 else Digest.replicate 3)

def gapWriter : RawSegmentWriter :=
  (gapRecords.zip proofHashes).foldl (fun w r => w.record proofBlake3 r.1.lsn r.1.hlc r.1.size r.2) (.fresh gapInit.header)

def gapSource : Bytes := gapInit.header.encode ++ (encodeRecords gapRecords ++ (gapWriter.footer proofBlake3).encode)

set_option maxRecDepth 20000 in
theorem proofs_agree_sample : ∃ footer target,
    Packer.packSegment literalCodecs proofBlake3 gapHasher gapSource gapOptions = .ok (footer, target) ∧
    ∃ scan rawFooter, scanRawBytes gapSource = .ok scan ∧ scan.footer = some rawFooter ∧ ∀ lsn, ∃ found,
      (∀ maxBlock, proveLsn literalCodecs proofBlake3 gapHasher gapSource lsn maxBlock = .ok found) ∧
      (∀ maxBlock, min gapOptions.maxBlockBytes hardMaxBlockBytes ≤ maxBlock →
        proveLsn literalCodecs proofBlake3 gapHasher target lsn maxBlock = .ok found) ∧
      (∀ maxBlock found', proveLsn literalCodecs proofBlake3 gapHasher target lsn maxBlock = .ok found' → found' = found) ∧
      (found = none ↔ ∀ r ∈ scan.records, r.lsn ≠ lsn) ∧
      ∀ p, found = some p → p.verify proofBlake3 = true ∧ p.logicalRoot = rawFooter.logicalRoot ∧
        ∃ r ∈ scan.records, r.lsn = lsn ∧ gapHasher r.lsn r.hlc r.payload = .ok p.canonicalRecordHash := by
  have hrun : (Packer.packSegment literalCodecs proofBlake3 gapHasher gapSource gapOptions).toOption.map
      (fun x => decide (x.2.length < 2 ^ 64)) = some true := by decide +kernel
  obtain ⟨⟨footer, target⟩, hpack, hlen⟩ := Option.map_eq_some_iff.1 hrun
  have hpack := Except.toOption_eq_some hpack
  exact ⟨footer, target, hpack, proofs_agree literalCodecs_inverse (by decide) hpack (of_decide_eq_true hlen)⟩

end V6
end Heraclitus
