import Heraclitus.V6Steps
/-!
# V6Steady — a log between two calls, and what a crash may find

`Steady` is the invariant of a log that works: the history is the sealed segments and the segment that is written to, which
the active file holds and the writer knows.  `Leaves` is what is left when a process dies: a directory of the same history.
-/
namespace Heraclitus
namespace V6

/-! ## The active file, with and without the footer -/

namespace Segment

variable {env : Env} {g : Segment} {ns : Bytes} {id lsn : Nat}

theorem bytes_eq (g : Segment) : g.bytes env = g.open_ ++ (g.footer env).encode := (List.append_assoc _ _ _).symm

theorem Valid.length_open (h : g.Valid env ns id lsn) : g.open_.length = g.bodyLen := by
  rw [open_, List.length_append, h.length_header, length_encodeRecords, bodyLen]

theorem Valid.take_bodyLen (h : g.Valid env ns id lsn) : (g.bytes env).take g.bodyLen = g.open_ := by
  rw [g.bytes_eq, List.take_left' h.length_open]

theorem Valid.take_footer (h : g.Valid env ns id lsn) (part : Nat) :
    g.open_ ++ (g.footer env).encode.take part = (g.bytes env).take (g.bodyLen + part) := by
  rw [g.bytes_eq, ← h.length_open, List.take_length_add_append]

@[simp] theorem writer_header (g : Segment) : (g.writer env).header = g.header := written_header g.header g.records

@[simp] theorem writer_recordCount (g : Segment) : (g.writer env).recordCount = g.records.length :=
  written_recordCount g.header g.records

@[simp] theorem writer_bytesWritten (g : Segment) : (g.writer env).bytesWritten = g.bodyLen :=
  written_bytesWritten g.header g.records

/-- The segment with one more record. -/
def concat (g : Segment) (r : RawRecord) : Segment := { g with records := g.records ++ [r] }

theorem open_concat (g : Segment) (r : RawRecord) : (g.concat r).open_ = g.open_ ++ r.encode := by
  rw [open_, open_, concat, encodeRecords_append, encodeRecords_cons, encodeRecords_nil, List.append_nil, List.append_assoc]

theorem bodyLen_concat (g : Segment) (r : RawRecord) : (g.concat r).bodyLen = g.bodyLen + r.size := by
  simp [bodyLen, concat, Nat.add_assoc]

theorem Valid.take_record (h : g.Valid env ns id lsn) (r : RawRecord) {part : Nat} (hpart : part ≤ r.size) :
    g.open_ ++ r.encode.take part = ((g.concat r).bytes env).take (g.bodyLen + part) := by
  rw [Segment.bytes_eq, open_concat, List.append_assoc, ← h.length_open, List.take_length_add_append,
    List.take_append_of_le_length (by rw [r.length_encode]; exact hpart)]

end Segment

/-! ## What a crash may find -/

variable (env : Env)

def restRecords (rest : Option Rest) : List RawRecord := rest.elim [] (fun r => r.segment.records)

/-- The file has its footer. -/
def Rest.complete (rest : Rest) : Bool := rest.size == (rest.segment.bytes env).length

/-- The segments that opening registers. -/
def uncatalogued (segs : List Segment) (k : Nat) (rest : Option Rest) : List Segment :=
  segs.drop k ++ (rest.filter (Rest.complete env)).toList.map Rest.segment

/-- The descriptors of the manifest that opening loads. -/
def Disk.descriptors (d : Disk) : List SegmentDescriptorV2 := d.load.elim [] (·.segmentsV2)

/-- What opening has to commit, if anything, fits into a manifest. -/
def Fitting (d : Disk) (segs : List Segment) (k : Nat) (rest : Option Rest) : Prop :=
  uncatalogued env segs k rest ≠ [] →
    encodeManifest { segmentsV2 := d.descriptors ++ (uncatalogued env segs k rest).map (rawDescriptor env) } = .ok ()

/-- No crash takes the first `n` records. -/
def Safe (n : Nat) (segs : List Segment) : Option Rest → Prop
  | none => n ≤ (recordsOf segs).length
  | some r => n ≤ (recordsOf segs).length ∨ n - (recordsOf segs).length ≤ r.segment.records.length ∧
      fileHeaderLen + sizes (r.segment.records.take (n - (recordsOf segs).length)) ≤ r.low

/-- **What a process leaves when it dies**: a directory of the history, of which `synced` records are safe. -/
structure Leaves (ns : Bytes) (hist : List RawRecord) (synced : Nat) (fits : Prop) (d : Disk) (segs : List Segment) (k : Nat)
    (rest : Option Rest) : Prop where
  wreck : Wreck env ns segs k rest d
  hist : recordsOf segs ++ restRecords rest = hist
  safe : Safe synced segs rest
  fitting : fits → Fitting env d segs k rest

/-! ## Between two calls -/

/-- **The log works.** -/
structure Steady (ns : Bytes) (segs : List Segment) (g : Segment) (low : Nat) (s : State) : Prop where
  wreck : Wreck env ns segs segs.length (some ⟨g, low, g.bodyLen⟩) s.disk
  catalogue : Catalogued env s.disk ns segs s.manifest
  active : s.active = some ⟨segs.length, g.writer env⟩
  head : s.nextLsn = (recordsOf segs).length + g.records.length

/-- The manifest on the disk lists what the one in memory lists. -/
def InSync (s : State) : Prop := s.disk.descriptors = s.manifest.segmentsV2

/-- The catalogue with the active segment, if it were sealed now.  How long it is does not depend on the digest. -/
def State.sealing (s : State) : Option DatabaseManifest :=
  (s.active.filter (fun a => decide (0 < a.writer.recordCount))).map (fun a =>
    let footer := a.writer.footer env.blake3
    { s.manifest with segmentsV2 := s.manifest.segmentsV2 ++ [sealedDescriptor a.id footer a.writer.header.canonicalCodec
        (rawLocation a.id) (a.writer.bytesWritten + footerLen) (Digest.replicate 0) footer.maxHlc] })

/-- The active segment can be sealed: the catalogue with it fits into a manifest. -/
def State.fits (s : State) : Bool := (s.sealing env).all (fun m => (encodeManifest m).isOk)

variable {env} {ns : Bytes} {segs : List Segment} {g : Segment} {low : Nat} {s : State}

namespace Steady

variable (h : Steady env ns segs g low s)
include h

theorem valid : g.Valid env ns segs.length (recordsOf segs).length := h.wreck.active.valid

/-- **The active file** holds the header and the records. -/
theorem file : ∃ f, s.disk.active.entries = [(segs.length, f)] ∧ f.data = g.open_ ∧ low ≤ f.durable ∧
    f.durable ≤ g.bodyLen := by
  obtain ⟨f, hentries, hdata, hlow, hdurable⟩ := h.wreck.active.file
  exact ⟨f, hentries, hdata.trans h.valid.take_bodyLen, hlow, hdurable⟩

theorem nextExpectedLsn : (g.writer env).nextExpectedLsn = s.nextLsn := by
  have hnext : (g.writer env).nextExpectedLsn = g.header.firstLsn + g.records.length :=
    written_nextExpectedLsn h.valid.numbered' h.valid.bound'
  rw [hnext, h.head, h.valid.firstLsn]

/-- The manifest with the active segment has the length that was foreseen. -/
theorem fits_sealed (hfits : s.fits env = true) (hne : g.records ≠ []) (m : DatabaseManifest)
    (hm : m.segmentsV2 = s.manifest.segmentsV2 ++ [rawDescriptor env g]) : encodeManifest m = .ok () := by
  have hsealing : s.sealing env = some { s.manifest with segmentsV2 := s.manifest.segmentsV2 ++
      [sealedDescriptor segs.length (g.footer env) g.header.canonicalCodec (rawLocation segs.length)
        (g.bodyLen + footerLen) (Digest.replicate 0) (g.footer env).maxHlc] } := by
    have hcount : decide (0 < (g.writer env).recordCount) = true := by
      rw [Segment.writer_recordCount, decide_eq_true_eq]
      exact List.length_pos_iff.2 hne
    rw [State.sealing, h.active, Option.filter_some, if_pos hcount, Option.map_some]
    dsimp only
    rw [Segment.writer_header, Segment.writer_bytesWritten]
    rfl
  have hlen : segmentLen (sealedDescriptor segs.length (g.footer env) g.header.canonicalCodec (rawLocation segs.length)
      (g.bodyLen + footerLen) (Digest.replicate 0) (g.footer env).maxHlc)
      = segmentLen (rawDescriptor env g) := by
    rw [rawDescriptor, h.valid.segmentId, h.valid.length_bytes]
    rfl
  have hok : encodeManifest { s.manifest with segmentsV2 := s.manifest.segmentsV2 ++
      [sealedDescriptor segs.length (g.footer env) g.header.canonicalCodec (rawLocation segs.length)
        (g.bodyLen + footerLen) (Digest.replicate 0) (g.footer env).maxHlc] } = .ok () := by
    rw [State.fits, hsealing, Option.all_some] at hfits
    revert hfits
    generalize encodeManifest _ = x
    cases x with
    | ok u => exact fun _ => rfl
    | error e =>
      intro hfalse
      cases hfalse
  unfold encodeManifest at hok ⊢
  dsimp only at hok ⊢
  rw [List.length_append, List.map_append, List.map_singleton, hlen] at hok
  rw [hm, List.length_append, List.map_append, List.map_singleton]
  exact hok

/-- Nothing is lost that is not on the disk; nothing has to be registered. -/
theorem leaves {synced : Nat} (hsafe : Safe synced segs (some ⟨g, low, g.bodyLen⟩)) (fits : Prop) :
    Leaves env ns (recordsOf segs ++ g.records) synced fits s.disk segs segs.length (some ⟨g, low, g.bodyLen⟩) := by
  refine ⟨h.wreck, rfl, hsafe, fun _ hne => absurd ?_ hne⟩
  have hcomplete : Rest.complete env ⟨g, low, g.bodyLen⟩ = false := by
    have hlength := h.valid.length_bytes
    refine beq_false_of_ne (fun heq => ?_)
    have heq : g.bodyLen = (g.bytes env).length := heq
    simp only [footerLen] at hlength
    omega
  rw [uncatalogued, List.drop_length, Option.filter_some, hcomplete]
  rfl

end Steady

end V6
end Heraclitus
