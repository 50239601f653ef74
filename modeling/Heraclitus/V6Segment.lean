import Heraclitus.V6Open
import Heraclitus.V6Writer
/-!
# V6Segment — the segments of a history and their bytes

A segment is a header and records.  Sealed, its file is the header, the records and the footer that their writer makes; the
file that is still written to is a part of that.  A chain of segments is a history: ids and LSNs go on where the one before
ends.
-/
namespace Heraclitus
namespace V6

structure Segment where
  header : FileHeaderV6
  records : List RawRecord

/-- The records of a history, the one under LSN `n` at place `n`. -/
def recordsOf (segs : List Segment) : List RawRecord := segs.flatMap Segment.records

@[simp] theorem recordsOf_nil : recordsOf [] = [] := rfl

@[simp] theorem recordsOf_cons (g : Segment) (segs : List Segment) : recordsOf (g :: segs) = g.records ++ recordsOf segs :=
  List.flatMap_cons

@[simp] theorem recordsOf_append (segs segs' : List Segment) :
    recordsOf (segs ++ segs') = recordsOf segs ++ recordsOf segs' := List.flatMap_append

theorem recordsOf_concat (segs : List Segment) (g : Segment) : recordsOf (segs ++ [g]) = recordsOf segs ++ g.records := by
  rw [recordsOf_append, recordsOf_cons, recordsOf_nil, List.append_nil]

variable (env : Env)

/-- The canonical hash of a record that the log stores. -/
def hashOf (r : RawRecord) : Digest := (persistedHasher env r.lsn r.hlc r.payload).toOption.getD (Digest.replicate 0)

/-- The log accepts the record, and it can be read. -/
structure Stored (r : RawRecord) : Prop where
  wide : r.Wide
  decodes : ∃ stored, env.decodePayload r.payload = .ok stored

theorem Stored.hash {env : Env} {r : RawRecord} (h : Stored env r) :
    persistedHasher env r.lsn r.hlc r.payload = .ok (hashOf env r) := by
  obtain ⟨stored, hstored⟩ := h.decodes
  unfold hashOf persistedHasher
  rw [hstored]
  rfl

namespace Segment

variable (g : Segment)

def writer : RawSegmentWriter := written env.blake3 (hashOf env) g.header g.records

def footer : FooterV6 := (g.writer env).footer env.blake3

/-- The file of the sealed segment. -/
def bytes : Bytes := g.header.encode ++ (encodeRecords g.records ++ (g.footer env).encode)

/-- Where the footer begins. -/
def bodyLen : Nat := fileHeaderLen + sizes g.records

/-- A segment of the log that begins at `lsn`. -/
structure Valid (ns : Bytes) (id lsn : Nat) : Prop where
  raw : g.header.Raw
  codec : g.header.canonicalCodec = canonicalCodecV1
  segmentId : g.header.segmentId = id
  firstLsn : g.header.firstLsn = lsn
  namespaceId : g.header.storageNamespaceId = ns
  numbered : Numbered lsn g.records
  stored : ∀ r ∈ g.records, Stored env r
  bound : lsn + g.records.length < 2 ^ 64

end Segment

namespace Segment.Valid

variable {env} {g : Segment} {ns : Bytes} {id lsn : Nat} (h : g.Valid env ns id lsn)
include h

theorem wide : ∀ r ∈ g.records, r.Wide := fun r hr => (h.stored r hr).wide

theorem numbered' : Numbered g.header.firstLsn g.records := h.firstLsn ▸ h.numbered

theorem bound' : g.header.firstLsn + g.records.length < 2 ^ 64 := h.firstLsn ▸ h.bound

theorem length_header : g.header.encode.length = fileHeaderLen :=
  FileHeaderV6.length_encode h.raw.wide.storageNamespaceId

theorem id_lt : id < 2 ^ 64 := h.segmentId ▸ h.raw.wide.segmentId

theorem length_bytes : (g.bytes env).length = g.bodyLen + footerLen := by
  rw [Segment.bytes, List.length_append, List.length_append, h.length_header, length_encodeRecords,
    FooterV6.length_encode, Segment.bodyLen]
  omega

theorem seals (hne : g.records ≠ []) : (g.footer env).Seals g.records :=
  seals_written h.numbered' h.bound' h.wide hne

/-- **The scan of a sealed segment.** -/
theorem scan (hne : g.records ≠ []) : scanRawBytes (g.bytes env)
    = .ok { header := g.header, records := g.records, footer := some (g.footer env), tornAt := none } :=
  scanRawBytes_eq h.raw h.wide (.sealed_ (h.seals hne))

/-- **The scan of the file without its footer.** -/
theorem scan_open : scanRawBytes (g.header.encode ++ encodeRecords g.records)
    = .ok { header := g.header, records := g.records, footer := none, tornAt := none } := by
  have hscan := scanRawBytes_eq h.raw h.wide .clean
  rwa [List.append_nil] at hscan

omit h in
theorem footer_logicalRoot : (g.footer env).logicalRoot
    = ((g.records.map (hashOf env)).foldl (MerkleAccumulatorV1.pushRecordHash env.blake3) .new).finalize env.blake3 := by
  have hacc : (g.writer env).acc = _ := (kept_written env.blake3 (hashOf env) g.header g.records).acc
  show (g.writer env).acc.finalize env.blake3 = _
  rw [hacc]
  rfl

theorem recomputeRoot : recomputeRoot env.blake3 (persistedHasher env) .new g.records = .ok (g.footer env).logicalRoot := by
  rw [recomputeRoot_eq env.blake3 .new (fun r hr => (h.stored r hr).hash), footer_logicalRoot]

/-- **A sealed segment verifies.** -/
theorem verify (hne : g.records ≠ []) : verifyRaw env.blake3 (persistedHasher env) (g.bytes env) = .ok true := by
  unfold verifyRaw
  rw [h.scan hne]
  dsimp only
  rw [h.recomputeRoot]
  simp

/-- The header is read from any part of the file that holds it. -/
theorem readHeader {n : Nat} (hn : fileHeaderLen ≤ n) : readV6Header ((g.bytes env).take n) = .ok g.header := by
  have hlen : ¬((g.bytes env).take n).length < fileHeaderLen := by
    rw [List.length_take, h.length_bytes, Segment.bodyLen]
    omega
  have htake : ((g.bytes env).take n).take fileHeaderLen = g.header.encode := by
    rw [List.take_take, Nat.min_eq_left hn, Segment.bytes, List.take_left' h.length_header]
  have hdecode := FileHeaderV6.decode_encode h.raw.wide []
  rw [List.append_nil] at hdecode
  rw [readV6Header, if_neg hlen, htake, hdecode]

theorem readHeader_bytes : readV6Header (g.bytes env) = .ok g.header := by
  have h' := h.readHeader (n := (g.bytes env).length) (by rw [h.length_bytes, Segment.bodyLen]; omega)
  rwa [List.take_length] at h'

theorem checkHeaderIdentity : checkHeaderIdentity g.header id ns .raw = .ok () := by
  unfold V6.checkHeaderIdentity
  rw [if_neg]
  rintro (h' | h' | h' | h')
  · exact h' h.segmentId
  · exact h' h.namespaceId
  · exact h' h.raw.layout
  · exact h' h.codec

/-- **The footer of a sealed segment is read from its end.** -/
theorem readFooter (hne : g.records ≠ []) : readFooter (g.bytes env) = some (g.footer env) := by
  have hlen : ¬(g.bytes env).length < fileHeaderLen + footerLen := by
    rw [h.length_bytes, Segment.bodyLen]
    omega
  have hdrop : (g.bytes env).drop ((g.bytes env).length - footerLen) = (g.footer env).encode := by
    rw [h.length_bytes, Nat.add_sub_cancel, Segment.bytes, ← List.append_assoc]
    refine List.drop_left' ?_
    rw [List.length_append, h.length_header, length_encodeRecords, Segment.bodyLen]
  have hseals := h.seals hne
  have hdecode := FooterV6.decode_encode hseals.wide hseals.coherent []
  rw [List.append_nil] at hdecode
  rw [V6.readFooter, if_neg hlen, hdrop, hdecode]
  rfl

/-- What a segment keeps of its records from the `n`th byte on. -/
theorem take {w : Nat} : Segment.Valid env { g with records := g.records.take w } ns id lsn := by
  refine ⟨h.raw, h.codec, h.segmentId, h.firstLsn, h.namespaceId, ?_, fun r hr => h.stored r (List.mem_of_mem_take hr), ?_⟩
  · have hnumbered := h.numbered
    rw [← List.take_append_drop w g.records] at hnumbered
    exact (numbered_append.1 hnumbered).1
  · have := h.bound
    show lsn + (g.records.take w).length < 2 ^ 64
    rw [List.length_take]
    omega

/-- A record with the next LSN goes on. -/
theorem concat {r : RawRecord} (hlsn : r.lsn = lsn + g.records.length) (hr : Stored env r)
    (hbound : lsn + g.records.length + 1 < 2 ^ 64) :
    Segment.Valid env { g with records := g.records ++ [r] } ns id lsn := by
  refine ⟨h.raw, h.codec, h.segmentId, h.firstLsn, h.namespaceId, numbered_append.2 ⟨h.numbered, hlsn, trivial⟩,
    fun q hq => ?_, ?_⟩
  · rcases List.mem_append.1 hq with hq | hq
    · exact h.stored q hq
    · cases List.mem_singleton.1 hq
      exact hr
  · show lsn + (g.records ++ [r]).length < 2 ^ 64
    rw [List.length_append]
    exact hbound

end Segment.Valid

/-! ## Parts of a file -/

namespace Segment

variable {env} {g : Segment} {ns : Bytes} {id lsn : Nat}

/-- How many records are whole in the first `n` bytes. -/
def whole (g : Segment) (n : Nat) : Nat := wholeIn (n - fileHeaderLen) g.records

/-- The segment that the first `n` bytes hold. -/
def cut (g : Segment) (n : Nat) : Segment := { g with records := g.records.take (g.whole n) }

/-- The file without its footer. -/
def open_ (g : Segment) : Bytes := g.header.encode ++ encodeRecords g.records

/-- **A part of a file is whole records and a torn tail**, or no tail. -/
theorem Valid.take_bytes (h : g.Valid env ns id lsn) {n : Nat} (hn : fileHeaderLen ≤ n) (hlt : n < (g.bytes env).length) :
    ∃ tail, (g.bytes env).take n = g.header.encode ++ (encodeRecords (g.cut n).records ++ tail) ∧ (tail = [] ∨ Torn tail) := by
  have hbytes : (g.bytes env).take n
      = g.header.encode ++ (encodeRecords g.records ++ (g.footer env).encode).take (n - fileHeaderLen) := by
    rw [Segment.bytes, List.take_append, h.length_header, List.take_of_length_le (by rw [h.length_header]; exact hn)]
  rw [hbytes]
  rcases take_encodeRecords (g.footer env).encode g.records (n - fileHeaderLen) with ⟨r, m, hr, hm, heq⟩ | ⟨hall, heq⟩
  · refine ⟨r.encode.take m, by rw [heq]; rfl, ?_⟩
    by_cases hm0 : m = 0
    · exact .inl (by rw [hm0, List.take_zero])
    · exact .inr (torn_record r (h.wide r (List.mem_of_getElem? hr)).payload (Nat.pos_of_ne_zero hm0) hm)
  · refine ⟨(g.footer env).encode.take (n - fileHeaderLen - sizes g.records), ?_, ?_⟩
    · rw [heq]
      show _ = g.header.encode ++ (encodeRecords (g.records.take (g.whole n)) ++ _)
      rw [show g.whole n = g.records.length from hall, List.take_length]
    · by_cases hm0 : n - fileHeaderLen - sizes g.records = 0
      · exact .inl (by rw [hm0, List.take_zero])
      · refine .inr (torn_footer _ (Nat.pos_of_ne_zero hm0) ?_)
        rw [h.length_bytes, Segment.bodyLen] at hlt
        omega

/-- **Every record that ends before `n` is whole.** -/
theorem le_whole {k n : Nat} (hk : k ≤ g.records.length) (hn : fileHeaderLen + sizes (g.records.take k) ≤ n) :
    k ≤ g.whole n := le_wholeIn hk (by omega)

end Segment

/-! ## Chains -/

/-- Segments that follow each other, each with records. -/
def Chain (ns : Bytes) : Nat → Nat → List Segment → Prop
  | _, _, [] => True
  | id, lsn, g :: segs =>
    g.Valid env ns id lsn ∧ g.records ≠ [] ∧ Chain ns (id + 1) (lsn + g.records.length) segs

variable {env} {ns : Bytes}

theorem chain_append : ∀ {segs segs' : List Segment} {id lsn : Nat}, Chain env ns id lsn (segs ++ segs') ↔
    Chain env ns id lsn segs ∧ Chain env ns (id + segs.length) (lsn + (recordsOf segs).length) segs'
  | [], segs', id, lsn => by simp [Chain]
  | g :: segs, segs', id, lsn => by
    simp only [List.cons_append, Chain, chain_append, recordsOf_cons, List.length_append, List.length_cons]
    rw [Nat.add_assoc id 1, Nat.add_comm 1, Nat.add_assoc lsn]
    tauto

theorem Chain.concat {segs : List Segment} {g : Segment} (h : Chain env ns 0 0 segs)
    (hg : g.Valid env ns segs.length (recordsOf segs).length) (hne : g.records ≠ []) : Chain env ns 0 0 (segs ++ [g]) :=
  chain_append.2 ⟨h, by rw [Nat.zero_add, Nat.zero_add]; exact ⟨hg, hne, trivial⟩⟩

/-- **The segment at a place** of a chain. -/
theorem Chain.getElem? {segs : List Segment} (h : Chain env ns 0 0 segs) {j : Nat} {g : Segment} (hj : segs[j]? = some g) :
    g.Valid env ns j (recordsOf (segs.take j)).length ∧ g.records ≠ [] := by
  obtain ⟨hlt, rfl⟩ := List.getElem?_eq_some_iff.1 hj
  have hsplit : segs = segs.take j ++ segs[j] :: segs.drop (j + 1) := by
    rw [← List.drop_eq_getElem_cons hlt, List.take_append_drop]
  rw [hsplit] at h
  have hchain := (chain_append.1 h).2
  rw [Nat.zero_add, Nat.zero_add, List.length_take_of_le (Nat.le_of_lt hlt)] at hchain
  exact ⟨hchain.1, hchain.2.1⟩

theorem Chain.take {segs : List Segment} (h : Chain env ns 0 0 segs) (k : Nat) : Chain env ns 0 0 (segs.take k) := by
  rw [← List.take_append_drop k segs] at h
  exact (chain_append.1 h).1

/-- No segment is empty. -/
theorem Chain.length_le : ∀ {segs : List Segment} {id lsn : Nat}, Chain env ns id lsn segs →
    segs.length ≤ (recordsOf segs).length
  | [], _, _, _ => Nat.le_refl _
  | g :: segs, id, lsn, ⟨_, hne, hsegs⟩ => by
    have := hsegs.length_le
    have := List.length_pos_iff.2 hne
    rw [recordsOf_cons, List.length_append, List.length_cons]
    omega

end V6
end Heraclitus
