import Heraclitus.Lib.Extrema
import Heraclitus.V6RawScan
/-!
# V6Writer — the writer of a RAW segment and its footer

What the writer keeps is a fold over the records; the footer it seals with is accepted by the scan, and resuming on the
file rebuilds the writer.
-/
namespace Heraclitus
namespace V6

/-- The records carry the LSNs from `n` on. -/
def Numbered : Nat → List RawRecord → Prop
  | _, [] => True
  | n, r :: rs => r.lsn = n ∧ Numbered (n + 1) rs

theorem numbered_append : ∀ {rs ss : List RawRecord} {n : Nat},
    Numbered n (rs ++ ss) ↔ Numbered n rs ∧ Numbered (n + rs.length) ss
  | [], ss, n => by simp [Numbered]
  | r :: rs, ss, n => by
    simp only [List.cons_append, Numbered, List.length_cons, numbered_append, and_assoc]
    rw [Nat.add_assoc n 1, Nat.add_comm 1]

theorem Numbered.getElem? : ∀ {rs : List RawRecord} {n i : Nat} {r : RawRecord}, Numbered n rs → rs[i]? = some r →
    r.lsn = n + i
  | _ :: _, n, 0, _, h, hi => by
    cases hi
    exact h.1
  | _ :: rs, n, i + 1, r, h, hi => by
    rw [List.getElem?_cons_succ] at hi
    rw [h.2.getElem? hi]
    omega

theorem Numbered.le_lsn {rs : List RawRecord} {n : Nat} (h : Numbered n rs) :
    ∀ r ∈ rs, n ≤ r.lsn ∧ r.lsn < n + rs.length := by
  intro r hr
  obtain ⟨i, hi⟩ := List.mem_iff_getElem?.1 hr
  have := (List.getElem?_eq_some_iff.1 hi).1
  rw [h.getElem? hi]
  omega

theorem Numbered.consecutive : ∀ {rs : List RawRecord} {n : Nat}, Numbered n rs → n + rs.length ≤ 2 ^ 64 →
    consecutive (rs.map RawRecord.lsn) = true
  | [], _, _, _ => rfl
  | [_], _, _, _ => rfl
  | r :: q :: rs, n, h, hn => by
    obtain ⟨hr, hq, hrs⟩ := h
    have hrec : V6.consecutive ((q :: rs).map RawRecord.lsn) = true :=
      Numbered.consecutive (n := n + 1) ⟨hq, hrs⟩ (by simp at hn ⊢; omega)
    simp only [List.map_cons, V6.consecutive] at hrec ⊢
    rw [hrec, hq, hr, satAdd64, u64Max]
    simp at hn ⊢
    omega

variable (blake3 : Bytes → Digest) (hashOf : RawRecord → Digest)

/-- The writer that created a segment and appended the records. -/
def written (h : FileHeaderV6) (rs : List RawRecord) : RawSegmentWriter :=
  rs.foldl (fun w r => w.record blake3 r.lsn r.hlc r.size (hashOf r)) (.fresh h)

theorem written_concat (h : FileHeaderV6) (rs : List RawRecord) (r : RawRecord) :
    written blake3 hashOf h (rs ++ [r])
      = (written blake3 hashOf h rs).record blake3 r.lsn r.hlc r.size (hashOf r) := by
  rw [written, List.foldl_append]
  rfl

/-- What a writer keeps of the records that it wrote after `w`. -/
structure Kept (w w' : RawSegmentWriter) (rs : List RawRecord) : Prop where
  header : w'.header = w.header
  acc : w'.acc = (rs.map hashOf).foldl (MerkleAccumulatorV1.pushRecordHash blake3) w.acc
  recordCount : w'.recordCount = w.recordCount + rs.length
  minLsn : w'.minLsn = (rs.map RawRecord.lsn).foldl min w.minLsn
  maxLsn : w'.maxLsn = (rs.map RawRecord.lsn).foldl max w.maxLsn
  minHlc : w'.minHlc = (rs.map RawRecord.hlc).foldl min w.minHlc
  maxHlc : w'.maxHlc = (rs.map RawRecord.hlc).foldl max w.maxHlc
  bytesWritten : w'.bytesWritten = w.bytesWritten + sizes rs

theorem kept_foldl : ∀ (rs : List RawRecord) (w : RawSegmentWriter),
    Kept blake3 hashOf w (rs.foldl (fun w r => w.record blake3 r.lsn r.hlc r.size (hashOf r)) w) rs
  | [], w => ⟨rfl, rfl, rfl, rfl, rfl, rfl, rfl, rfl⟩
  | r :: rs, w => by
    have h := kept_foldl rs (w.record blake3 r.lsn r.hlc r.size (hashOf r))
    refine ⟨h.header, h.acc, ?_, h.minLsn, h.maxLsn, h.minHlc, h.maxHlc, ?_⟩
    · rw [List.foldl_cons, h.recordCount]
      simp [RawSegmentWriter.record]
      omega
    · rw [List.foldl_cons, h.bytesWritten]
      simp [RawSegmentWriter.record]
      omega

variable {blake3 hashOf}

variable (blake3 hashOf) in
theorem kept_written (h : FileHeaderV6) (rs : List RawRecord) :
    Kept blake3 hashOf (.fresh h) (written blake3 hashOf h rs) rs := kept_foldl blake3 hashOf rs (.fresh h)

@[simp] theorem written_header (h : FileHeaderV6) (rs : List RawRecord) :
    (written blake3 hashOf h rs).header = h := (kept_written blake3 hashOf h rs).header

@[simp] theorem written_recordCount (h : FileHeaderV6) (rs : List RawRecord) :
    (written blake3 hashOf h rs).recordCount = rs.length := by
  rw [(kept_written blake3 hashOf h rs).recordCount]
  exact Nat.zero_add _

@[simp] theorem written_bytesWritten (h : FileHeaderV6) (rs : List RawRecord) :
    (written blake3 hashOf h rs).bytesWritten = fileHeaderLen + sizes rs := (kept_written blake3 hashOf h rs).bytesWritten

/-- **A writer of numbered records expects the next number** and finds them contiguous. -/
theorem foldl_numbered : ∀ {rs : List RawRecord} {w : RawSegmentWriter}, Numbered w.nextExpectedLsn rs →
    w.nextExpectedLsn + rs.length < 2 ^ 64 →
    (rs.foldl (fun w r => w.record blake3 r.lsn r.hlc r.size (hashOf r)) w).nextExpectedLsn
        = w.nextExpectedLsn + rs.length ∧
      (rs.foldl (fun w r => w.record blake3 r.lsn r.hlc r.size (hashOf r)) w).contiguous = w.contiguous
  | [], _, _, _ => ⟨rfl, rfl⟩
  | r :: rs, w, ⟨hr, hrs⟩, hw => by
    have hnext : (w.record blake3 r.lsn r.hlc r.size (hashOf r)).nextExpectedLsn = w.nextExpectedLsn + 1 := by
      simp only [RawSegmentWriter.record, satAdd64, u64Max, hr]
      simp at hw
      omega
    have hcontiguous : (w.record blake3 r.lsn r.hlc r.size (hashOf r)).contiguous = w.contiguous := by
      simp [RawSegmentWriter.record, hr]
    obtain ⟨h₁, h₂⟩ := foldl_numbered (w := w.record blake3 r.lsn r.hlc r.size (hashOf r)) (hnext ▸ hrs)
      (by rw [hnext]; simp at hw; omega)
    rw [List.foldl_cons, h₁, h₂, hnext, hcontiguous]
    exact ⟨by simp; omega, rfl⟩

section Numbered

variable {h : FileHeaderV6} {rs : List RawRecord} (hrs : Numbered h.firstLsn rs) (hlsn : h.firstLsn + rs.length < 2 ^ 64)
include hrs hlsn

theorem written_nextExpectedLsn : (written blake3 hashOf h rs).nextExpectedLsn = h.firstLsn + rs.length :=
  (foldl_numbered (w := .fresh h) hrs hlsn).1

theorem written_contiguous : (written blake3 hashOf h rs).contiguous = true :=
  (foldl_numbered (w := .fresh h) hrs hlsn).2

variable (blake3 hashOf) in
/-- The LSNs of a footer of numbered records. -/
theorem written_lsns (hne : rs ≠ []) : (written blake3 hashOf h rs).minLsn = h.firstLsn ∧
    (written blake3 hashOf h rs).maxLsn = h.firstLsn + (rs.length - 1) := by
  have hk := kept_written blake3 hashOf h rs
  have hpos := List.length_pos_iff.2 hne
  have hbounds : ∀ x ∈ rs.map RawRecord.lsn, h.firstLsn ≤ x ∧ x ≤ h.firstLsn + (rs.length - 1) := fun x hx => by
    obtain ⟨r, hr, rfl⟩ := List.mem_map.1 hx
    have := hrs.le_lsn r hr
    omega
  have hfirst : h.firstLsn ∈ rs.map RawRecord.lsn := by
    have h0 := hrs.getElem? (List.getElem?_eq_getElem hpos)
    exact List.mem_map.2 ⟨_, List.getElem_mem hpos, h0⟩
  have hlast : h.firstLsn + (rs.length - 1) ∈ rs.map RawRecord.lsn := by
    have hlt : rs.length - 1 < rs.length := by omega
    have h1 := hrs.getElem? (List.getElem?_eq_getElem hlt)
    exact List.mem_map.2 ⟨_, List.getElem_mem hlt, h1⟩
  have hmin : ∀ (l : List Nat) (m b : Nat), b ≤ m → (∀ x ∈ l, b ≤ x) → b ≤ l.foldl min m := by
    intro l
    induction l with
    | nil => exact fun m b hm _ => hm
    | cons x l ih =>
      intro m b hm hl
      rw [List.foldl_cons]
      refine ih _ b ?_ (fun y hy => hl y (List.mem_cons_of_mem _ hy))
      have := hl x List.mem_cons_self
      omega
  rw [hk.minLsn, hk.maxLsn]
  refine ⟨Nat.le_antisymm ((foldl_min_le _ _).2 _ hfirst) (hmin _ _ _ ?_ (fun x hx => (hbounds x hx).1)),
    Nat.le_antisymm (foldl_max_le _ _ (Nat.zero_le _) (fun x hx => (hbounds x hx).2)) ((le_foldl_max _ _).2 _ hlast)⟩
  show h.firstLsn ≤ u64Max
  unfold u64Max
  omega

variable (blake3 hashOf) in
/-- What the footer of numbered records declares. -/
theorem footer_written (hne : rs ≠ []) :
    ((written blake3 hashOf h rs).footer blake3).recordCount = rs.length ∧
    ((written blake3 hashOf h rs).footer blake3).minLsn = h.firstLsn ∧
    ((written blake3 hashOf h rs).footer blake3).maxLsn = h.firstLsn + (rs.length - 1) ∧
    ((written blake3 hashOf h rs).footer blake3).minHlc = minOf (rs.map RawRecord.hlc) ∧
    ((written blake3 hashOf h rs).footer blake3).maxHlc = maxOf (rs.map RawRecord.hlc) := by
  have hk := kept_written blake3 hashOf h rs
  have hcount : ¬rs.length = 0 := Nat.ne_of_gt (List.length_pos_iff.2 hne)
  obtain ⟨hminLsn, hmaxLsn⟩ := written_lsns blake3 hashOf hrs hlsn hne
  simp only [RawSegmentWriter.footer, written_recordCount, if_neg hcount, hminLsn, hmaxLsn, hk.minHlc, hk.maxHlc]
  exact ⟨trivial, trivial, trivial, rfl, rfl⟩

/-- **The footer of a writer seals its records.** -/
theorem seals_written (hwide : ∀ r ∈ rs, r.Wide) (hne : rs ≠ []) : ((written blake3 hashOf h rs).footer blake3).Seals rs := by
  have hpos := List.length_pos_iff.2 hne
  obtain ⟨hminLsn, hmaxLsn⟩ := written_lsns blake3 hashOf hrs hlsn hne
  obtain ⟨hcount, hmin, hmax, hminHlc, hmaxHlc⟩ := footer_written blake3 hashOf hrs hlsn hne
  have hflags : ((written blake3 hashOf h rs).footer blake3).flags < 4 := by
    simp only [RawSegmentWriter.footer, flagContiguousLsn, flagHasNonMonotonicHlc]
    split <;> split <;> omega
  have hcontiguous : ((written blake3 hashOf h rs).footer blake3).isContiguousLsn = true := by
    simp only [FooterV6.isContiguousLsn, RawSegmentWriter.footer, written_contiguous hrs hlsn, written_recordCount,
      flagContiguousLsn, flagHasNonMonotonicHlc, hpos, decide_true, Bool.and_self, if_true]
    split <;> rfl
  have hblocks : ((written blake3 hashOf h rs).footer blake3).blockCount = 0 ∧
      ((written blake3 hashOf h rs).footer blake3).blockDirectoryOffset = 0 ∧
      ((written blake3 hashOf h rs).footer blake3).blockDirectoryLen = 0 := ⟨rfl, rfl, rfl⟩
  generalize (written blake3 hashOf h rs).footer blake3 = f at *
  obtain ⟨hblockCount, hoffset, hdirLen⟩ := hblocks
  obtain ⟨r, hr⟩ := List.exists_mem_of_ne_nil rs hne
  have hhlc : f.minHlc ≤ f.maxHlc ∧ f.maxHlc < 2 ^ 64 := by
    have hle : f.minHlc ≤ r.hlc := hminHlc ▸ (foldl_min_le _ _).2 _ (List.mem_map_of_mem hr)
    have hge : r.hlc ≤ f.maxHlc := hmaxHlc ▸ (le_foldl_max _ _).2 _ (List.mem_map_of_mem hr)
    refine ⟨Nat.le_trans hle hge, ?_⟩
    have := foldl_max_le (b := 2 ^ 64 - 1) (rs.map RawRecord.hlc) 0 (Nat.zero_le _) (fun x hx => by
      obtain ⟨q, hq, rfl⟩ := List.mem_map.1 hx
      have := (hwide q hq).hlc
      omega)
    rw [hmaxHlc]
    exact Nat.lt_of_le_of_lt this (by decide)
  have hspan : f.lsnSpanIsContiguous = true := by
    unfold FooterV6.lsnSpanIsContiguous
    rw [hcount, hmin, hmax]
    simp
    omega
  have hcovers : f.recordCount ≤ satAdd64 (f.maxLsn - f.minLsn) 1 :=
    Nat.le_min.2 ⟨by omega, Nat.le_sub_one_of_lt (by omega)⟩
  refine ⟨⟨by omega, by omega, by omega, by omega, by omega, by omega, by omega, by omega, by omega⟩, ?_, ?_⟩
  · unfold FooterV6.checkCoherence
    dsimp only
    rw [if_neg (by omega), if_neg (by omega), if_neg (fun hor => absurd hor.2 (Nat.not_lt.2 hcovers)),
      if_neg (by rw [hblockCount]; exact Nat.not_lt_zero _), hdirLen, hblockCount, Nat.zero_mul,
      if_neg (fun hne => hne rfl)]
  · have hranges : (f.minLsn, f.maxLsn, f.minHlc, f.maxHlc) = (minOf (rs.map RawRecord.lsn), maxOf (rs.map RawRecord.lsn),
        minOf (rs.map RawRecord.hlc), maxOf (rs.map RawRecord.hlc)) := by
      have hk := kept_written blake3 hashOf h rs
      rw [hminHlc, hmaxHlc, hmin, hmax, ← hmaxLsn, ← hminLsn, hk.minLsn, hk.maxLsn]
      rfl
    unfold validateRawFooter
    dsimp only
    rw [if_neg (by omega), if_neg (by omega), if_neg hne, if_neg (fun hne => hne hranges), hspan,
      hrs.consecutive (by omega)]
    simp

end Numbered

/-! ## Reading the records back through the hasher -/

variable (blake3) in
theorem recomputeRoot_eq {hasher : CanonicalHasher} : ∀ {rs : List RawRecord} (acc : MerkleAccumulatorV1),
    (∀ r ∈ rs, hasher r.lsn r.hlc r.payload = .ok (hashOf r)) → recomputeRoot blake3 hasher acc rs
      = .ok (((rs.map hashOf).foldl (MerkleAccumulatorV1.pushRecordHash blake3) acc).finalize blake3)
  | [], _, _ => rfl
  | r :: rs, acc, h => by
    rw [recomputeRoot, h r List.mem_cons_self]
    exact recomputeRoot_eq _ (fun q hq => h q (List.mem_cons_of_mem r hq))

/-- The writer that `resume` rebuilds, before it counts the records and the bytes. -/
def RawSegmentWriter.uncounted (w : RawSegmentWriter) : RawSegmentWriter :=
  { w with recordCount := 0, bytesWritten := fileHeaderLen }

variable (blake3) in
theorem resumeRecords_eq {hasher : CanonicalHasher} : ∀ {rs : List RawRecord} {w : RawSegmentWriter},
    (∀ r ∈ rs, hasher r.lsn r.hlc r.payload = .ok (hashOf r)) → (w.recordCount = 0 → w.maxHlc = 0) →
    w.uncounted.resumeRecords blake3 hasher rs
      = .ok (rs.foldl (fun w r => w.record blake3 r.lsn r.hlc r.size (hashOf r)) w).uncounted
  | [], _, _, _ => rfl
  | r :: rs, w, h, hw => by
    have hone : w.uncounted.resumeRecord blake3 hasher r
        = .ok (w.record blake3 r.lsn r.hlc r.size (hashOf r)).uncounted := by
      unfold RawSegmentWriter.resumeRecord
      rw [h r List.mem_cons_self]
      -- the two tests for an earlier record agree
      have hmonotonic : (w.uncounted.maxHlc != 0 && decide (r.hlc < w.uncounted.maxHlc))
          = (decide (0 < w.recordCount) && decide (r.hlc < w.maxHlc)) := by
        show (w.maxHlc != 0 && decide (r.hlc < w.maxHlc)) = _
        by_cases hlt : r.hlc < w.maxHlc
        · have hcount : 0 < w.recordCount := Nat.pos_of_ne_zero (fun h0 => by
            have := hw h0
            omega)
          have hmax : w.maxHlc ≠ 0 := by omega
          simp [hlt, hcount, hmax]
        · simp [hlt]
      dsimp only
      rw [hmonotonic]
      rfl
    rw [RawSegmentWriter.resumeRecords, hone]
    exact resumeRecords_eq (fun q hq => h q (List.mem_cons_of_mem r hq)) (fun h0 => by
      simp [RawSegmentWriter.record] at h0)

/-- **Resuming rebuilds the writer** of an unsealed file. -/
theorem resume_eq {hasher : CanonicalHasher} {h : FileHeaderV6} {rs : List RawRecord} (hh : h.Raw)
    (hcodec : h.canonicalCodec = canonicalCodecV1) (hwide : ∀ r ∈ rs, r.Wide)
    (hhash : ∀ r ∈ rs, hasher r.lsn r.hlc r.payload = .ok (hashOf r)) :
    RawSegmentWriter.resume blake3 hasher (h.encode ++ encodeRecords rs) = .ok (written blake3 hashOf h rs) := by
  have hscan := scanRawBytes_eq hh hwide (.clean)
  rw [List.append_nil] at hscan
  have hrecords := resumeRecords_eq blake3 (w := .fresh h) hhash (fun _ => rfl)
  unfold RawSegmentWriter.resume
  rw [hscan]
  dsimp only
  rw [if_neg (by decide), if_neg (by decide), if_neg (fun hne => hne hcodec)]
  have hfresh : (RawSegmentWriter.fresh h).uncounted = .fresh h := rfl
  rw [← hfresh, hrecords]
  have hk := kept_written blake3 hashOf h rs
  have hcount : (written blake3 hashOf h rs).recordCount = rs.length := written_recordCount h rs
  have hbytes : (h.encode ++ encodeRecords rs).length = (written blake3 hashOf h rs).bytesWritten := by
    rw [List.length_append, FileHeaderV6.length_encode hh.wide.storageNamespaceId, length_encodeRecords,
      written_bytesWritten]
  dsimp only
  rw [hbytes, ← hcount]
  rfl

end V6
end Heraclitus
