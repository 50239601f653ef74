import Heraclitus.V6Writer
/-!
# V6RawFile — a RAW segment while it is written (`heraclitus-log/src/v6/raw.rs`)

The writer with the file that it holds open, and what a scan finds in the file when it is cut anywhere behind its header.
The writer takes records of any LSNs; a footer is refused that declares more of them than LSNs lie in its range.
-/
namespace Heraclitus
namespace V6

/-- A `RawSegmentWriter` and the bytes of its file. -/
structure OpenSegment where
  writer : RawSegmentWriter
  file : Bytes
  deriving DecidableEq

def OpenSegment.create (init : SegmentInit) : OpenSegment := { writer := .fresh init.header, file := init.header.encode }

section Calls

variable (blake3 : Bytes → Digest)

def OpenSegment.append (s : OpenSegment) (r : RawRecord) (canonicalRecordHash : Digest) : Except HeraclitusError OpenSegment :=
  if hardMaxRecordBytes < r.payload.length then .error (corrupt "hrkl v6 raw writer" "record exceeds hard maximum")
  else .ok {
    writer := s.writer.record blake3 r.lsn r.hlc r.encode.length canonicalRecordHash
    file := s.file ++ r.encode }

/-- The appends of a list of records under their hashes. -/
def OpenSegment.appendAll : OpenSegment → List (RawRecord × Digest) → Except HeraclitusError OpenSegment
  | s, [] => .ok s
  | s, (r, hash) :: rest =>
    match s.append blake3 r hash with
    | .error e => .error e
    | .ok s => s.appendAll rest

/-- The footer that `seal` returns, and the file that it leaves. -/
def OpenSegment.seal (s : OpenSegment) : FooterV6 × Bytes :=
  (s.writer.footer blake3, s.file ++ (s.writer.footer blake3).encode)

end Calls

/-! ## What the writer keeps -/

/-- Do the LSNs run on from `n`?  Behind the last `u64` it is expected again. -/
def follows : Nat → List Nat → Bool
  | _, [] => true
  | n, a :: l => a == n && follows (satAdd64 a 1) l

/-- The LSN that is expected behind these. -/
def nextAfter : Nat → List Nat → Nat
  | n, [] => n
  | _, a :: l => nextAfter (satAdd64 a 1) l

theorem nextAfter_concat : ∀ (l : List Nat) (n a : Nat), nextAfter n (l ++ [a]) = satAdd64 a 1
  | [], _, _ => rfl
  | _ :: l, _, a => nextAfter_concat l _ a

theorem follows_concat : ∀ (l : List Nat) (n a : Nat), follows n (l ++ [a]) = (follows n l && a == nextAfter n l)
  | [], n, a => by simp [follows, nextAfter]
  | b :: l, n, a => by
    rw [List.cons_append, follows, follows_concat l, follows, nextAfter, Bool.and_assoc]

theorem consecutive_of_follows : ∀ {l : List Nat} {n : Nat}, follows n l = true → consecutive l = true
  | [], _, _ => rfl
  | [_], _, _ => rfl
  | a :: b :: l, n, h => by
    rw [follows, Bool.and_eq_true] at h
    have hb := h.2
    rw [follows, Bool.and_eq_true] at hb
    rw [consecutive, hb.1, consecutive_of_follows h.2]
    rfl

/-- **LSNs that run on** begin where they are expected to and do not leave their number behind. -/
theorem bounds_of_follows : ∀ {l : List Nat} {n : Nat}, follows n l = true → (∀ x ∈ l, x ≤ u64Max) →
    (∀ x ∈ l, n ≤ x ∧ x + 1 ≤ n + l.length) ∧ (l ≠ [] → n ∈ l)
  | [], n, _, _ => ⟨fun x hx => absurd hx List.not_mem_nil, fun h => absurd rfl h⟩
  | a :: l, n, h, hmax => by
    rw [follows, Bool.and_eq_true, beq_iff_eq] at h
    obtain ⟨rfl, hl⟩ := h
    have ha := hmax a List.mem_cons_self
    obtain ⟨hbounds, -⟩ := bounds_of_follows hl (fun x hx => hmax x (List.mem_cons_of_mem a hx))
    refine ⟨fun x hx => ?_, fun _ => List.mem_cons_self⟩
    rw [List.length_cons]
    rcases List.mem_cons.1 hx with rfl | hx
    · omega
    · have hx := hbounds x hx
      unfold satAdd64 at hx
      omega

theorem minOf_concat (l : List Nat) (a : Nat) : minOf (l ++ [a]) = min (minOf l) a := by
  rw [minOf, List.foldl_append]
  rfl

theorem maxOf_concat (l : List Nat) (a : Nat) : maxOf (l ++ [a]) = max (maxOf l) a := by
  rw [maxOf, List.foldl_append]
  rfl

variable {blake3 : Bytes → Digest}

/-- **What is open after these appends**: the file, and what the footer will need. -/
structure OpenSegment.Holds (s : OpenSegment) (init : SegmentInit) (rs : List RawRecord) : Prop where
  file : s.file = init.header.encode ++ encodeRecords rs
  recordCount : s.writer.recordCount = rs.length
  minLsn : s.writer.minLsn = minOf (rs.map RawRecord.lsn)
  maxLsn : s.writer.maxLsn = maxOf (rs.map RawRecord.lsn)
  minHlc : s.writer.minHlc = minOf (rs.map RawRecord.hlc)
  maxHlc : s.writer.maxHlc = maxOf (rs.map RawRecord.hlc)
  nextExpectedLsn : s.writer.nextExpectedLsn = nextAfter init.firstLsn (rs.map RawRecord.lsn)
  contiguous : s.writer.contiguous = follows init.firstLsn (rs.map RawRecord.lsn)
  payload : ∀ r ∈ rs, r.payload.length ≤ hardMaxRecordBytes

theorem holds_create (init : SegmentInit) : (OpenSegment.create init).Holds init [] :=
  ⟨(List.append_nil _).symm, rfl, rfl, rfl, rfl, rfl, rfl, rfl, fun r hr => by cases hr⟩

theorem satAdd64_lt_iff {a n : Nat} (hn : n < 2 ^ 64) : satAdd64 a 1 < n ↔ a + 1 < n := by
  have hmax : ¬u64Max < n := Nat.not_lt.2 (Nat.le_sub_one_of_lt hn)
  constructor
  · intro h
    by_contra hle
    exact absurd h (Nat.not_lt.2 (Nat.le_min.2 ⟨Nat.not_lt.1 hle, Nat.not_lt.1 hmax⟩))
  · exact fun h => Nat.lt_of_le_of_lt (Nat.min_le_left _ _) h

section Holds

variable {init : SegmentInit} {rs : List RawRecord} {s s' : OpenSegment}

/-- **An append keeps what is held**, with the record behind the others. -/
theorem OpenSegment.Holds.append (h : s.Holds init rs) {r : RawRecord} {hash : Digest} (happend : s.append blake3 r hash = .ok s') :
    s'.Holds init (rs ++ [r]) := by
  unfold OpenSegment.append at happend
  split at happend
  · cases happend
  · rename_i hlen
    cases happend
    refine ⟨?_, ?_, ?_, ?_, ?_, ?_, ?_, ?_, ?_⟩
    · show s.file ++ r.encode = _
      rw [h.file, encodeRecords_append]
      simp
    · show s.writer.recordCount + 1 = _
      rw [h.recordCount, List.length_append]
      rfl
    · show min s.writer.minLsn r.lsn = _
      rw [h.minLsn, List.map_append]
      exact (minOf_concat _ _).symm
    · show max s.writer.maxLsn r.lsn = _
      rw [h.maxLsn, List.map_append]
      exact (maxOf_concat _ _).symm
    · show min s.writer.minHlc r.hlc = _
      rw [h.minHlc, List.map_append]
      exact (minOf_concat _ _).symm
    · show max s.writer.maxHlc r.hlc = _
      rw [h.maxHlc, List.map_append]
      exact (maxOf_concat _ _).symm
    · show satAdd64 r.lsn 1 = _
      rw [List.map_append]
      exact (nextAfter_concat _ _ _).symm
    · show (s.writer.contiguous && r.lsn == s.writer.nextExpectedLsn) = _
      rw [h.contiguous, h.nextExpectedLsn, List.map_append]
      exact (follows_concat _ _ _).symm
    · intro q hq
      rcases List.mem_append.1 hq with hq | hq
      · exact h.payload q hq
      · cases List.mem_singleton.1 hq
        exact Nat.not_lt.1 hlen

theorem OpenSegment.Holds.appendAll : ∀ {records : List (RawRecord × Digest)} {s s' : OpenSegment} {rs : List RawRecord},
    s.Holds init rs → s.appendAll blake3 records = .ok s' → s'.Holds init (rs ++ records.map Prod.fst)
  | [], s, s', rs, h, hall => by
    cases hall
    rwa [List.map_nil, List.append_nil]
  | (r, hash) :: records, s, s', rs, h, hall => by
    rw [OpenSegment.appendAll] at hall
    split at hall
    · cases hall
    · rename_i t happend
      have hrest := (h.append happend).appendAll hall
      rwa [List.append_assoc, List.singleton_append] at hrest

/-- The LSNs leave room for the number of records that a footer declares. -/
def Spread (rs : List RawRecord) : Prop :=
  rs = [] ∨ rs.length ≤ maxOf (rs.map RawRecord.lsn) - minOf (rs.map RawRecord.lsn) + 1

instance (rs : List RawRecord) : Decidable (Spread rs) := inferInstanceAs (Decidable (_ ∨ _))

theorem minOf_le_maxOf {l : List Nat} (hne : l ≠ []) : minOf l ≤ maxOf l := by
  obtain ⟨x, hx⟩ := List.exists_mem_of_ne_nil l hne
  exact Nat.le_trans ((foldl_min_le l u64Max).2 x hx) ((le_foldl_max l 0).2 x hx)

theorem maxOf_le {l : List Nat} (h : ∀ x ∈ l, x < 2 ^ 64) : maxOf l ≤ u64Max :=
  foldl_max_le l 0 (Nat.zero_le _) (fun x hx => Nat.le_sub_one_of_lt (h x hx))

/-- What the footer declares. -/
theorem OpenSegment.Holds.footer (h : s.Holds init rs) (hne : rs ≠ []) : (s.writer.footer blake3).recordCount = rs.length ∧
    (s.writer.footer blake3).minLsn = minOf (rs.map RawRecord.lsn) ∧
    (s.writer.footer blake3).maxLsn = maxOf (rs.map RawRecord.lsn) ∧
    (s.writer.footer blake3).minHlc = minOf (rs.map RawRecord.hlc) ∧
    (s.writer.footer blake3).maxHlc = maxOf (rs.map RawRecord.hlc) := by
  have hcount : ¬rs.length = 0 := Nat.ne_of_gt (List.length_pos_iff.2 hne)
  simp only [RawSegmentWriter.footer, h.recordCount, h.minLsn, h.maxLsn, h.minHlc, h.maxHlc, if_neg hcount]
  exact ⟨trivial, trivial, trivial, trivial, trivial⟩

/-- **A footer is coherent exactly when its LSNs leave room for its records.** -/
theorem OpenSegment.Holds.coherent_iff (h : s.Holds init rs) (hlen : rs.length < 2 ^ 64) :
 (s.writer.footer blake3).checkCoherence = .ok () ↔ Spread rs := by
  have hblocks : (s.writer.footer blake3).blockCount = 0 ∧ (s.writer.footer blake3).blockDirectoryLen = 0 := ⟨rfl, rfl⟩
  by_cases hne : rs = []
  · have hcount : (s.writer.footer blake3).recordCount = 0 := by
      show s.writer.recordCount = 0
      rw [h.recordCount, hne]
      rfl
    refine ⟨fun _ => .inl hne, fun _ => ?_⟩
    unfold FooterV6.checkCoherence
    dsimp only
    rw [hcount, hblocks.1, hblocks.2, if_neg (by omega), if_neg (by omega), if_neg (by omega), if_neg (Nat.not_lt_zero _),
      Nat.zero_mul, if_neg (fun h0 => h0 rfl)]
  · obtain ⟨hcount, hminLsn, hmaxLsn, hminHlc, hmaxHlc⟩ := @OpenSegment.Holds.footer blake3 _ _ _ h hne
    have hlsn := minOf_le_maxOf (l := rs.map RawRecord.lsn) (by simpa using hne)
    have hhlc := minOf_le_maxOf (l := rs.map RawRecord.hlc) (by simpa using hne)
    have hpos := List.length_pos_iff.2 hne
    unfold FooterV6.checkCoherence Spread
    dsimp only
    rw [hcount, hminLsn, hmaxLsn, hminHlc, hmaxHlc, hblocks.1, hblocks.2, if_neg (by omega), if_neg (by omega)]
    by_cases hroom : rs.length ≤ maxOf (rs.map RawRecord.lsn) - minOf (rs.map RawRecord.lsn) + 1
    · rw [if_neg (fun hand => absurd ((satAdd64_lt_iff hlen).1 hand.2) (Nat.not_lt.2 hroom)), if_neg (Nat.not_lt_zero _), Nat.zero_mul,
        if_neg (fun h0 => h0 rfl)]
      exact ⟨fun _ => .inr hroom, fun _ => rfl⟩
    · rw [if_pos ⟨hpos, (satAdd64_lt_iff hlen).2 (Nat.not_le.1 hroom)⟩]
      refine ⟨fun herr => ?_, fun hspread => absurd hspread (not_or.2 ⟨hne, hroom⟩)⟩
      cases herr

variable (h : s.Holds init rs) (hwide : ∀ r ∈ rs, r.lsn < 2 ^ 64 ∧ r.hlc < 2 ^ 64)
include h hwide

theorem OpenSegment.Holds.wide : ∀ r ∈ rs, r.Wide := fun r hr => ⟨(hwide r hr).1, (hwide r hr).2, h.payload r hr⟩

variable (hlen : rs.length < 2 ^ 64)
include hlen

theorem OpenSegment.Holds.footer_wide : (s.writer.footer blake3).Wide := by
  have hlsn := maxOf_le (l := rs.map RawRecord.lsn) (fun x hx => by
    obtain ⟨r, hr, rfl⟩ := List.mem_map.1 hx
    exact (hwide r hr).1)
  have hhlc := maxOf_le (l := rs.map RawRecord.hlc) (fun x hx => by
    obtain ⟨r, hr, rfl⟩ := List.mem_map.1 hx
    exact (hwide r hr).2)
  have hminLsn : minOf (rs.map RawRecord.lsn) ≤ u64Max := (foldl_min_le _ _).1
  have hminHlc : minOf (rs.map RawRecord.hlc) ≤ u64Max := (foldl_min_le _ _).1
  have hif : ∀ {n : Nat}, n ≤ u64Max → (if s.writer.recordCount = 0 then 0 else n) < 2 ^ 64 := fun {n} hn => by
    unfold u64Max at hn
    split <;> omega
  refine ⟨?_, hif (h.minLsn ▸ hminLsn), hif (h.maxLsn ▸ hlsn), hif (h.minHlc ▸ hminHlc), hif (h.maxHlc ▸ hhlc),
    show 0 < 2 ^ 32 by decide, ?_, show 0 < 2 ^ 64 by decide, show 0 < 2 ^ 64 by decide⟩
  · show s.writer.recordCount < 2 ^ 64
    rw [h.recordCount]
    exact hlen
  · simp only [RawSegmentWriter.footer, flagContiguousLsn, flagHasNonMonotonicHlc]
    split <;> split <;> omega

/-- **The footer seals the records** where it is coherent. -/
theorem OpenSegment.Holds.seals (hspread : Spread rs) : (s.writer.footer blake3).Seals rs := by
  refine ⟨h.footer_wide hwide hlen, (h.coherent_iff hlen).2 hspread, ?_⟩
  have hblocks : (s.writer.footer blake3).blockCount = 0 ∧ (s.writer.footer blake3).blockDirectoryOffset = 0 ∧
      (s.writer.footer blake3).blockDirectoryLen = 0 := ⟨rfl, rfl, rfl⟩
  unfold validateRawFooter
  dsimp only
  by_cases hne : rs = []
  · have hcount : s.writer.recordCount = 0 := by
      rw [h.recordCount, hne]
      rfl
    have hzero : (s.writer.footer blake3).recordCount = 0 ∧ (s.writer.footer blake3).minLsn = 0 ∧
        (s.writer.footer blake3).maxLsn = 0 ∧ (s.writer.footer blake3).minHlc = 0 ∧ (s.writer.footer blake3).maxHlc = 0 := by
      simp only [RawSegmentWriter.footer, hcount, if_pos, and_self]
    obtain ⟨h1, h2, h3, h4, h5⟩ := hzero
    rw [if_neg (by omega), if_neg (by rw [h1, hne]; exact fun h0 => h0 rfl), if_pos hne, if_neg (by omega)]
  · obtain ⟨hcount, hminLsn, hmaxLsn, hminHlc, hmaxHlc⟩ := @OpenSegment.Holds.footer blake3 _ _ _ h hne
    have hmax : ∀ x ∈ rs.map RawRecord.lsn, x ≤ u64Max := fun x hx => by
      obtain ⟨r, hr, rfl⟩ := List.mem_map.1 hx
      exact Nat.le_sub_one_of_lt (hwide r hr).1
    rw [if_neg (by omega), if_neg (by omega), if_neg hne, hminLsn, hmaxLsn, hminHlc, hmaxHlc, if_neg (fun h0 => h0 rfl)]
    cases hflag : (s.writer.footer blake3).isContiguousLsn with
    | false => rfl
    | true =>
      have hfollows : follows init.firstLsn (rs.map RawRecord.lsn) = true := by
        rw [← h.contiguous]
        by_contra hno
        rw [Bool.not_eq_true] at hno
        cases hmonotonic : s.writer.monotonicHlc <;>
          simp [FooterV6.isContiguousLsn, RawSegmentWriter.footer, hno, hmonotonic, flagHasNonMonotonicHlc] at hflag
      obtain ⟨hbounds, hfirst⟩ := bounds_of_follows hfollows hmax
      have hmap : rs.map RawRecord.lsn ≠ [] := by simpa using hne
      -- the first LSN is the least, and the greatest is no more than the others leave room for
      have hmin : minOf (rs.map RawRecord.lsn) ≤ init.firstLsn := (foldl_min_le _ _).2 _ (hfirst hmap)
      have hmaxle : maxOf (rs.map RawRecord.lsn) ≤ init.firstLsn + rs.length - 1 := by
        refine foldl_max_le _ 0 (Nat.zero_le _) (fun x hx => ?_)
        have := (hbounds x hx).2
        rw [List.length_map] at this
        omega
      have hminle : init.firstLsn ≤ minOf (rs.map RawRecord.lsn) := by
        have hfirstMax := hmax _ (hfirst hmap)
        exact le_foldl_min hfirstMax (fun x hx => (hbounds x hx).1)
      have hroom : rs.length ≤ maxOf (rs.map RawRecord.lsn) - minOf (rs.map RawRecord.lsn) + 1 := hspread.resolve_left hne
      have hspan : (s.writer.footer blake3).lsnSpanIsContiguous = true := by
        unfold FooterV6.lsnSpanIsContiguous
        rw [hcount, hminLsn, hmaxLsn, Bool.and_eq_true, decide_eq_true_iff, beq_iff_eq]
        have := List.length_pos_iff.2 hne
        omega
      rw [hspan, consecutive_of_follows hfollows]
      rfl

end Holds

/-! ## Cuts -/

/-- What a scan finds in the first `n` of the `len` bytes of a segment: the records that end before the cut, the footer
if it is there as a whole, and otherwise where the last whole record ends if bytes remain behind it. -/
structure FoundIn (init : SegmentInit) (rs : List RawRecord) (footer : Option FooterV6) (len n : Nat) (scan : RawScan) : Prop where
  header : scan.header = init.header
  records : ∃ k ≤ rs.length, scan.records = rs.take k ∧ ∀ j ≤ rs.length, j ≤ k ↔ fileHeaderLen + sizes (rs.take j) ≤ n
  footer : scan.footer = if len ≤ n then footer else none
  tornAt : scan.tornAt = if scan.footer.isSome ∨ min n len = fileHeaderLen + sizes scan.records then none
    else some (fileHeaderLen + sizes scan.records)

variable {init : SegmentInit} {rs : List RawRecord} {n : Nat}

theorem take_behind_header (hraw : init.header.Raw) (hn : fileHeaderLen ≤ n) (rest : Bytes) :
    (init.header.encode ++ rest).take n = init.header.encode ++ rest.take (n - fileHeaderLen) := by
  have hlen := FileHeaderV6.length_encode hraw.wide.storageNamespaceId
  rw [List.take_append, hlen, List.take_of_length_le (by rw [hlen]; exact hn)]

theorem whole_iff (hn : fileHeaderLen ≤ n) {j : Nat} (hj : j ≤ rs.length) :
    j ≤ wholeIn (n - fileHeaderLen) rs ↔ fileHeaderLen + sizes (rs.take j) ≤ n := by
  rw [le_wholeIn_iff hj]
  omega

/-- **A cut that leaves no whole footer.** -/
theorem found_in_cut (hraw : init.header.Raw) (hwide : ∀ r ∈ rs, r.Wide) (hn : fileHeaderLen ≤ n) {tail : Bytes}
    {footer : Option FooterV6} (htail : ∀ m, 0 < m → m < tail.length → Torn (tail.take m))
    (hcut : n < fileHeaderLen + sizes rs + tail.length ∨ tail = [] ∧ footer = none) :
    ∃ scan, scanRawBytes ((init.header.encode ++ (encodeRecords rs ++ tail)).take n) = .ok scan ∧
      FoundIn init rs footer (fileHeaderLen + sizes rs + tail.length) n scan := by
  have hfooter : (if fileHeaderLen + sizes rs + tail.length ≤ n then footer else none) = none := by
    rcases hcut with hlt | ⟨-, rfl⟩
    · exact if_neg (Nat.not_le.2 hlt)
    · exact ite_self none
  rw [take_behind_header hraw hn]
  rcases take_encodeRecords tail rs (n - fileHeaderLen) with ⟨r, m, hr, hm, htake⟩ | ⟨hall, htake⟩
  · have hk := (List.getElem?_eq_some_iff.1 hr).1
    have hsizes : sizes rs = sizes (rs.take (wholeIn (n - fileHeaderLen) rs)) + r.size
        + sizes (rs.drop (wholeIn (n - fileHeaderLen) rs + 1)) := by
      conv_lhs => rw [← List.take_append_drop (wholeIn (n - fileHeaderLen) rs) rs, List.drop_eq_getElem_cons hk]
      rw [sizes_append, sizes_cons, (List.getElem?_eq_some_iff.1 hr).2, Nat.add_assoc]
    have hm' : (r.encode.take m).length = m := by
      rw [List.length_take, r.length_encode]
      omega
    -- the cut lies in a record, so it is no farther than the file
    have hcutAt : n = fileHeaderLen + sizes (rs.take (wholeIn (n - fileHeaderLen) rs)) + m := by
      have hlen := congrArg List.length htake
      rw [List.length_take, List.length_append, List.length_append, hm', length_encodeRecords, length_encodeRecords] at hlen
      omega
    have hwide' : ∀ q ∈ rs.take (wholeIn (n - fileHeaderLen) rs), q.Wide := fun q hq => hwide q (List.mem_of_mem_take hq)
    have hrecords : ∃ k ≤ rs.length, rs.take (wholeIn (n - fileHeaderLen) rs) = rs.take k ∧
        ∀ j ≤ rs.length, j ≤ k ↔ fileHeaderLen + sizes (rs.take j) ≤ n := ⟨_, wholeIn_le rs _, rfl, fun j hj => whole_iff hn hj⟩
    rw [htake]
    by_cases hzero : m = 0
    · subst hzero
      have hscan := scanRawBytes_eq hraw hwide' (.clean)
      refine ⟨_, hscan, rfl, hrecords, hfooter.symm, ?_⟩
      rw [if_pos (.inr (by dsimp only; omega))]
    · have htorn := torn_record r (hwide r (List.mem_of_getElem? hr)).payload (Nat.pos_of_ne_zero hzero) hm
      have hscan := scanRawBytes_eq hraw hwide' (.torn htorn)
      refine ⟨_, hscan, rfl, hrecords, hfooter.symm, ?_⟩
      rw [if_neg (not_or.2 ⟨by simp, by dsimp only; omega⟩)]
  · have hle : fileHeaderLen + sizes rs ≤ n := by
      have := (@whole_iff rs n hn rs.length (Nat.le_refl _)).1 (Nat.le_of_eq hall.symm)
      rwa [List.take_length] at this
    have hrecords : ∃ k ≤ rs.length, rs = rs.take k ∧ ∀ j ≤ rs.length, j ≤ k ↔ fileHeaderLen + sizes (rs.take j) ≤ n :=
      ⟨rs.length, Nat.le_refl _, List.take_length.symm, fun j hj => by rw [← whole_iff hn hj, hall]⟩
    rw [htake]
    by_cases hend : tail.take (n - fileHeaderLen - sizes rs) = []
    · have hscan := scanRawBytes_eq hraw hwide (.clean)
      rw [hend]
      refine ⟨_, hscan, rfl, hrecords, hfooter.symm, ?_⟩
      have hzero := congrArg List.length hend
      rw [List.length_take, List.length_nil] at hzero
      rw [if_pos (.inr (by dsimp only; omega))]
    · have hpos := List.length_pos_iff.2 hend
      rw [List.length_take] at hpos
      have hlt : n < fileHeaderLen + sizes rs + tail.length := hcut.resolve_right (fun hnil => by
        rw [hnil.1] at hpos
        simp at hpos)
      have htorn := htail (n - fileHeaderLen - sizes rs) (by omega) (by omega)
      have hscan := scanRawBytes_eq hraw hwide (.torn htorn)
      refine ⟨_, hscan, rfl, hrecords, hfooter.symm, ?_⟩
      rw [if_neg (not_or.2 ⟨by simp, by dsimp only; omega⟩)]

/-- **A footer that is not coherent is refused**, and with it the file that it ends. -/
theorem scan_incoherent (hraw : init.header.Raw) (hwide : ∀ r ∈ rs, r.Wide) {f : FooterV6} (hf : f.Wide)
    (hcoherent : f.checkCoherence ≠ .ok ()) : scanRawBytes (init.header.encode ++ (encodeRecords rs ++ f.encode))
      = .error (corrupt "hrkl v6 raw scan" "complete footer is malformed or corrupt") := by
  have hlen := FileHeaderV6.length_encode hraw.wide.storageNamespaceId
  have hcount := length_le_sizes rs
  have hflen := f.length_encode
  have hmagic := f.take_four_encode []
  have hdecode := f.decode_encode_eq []
  rw [List.append_nil] at hmagic hdecode
  have htorn : decodeRawRecord f.encode = .torn := by
    rw [decodeRawRecord, if_pos hmagic, hdecode, f.narrow_eq hf]
    cases hcheck : f.checkCoherence with
    | ok u => exact absurd hcheck hcoherent
    | error e => rfl
  have hne : f.encode ≠ [] := by
    intro hnil
    rw [hnil] at hflen
    cases hflen
  have hfuel : (init.header.encode ++ (encodeRecords rs ++ f.encode)).length
      = (fileHeaderLen + sizes rs + 127 - rs.length + 1) + rs.length := by
    rw [List.length_append, List.length_append, hlen, length_encodeRecords, hflen]
    simp only [footerLen]
    omega
  unfold scanRawBytes
  rw [FileHeaderV6.decode_encode hraw.wide]
  dsimp only
  rw [if_neg (fun h0 => h0 hraw.layout), List.drop_left' hlen, hfuel, scanRecords_records f.encode _ rs _ [] hwide,
    scanRecords, if_neg hne, htorn]
  dsimp only
  rw [if_pos ⟨hmagic, Nat.le_of_eq hflen.symm⟩]

variable (blake3) in
/-- The footer and the file of a segment that is sealed, or left open. -/
def OpenSegment.left (s : OpenSegment) (sealed_ : Bool) : Option FooterV6 × Bytes :=
  if sealed_ then (some (s.seal blake3).1, (s.seal blake3).2) else (none, s.file)

/-- **The scan of any prefix**: whatever was appended, and sealed or not, the scan of the first `n` bytes finds what is whole
in them and where it ends, except in a whole sealed file whose records are more than its LSN range has room for. -/
theorem scan_of_prefix_iff (hraw : init.header.Raw) {records : List (RawRecord × Digest)}
    (hwide : ∀ x ∈ records, x.1.lsn < 2 ^ 64 ∧ x.1.hlc < 2 ^ 64) (hlen : records.length < 2 ^ 64) {s : OpenSegment}
    (hwritten : (OpenSegment.create init).appendAll blake3 records = .ok s) (sealed_ : Bool) (hn : fileHeaderLen ≤ n) :
    (∃ scan, scanRawBytes ((s.left blake3 sealed_).2.take n) = .ok scan ∧
      FoundIn init (records.map Prod.fst) (s.left blake3 sealed_).1 (s.left blake3 sealed_).2.length n scan) ↔
    (sealed_ = true → (s.left blake3 sealed_).2.length ≤ n → Spread (records.map Prod.fst)) := by
  have h : s.Holds init (records.map Prod.fst) := (holds_create init).appendAll hwritten
  have hwide' : ∀ r ∈ records.map Prod.fst, r.lsn < 2 ^ 64 ∧ r.hlc < 2 ^ 64 := fun r hr => by
    obtain ⟨x, hx, rfl⟩ := List.mem_map.1 hr
    exact hwide x hx
  have hlen' : (records.map Prod.fst).length < 2 ^ 64 := by rwa [List.length_map]
  generalize records.map Prod.fst = rs at h hwide' hlen'
  have hrs := h.wide hwide'
  have hheader := FileHeaderV6.length_encode hraw.wide.storageNamespaceId
  cases sealed_ with
  | false =>
    have hfound := @found_in_cut init rs n hraw hrs hn [] none (fun m _ hm => absurd hm (Nat.not_lt_zero m))
      (.inr ⟨rfl, rfl⟩)
    have hlength : (init.header.encode ++ encodeRecords rs).length = fileHeaderLen + sizes rs := by
      rw [List.length_append, hheader, length_encodeRecords]
    refine ⟨fun _ h0 => absurd h0 Bool.false_ne_true, fun _ => ?_⟩
    show ∃ scan, scanRawBytes (s.file.take n) = .ok scan ∧ FoundIn init rs none s.file.length n scan
    rw [h.file, hlength]
    rw [List.append_nil] at hfound
    exact hfound
  | true =>
    have hfile : (s.seal blake3).2 = init.header.encode ++ (encodeRecords rs ++ (s.writer.footer blake3).encode) := by
      show s.file ++ _ = _
      rw [h.file, List.append_assoc]
    have hlength : (init.header.encode ++ (encodeRecords rs ++ (s.writer.footer blake3).encode)).length
        = fileHeaderLen + sizes rs + (s.writer.footer blake3).encode.length := by
      rw [List.length_append, List.length_append, hheader, length_encodeRecords, Nat.add_assoc]
    show (∃ scan, scanRawBytes ((s.seal blake3).2.take n) = .ok scan ∧
      FoundIn init rs (some (s.writer.footer blake3)) (s.seal blake3).2.length n scan) ↔
        (true = true → (s.seal blake3).2.length ≤ n → Spread rs)
    rw [hfile, hlength]
    by_cases hwhole : fileHeaderLen + sizes rs + (s.writer.footer blake3).encode.length ≤ n
    · rw [List.take_of_length_le (by rw [hlength]; exact hwhole)]
      constructor
      · rintro ⟨scan, hscan, -⟩ - -
        by_contra hcrowded
        have hcoherent := mt (@OpenSegment.Holds.coherent_iff blake3 init rs s h hlen').1 hcrowded
        rw [scan_incoherent hraw hrs (h.footer_wide hwide' hlen') hcoherent] at hscan
        cases hscan
      · intro hspread
        refine ⟨_, scanRawBytes_eq hraw hrs (.sealed_ (h.seals hwide' hlen' (hspread rfl hwhole))), rfl,
          ⟨rs.length, Nat.le_refl _, List.take_length.symm, fun j hj => ?_⟩, (if_pos hwhole).symm, (if_pos (.inl rfl)).symm⟩
        have hpart := sizes_append (rs.take j) (rs.drop j)
        rw [List.take_append_drop] at hpart
        omega
    · refine ⟨fun _ _ hle => absurd hle hwhole, fun _ => ?_⟩
      exact found_in_cut hraw hrs hn (fun m h0 hm => torn_footer _ h0 (by rwa [FooterV6.length_encode] at hm))
        (.inl (Nat.not_le.1 hwhole))

def twinInit : SegmentInit :=
  { segmentId := 1, createdHlc := 9, firstLsn := 5, writerEpoch := 1, storageNamespaceId := List.replicate 16 0 }

theorem twinInit_raw : twinInit.header.Raw :=
  ⟨⟨by decide, by decide, by decide, by decide, by decide, by decide, rfl⟩, rfl⟩

def twinBlake3 : Bytes → Digest := fun input => Digest.replicate (UInt8.ofNat input.length)

/-- Two records of one LSN. -/
def twins : List (RawRecord × Digest) :=
  [({ lsn := 5, hlc := 9, payload := [1] }, Digest.replicate 1), ({ lsn := 5, hlc := 9, payload := [2] }, Digest.replicate 2)]

set_option maxRecDepth 20000 in
/-- **A sealed segment that is not read back**: two records of one LSN. -/
theorem twins_are_refused : ∃ s, (OpenSegment.create twinInit).appendAll twinBlake3 twins = .ok s ∧
    (s.left twinBlake3 true).2.length = 242 ∧
    ¬∃ scan, scanRawBytes ((s.left twinBlake3 true).2.take 242) = .ok scan ∧
      FoundIn twinInit (twins.map Prod.fst) (s.left twinBlake3 true).1 (s.left twinBlake3 true).2.length 242 scan := by
  have hdata : (((OpenSegment.create twinInit).appendAll twinBlake3 twins).toOption).map
      (fun s => ((s.left twinBlake3 true).2.length, (scanRawBytes ((s.left twinBlake3 true).2.take 242)).toOption.isSome))
        = some (242, false) := by decide +kernel
  obtain ⟨s, hs, hout⟩ := Option.map_eq_some_iff.1 hdata
  refine ⟨s, Except.toOption_eq_some hs, congrArg Prod.fst hout, fun hfound => ?_⟩
  obtain ⟨scan, hscan, -⟩ := hfound
  have hnone : (scanRawBytes ((s.left twinBlake3 true).2.take 242)).toOption.isSome = false := congrArg Prod.snd hout
  rw [hscan] at hnone
  cases hnone

/-- One of them, and the LSN behind it left out. -/
def sparse : List (RawRecord × Digest) :=
  [({ lsn := 5, hlc := 9, payload := [1] }, Digest.replicate 1), ({ lsn := 7, hlc := 8, payload := [2] }, Digest.replicate 2)]

set_option maxRecDepth 20000 in
theorem scan_of_prefix_iff_sample : ∃ s scan, (OpenSegment.create twinInit).appendAll twinBlake3 sparse = .ok s ∧
    scanRawBytes ((s.left twinBlake3 true).2.take 242) = .ok scan ∧
    FoundIn twinInit (sparse.map Prod.fst) (s.left twinBlake3 true).1 (s.left twinBlake3 true).2.length 242 scan := by
  have hdata : (((OpenSegment.create twinInit).appendAll twinBlake3 sparse).toOption).isSome = true := by decide +kernel
  obtain ⟨s, hs⟩ := Option.isSome_iff_exists.1 hdata
  have hwritten := Except.toOption_eq_some hs
  obtain ⟨scan, hscan, hfound⟩ := (scan_of_prefix_iff twinInit_raw (by decide) (by decide) hwritten true
    (show fileHeaderLen ≤ 242 by decide)).2 (fun _ _ => by decide)
  exact ⟨s, scan, hwritten, hscan, hfound⟩

end V6
end Heraclitus
