import Heraclitus.LegacyOpen
import Heraclitus.LegacyLogRun
/-!
# LegacyRecovery — what is left of a v5 log after a crash

A crash leaves the newest segment file cut anywhere.  The scan reads exactly the whole records (`scanRecords_eq`), the
repair removes the rest, and the opened log is `Steady` on what is left (`open_crash`).
-/
namespace Heraclitus
namespace Legacy

variable {env : Env}

/-! ## The scan of one file -/

/-- The scan has read the records `rs`, the first of which is `lsn`, and nothing else. -/
structure Scanned (s : SegmentScan) (fileLen lsn : Nat) (rs : List Rec) : Prop where
  validLen : s.validLen = headerLen + sizes rs
  fileLen : s.fileLen = fileLen
  recordHashes : s.recordHashes.length ≤ rs.length
  locs : s.locs = indexFrom lsn headerLen rs
  minLsn : s.minLsn = if rs = [] then none else some lsn
  maxLsn : s.maxLsn = if rs = [] then none else some (lsn + (rs.length - 1))
  isSealed : s.isSealed = false
  version : s.version = formatVersion
  sound : s.corruptionDetected = false

theorem scanned_fresh (fileLen lsn : Nat) : Scanned (.fresh fileLen formatVersion) fileLen lsn [] :=
  ⟨rfl, rfl, Nat.le_refl _, rfl, rfl, rfl, rfl, rfl, rfl⟩

theorem sizes_append (rs ss : List Rec) : sizes (rs ++ ss) = sizes rs + sizes ss := by
  simp [sizes]

variable (env) in
theorem Scanned.record {s : SegmentScan} {fileLen lsn : Nat} {rs : List Rec} (h : Scanned s fileLen lsn rs) (r : Rec)
    (com : Bool) (record : Bytes) : Scanned (s.record env com (lsn + rs.length) r.size r.opaqueMeta record) fileLen lsn
      (rs ++ [r]) := by
  have hne : rs ++ [r] ≠ [] := by simp
  refine ⟨?_, h.fileLen, ?_, ?_, ?_, ?_, h.isSealed, h.version, h.sound⟩
  · show s.validLen + r.size = _
    rw [h.validLen, sizes_append, Nat.add_assoc]
    simp [sizes]
  · show (if com then s.recordHashes ++ [_] else s.recordHashes).length ≤ _
    have := h.recordHashes
    split <;> simp <;> omega
  · show s.locs ++ [_] = _
    rw [h.locs, indexFrom_append, h.validLen]
    rfl
  · show some (s.minLsn.elim (lsn + rs.length) (min · (lsn + rs.length))) = _
    rw [if_neg hne, h.minLsn]
    split
    · rename_i hnil
      rw [hnil]
      rfl
    · exact congrArg some (Nat.min_eq_left (Nat.le_add_right _ _))
  · show some (s.maxLsn.elim (lsn + rs.length) (max · (lsn + rs.length))) = _
    rw [if_neg hne, h.maxLsn, List.length_append, List.length_singleton, Nat.add_sub_cancel]
    split
    · rfl
    · exact congrArg some (Nat.max_eq_right (by omega))

/-- One turn of the scan over a whole record. -/
theorem scanRecords_cons {s : SegmentScan} {file tail : Bytes} {lsn : Nat} {rs : List Rec} {r : Rec}
    (h : Scanned s file.length lsn rs) (hdrop : file.drop s.validLen = r.bytes env (lsn + rs.length) ++ tail)
    (hr : r.Readable env) (hlsn : lsn + rs.length < 2 ^ 64) (com : Bool) (fuel : Nat) :
    ∃ s', Scanned s' file.length lsn (rs ++ [r]) ∧
      scanRecords env file com (fuel + 1) s = scanRecords env file com fuel s' := by
  have hlength : (file.drop s.validLen).length = recordHeaderLen + r.payload.length + tail.length := by
    rw [hdrop, List.length_append, length_bytes]
  have hfile : s.validLen + recordHeaderLen + r.payload.length ≤ s.fileLen := by
    rw [List.length_drop] at hlength
    rw [h.fileLen]
    have : 0 < recordHeaderLen := by decide
    omega
  have hpos : recordHeaderLen = 24 := rfl
  have hfour : (file.drop s.validLen).take 4 = leBytes 4 r.payload.length := by
    rw [hdrop]
    exact take_four_encodeRecord env.toHashes formatVersion _ r.episode.tsHlc r.payload tail
  have hnew : s.maxLsn.any (fun m => decide (lsn + rs.length ≤ m)) = false := by
    rw [h.maxLsn]
    split
    · rfl
    · rename_i hne
      have := List.length_pos_iff.2 hne
      simp
      omega
  refine ⟨_, h.record env r com ((r.bytes env (lsn + rs.length)).take r.size), ?_⟩
  rw [scanRecords, if_neg (by omega)]
  dsimp only
  rw [if_neg (by omega), hfour, if_neg (leBytes_ne_footerMagic hr.bounded), leNat_len hr,
    if_neg (not_or.2 ⟨Nat.not_lt.2 hr.bounded, Nat.not_lt.2 hfile⟩), take_record hdrop, h.version,
    decodeRecord_bytes hr hlsn]
  dsimp only
  rw [hnew, hr.decodesMeta]
  rfl

/-- **The scan reads every whole record**, and is then where they end. -/
theorem scanRecords_eq {file : Bytes} {lsn : Nat} (tail : Bytes) (com : Bool) : ∀ (rs done : List Rec) (s : SegmentScan)
    (fuel : Nat),
    Scanned s file.length lsn done → file.drop s.validLen = recordBytes env (lsn + done.length) rs ++ tail →
    (∀ r ∈ rs, r.Readable env) → lsn + (done ++ rs).length ≤ 2 ^ 64 →
    ∃ s', Scanned s' file.length lsn (done ++ rs) ∧ file.drop s'.validLen = tail ∧
      scanRecords env file com (fuel + rs.length) s = scanRecords env file com fuel s'
  | [], done, s, fuel, h, hdrop, _, _ => by
    rw [List.append_nil]
    exact ⟨s, h, hdrop, rfl⟩
  | r :: rs, done, s, fuel, h, hdrop, hread, hlsn => by
    rw [recordBytes, List.append_assoc] at hdrop
    rw [List.length_append, List.length_cons] at hlsn
    obtain ⟨s₁, h₁, heq₁⟩ := scanRecords_cons h hdrop (hread r List.mem_cons_self) (by omega) com (fuel + rs.length)
    have hdrop₁ : file.drop s₁.validLen = recordBytes env (lsn + (done ++ [r]).length) rs ++ tail := by
      have hvalid : s₁.validLen = s.validLen + (recordHeaderLen + r.payload.length) := by
        rw [h₁.validLen, h.validLen, sizes_append, Nat.add_assoc]
        simp [sizes, Rec.size]
      rw [hvalid, ← List.drop_drop, hdrop, List.drop_left' (length_bytes r _), List.length_append, Nat.add_assoc]
      rfl
    have hassoc : done ++ r :: rs = (done ++ [r]) ++ rs := by simp
    obtain ⟨s₂, h₂, hdrop₂, heq₂⟩ := scanRecords_eq tail com rs (done ++ [r]) s₁ fuel h₁ hdrop₁
      (fun q hq => hread q (List.mem_cons_of_mem r hq)) (by simp; omega)
    exact ⟨s₂, hassoc ▸ h₂, hdrop₂, heq₁.trans heq₂⟩

/-- What a crash can leave behind the last whole record: nothing, a piece of a record, or a piece of a footer. -/
inductive Torn (env : Env) : Bytes → Prop
  | nothing : Torn env []
  | record (r : Rec) (lsn n : Nat) : r.Readable env → n < r.size → Torn env ((r.bytes env lsn).take n)
  | footer (f : SegmentFooter) (n : Nat) : n < footerLen → Torn env (f.encode.take n)

/-- **The scan stops at a torn end**, and notices it if there is one. -/
theorem scanRecords_torn {s : SegmentScan} {file tail : Bytes} {lsn : Nat} {rs : List Rec} (h : Scanned s file.length lsn rs)
    (hdrop : file.drop s.validLen = tail) (hle : s.validLen ≤ file.length) (ht : Torn env tail) (com : Bool) (fuel : Nat) :
    scanRecords env file com fuel s = .ok s ∨ tail ≠ [] ∧ scanRecords env file com fuel s = .ok s.corrupt := by
  cases fuel with
  | zero => exact .inl rfl
  | succ fuel =>
    have hlen : s.fileLen = s.validLen + tail.length := by
      have := congrArg List.length hdrop
      rw [List.length_drop] at this
      rw [h.fileLen]
      omega
    rw [scanRecords]
    by_cases hend : s.fileLen ≤ s.validLen
    · exact .inl (if_pos hend)
    · rw [if_neg hend]
      dsimp only
      rw [hdrop]
      by_cases hshort : tail.length < 4
      · exact .inl (if_pos hshort)
      · rw [if_neg hshort]
        have hne : tail ≠ [] := fun h0 => by simp [h0] at hshort
        refine .inr ⟨hne, ?_⟩
        cases ht with
        | nothing => exact absurd rfl hne
        | footer f n hn =>
          have hmagic : (f.encode.take n).take 4 = footerMagic := by
            rw [List.length_take] at hshort
            rw [List.take_take, Nat.min_eq_left (by omega), SegmentFooter.encode, List.append_assoc, List.append_assoc,
              List.append_assoc]
            exact List.take_left' (by rfl)
          rw [if_pos hmagic, if_pos (by rw [List.length_take]; omega)]
        | record r lsn n hr hn =>
          have hfour : ((r.bytes env lsn).take n).take 4 = leBytes 4 r.payload.length := by
            rw [List.length_take] at hshort
            rw [List.take_take, Nat.min_eq_left (by omega)]
            have := take_four_encodeRecord env.toHashes formatVersion lsn r.episode.tsHlc r.payload []
            rwa [List.append_nil] at this
          have hbeyond : s.fileLen < s.validLen + recordHeaderLen + r.payload.length := by
            rw [hlen, List.length_take]
            unfold Rec.size at hn
            omega
          rw [hfour, if_neg (leBytes_ne_footerMagic hr.bounded), leNat_len hr, if_pos (.inr hbeyond)]

theorem le_sizes (rs : List Rec) : recordHeaderLen * rs.length ≤ sizes rs := by
  induction rs with
  | nil => exact Nat.zero_le _
  | cons r rs ih =>
    have : sizes (r :: rs) = r.size + sizes rs := by simp [sizes]
    rw [this, List.length_cons, Rec.size, Nat.mul_succ]
    omega

/-- The scan of a file that begins with the header and whole records. -/
theorem scanSegmentFile_records (i hlc : Nat) {lsn : Nat} {rs : List Rec} (tail : Bytes) (hread : ∀ r ∈ rs, r.Readable env)
    (hlsn : lsn + rs.length ≤ 2 ^ 64) (com : Bool) :
    ∃ s fuel, Scanned s (segmentBytes env i hlc lsn rs ++ tail).length lsn rs ∧ tail.length ≤ fuel ∧
      (segmentBytes env i hlc lsn rs ++ tail).drop s.validLen = tail ∧
      scanSegmentFile env (segmentBytes env i hlc lsn rs ++ tail) com
        = scanRecords env (segmentBytes env i hlc lsn rs ++ tail) com fuel s := by
  let header : SegmentHeader := { version := formatVersion, segmentId := i, createdHlc := hlc }
  obtain ⟨h', hdecode, hversion⟩ := header.decode_encode (Nat.le_refl _)
  have htake : (segmentBytes env i hlc lsn rs ++ tail).take headerLen = header.encode := by
    rw [segmentBytes, List.append_assoc]
    exact List.take_left' (SegmentHeader.length_encode header)
  have hlength : (segmentBytes env i hlc lsn rs ++ tail).length = headerLen + sizes rs + tail.length := by
    rw [List.length_append, segmentBytes, List.length_append, SegmentHeader.length_encode, length_recordBytes]
  have hsizes := le_sizes rs
  have hsmall : rs.length ≤ sizes rs := by
    have : recordHeaderLen = 24 := rfl
    rw [this] at hsizes
    omega
  obtain ⟨s, hs, hdrop, hscan⟩ := scanRecords_eq tail com rs [] _
    (headerLen + sizes rs + tail.length - rs.length)
    (scanned_fresh (segmentBytes env i hlc lsn rs ++ tail).length lsn)
    (by exact segmentBytes_drop env i hlc lsn rs tail) hread (by simpa using hlsn)
  refine ⟨s, headerLen + sizes rs + tail.length - rs.length, hs, ?_, hdrop, ?_⟩
  · exact Nat.le_sub_of_add_le (by omega)
  · rw [← hscan, scanSegmentFile, if_neg (by rw [hlength]; omega), htake, hdecode]
    dsimp only
    rw [hversion, Nat.sub_add_cancel (by omega), ← hlength]

/-- What the scan of a sealed file says. -/
structure ScannedSealed (s : SegmentScan) (file : Bytes) (lsn : Nat) (rs : List Rec) : Prop where
  validLen : s.validLen = file.length
  fileLen : s.fileLen = file.length
  locs : s.locs = indexFrom lsn headerLen rs
  minLsn : s.minLsn = if rs = [] then none else some lsn
  maxLsn : s.maxLsn = if rs = [] then none else some (lsn + (rs.length - 1))
  isSealed : s.isSealed = true
  version : s.version = formatVersion

/-- **The scan of a sealed file reads its records and then its footer.** -/
theorem scanSegmentFile_footer (i hlc : Nat) {lsn count : Nat} {rs : List Rec} (root : Digest)
    (hread : ∀ r ∈ rs, r.Readable env) (hcount : count < 2 ^ 64) (hlsn : lsn + rs.length < 2 ^ 64) (com : Bool) :
    ∃ s, Scanned s (sealedBytes env i hlc lsn rs count root).length lsn rs ∧
      (sealedBytes env i hlc lsn rs count root).length = s.validLen + footerLen ∧
      scanSegmentFile env (sealedBytes env i hlc lsn rs count root) com
        = .ok (s.footer ⟨count, lsn, lsn + (rs.length - 1), root⟩) := by
  unfold sealedBytes
  let footer : SegmentFooter :=
    { recordCount := count, minLsn := lsn, maxLsn := lsn + (rs.length - 1), blake3Root := root }
  obtain ⟨s, fuel, hs, hfuel, hdrop, hscan⟩ := scanSegmentFile_records i hlc footer.encode hread (Nat.le_of_lt hlsn) com
  have hdecode : SegmentFooter.decode footer.encode = some footer :=
    footer.decode_encode hcount (by show lsn < _; omega) (by show lsn + (rs.length - 1) < _; omega)
  have hlength : (segmentBytes env i hlc lsn rs ++ footer.encode).length = s.validLen + footerLen := by
    rw [List.length_append, footer.length_encode, segmentBytes, List.length_append, SegmentHeader.length_encode,
      length_recordBytes, hs.validLen]
  have hmagic : footer.encode.take 4 = footerMagic := by
    rw [SegmentFooter.encode, List.append_assoc, List.append_assoc, List.append_assoc]
    exact List.take_left' (by rfl)
  have hfooterLen : footerLen = 60 := rfl
  refine ⟨s, hs, hlength, hscan.trans ?_⟩
  rw [footer.length_encode] at hfuel
  obtain ⟨fuel, rfl⟩ : ∃ n, fuel = n + 1 := ⟨fuel - 1, by omega⟩
  rw [scanRecords, if_neg (by rw [hs.fileLen, hlength]; omega)]
  dsimp only
  rw [hdrop, footer.length_encode, if_neg (by decide), if_pos hmagic, if_neg (Nat.lt_irrefl _),
    List.take_of_length_le (Nat.le_of_eq footer.length_encode), hdecode]

/-- The scan of a sealed file accepts it exactly when the footer's count is the number of its records. -/
theorem Scanned.footer_sound_iff {s : SegmentScan} {fileLen lsn count : Nat} {rs : List Rec} {root : Digest}
    (hs : Scanned s fileLen lsn rs) (hlength : fileLen = s.validLen + footerLen) :
    (s.footer ⟨count, lsn, lsn + (rs.length - 1), root⟩).corruptionDetected = false ↔ count = rs.length := by
  show (s.corruptionDetected || _) = false ↔ _
  rw [hs.sound, Bool.false_or, hs.fileLen, hlength, hs.locs, length_indexFrom, hs.minLsn, hs.maxLsn]
  show (_ != _ || rs.length != count || !(if count = 0 then _ else _)) = false ↔ _
  by_cases heq : count = rs.length
  · rw [heq]
    by_cases hnil : rs = []
    · simp [hnil]
    · have hpos : rs.length ≠ 0 := (List.length_pos_iff.2 hnil).ne'
      simp [hnil]
  · have hne : (rs.length != count) = true := by simpa using fun h => heq h.symm
    rw [hne]
    simpa using heq

/-- **The scan of a sealed file accepts it** if the footer's count is the number of its records. -/
theorem scanSegmentFile_sealed {i hlc lsn count : Nat} {root : Digest} {rs : List Rec} {file : Bytes}
    (hfile : file = sealedBytes env i hlc lsn rs count root)
    (hread : ∀ r ∈ rs, r.Readable env) (hcount : count < 2 ^ 64) (hlsn : lsn + rs.length < 2 ^ 64) (com : Bool) :
    ∃ s, scanSegmentFile env file com = .ok s ∧ ScannedSealed s file lsn rs ∧
      (count = rs.length → s.corruptionDetected = false) := by
  subst hfile
  obtain ⟨s, hs, hlength, hscan⟩ := scanSegmentFile_footer i hlc root hread hcount hlsn com
  exact ⟨_, hscan, ⟨hlength.symm, hs.fileLen, hs.locs, hs.minLsn, hs.maxLsn, rfl, hs.version⟩,
    (hs.footer_sound_iff hlength).2⟩

/-! ## Where a crash cuts -/

/-- How many of the records fit wholly in `len` bytes. -/
def wholeIn : Nat → List Rec → Nat
  | _, [] => 0
  | len, r :: rs => if r.size ≤ len then wholeIn (len - r.size) rs + 1 else 0

theorem wholeIn_le : ∀ (rs : List Rec) (len : Nat), wholeIn len rs ≤ rs.length
  | [], _ => Nat.le_refl _
  | r :: rs, len => by
    unfold wholeIn
    split
    · exact Nat.succ_le_succ (wholeIn_le rs _)
    · exact Nat.zero_le _

/-- **A prefix of the records is whole records and a torn one**, or all of them and a prefix of what follows. -/
theorem take_recordBytes (tail : Bytes) : ∀ (rs : List Rec) (lsn len : Nat), (∀ r ∈ rs, r.Readable env) →
    (∃ t, (recordBytes env lsn rs ++ tail).take len = recordBytes env lsn (rs.take (wholeIn len rs)) ++ t ∧ Torn env t) ∨
    wholeIn len rs = rs.length ∧
      (recordBytes env lsn rs ++ tail).take len = recordBytes env lsn rs ++ tail.take (len - sizes rs)
  | [], lsn, len, _ => .inr ⟨rfl, rfl⟩
  | r :: rs, lsn, len, hread => by
    have hsize : (r.bytes env lsn).length = r.size := length_bytes r lsn
    have hr := hread r List.mem_cons_self
    rw [recordBytes, List.append_assoc]
    by_cases hle : r.size ≤ len
    · have hwhole : wholeIn len (r :: rs) = wholeIn (len - r.size) rs + 1 := by rw [wholeIn, if_pos hle]
      have htake : (r.bytes env lsn ++ (recordBytes env (lsn + 1) rs ++ tail)).take len
          = r.bytes env lsn ++ (recordBytes env (lsn + 1) rs ++ tail).take (len - r.size) := by
        rw [List.take_append, List.take_of_length_le (by omega), hsize]
      have hsum : sizes (r :: rs) = r.size + sizes rs := by simp [sizes]
      rw [htake, hwhole]
      rcases take_recordBytes tail rs (lsn + 1) (len - r.size) (fun q hq => hread q (List.mem_cons_of_mem r hq)) with
        ⟨t, heq, ht⟩ | ⟨hall, heq⟩
      · refine .inl ⟨t, ?_, ht⟩
        rw [heq, List.take_succ_cons, recordBytes, List.append_assoc]
      · refine .inr ⟨congrArg (· + 1) hall, ?_⟩
        rw [heq, List.append_assoc, hsum, Nat.sub_add_eq]
    · have hwhole : wholeIn len (r :: rs) = 0 := by rw [wholeIn, if_neg hle]
      refine .inl ⟨(r.bytes env lsn).take len, ?_, .record r lsn len hr (Nat.not_le.1 hle)⟩
      rw [hwhole, List.take_append_of_le_length (by omega)]
      rfl

theorem length_segmentBytes (i hlc lsn : Nat) (rs : List Rec) :
    (segmentBytes env i hlc lsn rs).length = headerLen + sizes rs := by
  rw [segmentBytes, List.length_append, SegmentHeader.length_encode, length_recordBytes]

theorem eq_nil_of_sizes {rs : List Rec} (h : sizes rs = 0) : rs = [] := by
  have hle := le_sizes rs
  have hpos : recordHeaderLen = 24 := rfl
  rw [h, hpos] at hle
  exact List.length_eq_zero_iff.1 (by omega)

/-- What opening makes of the newest file, before the others are looked at. -/
structure Resumed (env : Env) (id lsn : Nat) (file : Bytes) (kept : List Rec) (scan : SegmentScan) : Prop where
  scanned : ∃ s, Scanned s file.length lsn kept ∧ scan = { s with corruptionDetected := scan.corruptionDetected }
  repaired : (∃ hlc, (if scan.corruptionDetected || decide (scan.validLen < scan.fileLen) then
      executePhysicalRepair id file scan.validLen else file) = segmentBytes env id hlc lsn kept) ∨
    kept = [] ∧ (if scan.corruptionDetected || decide (scan.validLen < scan.fileLen) then
      executePhysicalRepair id file scan.validLen else file) = []

/-- **A file with a torn end is resumed at its last whole record.** -/
theorem resumed_of_torn {id hlc lsn : Nat} {kept : List Rec} {t : Bytes} (ht : Torn env t)
    (hread : ∀ r ∈ kept, r.Readable env) (hlsn : lsn + kept.length ≤ 2 ^ 64) (com : Bool) :
    ∃ scan, scanSegmentFile env (segmentBytes env id hlc lsn kept ++ t) com = .ok scan ∧
      Resumed env id lsn (segmentBytes env id hlc lsn kept ++ t) kept scan := by
  obtain ⟨s, fuel, hs, -, hdrop, hscan⟩ := scanSegmentFile_records id hlc t hread hlsn com
  have hlength : (segmentBytes env id hlc lsn kept ++ t).length = s.validLen + t.length := by
    rw [List.length_append, length_segmentBytes, hs.validLen]
  have hrepair : t ≠ [] → ∃ hlc', executePhysicalRepair id (segmentBytes env id hlc lsn kept ++ t) s.validLen
      = segmentBytes env id hlc' lsn kept := fun _ => by
    unfold executePhysicalRepair
    by_cases hempty : s.validLen = headerLen
    · have hnil : kept = [] := eq_nil_of_sizes (by have := hs.validLen; omega)
      refine ⟨0, ?_⟩
      rw [if_pos hempty, hnil, segmentBytes, recordBytes, List.append_nil]
    · refine ⟨hlc, ?_⟩
      rw [if_neg hempty]
      exact List.take_left' (by rw [length_segmentBytes, hs.validLen])
  have hbroken : t ≠ [] → decide (s.validLen < s.fileLen) = true := fun hne => by
    have := List.length_pos_iff.2 hne
    rw [hs.fileLen, hlength]
    exact decide_eq_true (by omega)
  rcases scanRecords_torn hs hdrop (by omega) ht com fuel with hok | ⟨hne, hok⟩
  · refine ⟨s, hscan.trans hok, ⟨s, hs, rfl⟩, .inl ?_⟩
    by_cases hne : t = []
    · refine ⟨hlc, ?_⟩
      have hwhole : decide (s.validLen < s.fileLen) = false := by
        rw [hs.fileLen, hlength, hne]
        exact decide_eq_false (Nat.lt_irrefl _)
      rw [hs.sound, hwhole, hne, List.append_nil]
      rfl
    · rw [hbroken hne, Bool.or_true, if_pos rfl]
      exact hrepair hne
  · refine ⟨s.corrupt, hscan.trans hok, ⟨s, hs, rfl⟩, .inl ?_⟩
    exact hrepair hne

/-- A file shorter than a header has no records; an empty one stays as it is. -/
theorem resumed_of_short {id lsn : Nat} {file : Bytes} (hshort : file.length < headerLen) (com : Bool) :
    ∃ scan, scanSegmentFile env file com = .ok scan ∧ Resumed env id lsn file [] scan := by
  refine ⟨_, if_pos hshort, ⟨.fresh file.length formatVersion, scanned_fresh _ _, rfl⟩, ?_⟩
  by_cases hnil : file = []
  · subst hnil
    exact .inr ⟨rfl, rfl⟩
  · refine .inl ⟨0, ?_⟩
    show (if decide (0 < file.length) || decide (headerLen < file.length) then executePhysicalRepair id file headerLen
      else file) = _
    rw [decide_eq_true (List.length_pos_iff.2 hnil), Bool.true_or, if_pos rfl, executePhysicalRepair, if_pos rfl,
      segmentBytes, recordBytes, List.append_nil]

/-! ## Opening -/

/-- A directory whose files are numbered from 0, as the list that is scanned. -/
theorem entries_of_get? {β : Type} {m : SortedMap Nat β} {n : Nat} {f : Nat → β}
    (h : ∀ i, m.get? i = if i < n then some (f i) else none) : m.entries = (List.range n).map (fun i => (i, f i)) := by
  have hsorted : ((List.range n).map (fun i => (i, f i))).Pairwise (fun a b => a.1 < b.1) :=
    List.pairwise_map.2 List.pairwise_lt_range
  have heq : m = ⟨(List.range n).map (fun i => (i, f i)), hsorted⟩ := by
    refine SortedMap.ext (fun k => ?_)
    rw [h]
    by_cases hk : k < n
    · rw [if_pos hk]
      exact (SortedMap.get?_eq_some.2 (List.mem_map.2 ⟨k, List.mem_range.2 hk, rfl⟩)).symm
    · rw [if_neg hk]
      cases hget : SortedMap.get? ⟨(List.range n).map (fun i => (i, f i)), hsorted⟩ k with
      | none => rfl
      | some v =>
        obtain ⟨i, hi, heq⟩ := List.mem_map.1 (SortedMap.get?_eq_some.1 hget)
        cases heq
        exact absurd (List.mem_range.1 hi) hk
  rw [heq]

variable (env) in
theorem scanSegments_eq : ∀ files : List (Nat × Bytes),
    (∀ p ∈ files, ∃ s, scanSegmentFile env p.2 (!temRodapeSelado p.2) = .ok s) →
    ∃ scans, scanSegments env files = .ok scans ∧ scans.length = files.length ∧
      ∀ (j : Nat) (p : Nat × Bytes), files[j]? = some p → ∃ s, scans[j]? = some (p, s) ∧
        scanSegmentFile env p.2 (!temRodapeSelado p.2) = .ok s
  | [], _ => ⟨[], rfl, rfl, fun j p hp => (by cases hp)⟩
  | (id, file) :: files, h => by
    obtain ⟨s, hs⟩ := h _ List.mem_cons_self
    obtain ⟨scans, hscans, hlength, hget⟩ := scanSegments_eq files (fun p hp => h p (List.mem_cons_of_mem _ hp))
    refine ⟨((id, file), s) :: scans, ?_, congrArg (· + 1) hlength, fun j p hp => ?_⟩
    · rw [scanSegments, hs, hscans]
    · cases j with
      | zero =>
        cases hp
        exact ⟨s, rfl, hs⟩
      | succ j => exact hget j p hp

/-- The first `i` segments have been taken as sealed. -/
structure Recovered (env : Env) (dir : SortedMap Nat Bytes) (segs : List (List Rec)) (i : Nat) (o : Opening) : Prop where
  sameDir : o.dir = dir
  length : o.initialSealed.length = i
  sealedAt : ∀ j c rs, o.initialSealed[j]? = some c → segs[j]? = some rs → SealedAt env dir j (start segs j) c rs
  next : o.maxRecoveredLsn.elim 0 (· + 1) = start segs i
  tailScan : o.tailScan = none

theorem next_foldl : ∀ (rs : List Rec) (lsn off : Nat) (m : Option Nat), m.elim 0 (· + 1) = lsn →
    ((indexFrom lsn off rs).foldl (fun m e => some (m.elim e.lsn (max · e.lsn))) m).elim 0 (· + 1) = lsn + rs.length
  | [], lsn, off, m, h => h
  | r :: rs, lsn, off, m, h => by
    rw [indexFrom, List.foldl_cons, List.length_cons, Nat.add_comm rs.length, ← Nat.add_assoc]
    refine next_foldl rs (lsn + 1) _ _ ?_
    cases m with
    | none =>
      have h0 : 0 = lsn := h
      rw [← h0]
      rfl
    | some k =>
      have hk : k + 1 = lsn := h
      show max k lsn + 1 = lsn + 1
      rw [Nat.max_eq_right (by omega)]

/-- **A sealed segment joins the catalog**, and its records become the next LSNs. -/
theorem Recovered.segment {dir : SortedMap Nat Bytes} {segs : List (List Rec)} {i : Nat} {o : Opening} {rs : List Rec}
    {file : Bytes} {scan : SegmentScan} {isLast : Bool} (h : Recovered env dir segs i o) (hseg : segs[i]? = some rs)
    (hget : dir.get? i = some file)
    (hfile : ∃ hlc count root, count < 2 ^ 64 ∧ file = sealedBytes env i hlc (start segs i) rs count root)
    (hscan : ScannedSealed scan file (start segs i) rs)
    (hok : scan.corruptionDetected = false ∨ isLast = true) :
    ∃ o', o.segment env isLast i file scan = .ok o' ∧ Recovered env dir segs (i + 1) o' := by
  obtain ⟨hlc, count, root, hcount, hfileEq⟩ := hfile
  have hwhole : decide (scan.validLen < scan.fileLen) = false := by
    rw [hscan.validLen, hscan.fileLen]
    exact decide_eq_false (Nat.lt_irrefl _)
  have hgo : ((scan.corruptionDetected || decide (scan.validLen < scan.fileLen)) && !isLast) = false := by
    rw [hwhole, Bool.or_false]
    rcases hok with hok | hok <;> simp [hok]
  have hlong : scan.validLen ≠ headerLen := by
    have hpos : footerLen = 60 := rfl
    rw [hscan.validLen, hfileEq, sealedBytes, List.length_append, length_segmentBytes, SegmentFooter.length_encode]
    omega
  have hrepaired : (if scan.corruptionDetected || decide (scan.validLen < scan.fileLen) then
      executePhysicalRepair i file scan.validLen else file) = file := by
    split
    · rw [executePhysicalRepair, if_neg hlong, hscan.validLen, List.take_length]
    · rfl
  have hnext := next_foldl rs (start segs i) headerLen o.maxRecoveredLsn h.next
  let o' : Opening := { o with
    dir := o.dir.insert i file
    maxRecoveredLsn := scan.locs.foldl (fun m e => some (m.elim e.lsn (max · e.lsn))) o.maxRecoveredLsn
    initialSealed := o.initialSealed ++ [sealedContainer i (start segs i) scan.blake3Root scan] }
  refine ⟨o', ?_, ?_⟩
  · unfold Opening.segment
    dsimp only
    rw [hgo, if_neg (by decide), hrepaired, hscan.isSealed, if_pos rfl]
    have hbase : scan.minLsn.getD ((scan.locs.foldl (fun m e => some (m.elim e.lsn (max · e.lsn)))
        o.maxRecoveredLsn).elim 0 (· + 1)) = start segs i := by
      rw [hscan.locs, hnext, hscan.minLsn]
      split
      · rename_i hnil
        rw [hnil]
        rfl
      · rfl
    rw [hbase]
  · refine ⟨?_, ?_, fun j c qs hc hqs => ?_, ?_, h.tailScan⟩
    · rw [← h.sameDir] at hget ⊢
      exact SortedMap.insert_of_get? hget
    · show (o.initialSealed ++ [_]).length = _
      rw [List.length_append, h.length]
      rfl
    · have hc' : (o.initialSealed ++ [sealedContainer i (start segs i) scan.blake3Root scan])[j]? = some c := hc
      by_cases hj : j < i
      · rw [List.getElem?_append_left (h.length ▸ hj)] at hc'
        exact h.sealedAt j c qs hc' hqs
      · have hji : j = i := by
          have := (List.getElem?_eq_some_iff.1 hc').1
          rw [List.length_append, h.length, List.length_singleton] at this
          omega
        subst hji
        have hlast : ∀ x, (o.initialSealed ++ [x])[j]? = some x := fun x => by
          rw [← h.length]
          exact List.getElem?_concat_length
        rw [hlast] at hc'
        rw [hseg] at hqs
        cases hc'
        cases hqs
        refine ⟨rfl, rfl, ?_, rfl, hscan.version, hscan.locs, hlc, count, root, hcount, hfileEq ▸ hget⟩
        show scan.maxLsn.getD _ = _
        rw [hscan.maxLsn]
        split
        · rename_i hnil
          rw [hnil]
          rfl
        · rfl
    · show ((scan.locs.foldl _ o.maxRecoveredLsn).elim 0 (· + 1)) = _
      rw [hscan.locs, hnext, start_succ hseg]

section Finish

variable {dir : SortedMap Nat Bytes} {segs : List (List Rec)} {o : Opening}

/-- The sealed segments are taken one after the other. -/
theorem openSegments_sealed {scans : List ((Nat × Bytes) × SegmentScan)}
    (h : ∀ j rs, segs[j]? = some rs → ∃ file scan, scans[j]? = some ((j, file), scan) ∧ dir.get? j = some file ∧
      (∃ hlc count root, count < 2 ^ 64 ∧ file = sealedBytes env j hlc (start segs j) rs count root) ∧
      ScannedSealed scan file (start segs j) rs ∧ (scan.corruptionDetected = false ∨ j + 1 = scans.length)) :
    ∀ i, i ≤ segs.length → ∃ o, Recovered env dir segs i o ∧
      openSegments env scans { dir := dir, initialSealed := [], maxRecoveredLsn := none, tailScan := none }
        = openSegments env (scans.drop i) o
  | 0, _ => ⟨_, ⟨rfl, rfl, fun j c rs hc => (by cases hc), rfl, rfl⟩, rfl⟩
  | i + 1, hi => by
    obtain ⟨o, ho, heq⟩ := openSegments_sealed h i (Nat.le_of_succ_le hi)
    have hseg : segs[i]? = some segs[i] := List.getElem?_eq_getElem hi
    obtain ⟨file, scan, hget, hdir, hfile, hscan, hok⟩ := h i _ hseg
    obtain ⟨hlt, hscanEq⟩ := List.getElem?_eq_some_iff.1 hget
    have hdrop : scans.drop i = ((i, file), scan) :: scans.drop (i + 1) := by
      rw [List.drop_eq_getElem_cons hlt, hscanEq]
    have hlast : scan.corruptionDetected = false ∨ (scans.drop (i + 1)).isEmpty = true := by
      refine hok.imp_right (fun hend => ?_)
      rw [List.drop_eq_nil_of_le (Nat.le_of_eq hend.symm)]
      rfl
    obtain ⟨o', ho', hrec⟩ := ho.segment hseg hdir hfile hscan hlast
    refine ⟨o', hrec, ?_⟩
    rw [heq, hdrop, openSegments, ho']

theorem Recovered.container (h : Recovered env dir segs segs.length o) {i : Nat} (hi : i < segs.length) :
    ∃ c, o.initialSealed[i]? = some c ∧ SealedAt env dir i (start segs i) c segs[i] := by
  have hi' : i < o.initialSealed.length := h.length ▸ hi
  exact ⟨_, List.getElem?_eq_getElem hi',
    h.sealedAt i _ _ (List.getElem?_eq_getElem hi') (List.getElem?_eq_getElem hi)⟩

/-- The catalog is in order as it is. -/
theorem Recovered.sorted (h : Recovered env dir segs segs.length o) :
    o.initialSealed.insertionSort (fun a b => a.baseLsn ≤ b.baseLsn) = o.initialSealed := by
  refine List.Pairwise.insertionSort_eq (List.pairwise_iff_getElem.2 (fun i j hi hj hij => ?_))
  have hj' : j < segs.length := h.length ▸ hj
  obtain ⟨c, hc, hsealed⟩ := h.container (Nat.lt_trans hij hj')
  obtain ⟨d, hd, hsealed'⟩ := h.container hj'
  rw [List.getElem?_eq_getElem hi] at hc
  rw [List.getElem?_eq_getElem hj] at hd
  rw [Option.some.inj hc, Option.some.inj hd, hsealed.baseLsn, hsealed'.baseLsn]
  exact start_mono segs (Nat.le_of_lt hij)

theorem Recovered.ids (h : Recovered env dir segs segs.length o) :
    o.initialSealed.map (·.id) = List.range segs.length := by
  refine List.ext_getElem? (fun i => ?_)
  rw [List.getElem?_map]
  by_cases hi : i < segs.length
  · obtain ⟨c, hc, hsealed⟩ := h.container hi
    rw [hc, Option.map_some, hsealed.id, List.getElem?_range hi]
  · rw [List.getElem?_eq_none (by rw [h.length]; omega), List.getElem?_eq_none (by simpa using hi)]
    rfl

theorem max?_range (n : Nat) : (List.range n).max?.elim 0 (· + 1) = n := by
  cases n with
  | zero => rfl
  | succ n =>
    have hmax : (List.range (n + 1)).max? = some n := by
      refine List.max?_eq_some_iff.2 ⟨List.mem_range.2 (Nat.lt_succ_self n), fun b hb => ?_⟩
      exact Nat.le_of_lt_succ (List.mem_range.1 hb)
    rw [hmax]
    rfl

/-- **A directory of sealed segments opens with a new empty one.** -/
theorem Recovered.steady_new (h : Recovered env dir segs segs.length o) (hread : ∀ r ∈ segs.flatten, r.Readable env)
    (hlsns : segs.flatten.length < 2 ^ 64) (hno : ∀ i, segs.length ≤ i → dir.get? i = none) :
    Steady env (o.finish env) segs [] := by
  have hid : ((o.initialSealed.map (·.id)).max?).elim 0 (· + 1) = segs.length := by rw [h.ids, max?_range]
  have hnext : o.maxRecoveredLsn.elim 0 (· + 1) = segs.flatten.length := by rw [h.next, start_length]
  have hlog : o.finish env = {
      dir := (newActive env dir segs.length segs.flatten.length).1
      catalog := { sealedSegments := o.initialSealed, active := emptyActive segs.length segs.flatten.length }
      active := (newActive env dir segs.length segs.flatten.length).2
      committedLsn := segs.flatten.length } := by
    unfold Opening.finish
    rw [h.tailScan, h.sorted, hid, hnext, h.sameDir]
  have hdir : ∀ i, (newActive env dir segs.length segs.flatten.length).1.get? i
      = if i = segs.length then some (segmentBytes env segs.length (env.createdHlc segs.length) segs.flatten.length [])
        else dir.get? i := fun i => by
    rw [newActive]
    dsimp only
    rw [get?_writeAll, hno _ (Nat.le_refl _), segmentBytes, recordBytes, List.append_nil]
    rfl
  rw [hlog]
  refine ⟨⟨?_, h.length, fun i c rs hc hrs => ?_, rfl, rfl, rfl, rfl, .inl ⟨env.createdHlc segs.length, ?_⟩, rfl, rfl,
    Nat.le_refl _, rfl, rfl, fun i hi => ?_⟩, rfl, ?_, ?_⟩
  · rw [List.append_nil]
    exact hread
  · have hi : i < segs.length := (List.getElem?_eq_some_iff.1 hrs).1
    refine (h.sealedAt i c rs hc hrs).of_get?_eq ?_
    rw [hdir, if_neg (Nat.ne_of_lt hi)]
  · rw [hdir, if_pos rfl]
  · rw [hdir, if_neg (Nat.ne_of_gt hi)]
    exact hno i (Nat.le_of_lt hi)
  · rw [List.append_nil]
  · rwa [List.append_nil]

/-- **A directory with an unsealed newest segment opens where that one ends.** -/
theorem Recovered.steady_resumed (h : Recovered env dir segs segs.length o) {file : Bytes} {scan : SegmentScan}
    {kept : List Rec} (hscan : Resumed env segs.length segs.flatten.length file kept scan)
    (hread : ∀ r ∈ segs.flatten ++ kept, r.Readable env) (hlsns : (segs.flatten ++ kept).length < 2 ^ 64)
    (hno : ∀ i, segs.length < i → dir.get? i = none) :
    ∃ o', o.segment env true segs.length file scan = .ok o' ∧ Steady env (o'.finish env) segs kept ∧
      (o'.finish env).active.recordHashes = scan.recordHashes ∧
      ∀ i, (o'.finish env).dir.get? i = if i = segs.length then
        some (if scan.corruptionDetected || decide (scan.validLen < scan.fileLen) then
          executePhysicalRepair segs.length file scan.validLen else file)
        else dir.get? i := by
  obtain ⟨⟨s, hs, hscanEq⟩, hrepaired⟩ := hscan
  have hsealed : scan.isSealed = false := by rw [hscanEq]; exact hs.isSealed
  have hversion : scan.version = formatVersion := by rw [hscanEq]; exact hs.version
  have hlocs : scan.locs = indexFrom segs.flatten.length headerLen kept := by rw [hscanEq]; exact hs.locs
  have hmin : scan.minLsn = if kept = [] then none else some segs.flatten.length := by rw [hscanEq]; exact hs.minLsn
  have hmax : scan.maxLsn = if kept = [] then none else some (segs.flatten.length + (kept.length - 1)) := by
    rw [hscanEq]
    exact hs.maxLsn
  have hvalid : scan.validLen = headerLen + sizes kept := by rw [hscanEq]; exact hs.validLen
  have hhashes : scan.recordHashes.length ≤ kept.length := by rw [hscanEq]; exact hs.recordHashes
  generalize hrep : (if scan.corruptionDetected || decide (scan.validLen < scan.fileLen) then
      executePhysicalRepair segs.length file scan.validLen else file) = repaired at hrepaired
  have hnext := next_foldl kept segs.flatten.length headerLen o.maxRecoveredLsn (by rw [h.next, start_length])
  have hbase : scan.minLsn.getD (segs.flatten.length + kept.length) = segs.flatten.length := by
    rw [hmin]
    split
    · rename_i hnil
      rw [hnil]
      rfl
    · rfl
  have hlast : scan.maxLsn.getD (segs.flatten.length + kept.length) = segs.flatten.length + (kept.length - 1) := by
    rw [hmax]
    split
    · rename_i hnil
      rw [hnil]
      rfl
    · rfl
  let o' : Opening := { o with
    dir := o.dir.insert segs.length repaired
    maxRecoveredLsn := scan.locs.foldl (fun m e => some (m.elim e.lsn (max · e.lsn))) o.maxRecoveredLsn
    tailScan := some (segs.length, scan) }
  have hdir : ∀ i, o'.dir.get? i = if i = segs.length then some repaired else dir.get? i := fun i => by
    show (o.dir.insert segs.length repaired).get? i = _
    rw [SortedMap.get?_insert, h.sameDir]
  have hlog : o'.finish env = {
      dir := o'.dir
      catalog := {
        sealedSegments := o.initialSealed
        active := { emptyActive segs.length segs.flatten.length with entries := scan.locs } }
      active := {
        segmentId := segs.length, bytesWritten := scan.validLen, recordHashes := scan.recordHashes,
        baseLsn := segs.flatten.length, maxLsn := segs.flatten.length + (kept.length - 1) }
      committedLsn := segs.flatten.length + kept.length } := by
    have hnext' : o'.maxRecoveredLsn.elim 0 (· + 1) = segs.flatten.length + kept.length := by
      rw [← hlocs] at hnext
      exact hnext
    unfold Opening.finish
    rw [hnext']
    dsimp only [o']
    rw [hbase, hlast, h.sorted]
  refine ⟨o', ?_, ?_⟩
  · unfold Opening.segment
    dsimp only
    rw [hrep, Bool.not_true, Bool.and_false, if_neg (by decide), hsealed, if_neg (by decide), hversion,
      if_pos (by rfl)]
  · rw [hlog]
    refine ⟨⟨⟨hread, h.length, fun i c rs hc hrs => ?_, rfl, rfl, rfl, rfl, ?_, rfl, hvalid, hhashes, rfl, rfl,
      fun i hi => ?_⟩, hlocs, ?_, hlsns⟩, rfl, fun i => ?_⟩
    · have hi : i < segs.length := (List.getElem?_eq_some_iff.1 hrs).1
      refine (h.sealedAt i c rs hc hrs).of_get?_eq ?_
      rw [hdir, if_neg (Nat.ne_of_lt hi)]
    · rcases hrepaired with ⟨hlc, hfile⟩ | ⟨hnil, hfile⟩
      · refine .inl ⟨hlc, ?_⟩
        rw [hdir, if_pos rfl, hfile]
      · refine .inr ⟨hnil, ?_⟩
        rw [hdir, if_pos rfl, hfile]
    · rw [hdir, if_neg (Nat.ne_of_gt hi)]
      exact hno i hi
    · rw [List.length_append]
    · exact hdir i

end Finish

/-! ## Crashes -/

variable (env) in
/-- The directory after a crash that left `len` bytes of the newest segment file; `sealing` says that the footer was being
written. -/
def Log.crash (log : Log) (sealing : Bool) (len : Nat) : SortedMap Nat Bytes :=
  let file := (log.dir.get? log.active.segmentId).getD []
  let written := if sealing then file ++ (sealingFooter env log.active).encode else file
  log.dir.insert log.active.segmentId (written.take len)

/-- How many records of the newest segment lie wholly in its first `len` bytes: each ends where the next one, or the
space behind the last, begins. -/
def Log.wholeRecords (log : Log) (len : Nat) : Nat :=
  (((log.catalog.active.entries.map (·.offset) ++ [log.active.bytesWritten]).tail).filter (· ≤ len)).length

/-- Every sealed segment's footer counts the records that the catalog has of it. -/
def Log.FootersAgree (log : Log) : Prop :=
  ∀ c file f, c ∈ log.catalog.sealedSegments → log.dir.get? c.id = some file →
    SegmentFooter.decode (file.drop (file.length - footerLen)) = some f → f.recordCount = c.entries.length

instance (log : Log) : Decidable log.FootersAgree :=
  decidable_of_iff (∀ c ∈ log.catalog.sealedSegments, ∀ file, log.dir.get? c.id = some file →
      ∀ f, SegmentFooter.decode (file.drop (file.length - footerLen)) = some f → f.recordCount = c.entries.length)
    ⟨fun h c file f hc hfile => h c hc file hfile f, fun h c hc file hfile f => h c file f hc hfile⟩

theorem size_pos (r : Rec) : 0 < r.size := by
  unfold Rec.size recordHeaderLen
  omega

theorem wholeIn_zero : ∀ rs : List Rec, wholeIn 0 rs = 0
  | [] => rfl
  | r :: rs => by rw [wholeIn, if_neg (Nat.not_le.2 (size_pos r))]

/-- The ends of the records that begin at byte `off`. -/
def ends : Nat → List Rec → List Nat
  | _, [] => []
  | off, r :: rs => (off + r.size) :: ends (off + r.size) rs

theorem offsets_eq : ∀ (rs : List Rec) (lsn off : Nat),
    (indexFrom lsn off rs).map (·.offset) ++ [off + sizes rs] = off :: ends off rs
  | [], _, _ => rfl
  | r :: rs, lsn, off => by
    have hsum : off + sizes (r :: rs) = off + r.size + sizes rs := by simp [sizes, Nat.add_assoc]
    rw [indexFrom, List.map_cons, List.cons_append, hsum, offsets_eq rs, ends]

theorem length_filter_ends (len : Nat) : ∀ (rs : List Rec) (off : Nat),
    ((ends off rs).filter (· ≤ len)).length = if off ≤ len then wholeIn (len - off) rs else 0
  | [], off => by simp [ends, wholeIn]
  | r :: rs, off => by
    have hpos := size_pos r
    have ih := length_filter_ends len rs (off + r.size)
    rw [ends, List.filter_cons]
    by_cases hle : off + r.size ≤ len
    · rw [if_pos hle] at ih
      rw [if_pos (decide_eq_true hle), List.length_cons, ih, if_pos (by omega), wholeIn, if_pos (by omega), Nat.sub_add_eq]
    · rw [if_neg hle] at ih
      rw [if_neg (by simpa using hle), ih, wholeIn]
      split
      · rw [if_neg (by omega)]
      · rfl

variable {log : Log} {segs : List (List Rec)} {act : List Rec}

theorem Steady.wholeRecords_eq (h : Steady env log segs act) (len : Nat) :
    log.wholeRecords len = wholeIn (len - headerLen) act := by
  rw [Log.wholeRecords, h.entries, h.bytesWritten, offsets_eq, List.tail_cons, length_filter_ends]
  split
  · rfl
  · rw [Nat.sub_eq_zero_of_le (by omega), wholeIn_zero]

/-- What a crash leaves of the newest file is resumed at its last whole record, or sealed. -/
theorem Steady.crashed_file (h : Steady env log segs act) {sealing : Bool} {len : Nat} {cut : Bytes}
    (hsolid : sealing = true → log.dir.get? segs.length ≠ some [])
    (hcut : (log.crash env sealing len).get? segs.length = some cut) :
    (∀ com, ∃ scan, scanSegmentFile env cut com = .ok scan ∧
      Resumed env segs.length segs.flatten.length cut (act.take (wholeIn (len - headerLen) act)) scan) ∨
    wholeIn (len - headerLen) act = act.length ∧ ∃ hlc count root, count < 2 ^ 64 ∧
      cut = sealedBytes env segs.length hlc segs.flatten.length act count root := by
  have hlsns := h.lsns
  rw [List.length_append] at hlsns
  have hreadAct : ∀ r ∈ act, r.Readable env := fun r hr => h.readable r (List.mem_append_right _ hr)
  have hreadKept : ∀ r ∈ act.take (wholeIn (len - headerLen) act), r.Readable env :=
    fun r hr => hreadAct r (List.mem_of_mem_take hr)
  have hkept : (act.take (wholeIn (len - headerLen) act)).length ≤ act.length := by
    rw [List.length_take]
    exact Nat.min_le_right _ _
  unfold Log.crash at hcut
  rw [SortedMap.get?_insert, h.segmentId, if_pos rfl] at hcut
  rcases h.file with ⟨hlc, hfile⟩ | ⟨hnil, hfile⟩
  · rw [hfile, Option.getD_some] at hcut
    let footer := sealingFooter env log.active
    have hfooter : footer = ⟨log.active.recordHashes.length, segs.flatten.length,
        segs.flatten.length + (act.length - 1), merkleRoot env.toHashes log.active.recordHashes⟩ := by
      show sealingFooter env log.active = _
      rw [sealingFooter, h.minLsn, h.maxLsn]
    let tail : Bytes := if sealing then footer.encode else []
    have hwritten : cut = (segmentBytes env segs.length hlc segs.flatten.length act ++ tail).take len := by
      rw [← Option.some.inj hcut]
      cases sealing with
      | true => rfl
      | false => rw [if_neg (by decide), show tail = [] from rfl, List.append_nil]
    by_cases hshort : len < headerLen
    · refine .inl (fun com => ?_)
      have hcutShort : cut.length < headerLen := by
        rw [hwritten, List.length_take]
        omega
      have hzero : act.take (wholeIn (len - headerLen) act) = [] := by
        rw [Nat.sub_eq_zero_of_le (Nat.le_of_lt hshort), wholeIn_zero]
        rfl
      rw [hzero]
      exact resumed_of_short hcutShort com
    · have hheader : cut = SegmentHeader.encode { version := formatVersion, segmentId := segs.length, createdHlc := hlc }
          ++ (recordBytes env segs.flatten.length act ++ tail).take (len - headerLen) := by
        rw [hwritten, segmentBytes, List.append_assoc, List.take_append, SegmentHeader.length_encode,
          List.take_of_length_le (by rw [SegmentHeader.length_encode]; omega)]
      rcases take_recordBytes tail act segs.flatten.length (len - headerLen) hreadAct with ⟨t, heq, ht⟩ | ⟨hall, heq⟩
      · refine .inl (fun com => ?_)
        rw [heq, ← List.append_assoc] at hheader
        rw [hheader]
        exact resumed_of_torn ht hreadKept (by omega) com
      · rw [heq, ← List.append_assoc] at hheader
        by_cases hfull : sealing = true ∧ footerLen ≤ len - headerLen - sizes act
        · have htail : tail = footer.encode := if_pos hfull.1
          refine .inr ⟨hall, hlc, log.active.recordHashes.length, merkleRoot env.toHashes log.active.recordHashes, ?_, ?_⟩
          · have := h.recordHashes
            omega
          · rw [hheader, htail, List.take_of_length_le (by rw [SegmentFooter.length_encode]; exact hfull.2), hfooter]
            rfl
        · have ht : Torn env (tail.take (len - headerLen - sizes act)) := by
            cases hs : sealing with
            | false =>
              have htail : tail = [] := if_neg (by rw [hs]; decide)
              rw [htail, List.take_nil]
              exact .nothing
            | true =>
              have htail : tail = footer.encode := if_pos hs
              rw [htail]
              exact .footer footer _ (Nat.not_le.1 (fun hle => hfull ⟨hs, hle⟩))
          refine .inl (fun com => ?_)
          rw [hheader, hall, List.take_length]
          exact resumed_of_torn ht hreadAct (by omega) com
  · have hsealing : sealing = false := by
      cases hs : sealing with
      | false => rfl
      | true => exact absurd hfile (hsolid hs)
    rw [hsealing, hfile, Option.getD_some, if_neg (by decide), List.take_nil] at hcut
    refine .inl (fun com => ?_)
    rw [← Option.some.inj hcut, hnil, List.take_nil]
    exact resumed_of_short (by decide) com

/-- The last bytes of a sealed file are its footer. -/
theorem decode_sealedBytes {i hlc lsn count : Nat} {rs : List Rec} {root : Digest} (hcount : count < 2 ^ 64)
    (hlsn : lsn + rs.length < 2 ^ 64) :
    SegmentFooter.decode ((sealedBytes env i hlc lsn rs count root).drop
      ((sealedBytes env i hlc lsn rs count root).length - footerLen))
      = some ⟨count, lsn, lsn + (rs.length - 1), root⟩ := by
  let footer : SegmentFooter := ⟨count, lsn, lsn + (rs.length - 1), root⟩
  have hlen : (sealedBytes env i hlc lsn rs count root).length - footerLen = (segmentBytes env i hlc lsn rs).length := by
    rw [sealedBytes, List.length_append, SegmentFooter.length_encode, Nat.add_sub_cancel]
  rw [hlen, sealedBytes, List.drop_left]
  exact footer.decode_encode hcount (by show lsn < _; omega) (by show lsn + (rs.length - 1) < _; omega)

theorem Steady.sealed_lsns (h : Steady env log segs act) {i : Nat} {rs : List Rec} (hseg : segs[i]? = some rs) :
    start segs i + rs.length < 2 ^ 64 := by
  have hle : start segs (i + 1) ≤ segs.flatten.length := by
    rw [← start_length]
    exact start_mono segs (List.getElem?_eq_some_iff.1 hseg).1
  have := h.lsns
  rw [start_succ hseg] at hle
  rw [List.length_append] at this
  omega

theorem Steady.sealed_readable (h : Steady env log segs act) {i : Nat} {rs : List Rec} (hseg : segs[i]? = some rs) :
    ∀ r ∈ rs, r.Readable env := fun r hr =>
  h.readable r (List.mem_append_left _ (List.mem_flatten.2 ⟨rs, List.mem_of_getElem? hseg, hr⟩))

/-- A sealed segment whose footer agrees is scanned as what it is. -/
theorem Steady.scanned_sealed (h : Steady env log segs act) (hfooters : log.FootersAgree) {i : Nat} {rs : List Rec}
    (hseg : segs[i]? = some rs) : ∃ file, log.dir.get? i = some file ∧
      (∃ hlc count root, count < 2 ^ 64 ∧ file = sealedBytes env i hlc (start segs i) rs count root) ∧
      ∀ com, ∃ scan, scanSegmentFile env file com = .ok scan ∧ ScannedSealed scan file (start segs i) rs ∧
        scan.corruptionDetected = false := by
  obtain ⟨c, hmem, hc⟩ := h.container hseg
  obtain ⟨hlc, count, root, hcount, hfile⟩ := hc.file
  have hlsn := h.sealed_lsns hseg
  have hread := h.sealed_readable hseg
  have hagree : count = rs.length := by
    have hget := hfile
    rw [← hc.id] at hget
    have := hfooters c _ _ (List.mem_of_getElem? hmem) hget (hc.id.symm ▸ decode_sealedBytes hcount hlsn)
    rwa [hc.entries, length_indexFrom] at this
  refine ⟨_, hfile, ⟨hlc, count, root, hcount, rfl⟩, fun com => ?_⟩
  obtain ⟨scan, hok, hscan, hsound⟩ := scanSegmentFile_sealed rfl hread hcount hlsn com
  exact ⟨scan, hok, hscan, hsound hagree⟩

/-- The scans of a directory: the segments `segs` are sealed, and `cut` is the file of the newest one. -/
structure DirScanned (env : Env) (dir : SortedMap Nat Bytes) (segs : List (List Rec)) (cut : Bytes) (last : SegmentScan)
    (scans : List ((Nat × Bytes) × SegmentScan)) : Prop where
  scanned : scanSegments env dir.entries = .ok scans
  length : scans.length = segs.length + 1
  newest : dir.get? segs.length = some cut
  atEnd : scans[segs.length]? = some ((segs.length, cut), last)
  lastScan : scanSegmentFile env cut (!temRodapeSelado cut) = .ok last
  sealed : ∀ j rs, segs[j]? = some rs → ∃ file scan, scans[j]? = some ((j, file), scan) ∧ dir.get? j = some file ∧
    (∃ hlc count root, count < 2 ^ 64 ∧ file = sealedBytes env j hlc (start segs j) rs count root) ∧
    ScannedSealed scan file (start segs j) rs ∧ (scan.corruptionDetected = false ∨ j + 1 = scans.length)
  no_more_files : ∀ i, segs.length < i → dir.get? i = none

theorem crash_get?_of_ne (h : Steady env log segs act) (sealing : Bool) (len : Nat) {i : Nat} (hi : i ≠ segs.length) :
    (log.crash env sealing len).get? i = log.dir.get? i := by
  rw [Log.crash, SortedMap.get?_insert, h.segmentId, if_neg hi]

/-- Every file of a directory after a crash can be scanned. -/
theorem Steady.dirScanned (h : Steady env log segs act) (hfooters : log.FootersAgree) (sealing : Bool) (len : Nat)
    (hsolid : sealing = true → log.dir.get? segs.length ≠ some []) :
    ∃ cut last scans, DirScanned env (log.crash env sealing len) segs cut last scans := by
  have hlsns := h.lsns
  rw [List.length_append] at hlsns
  let f : Nat → Bytes := fun i => ((log.crash env sealing len).get? i).getD []
  have hnewest : (log.crash env sealing len).get? segs.length = some (f segs.length) := by
    show _ = some (((log.crash env sealing len).get? segs.length).getD [])
    rw [Log.crash, SortedMap.get?_insert, h.segmentId, if_pos rfl]
    rfl
  have hsealed : ∀ j rs, segs[j]? = some rs → (log.crash env sealing len).get? j = some (f j) ∧
      (∃ hlc count root, count < 2 ^ 64 ∧ f j = sealedBytes env j hlc (start segs j) rs count root) ∧
      ∀ com, ∃ scan, scanSegmentFile env (f j) com = .ok scan ∧ ScannedSealed scan (f j) (start segs j) rs ∧
        scan.corruptionDetected = false := fun j rs hseg => by
    obtain ⟨file, hget, hfile, hscan⟩ := h.scanned_sealed hfooters hseg
    have hj : j ≠ segs.length := Nat.ne_of_lt (List.getElem?_eq_some_iff.1 hseg).1
    have hfj : f j = file := by
      show ((log.crash env sealing len).get? j).getD [] = file
      rw [crash_get?_of_ne h sealing len hj, hget]
      rfl
    rw [crash_get?_of_ne h sealing len hj, hget, hfj]
    exact ⟨rfl, hfile, hscan⟩
  have hno : ∀ i, segs.length < i → (log.crash env sealing len).get? i = none := fun i hi => by
    rw [crash_get?_of_ne h sealing len (Nat.ne_of_gt hi)]
    exact h.no_more_files i hi
  have hkeys : ∀ i, (log.crash env sealing len).get? i = if i < segs.length + 1 then some (f i) else none := fun i => by
    by_cases hi : i < segs.length
    · rw [if_pos (by omega)]
      exact (hsealed i _ (List.getElem?_eq_getElem hi)).1
    · by_cases hlast : i = segs.length
      · rw [hlast, if_pos (Nat.lt_succ_self _)]
        exact hnewest
      · rw [if_neg (by omega)]
        exact hno i (by omega)
  have hentries : (log.crash env sealing len).entries = (List.range (segs.length + 1)).map (fun i => (i, f i)) :=
    entries_of_get? hkeys
  have hnewestScan : ∃ s, scanSegmentFile env (f segs.length) (!temRodapeSelado (f segs.length)) = .ok s := by
    rcases h.crashed_file hsolid hnewest with hres | ⟨-, hlc, count, root, hcount, hfile⟩
    · obtain ⟨scan, hok, -⟩ := hres (!temRodapeSelado (f segs.length))
      exact ⟨scan, hok⟩
    · obtain ⟨scan, hok, -⟩ := scanSegmentFile_sealed hfile (fun r hr => h.readable r (List.mem_append_right _ hr)) hcount
        hlsns (!temRodapeSelado (f segs.length))
      exact ⟨scan, hok⟩
  obtain ⟨scans, hscans, hlength, hget⟩ := scanSegments_eq env (log.crash env sealing len).entries
    (fun p hp => by
      rw [hentries] at hp
      obtain ⟨i, hi, rfl⟩ := List.mem_map.1 hp
      by_cases hlast : i = segs.length
      · rw [hlast]
        exact hnewestScan
      · have hi' : i < segs.length := by
          have := List.mem_range.1 hi
          omega
        obtain ⟨scan, hok, -⟩ := (hsealed i _ (List.getElem?_eq_getElem hi')).2.2 (!temRodapeSelado (f i))
        exact ⟨scan, hok⟩)
  rw [hentries, List.length_map, List.length_range] at hlength
  have hscanned : ∀ j, j ≤ segs.length → ∃ s, scans[j]? = some ((j, f j), s) ∧
      scanSegmentFile env (f j) (!temRodapeSelado (f j)) = .ok s := fun j hj => by
    refine hget j (j, f j) ?_
    rw [hentries, List.getElem?_map, List.getElem?_range (by omega)]
    rfl
  obtain ⟨last, hlastGet, hlastScan⟩ := hscanned segs.length (Nat.le_refl _)
  refine ⟨f segs.length, last, scans, hscans, hlength, hnewest, hlastGet, hlastScan, fun j rs hseg => ?_, hno⟩
  obtain ⟨hfj, hshape, hscan⟩ := hsealed j rs hseg
  obtain ⟨s, hs, hok⟩ := hscanned j (Nat.le_of_lt (List.getElem?_eq_some_iff.1 hseg).1)
  obtain ⟨s', hok', hscan', hsound⟩ := hscan (!temRodapeSelado (f j))
  cases hok.symm.trans hok'
  exact ⟨f j, s, hs, hfj, hshape, hscan', .inl hsound⟩

section Open

variable {dir : SortedMap Nat Bytes} {cut : Bytes} {last : SegmentScan} {scans : List ((Nat × Bytes) × SegmentScan)}
  {kept : List Rec}

/-- **The newest segment goes on**, with the leaf hashes of its scan. -/
theorem DirScanned.open_resumed (h : DirScanned env dir segs cut last scans)
    (hresumed : Resumed env segs.length segs.flatten.length cut kept last)
    (hread : ∀ r ∈ segs.flatten ++ kept, r.Readable env) (hlsns : (segs.flatten ++ kept).length < 2 ^ 64) :
    ∃ log', openLog env dir = .ok log' ∧ Steady env log' segs kept ∧ log'.active.recordHashes = last.recordHashes ∧
      ∀ i, log'.dir.get? i = if i = segs.length then
        some (if last.corruptionDetected || decide (last.validLen < last.fileLen) then
          executePhysicalRepair segs.length cut last.validLen else cut)
        else dir.get? i := by
  obtain ⟨o, ho, heq⟩ := openSegments_sealed h.sealed segs.length (Nat.le_refl _)
  obtain ⟨o', hsegment, hopened⟩ := ho.steady_resumed hresumed hread hlsns h.no_more_files
  obtain ⟨hlt, hlastEq⟩ := List.getElem?_eq_some_iff.1 h.atEnd
  have hlength := h.length
  have hdrop : scans.drop segs.length = [((segs.length, cut), last)] := by
    rw [List.drop_eq_getElem_cons hlt, hlastEq, List.drop_eq_nil_of_le (by omega)]
  have hopen : openSegments env scans ⟨dir, [], none, none⟩ = .ok o' := by
    rw [heq, hdrop, openSegments]
    dsimp only [List.isEmpty_nil]
    rw [hsegment]
    rfl
  refine ⟨o'.finish env, ?_, hopened⟩
  rw [openLog, h.scanned]
  dsimp only
  rw [hopen]

/-- **The newest segment is sealed as well.** -/
theorem DirScanned.open_sealed (h : DirScanned env dir segs cut last scans) {hlc count : Nat} {root : Digest}
    (hcount : count < 2 ^ 64) (hfile : cut = sealedBytes env segs.length hlc segs.flatten.length kept count root)
    (hread : ∀ r ∈ segs.flatten ++ kept, r.Readable env) (hlsns : (segs.flatten ++ kept).length < 2 ^ 64) :
    ∃ log', openLog env dir = .ok log' ∧ Steady env log' (segs ++ [kept]) [] := by
  have hflat : (segs ++ [kept]).flatten = segs.flatten ++ kept := by
    rw [List.flatten_append, List.flatten_singleton]
  have hstart : start (segs ++ [kept]) segs.length = segs.flatten.length := by
    rw [start_append [kept] (Nat.le_refl _), start_length]
  have hlen : (segs ++ [kept]).length = segs.length + 1 := by
    rw [List.length_append, List.length_singleton]
  have hsegs : ∀ j rs, (segs ++ [kept])[j]? = some rs → ∃ file scan, scans[j]? = some ((j, file), scan) ∧
      dir.get? j = some file ∧
      (∃ hlc count root, count < 2 ^ 64 ∧ file = sealedBytes env j hlc (start (segs ++ [kept]) j) rs count root) ∧
      ScannedSealed scan file (start (segs ++ [kept]) j) rs ∧
      (scan.corruptionDetected = false ∨ j + 1 = scans.length) := fun j rs hseg => by
    by_cases hj : j < segs.length
    · rw [List.getElem?_append_left hj] at hseg
      rw [start_append [kept] (Nat.le_of_lt hj)]
      exact h.sealed j rs hseg
    · have hjeq : j = segs.length := by
        have := (List.getElem?_eq_some_iff.1 hseg).1
        omega
      subst hjeq
      rw [List.getElem?_concat_length] at hseg
      cases hseg
      rw [List.length_append] at hlsns
      obtain ⟨s, hok, hscan, -⟩ := scanSegmentFile_sealed hfile (fun r hr => hread r (List.mem_append_right _ hr)) hcount
        hlsns (!temRodapeSelado cut)
      cases h.lastScan.symm.trans hok
      rw [hstart]
      exact ⟨cut, last, h.atEnd, h.newest, ⟨hlc, count, root, hcount, hfile⟩, hscan, .inr h.length.symm⟩
  obtain ⟨o, ho, heq⟩ := openSegments_sealed hsegs (segs ++ [kept]).length (Nat.le_refl _)
  have hsteady := ho.steady_new (by rwa [hflat]) (by rwa [hflat])
    (fun i hi => by
      rw [hlen] at hi
      exact h.no_more_files i hi)
  have hlength := h.length
  have hopen : openSegments env scans ⟨dir, [], none, none⟩ = .ok o := by
    rw [heq, List.drop_eq_nil_of_le (by omega)]
    rfl
  refine ⟨o.finish env, ?_, hsteady⟩
  rw [openLog, h.scanned]
  dsimp only
  rw [hopen]

end Open

/-- **A log opens after any crash**, with its sealed segments and the whole records that are left, if its sealed footers
agree. -/
theorem Steady.open_crash (h : Steady env log segs act) (hfooters : log.FootersAgree) (sealing : Bool) (len : Nat)
    (hsolid : sealing = true → log.dir.get? segs.length ≠ some []) :
    ∃ log' segs' act', openLog env (log.crash env sealing len) = .ok log' ∧ Steady env log' segs' act' ∧
      segs'.flatten ++ act' = segs.flatten ++ act.take (wholeIn (len - headerLen) act) ∧ segs <+: segs' := by
  obtain ⟨cut, last, scans, hd⟩ := h.dirScanned hfooters sealing len hsolid
  rcases h.crashed_file hsolid hd.newest with hres | ⟨hall, hlc, count, root, hcount, hfile⟩
  · obtain ⟨last', hok, hresumed⟩ := hres (!temRodapeSelado cut)
    cases hd.lastScan.symm.trans hok
    have hlsns := h.lsns
    have hkept : (act.take (wholeIn (len - headerLen) act)).length ≤ act.length := by
      rw [List.length_take]
      exact Nat.min_le_right _ _
    have hlen : (segs.flatten ++ act.take (wholeIn (len - headerLen) act)).length < 2 ^ 64 := by
      rw [List.length_append] at hlsns ⊢
      omega
    obtain ⟨log', hopen, hsteady, -, -⟩ := hd.open_resumed hresumed
      (fun r hr => h.readable r ((List.mem_append.1 hr).elim (List.mem_append_left _)
        (fun hr => List.mem_append_right _ (List.mem_of_mem_take hr)))) hlen
    exact ⟨log', segs, _, hopen, hsteady, rfl, List.prefix_rfl⟩
  · obtain ⟨log', hopen, hsteady⟩ := hd.open_sealed hcount hfile h.readable h.lsns
    refine ⟨log', segs ++ [act], [], hopen, hsteady, ?_, List.prefix_append _ _⟩
    rw [List.flatten_append, List.flatten_singleton, List.append_nil, hall, List.take_length]

/-! ## Lifetimes -/

/-- A log directory with the log opened on it, and the episodes that should be there. -/
structure Lifetime where
  log : Except HeraclitusError Log
  history : List Episode

/-- A batch, or a crash and the opening after it. -/
inductive Event where
  | batch (cmds : List LogCommand)
  | crash (sealing : Bool) (len : Nat)

variable (env) in
def Lifetime.start : Lifetime := { log := openLog env .empty, history := [] }

variable (env) in
/-- A crash keeps the sealed records and the whole records of the newest segment. -/
def Lifetime.step (segmentMaxBytes : Nat) (s : Lifetime) : Event → Option Lifetime
  | .batch cmds =>
    match s.log with
    | .error _ => none
    | .ok log =>
      if 1 ≤ cmds.length ∧ cmds.length ≤ 128 then
        let done := log.batch env segmentMaxBytes cmds
        some { log := .ok done.1, history := s.history ++ (acks done.2).map Prod.snd }
      else none
  | .crash sealing len =>
    match s.log with
    | .error _ => none
    | .ok log => some {
        log := openLog env (log.crash env sealing len)
        history := s.history.take (log.active.baseLsn + log.wholeRecords len) }

/-- The newest segment file has more than nothing in it. -/
def Log.Solid (log : Log) : Prop := log.dir.get? log.active.segmentId ≠ some []

instance (log : Log) : Decidable log.Solid := inferInstanceAs (Decidable (_ ≠ _))

variable (env) in
/-- Batches are bounded and not taken over an empty file; footers agree when the log is opened again. -/
def EventOk (s : Lifetime) : Event → Prop
  | .batch cmds => ∀ log, s.log = .ok log → log.BatchOk env cmds ∧ log.Solid
  | .crash sealing _ => ∀ log, s.log = .ok log → log.FootersAgree ∧ (sealing = true → log.Solid)

instance (s : Lifetime) : ∀ e : Event, Decidable (EventOk env s e)
  | .batch cmds => inferInstanceAs (Decidable (∀ log, s.log = .ok log → log.BatchOk env cmds ∧ log.Solid))
  | .crash sealing _ =>
    inferInstanceAs (Decidable (∀ log, s.log = .ok log → log.FootersAgree ∧ (sealing = true → log.Solid)))

variable (env) in
def Lifetime.Inv (s : Lifetime) : Prop :=
  ∃ log segs act, s.log = .ok log ∧ Steady env log segs act ∧ s.history = (segs.flatten ++ act).map Rec.episode

theorem Steady.solid_iff (h : Steady env log segs act) : log.Solid ↔ log.dir.get? segs.length ≠ some [] := by
  rw [Log.Solid, h.segmentId]

/-- **A batch or a crash keeps the sealed segments**, and the log holds the history. -/
theorem Lifetime.steady_step (hcodec : env.RoundTrips) {segmentMaxBytes : Nat} {s s' : Lifetime} {e : Event}
    (hlog : s.log = .ok log) (h : Steady env log segs act) (hhistory : s.history = (segs.flatten ++ act).map Rec.episode)
    (hok : EventOk env s e) (hs : s.step env segmentMaxBytes e = some s') : ∃ log' segs' act', s'.log = .ok log' ∧
      Steady env log' segs' act' ∧ s'.history = (segs'.flatten ++ act').map Rec.episode ∧ segs <+: segs' := by
  cases e with
  | batch cmds =>
    obtain ⟨⟨hbounded, hlsns⟩, hsolid⟩ := hok log hlog
    obtain ⟨segs', act', done, hsteady', -, hrecords, hacks, hpre⟩ :=
      h.batch_keeps (keptByWorker_extends segs) List.prefix_rfl hcodec segmentMaxBytes (h.solid_iff.1 hsolid) hbounded hlsns
    simp only [Lifetime.step, hlog] at hs
    split at hs
    · cases hs
      refine ⟨_, segs', act', rfl, hsteady', ?_, hpre⟩
      dsimp only
      rw [hhistory, hacks, hrecords, map_snd_number]
      exact List.map_append.symm
    · cases hs
  | crash sealing len =>
    obtain ⟨hfooters, hsolid⟩ := hok log hlog
    obtain ⟨log', segs', act', hopen, hsteady', hrecords, hpre⟩ :=
      h.open_crash hfooters sealing len (fun hs => h.solid_iff.1 (hsolid hs))
    simp only [Lifetime.step, hlog, Option.some.injEq] at hs
    cases hs
    refine ⟨log', segs', act', hopen, hsteady', ?_, hpre⟩
    dsimp only
    rw [hhistory, hrecords, h.minLsn, h.wholeRecords_eq, ← List.map_take, List.take_append,
      List.take_of_length_le (Nat.le_add_right _ _), Nat.add_sub_cancel_left]

theorem Lifetime.inv_step (hcodec : env.RoundTrips) {segmentMaxBytes : Nat} {s s' : Lifetime} {e : Event} (h : s.Inv env)
    (hok : EventOk env s e) (hs : s.step env segmentMaxBytes e = some s') : s'.Inv env := by
  obtain ⟨log, segs, act, hlog, hsteady, hhistory⟩ := h
  obtain ⟨log', segs', act', hlog', hsteady', hhistory', -⟩ := Lifetime.steady_step hcodec hlog hsteady hhistory hok hs
  exact ⟨log', segs', act', hlog', hsteady', hhistory'⟩

/-- **A log survives crashes**: it opens after each one, its head is the base of the newest segment and the whole records
left in it, and it reads as these records and what was appended since, exactly when no search hits an empty segment. -/
theorem reads_after_crashes_iff (hS : IsBinarySearch env.binarySearch) (hcodec : env.RoundTrips) {segmentMaxBytes : Nat}
    {events : List Event} {s : Lifetime}
    (h : Run (Lifetime.step env segmentMaxBytes) (EventOk env) (Lifetime.start env) events s) :
    ∃ log, s.log = .ok log ∧ log.committedLsn = s.history.length ∧
      (∀ len, log.active.baseLsn + log.wholeRecords len ≤ s.history.length) ∧
      (log.ReadsAs env s.history ↔ log.catalog.NoEmptyHit env) := by
  have hinv : s.Inv env := h.invariant ⟨Log.create env, [], [], rfl, steady_create, rfl⟩
    (fun s e s' hi hok hs => Lifetime.inv_step hcodec hi hok hs)
  obtain ⟨log, segs, act, hlog, hsteady, hhistory⟩ := hinv
  refine ⟨log, hlog, ?_, fun len => ?_, ?_⟩
  · rw [hhistory, List.length_map, hsteady.committed]
  · have := wholeIn_le act (len - headerLen)
    rw [hsteady.minLsn, hsteady.wholeRecords_eq, hhistory, List.length_map, List.length_append]
    omega
  · rw [hhistory]
    exact hsteady.readsAs_iff hS

/-- A roll, a crash inside the record after it, and the same record again. -/
def sampleEvents : List Event :=
  [.batch [sampleAppend 0], .batch [sampleAppend 1], .crash false 99, .batch [sampleAppend 1]]

set_option maxRecDepth 20000 in
theorem reads_after_crashes_iff_sample : ∃ s : Lifetime, s.history = [sampleEpisode 0, sampleEpisode 1] ∧
    ∃ log, s.log = .ok log ∧ log.committedLsn = s.history.length ∧
      (∀ len, log.active.baseLsn + log.wholeRecords len ≤ s.history.length) ∧
      (log.ReadsAs sampleEnv s.history ↔ log.catalog.NoEmptyHit sampleEnv) := by
  have hhistory : (runs (Lifetime.step sampleEnv 110) (.start sampleEnv) sampleEvents).map Lifetime.history
      = some [sampleEpisode 0, sampleEpisode 1] := by decide +kernel
  obtain ⟨s, hs, hhistory⟩ := Option.map_eq_some_iff.1 hhistory
  have hok : allOk (Lifetime.step sampleEnv 110) (EventOk sampleEnv) (.start sampleEnv) sampleEvents := by decide +kernel
  exact ⟨s, hhistory, reads_after_crashes_iff isBinarySearch_searchFirst sampleEnv_roundTrips (run_of_runs hs hok)⟩

set_option maxRecDepth 20000 in
/-- **Appends after a crash are lost** when it left the newest segment file empty: the log goes on behind a header that is
not there, the record is not read back, and the next opening is refused. -/
theorem crash_loses_appends : IsBinarySearch sampleEnv.binarySearch ∧ sampleEnv.RoundTrips ∧
    (runs (Lifetime.step sampleEnv 110) (.start sampleEnv)
        [.batch [sampleAppend 0], .batch [sampleAppend 1], .crash false 0, .batch [sampleAppend 1]]).map
        (fun s => (s.history, s.log.toOption.map (fun log => log.read sampleEnv 1)))
      = some ([sampleEpisode 0, sampleEpisode 1],
          some (.error (.corruption "Segmento: 1" "CRC-32C violado no registo"))) :=
  ⟨isBinarySearch_searchFirst, sampleEnv_roundTrips, by decide +kernel⟩

end Legacy
end Heraclitus
