import Heraclitus.V6RawFile
/-!
# V6RawSound — what an accepted scan says of a RAW file

What decodes as a header or as a record is its encoding, byte for byte.  So a file whose scan is accepted is the header that
was found, the records that were found and an end that is no record.
-/
namespace Heraclitus
namespace V6

/-! ## The bytes behind what was decoded -/

theorem layoutByte_layoutFromByte {v : UInt8} {layout : PhysicalLayout} (h : layoutFromByte v = .ok layout) :
    layoutByte layout = v := by
  unfold layoutFromByte at h
  split at h
  · rename_i hv
    cases h
    exact hv.symm
  · split at h
    · rename_i hv
      cases h
      exact hv.symm
    · cases h

/-- **A header is the encoding of what it is read as.** -/
theorem FileHeaderV6.encode_of_decode {buf : Bytes} {h : FileHeaderV6} (hdecode : FileHeaderV6.decode buf = .ok h) :
    buf.take fileHeaderLen = h.encode := by
  unfold FileHeaderV6.decode at hdecode
  dsimp only at hdecode
  obtain ⟨hlen, hdecode⟩ := guard_eq_ok.1 hdecode
  obtain ⟨hmagic, hdecode⟩ := guard_eq_ok.1 hdecode
  obtain ⟨hversion, hdecode⟩ := guard_eq_ok.1 hdecode
  obtain ⟨hheaderLen, hdecode⟩ := guard_eq_ok.1 hdecode
  obtain ⟨hcrc, hdecode⟩ := guard_eq_ok.1 hdecode
  rw [fileHeaderLen] at hlen
  have hslice : ∀ {k n : Nat}, k + n ≤ 64 → leBytes n (leNat ((buf.drop k).take n)) = (buf.drop k).take n := fun {k n} hkn => by
    refine leBytes_leNat_of_length ?_
    rw [List.length_take, List.length_drop]
    omega
  split at hdecode
  · cases hdecode
  · rename_i layout hlayout
    cases hdecode
    have hone : [layoutByte layout] = (buf.drop 8).take 1 := by
      rw [layoutByte_layoutFromByte hlayout, List.headD_eq_head?_getD]
      cases hdrop : buf.drop 8 with
      | nil =>
        have := congrArg List.length hdrop
        rw [List.length_drop, List.length_nil] at this
        omega
      | cons b rest => rfl
    have hfields : (FileHeaderV6.fields {
          physicalLayout := layout
          canonicalCodec := leNat ((buf.drop 9).take 1)
          flags := leNat ((buf.drop 10).take 2)
          segmentId := leNat ((buf.drop 12).take 8)
          createdHlc := leNat ((buf.drop 20).take 8)
          firstLsn := leNat ((buf.drop 28).take 8)
          writerEpoch := leNat ((buf.drop 36).take 8)
          storageNamespaceId := (buf.drop 44).take 16 }).flatten = buf.take 60 := by
      have h60 : (60 : Nat) = 4 + (2 + (2 + (1 + (1 + (2 + (8 + (8 + (8 + (8 + 16))))))))) := rfl
      rw [h60]
      simp only [List.take_add, List.drop_drop, FileHeaderV6.fields, List.flatten_cons, List.flatten_nil, List.append_nil]
      rw [← not_not.1 hmagic, hone, ← not_not.1 hversion, ← not_not.1 hheaderLen, hslice (by decide), hslice (by decide),
        hslice (by decide), hslice (by decide), hslice (by decide), hslice (by decide), hslice (by decide), hslice (by decide)]
    have h64 : fileHeaderLen = 60 + 4 := rfl
    rw [FileHeaderV6.encode, hfields, ← not_not.1 hcrc, hslice (by decide), h64, List.take_add]

/-- **A record is the encoding of what it is read as.** -/
theorem decodeRawRecord_sound {buf payload : Bytes} {lsn hlc total : Nat}
    (h : decodeRawRecord buf = .record lsn hlc payload total) : RawRecord.Wide { lsn := lsn, hlc := hlc, payload := payload } ∧
      total = RawRecord.size { lsn := lsn, hlc := hlc, payload := payload } ∧
      buf = encodeRawRecord lsn hlc payload ++ buf.drop total := by
  unfold decodeRawRecord at h
  dsimp only at h
  split at h
  · split at h <;> cases h
  · split at h
    · cases h
    · split at h
      · cases h
      · rename_i hmax
        split at h
        · cases h
        · rename_i htotal
          split at h
          · cases h
          · rename_i hcrc
            cases h
            have hcrc := not_not.1 hcrc
            generalize hlen : leNat (buf.take 4) = len at *
            have h24 : rawRecordHeaderLen = 24 := rfl
            have hb : (buf.take (rawRecordHeaderLen + len)).length = rawRecordHeaderLen + len := by
              rw [List.length_take]
              omega
            have hpayload : ((buf.take (rawRecordHeaderLen + len)).drop rawRecordHeaderLen).length = len := by
              rw [List.length_drop, hb]
              omega
            refine ⟨⟨leNat_take_lt _ 8, leNat_take_lt _ 8, by rw [hpayload]; omega⟩, ?_, ?_⟩
            · rw [RawRecord.size, hpayload]
            · have hslice : ∀ {k n : Nat}, k + n ≤ rawRecordHeaderLen + len →
                  ((buf.take (rawRecordHeaderLen + len)).drop k).take n = (buf.drop k).take n := fun {k n} hkn => by
                rw [List.drop_take, List.take_take, Nat.min_eq_left (by omega)]
              have hword : ∀ {k n : Nat}, k + n ≤ rawRecordHeaderLen + len →
                  leBytes n (leNat ((buf.drop k).take n)) = ((buf.take (rawRecordHeaderLen + len)).drop k).take n :=
                fun {k n} hkn => by
                  rw [hslice hkn]
                  refine leBytes_leNat_of_length ?_
                  rw [List.length_take, List.length_drop]
                  omega
              have hfour : leBytes 4 len = (buf.take (rawRecordHeaderLen + len)).take 4 := by
                have := @hword 0 4 (by omega)
                rwa [List.drop_zero, List.drop_zero, hlen] at this
              have hcrcBytes := @hword 4 4 (by omega)
              have hlsn := @hword 8 8 (by omega)
              have hhlc := @hword 16 8 (by omega)
              conv_lhs => rw [← List.take_append_drop (rawRecordHeaderLen + len) buf]
              refine congrArg (· ++ buf.drop (rawRecordHeaderLen + len)) ?_
              rw [encodeRawRecord, hpayload, hlsn, hhlc, hfour]
              generalize buf.take (rawRecordHeaderLen + len) = b at *
              -- the fields behind the checksum are all that is left of the record
              have hrest : (b.drop 8).take 8 ++ (b.drop 16).take 8 ++ b.drop rawRecordHeaderLen = b.drop 8 := by
                have h16 : b.drop 8 = (b.drop 8).take 8 ++ b.drop 16 := by
                  conv_lhs => rw [← List.take_append_drop 8 (b.drop 8), List.drop_drop]
                have h24' : b.drop 16 = (b.drop 16).take 8 ++ b.drop 24 := by
                  conv_lhs => rw [← List.take_append_drop 8 (b.drop 16), List.drop_drop]
                rw [h24, List.append_assoc, ← h24', ← h16]
              have hb4 : (b.take 4).length = 4 := by
                rw [List.length_take]
                omega
              have hcover : rawRecordCrc (b.take 4 ++ leBytes 4 0 ++ b.drop 8) = rawRecordCrc b := by
                have hfront : (b.take 4 ++ leBytes 4 0 ++ b.drop 8).take 4 = b.take 4 := by
                  rw [List.append_assoc]
                  exact List.take_left' hb4
                have hback : (b.take 4 ++ leBytes 4 0 ++ b.drop 8).drop 8 = b.drop 8 :=
                  List.drop_left' (by rw [List.length_append, hb4, length_leBytes])
                rw [rawRecordCrc, hfront, hback, ← rawRecordCrc]
              rw [hrest, hcover, hcrc, hcrcBytes]
              conv_lhs => rw [← List.take_append_drop 4 b, ← List.take_append_drop 4 (b.drop 4), List.drop_drop]
              rw [List.append_assoc]

theorem decodeRawRecord_eq_footer {buf : Bytes} {f : FooterV6} (h : decodeRawRecord buf = .footer f) :
    buf.take 4 = footerMagic ∧ FooterV6.decode buf = .ok f := by
  unfold decodeRawRecord at h
  split at h
  · rename_i hmagic
    split at h
    · rename_i hf
      cases h
      exact ⟨hmagic, hf⟩
    · cases h
  · dsimp only at h
    split at h
    · cases h
    · split at h
      · cases h
      · split at h
        · cases h
        · split at h <;> cases h

/-! ## The file behind a scan -/

/-- The end of a file whose scan is accepted. -/
inductive EndsAs (rs : List RawRecord) (pos : Nat) : Bytes → Option FooterV6 → Option Nat → Prop
  | clean : EndsAs rs pos [] none none
  | torn {tail : Bytes} : Torn tail → EndsAs rs pos tail none (some pos)
  | footer {tail : Bytes} {f : FooterV6} : tail.length = footerLen → tail.take 4 = footerMagic → FooterV6.decode tail = .ok f →
      validateRawFooter f rs = .ok () → EndsAs rs pos tail (some f) none

theorem scanRecords_sound : ∀ (fuel : Nat) {rest : Bytes} {pos : Nat} {done : List RawRecord}
    {x : List RawRecord × Option FooterV6 × Option Nat}, rest.length ≤ fuel → scanRecords fuel rest pos done = .ok x →
    ∃ rs tail, rest = encodeRecords rs ++ tail ∧ (∀ r ∈ rs, r.Wide) ∧ x.1 = done ++ rs ∧
      EndsAs (done ++ rs) (pos + sizes rs) tail x.2.1 x.2.2
  | 0, rest, pos, done, x, hfuel, h => by
    rw [List.length_eq_zero_iff.1 (Nat.le_zero.1 hfuel)]
    cases h
    refine ⟨[], [], rfl, fun r hr => absurd hr List.not_mem_nil, (List.append_nil done).symm, ?_⟩
    exact .clean
  | fuel + 1, rest, pos, done, x, hfuel, h => by
    rw [scanRecords] at h
    split at h
    · rename_i hnil
      cases h
      refine ⟨[], [], hnil, fun r hr => absurd hr List.not_mem_nil, (List.append_nil done).symm, ?_⟩
      exact .clean
    · rename_i hne
      cases hdecode : decodeRawRecord rest with
      | record lsn hlc payload total =>
        rw [hdecode] at h
        obtain ⟨hwide, htotal, hrest⟩ := decodeRawRecord_sound hdecode
        have hshorter : (rest.drop total).length ≤ fuel := by
          rw [List.length_drop, htotal, RawRecord.size, rawRecordHeaderLen]
          omega
        obtain ⟨rs, tail, hsplit, hall, hrecords, hend⟩ := scanRecords_sound fuel hshorter h
        refine ⟨{ lsn := lsn, hlc := hlc, payload := payload } :: rs, tail, ?_, ?_, ?_, ?_⟩
        · rw [encodeRecords_cons, List.append_assoc, ← hsplit]
          exact hrest
        · intro r hr
          rcases List.mem_cons.1 hr with rfl | hr
          · exact hwide
          · exact hall r hr
        · rw [hrecords, List.append_assoc]
          rfl
        · rw [List.append_assoc, Nat.add_assoc, htotal] at hend
          rwa [sizes_cons]
      | footer f =>
        rw [hdecode] at h
        dsimp only at h
        split at h
        · cases h
        · rename_i hlen
          split at h
          · cases h
          · rename_i hvalid
            cases h
            obtain ⟨hmagic, hf⟩ := decodeRawRecord_eq_footer hdecode
            refine ⟨[], rest, rfl, fun r hr => absurd hr List.not_mem_nil, (List.append_nil done).symm, ?_⟩
            rw [List.append_nil]
            exact .footer (not_not.1 hlen) hmagic hf hvalid
      | torn =>
        rw [hdecode] at h
        dsimp only at h
        split at h
        · cases h
        · rename_i hincomplete
          cases h
          refine ⟨[], rest, rfl, fun r hr => absurd hr List.not_mem_nil, (List.append_nil done).symm, ?_⟩
          exact .torn ⟨hne, hdecode, hincomplete⟩

/-- **A file whose scan is accepted** is the header, the records and the end that were found. -/
theorem scanRawBytes_sound {file : Bytes} {scan : RawScan} (h : scanRawBytes file = .ok scan) : scan.header.Raw ∧
    (∀ r ∈ scan.records, r.Wide) ∧ ∃ tail, file = scan.header.encode ++ (encodeRecords scan.records ++ tail) ∧
      EndsAs scan.records (fileHeaderLen + sizes scan.records) tail scan.footer scan.tornAt := by
  unfold scanRawBytes at h
  split at h
  · cases h
  · rename_i header hheader
    split at h
    · cases h
    · rename_i hlayout
      split at h
      · cases h
      · rename_i records footer tornAt hrecords
        cases h
        have hshorter : (file.drop fileHeaderLen).length ≤ file.length := by
          rw [List.length_drop]
          omega
        obtain ⟨rs, tail, hsplit, hwide, hrs, hend⟩ := scanRecords_sound file.length hshorter hrecords
        dsimp only at hrs hend
        rw [List.nil_append] at hrs hend
        subst hrs
        refine ⟨⟨FileHeaderV6.wide_of_decode hheader, not_not.1 hlayout⟩, hwide, tail, ?_, hend⟩
        rw [← hsplit, ← FileHeaderV6.encode_of_decode hheader, List.take_append_drop]

end V6
end Heraclitus
