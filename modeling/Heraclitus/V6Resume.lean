import Heraclitus.V6RawSound
/-!
# V6Resume — a RAW segment that is dropped and reopened (`heraclitus-log/src/v6/raw.rs`)

A writer is dropped at any points, in a crash with whatever is left behind the header then.  The footer and the file that are
sealed in the end are those of one writer that was never dropped and was given the records that survived.
-/
namespace Heraclitus
namespace V6

section Calls

variable (blake3 : Bytes → Digest) (hasher : CanonicalHasher)

/-- An append by a caller that takes the hash from the hasher. -/
def OpenSegment.appendHashed (s : OpenSegment) (r : RawRecord) : Except HeraclitusError OpenSegment :=
  match hasher r.lsn r.hlc r.payload with
  | .error e => .error e
  | .ok hash => s.append blake3 r hash

def OpenSegment.resume (file : Bytes) : Except HeraclitusError OpenSegment :=
  (RawSegmentWriter.resume blake3 hasher file).map (fun writer => { writer := writer, file := file })

/-- `repair_active_tail`, then `resume`. -/
def OpenSegment.recover (file : Bytes) : Except HeraclitusError OpenSegment :=
  match repairActiveTail file with
  | .error e => .error e
  | .ok none => OpenSegment.resume blake3 hasher file
  | .ok (some tornAt) => OpenSegment.resume blake3 hasher (file.take tornAt)

inductive WriterStep where
  | append (r : RawRecord)
  /-- The writer is dropped, and the file reopened as it is. -/
  | resume
  /-- Of the file the header and `kept` bytes are left, with `torn` behind them. -/
  | crash (kept : Nat) (torn : Bytes)

def afterCrash (file : Bytes) (kept : Nat) (torn : Bytes) : Bytes := file.take (fileHeaderLen + kept) ++ torn

def OpenSegment.step (s : OpenSegment) : WriterStep → Except HeraclitusError OpenSegment
  | .append r => s.appendHashed blake3 hasher r
  | .resume => OpenSegment.resume blake3 hasher s.file
  | .crash kept torn => OpenSegment.recover blake3 hasher (afterCrash s.file kept torn)

def OpenSegment.run : OpenSegment → List WriterStep → Except HeraclitusError OpenSegment
  | s, [] => .ok s
  | s, step :: steps =>
    match s.step blake3 hasher step with
    | .error e => .error e
    | .ok s => s.run steps

/-- The footer and the file of the segment that is sealed after these steps. -/
def sealedAfter (init : SegmentInit) (steps : List WriterStep) : Except HeraclitusError (FooterV6 × Bytes) :=
  ((OpenSegment.create init).run blake3 hasher steps).map (OpenSegment.seal blake3)

end Calls

/-! ## The records that survive -/

def recordsFound (file : Bytes) : List RawRecord :=
  match scanRawBytes file with
  | .error _ => []
  | .ok scan => scan.records

/-- What a step leaves of the records: a crash those that a scan still finds. -/
def surviving (init : SegmentInit) (rs : List RawRecord) : WriterStep → List RawRecord
  | .append r => rs ++ [r]
  | .resume => rs
  | .crash kept torn => recordsFound (afterCrash (init.header.encode ++ encodeRecords rs) kept torn)

def survivors (init : SegmentInit) (steps : List WriterStep) : List RawRecord := steps.foldl (surviving init) []

variable {init : SegmentInit} {rs : List RawRecord}

/-- **A cut loses the records that end behind it**, and no others. -/
theorem surviving_cut (hraw : init.header.Raw) (hwide : ∀ r ∈ rs, r.Wide) (kept : Nat) :
    ∃ k ≤ rs.length, surviving init rs (.crash kept []) = rs.take k ∧ ∀ j ≤ rs.length, j ≤ k ↔ sizes (rs.take j) ≤ kept := by
  obtain ⟨scan, hscan, hfound⟩ := @found_in_cut init rs (fileHeaderLen + kept) hraw hwide (Nat.le_add_right _ _) [] none
    (fun m _ hm => absurd hm (Nat.not_lt_zero m)) (.inr ⟨rfl, rfl⟩)
  obtain ⟨k, hk, hrecords, hwhole⟩ := hfound.records
  rw [List.append_nil] at hscan
  refine ⟨k, hk, ?_, fun j hj => by rw [hwhole j hj, Nat.add_le_add_iff_left]⟩
  rw [surviving, afterCrash, List.append_nil, recordsFound, hscan]
  exact hrecords

/-! ## The writer after any steps -/

variable {blake3 : Bytes → Digest} {hasher : CanonicalHasher}

/-- The hash that the hasher gives. -/
def canonicalHash (hasher : CanonicalHasher) (r : RawRecord) : Digest :=
  (hasher r.lsn r.hlc r.payload).toOption.getD (Digest.replicate 0)

theorem canonicalHash_eq {r : RawRecord} {hash : Digest} (h : hasher r.lsn r.hlc r.payload = .ok hash) : canonicalHash hasher r = hash := by
  rw [canonicalHash, h]
  rfl

/-- **The segment of a writer that was never dropped.** -/
structure OpenSegment.Written (blake3 : Bytes → Digest) (hasher : CanonicalHasher) (init : SegmentInit) (rs : List RawRecord)
    (s : OpenSegment) : Prop where
  writer : s.writer = written blake3 (canonicalHash hasher) init.header rs
  file : s.file = init.header.encode ++ encodeRecords rs
  wide : ∀ r ∈ rs, r.Wide
  hashed : ∀ r ∈ rs, hasher r.lsn r.hlc r.payload = .ok (canonicalHash hasher r)

section Written

variable {s s' : OpenSegment}

theorem OpenSegment.Written.eq (h : s.Written blake3 hasher init rs) (h' : s'.Written blake3 hasher init rs) : s = s' := by
  cases s
  cases s'
  exact congrArg₂ OpenSegment.mk (h.writer.trans h'.writer.symm) (h.file.trans h'.file.symm)

theorem written_create (init : SegmentInit) : (OpenSegment.create init).Written blake3 hasher init [] :=
  ⟨rfl, (List.append_nil _).symm, fun _ hr => absurd hr List.not_mem_nil, fun _ hr => absurd hr List.not_mem_nil⟩

theorem OpenSegment.Written.append (h : s.Written blake3 hasher init rs) {r : RawRecord} (hr : r.lsn < 2 ^ 64 ∧ r.hlc < 2 ^ 64)
    (happend : s.appendHashed blake3 hasher r = .ok s') : s'.Written blake3 hasher init (rs ++ [r]) := by
  unfold OpenSegment.appendHashed at happend
  split at happend
  · cases happend
  · rename_i hash hhash
    unfold OpenSegment.append at happend
    split at happend
    · cases happend
    · rename_i hlen
      cases happend
      have hall : ∀ {P : RawRecord → Prop}, (∀ q ∈ rs, P q) → P r → ∀ q ∈ rs ++ [r], P q := fun hrs hlast q hq => by
        rcases List.mem_append.1 hq with hq | hq
        · exact hrs q hq
        · cases List.mem_singleton.1 hq
          exact hlast
      refine ⟨?_, ?_, hall h.wide ⟨hr.1, hr.2, Nat.not_lt.1 hlen⟩, hall h.hashed (by rw [canonicalHash_eq hhash]; exact hhash)⟩
      · rw [written_concat, ← h.writer, canonicalHash_eq hhash, RawRecord.length_encode]
      · show s.file ++ r.encode = _
        rw [h.file, encodeRecords_append]
        simp

theorem hashed_of_resumeRecords : ∀ {rs : List RawRecord} {w w' : RawSegmentWriter},
    w.resumeRecords blake3 hasher rs = .ok w' → ∀ r ∈ rs, hasher r.lsn r.hlc r.payload = .ok (canonicalHash hasher r)
  | [], _, _, _, r, hr => absurd hr List.not_mem_nil
  | q :: rs, w, w', h, r, hr => by
    rw [RawSegmentWriter.resumeRecords] at h
    split at h
    · cases h
    · rename_i next hone
      rcases List.mem_cons.1 hr with rfl | hr
      · unfold RawSegmentWriter.resumeRecord at hone
        split at hone
        · cases hone
        · rename_i hash hhash
          rw [canonicalHash_eq hhash]
          exact hhash
      · exact hashed_of_resumeRecords h r hr

/-- **Resuming on an unsealed file** gives the writer that wrote it. -/
theorem written_resume (hraw : init.header.Raw) (hwide : ∀ r ∈ rs, r.Wide)
    (h : OpenSegment.resume blake3 hasher (init.header.encode ++ encodeRecords rs) = .ok s) : s.Written blake3 hasher init rs := by
  have hscan := scanRawBytes_eq hraw hwide (.clean)
  rw [List.append_nil] at hscan
  have hhashed : ∀ r ∈ rs, hasher r.lsn r.hlc r.payload = .ok (canonicalHash hasher r) := by
    cases hresume : RawSegmentWriter.resume blake3 hasher (init.header.encode ++ encodeRecords rs) with
    | error e =>
      rw [OpenSegment.resume, hresume] at h
      cases h
    | ok w =>
      unfold RawSegmentWriter.resume at hresume
      rw [hscan] at hresume
      dsimp only at hresume
      obtain ⟨-, hresume⟩ := guard_eq_ok.1 hresume
      obtain ⟨-, hresume⟩ := guard_eq_ok.1 hresume
      obtain ⟨-, hresume⟩ := guard_eq_ok.1 hresume
      split at hresume
      · cases hresume
      · rename_i hrecords
        exact hashed_of_resumeRecords hrecords
  rw [OpenSegment.resume, resume_eq hraw rfl hwide hhashed] at h
  cases h
  exact ⟨rfl, rfl, hwide, hhashed⟩

/-- What a repaired tail leaves: the records that the scan found. -/
theorem written_recover (hraw : init.header.Raw) {rest : Bytes}
    (h : OpenSegment.recover blake3 hasher (init.header.encode ++ rest) = .ok s) :
    s.Written blake3 hasher init (recordsFound (init.header.encode ++ rest)) := by
  have hlen := FileHeaderV6.length_encode hraw.wide.storageNamespaceId
  unfold OpenSegment.recover at h
  cases hrepair : repairActiveTail (init.header.encode ++ rest) with
  | error e =>
    rw [hrepair] at h
    cases h
  | ok tornAt =>
    rw [hrepair] at h
    unfold repairActiveTail at hrepair
    dsimp only at hrepair
    obtain ⟨-, hrepair⟩ := guard_eq_ok.1 hrepair
    split at hrepair
    · cases hrepair
    · rename_i scan hscan
      obtain ⟨hfooter, hrepair⟩ := guard_eq_ok.1 hrepair
      obtain ⟨hheader, hwide, tail, hfile, hend⟩ := scanRawBytes_sound hscan
      have hsame : scan.header = init.header := by
        have hdecode := FileHeaderV6.decode_encode hraw.wide rest
        rw [hfile, FileHeaderV6.decode_encode hheader.wide] at hdecode
        exact Except.ok.inj hdecode
      have hfound : recordsFound (init.header.encode ++ rest) = scan.records := by
        rw [recordsFound, hscan]
      rw [hsame] at hfile
      rw [hfound]
      rw [hfile, Except.ok.inj hrepair.symm] at h
      generalize scan.footer = footer at hend hfooter
      generalize scan.tornAt = torn at hend h
      cases hend with
      | clean =>
        rw [List.append_nil] at h
        exact written_resume hraw hwide h
      | torn htorn =>
        have hcut : (init.header.encode ++ (encodeRecords scan.records ++ tail)).take (fileHeaderLen + sizes scan.records)
            = init.header.encode ++ encodeRecords scan.records := by
          rw [← List.append_assoc]
          exact List.take_left' (by rw [List.length_append, hlen, length_encodeRecords])
        dsimp only at h
        rw [hcut] at h
        exact written_resume hraw hwide h
      | footer => exact absurd rfl hfooter

theorem OpenSegment.Written.step (hraw : init.header.Raw) (h : s.Written blake3 hasher init rs) {step : WriterStep}
    (hstep : ∀ r, step = .append r → r.lsn < 2 ^ 64 ∧ r.hlc < 2 ^ 64) (hs : s.step blake3 hasher step = .ok s') :
    s'.Written blake3 hasher init (surviving init rs step) := by
  cases step with
  | append r => exact h.append (hstep r rfl) hs
  | resume =>
    rw [OpenSegment.step, h.file] at hs
    exact written_resume hraw h.wide hs
  | crash kept torn =>
    have hlen := FileHeaderV6.length_encode hraw.wide.storageNamespaceId
    have hcrash : afterCrash (init.header.encode ++ encodeRecords rs) kept torn
        = init.header.encode ++ ((encodeRecords rs).take kept ++ torn) := by
      rw [afterCrash, List.take_append, hlen, List.take_of_length_le (by omega), Nat.add_sub_cancel_left, List.append_assoc]
    rw [OpenSegment.step, h.file, hcrash] at hs
    rw [surviving, hcrash]
    exact written_recover hraw hs

/-- **Any steps** leave the segment of the records that survived them. -/
theorem OpenSegment.Written.run (hraw : init.header.Raw) : ∀ {steps : List WriterStep} {rs : List RawRecord} {s s' : OpenSegment},
    s.Written blake3 hasher init rs → (∀ r, .append r ∈ steps → r.lsn < 2 ^ 64 ∧ r.hlc < 2 ^ 64) →
    s.run blake3 hasher steps = .ok s' → s'.Written blake3 hasher init (steps.foldl (surviving init) rs)
  | [], rs, s, s', h, _, hrun => by
    cases hrun
    exact h
  | step :: steps, rs, s, s', h, hsteps, hrun => by
    rw [OpenSegment.run] at hrun
    split at hrun
    · cases hrun
    · rename_i next hnext
      have hone := h.step hraw (fun r hr => hsteps r (hr ▸ List.mem_cons_self)) hnext
      exact hone.run hraw (fun r hr => hsteps r (List.mem_cons_of_mem _ hr)) hrun

/-- **A writer that is given these records** and never dropped comes to their segment. -/
theorem OpenSegment.Written.run_appends : ∀ {ss rs : List RawRecord} {s : OpenSegment}, s.Written blake3 hasher init rs →
    (∀ r ∈ ss, r.Wide) → (∀ r ∈ ss, hasher r.lsn r.hlc r.payload = .ok (canonicalHash hasher r)) →
    ∃ s', s.run blake3 hasher (ss.map .append) = .ok s' ∧ s'.Written blake3 hasher init (rs ++ ss)
  | [], rs, s, h, _, _ => ⟨s, rfl, by rwa [List.append_nil]⟩
  | r :: ss, rs, s, h, hwide, hhashed => by
    have hr := hwide r List.mem_cons_self
    obtain ⟨next, hnext⟩ : ∃ next, s.appendHashed blake3 hasher r = .ok next := by
      rw [OpenSegment.appendHashed, hhashed r List.mem_cons_self]
      dsimp only
      rw [OpenSegment.append, if_neg (Nat.not_lt.2 hr.payload)]
      exact ⟨_, rfl⟩
    obtain ⟨s', hrun, hs'⟩ := (h.append ⟨hr.lsn, hr.hlc⟩ hnext).run_appends
      (fun q hq => hwide q (List.mem_cons_of_mem r hq)) (fun q hq => hhashed q (List.mem_cons_of_mem r hq))
    refine ⟨s', ?_, ?_⟩
    · rw [List.map_cons, OpenSegment.run, OpenSegment.step, hnext]
      exact hrun
    · rwa [List.append_assoc, List.singleton_append] at hs'

end Written

/-- **Resuming is never having stopped**: what is sealed after appends, reopenings and crashes is what one writer seals that
was never dropped and was given the records that survived. -/
theorem resume_never_stopped (hraw : init.header.Raw) {steps : List WriterStep}
    (hsteps : ∀ r, .append r ∈ steps → r.lsn < 2 ^ 64 ∧ r.hlc < 2 ^ 64) {x : FooterV6 × Bytes}
    (h : sealedAfter blake3 hasher init steps = .ok x) :
    sealedAfter blake3 hasher init ((survivors init steps).map .append) = .ok x := by
  cases hrun : (OpenSegment.create init).run blake3 hasher steps with
  | error e =>
    rw [sealedAfter, hrun] at h
    cases h
  | ok s =>
    have hs := (written_create init).run hraw hsteps hrun
    obtain ⟨s', hrun', hs'⟩ := (written_create init).run_appends hs.wide hs.hashed
    rw [sealedAfter, hrun] at h
    rw [sealedAfter, survivors, hrun', ← h, hs.eq hs']

def countingHasher : CanonicalHasher := fun lsn _ _ => .ok (Digest.replicate (UInt8.ofNat lsn))

def firstRecord : RawRecord := { lsn := 5, hlc := 0, payload := [1] }
def lostRecord : RawRecord := { lsn := 6, hlc := 4, payload := [2, 2] }
def lateRecord : RawRecord := { lsn := 9, hlc := 3, payload := [3] }

/-- The second record is cut, another one is written, and bytes that are no record are found behind it. -/
def droppedTwice : List WriterStep :=
  [.append firstRecord, .append lostRecord, .crash 40 [], .append lateRecord, .crash 50 [7, 7, 7], .resume]

set_option maxRecDepth 20000 in
theorem resume_never_stopped_sample : survivors twinInit droppedTwice = [firstRecord, lateRecord] ∧
    ∃ x, sealedAfter twinBlake3 countingHasher twinInit droppedTwice = .ok x ∧
      sealedAfter twinBlake3 countingHasher twinInit ((survivors twinInit droppedTwice).map .append) = .ok x := by
  have hdata : (sealedAfter twinBlake3 countingHasher twinInit droppedTwice).toOption.isSome = true := by decide +kernel
  obtain ⟨x, hx⟩ := Option.isSome_iff_exists.1 hdata
  have hsealed := Except.toOption_eq_some hx
  refine ⟨by decide +kernel, x, hsealed, resume_never_stopped twinInit_raw (fun r hr => ?_) hsealed⟩
  simp only [droppedTwice, List.mem_cons, WriterStep.append.injEq, reduceCtorEq, List.not_mem_nil, or_false, false_or] at hr
  rcases hr with rfl | rfl | rfl <;> exact ⟨by decide, by decide⟩

theorem wide_samples : ∀ r ∈ [firstRecord, lostRecord], r.Wide := by
  intro r hr
  simp only [List.mem_cons, List.not_mem_nil, or_false] at hr
  rcases hr with rfl | rfl <;> constructor <;> decide

/-- Of two records the second is cut. -/
theorem surviving_cut_sample : ∃ k ≤ 2, surviving twinInit [firstRecord, lostRecord] (.crash 40 []) = [firstRecord, lostRecord].take k ∧
    ∀ j ≤ 2, j ≤ k ↔ sizes ([firstRecord, lostRecord].take j) ≤ 40 := by
  exact surviving_cut twinInit_raw wide_samples 40

end V6
end Heraclitus
