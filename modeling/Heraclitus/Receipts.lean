import Heraclitus.Encryption
import Heraclitus.LegacySealed
/-!
# Receipts — what a compliance receipt says of a v5 log (`heraclitus-compliance/src/commit.rs`, `lib.rs`, `worker.rs`)

A receipt holds the hash of a commitment: the Merkle root over the roots of the sealed segments that end at or below a
watermark.  To verify it is to build the commitment again at the same watermark.  A segment sealed later belongs to it too
if it ends at the watermark, which the segment that begins at LSN 0 does as long as it has no second record.
-/
namespace Heraclitus
namespace Compliance

open Legacy

/-! ## Commitments -/

def commitDomain : Bytes := Crypto.asBytes "heraclitus-compliance/commit/v1".toList

structure Commitment where
  lsn : Nat
  root : Digest
  segments : Nat
  deriving DecidableEq

/-- The SHA-256 over domain, LSN and root, which an authority is asked to stamp. -/
def Commitment.messageImprintSha256 (sha256 : Bytes → Digest) (c : Commitment) : Digest :=
  sha256 (commitDomain ++ (leBytes 8 c.lsn).reverse ++ c.root.1)

def aggregateRoot (H : Hashes) (segmentRoots : List Digest) : Digest := merkleRoot H segmentRoots

/-- The largest `max_lsn` of a sealed segment, 0 when nothing is sealed. -/
def currentWatermark (log : Log) : Nat := ((log.catalog.sealedSegments.map (·.maxLsn)).max?).getD 0

/-- The sealed segments up to a watermark. -/
def coveredAt (log : Log) (watermarkLsn : Nat) : List SegmentContainer :=
  (log.catalog.sealedSegments.filter (fun s => decide (s.maxLsn ≤ watermarkLsn) && s.blake3Root.isSome)).insertionSort
    (fun a b => a.baseLsn ≤ b.baseLsn)

def commitAt (env : Env) (log : Log) (watermarkLsn : Nat) : Commitment :=
  let roots := (coveredAt log watermarkLsn).filterMap (·.blake3Root)
  { lsn := watermarkLsn, root := aggregateRoot env.toHashes roots, segments := roots.length }

/-! ## Receipts -/

inductive CompError where
  | der (e : String)
  | io (e : String)
  | json (e : String)
  | tsa (e : String)
  | verify (e : String)
  | unsupported (e : String)
  deriving DecidableEq

def CompError.display : CompError → String
  | .der e => s!"ASN.1/DER: {e}"
  | .io e => s!"E/S: {e}"
  | .json e => s!"JSON: {e}"
  | .tsa e => s!"ACT: {e}"
  | .verify e => s!"verificação: {e}"
  | .unsupported e => s!"não suportado: {e}"

inductive TimestampValidationState where
  | developmentOnly
  | externalTokenUnvalidated
  | legacyUnverified
  deriving DecidableEq

structure VerifiedTime where
  genUnixMs : Nat
  deriving DecidableEq

inductive ReceiptVerification where
  | developmentOnly (time : VerifiedTime)
  | commitmentOnly (state : TimestampValidationState)
  deriving DecidableEq

/-- What other crates do: the log's hashes and codec, SHA-256, and the check of a development token. -/
structure Crates extends Env where
  sha256 : Bytes → Digest
  verifyDevToken : Bytes → Digest → Except CompError VerifiedTime

structure TsaClient where
  policyName : Str
  validationState : TimestampValidationState
  stamp : Digest → Except CompError Bytes

structure LegalReceipt where
  lsn : Nat
  segments : Nat
  rootHex : Str
  imprintHex : Str
  genUnixMs : Nat
  authorityGenUnixMs : Option Nat
  validationState : TimestampValidationState
  policy : Str
  tokenFile : Str
  deriving DecidableEq

/-- The receipts directory: token files and the manifest, a line a receipt. -/
structure ReceiptsDir where
  tokens : List (Str × Bytes)
  manifest : List LegalReceipt

def toHex (bytes : Bytes) : Str := bytes.flatMap Crypto.hexByte

/-- `{lsn:020}.tst`. -/
def tokenName (lsn : Nat) : Str :=
  let digits := Nat.toDigits 10 lsn
  List.replicate (20 - digits.length) '0' ++ digits ++ ".tst".toList

def persist (dir : ReceiptsDir) (commitment : Commitment) (imprint : Digest) (policy : Str) (recordedUnixMs : Nat)
    (authorityGenUnixMs : Option Nat) (validationState : TimestampValidationState) (token : Bytes) :
    LegalReceipt × ReceiptsDir :=
  let tokenFile := tokenName commitment.lsn
  let receipt : LegalReceipt :=
    { lsn := commitment.lsn, segments := commitment.segments, rootHex := toHex commitment.root.1
      imprintHex := toHex imprint.1, genUnixMs := recordedUnixMs, authorityGenUnixMs := authorityGenUnixMs
      validationState := validationState, policy := policy, tokenFile := tokenFile }
  (receipt, { tokens := (tokenFile, token) :: dir.tokens, manifest := dir.manifest ++ [receipt] })

def readToken (dir : ReceiptsDir) (receipt : LegalReceipt) : Except CompError Bytes :=
  match dir.tokens.lookup receipt.tokenFile with
  | some token => .ok token
  | none => .error (.io "No such file or directory (os error 2)")

variable (C : Crates)

/-- The imprint of the commitment at `watermarkLsn`. -/
def imprintAt (log : Log) (watermarkLsn : Nat) : Digest :=
  (commitAt C.toEnv log watermarkLsn).messageImprintSha256 C.sha256

/-- Anchor the log at `watermark`, or at the current watermark. -/
def anchor (log : Log) (tsa : TsaClient) (nowUnixMs : Nat) (dir : ReceiptsDir) (watermark : Option Nat) :
    Except CompError (LegalReceipt × ReceiptsDir) :=
  let wm := watermark.getD (currentWatermark log)
  let commitment := commitAt C.toEnv log wm
  let imprint := imprintAt C log wm
  match tsa.stamp imprint with
  | .error e => .error e
  | .ok token =>
    if tsa.validationState = .developmentOnly then
      match C.verifyDevToken token imprint with
      | .error e => .error (.verify s!"token de desenvolvimento inválido: {e.display}")
      | .ok time => .ok (persist dir commitment imprint tsa.policyName time.genUnixMs (some time.genUnixMs)
          tsa.validationState token)
    else .ok (persist dir commitment imprint tsa.policyName nowUnixMs none tsa.validationState token)

/-- Build the commitment of a receipt again; only then look at its token. -/
def verifyReceipt (log : Log) (dir : ReceiptsDir) (receipt : LegalReceipt) : Except CompError ReceiptVerification :=
  let imprint := imprintAt C log receipt.lsn
  if toHex imprint.1 ≠ receipt.imprintHex then
    .error (.verify
      s!"commitment recalculado não bate com o recibo no LSN {receipt.lsn} — log alterado retroativamente?")
  else
    match readToken dir receipt with
    | .error e => .error e
    | .ok token =>
      match receipt.validationState with
      | .developmentOnly => (C.verifyDevToken token imprint).map .developmentOnly
      | state => .ok (.commitmentOnly state)

structure WorkerConfig where
  minLsnStep : Nat

structure WorkerState where
  lastLsn : Nat

/-- One turn of the worker: anchor if the watermark advanced enough. -/
def tick (log : Log) (tsa : TsaClient) (cfg : WorkerConfig) (nowUnixMs : Nat) (dir : ReceiptsDir) (state : WorkerState) :
    Except CompError (Option LegalReceipt × ReceiptsDir × WorkerState) :=
  let wm := currentWatermark log
  if wm = 0 ∨ wm ≤ state.lastLsn ∨ wm < satAdd64 state.lastLsn cfg.minLsnStep then .ok (none, dir, state)
  else
    match anchor C log tsa nowUnixMs dir (some wm) with
    | .error e => .error e
    | .ok (receipt, dir) => .ok (some receipt, dir, { lastLsn := wm })

/-- `anchor` at the current watermark gave the receipt. -/
def Anchored (log : Log) (r : LegalReceipt) : Prop :=
  ∃ tsa nowUnixMs dir dir', ∃ watermark : Option Nat, watermark.getD (currentWatermark log) = currentWatermark log ∧
    anchor C log tsa nowUnixMs dir watermark = .ok (r, dir')

/-- A turn of the worker gave the receipt. -/
def Ticked (log : Log) (r : LegalReceipt) : Prop :=
  ∃ tsa cfg nowUnixMs dir state dir' state', tick C log tsa cfg nowUnixMs dir state = .ok (some r, dir', state')

/-- The commitment that the log has now is the one of the receipt. -/
def Matches (log : Log) (r : LegalReceipt) : Prop := toHex (imprintAt C log r.lsn).1 = r.imprintHex

variable {C} {log log' : Log} {r : LegalReceipt}

theorem anchor_ok {tsa : TsaClient} {nowUnixMs : Nat} {dir dir' : ReceiptsDir} {watermark : Option Nat}
    (h : anchor C log tsa nowUnixMs dir watermark = .ok (r, dir')) :
    r.lsn = watermark.getD (currentWatermark log) ∧ Matches C log r := by
  unfold anchor at h
  dsimp only at h
  split at h
  · cases h
  · split at h
    · split at h
      · cases h
      · cases h
        exact ⟨rfl, rfl⟩
    · cases h
      exact ⟨rfl, rfl⟩

theorem Anchored.spec (h : Anchored C log r) : r.lsn = currentWatermark log ∧ Matches C log r := by
  obtain ⟨tsa, nowUnixMs, dir, dir', watermark, hwm, h⟩ := h
  obtain ⟨hlsn, hmatches⟩ := anchor_ok h
  exact ⟨hlsn.trans hwm, hmatches⟩

/-- The worker anchors, and never at 0. -/
theorem Ticked.anchored (h : Ticked C log r) : Anchored C log r ∧ 0 < r.lsn := by
  obtain ⟨tsa, cfg, nowUnixMs, dir, state, dir', state', h⟩ := h
  unfold tick at h
  dsimp only at h
  split at h
  · cases h
  · rename_i hdue
    split at h
    · cases h
    · rename_i r' dir'' hanchor
      cases h
      refine ⟨⟨tsa, nowUnixMs, dir, _, some (currentWatermark log), rfl, hanchor⟩, ?_⟩
      rw [(anchor_ok hanchor).1]
      exact Nat.pos_of_ne_zero (fun h0 => hdue (.inl h0))

/-! ## Which segments a commitment covers -/

variable {env : Env} {segs segs' : List (List Rec)} {act act' : List Rec}

theorem currentWatermark_mem (log : Log) :
    currentWatermark log = 0 ∨ ∃ c ∈ log.catalog.sealedSegments, c.maxLsn = currentWatermark log := by
  unfold currentWatermark
  cases hmax : (log.catalog.sealedSegments.map (·.maxLsn)).max? with
  | none => exact .inl rfl
  | some m =>
    obtain ⟨c, hc, heq⟩ := List.mem_map.1 (List.max?_eq_some_iff.1 hmax).1
    exact .inr ⟨c, hc, heq⟩

/-- The watermark lies below the active segment, unless that one begins at 0. -/
theorem currentWatermark_lt {next : Nat} (h : Sealing log next) :
    currentWatermark log < log.active.baseLsn ∨ log.active.baseLsn = 0 ∧ currentWatermark log = 0 := by
  rcases currentWatermark_mem log with hzero | ⟨c, hc, heq⟩
  · omega
  · have := h.apart c hc
    omega

/-- The sealed segments are in order of their first LSN, so a commitment takes them as they lie. -/
theorem coveredAt_eq {next : Nat} (h : Steady env log segs act) (hq : Sealing log next) (wm : Nat) :
    coveredAt log wm = log.catalog.sealedSegments.filter (fun s => decide (s.maxLsn ≤ wm)) := by
  have hsorted : log.catalog.sealedSegments.Pairwise (fun a b => a.baseLsn ≤ b.baseLsn) := by
    have := starts_sorted segs
    rw [← h.bases] at this
    exact List.pairwise_map.1 this
  have hroot : log.catalog.sealedSegments.filter (fun s => decide (s.maxLsn ≤ wm) && s.blake3Root.isSome)
      = log.catalog.sealedSegments.filter (fun s => decide (s.maxLsn ≤ wm)) := by
    refine List.filter_congr (fun c hc => ?_)
    obtain ⟨file, f, -, -, heq⟩ := hq.stored c hc
    rw [heq, Option.isSome_some, Bool.and_true]
  rw [coveredAt, hroot]
  exact (hsorted.filter _).insertionSort_eq

/-- Every covered segment has a root. -/
theorem length_roots {next : Nat} (hq : Sealing log next) {l : List SegmentContainer}
    (hl : ∀ c ∈ l, c ∈ log.catalog.sealedSegments) : (l.filterMap (·.blake3Root)).length = l.length := by
  induction l with
  | nil => rfl
  | cons c l ih =>
    obtain ⟨file, f, -, -, heq⟩ := hq.stored c (hl c List.mem_cons_self)
    rw [List.filterMap_cons_some heq, List.length_cons, List.length_cons, ih (fun d hd => hl d (List.mem_cons_of_mem c hd))]

/-- **A commitment changes exactly when a segment sealed since ends at or below its watermark.** -/
theorem commitAt_eq_iff {next next' wm : Nat} (h : Steady env log segs act) (hq : Sealing log next)
    (h' : Steady env log' segs' act') (hq' : Sealing log' next') {rest : List SegmentContainer}
    (hrest : log'.catalog.sealedSegments = log.catalog.sealedSegments ++ rest) :
    commitAt env log' wm = commitAt env log wm ↔ ∀ c : SegmentContainer, c ∈ rest → wm < c.maxLsn := by
  have hcovered : coveredAt log' wm = coveredAt log wm ++ rest.filter (fun s => decide (s.maxLsn ≤ wm)) := by
    rw [coveredAt_eq h' hq', coveredAt_eq h hq, hrest, List.filter_append]
  have hnone : (∀ c : SegmentContainer, c ∈ rest → wm < c.maxLsn) ↔ rest.filter (fun s => decide (s.maxLsn ≤ wm)) = [] := by
    simp [List.filter_eq_nil_iff]
  rw [hnone]
  constructor
  · intro heq
    have hlength := congrArg Commitment.segments heq
    have hmem : ∀ c ∈ rest.filter (fun s => decide (s.maxLsn ≤ wm)), c ∈ log'.catalog.sealedSegments := fun c hc => by
      rw [hrest]
      exact List.mem_append_right _ (List.mem_filter.1 hc).1
    simp only [commitAt, hcovered, List.filterMap_append, List.length_append, length_roots hq' hmem] at hlength
    exact List.length_eq_zero_iff.1 (by omega)
  · intro heq
    rw [heq, List.append_nil] at hcovered
    rw [commitAt, commitAt, hcovered]

/-- `log` has sealed no record yet, and the segment it writes to is sealed in `log'` with one record at most. -/
def SealedShort (log log' : Log) : Prop :=
  log.active.baseLsn = 0 ∧ ∃ c ∈ log'.catalog.sealedSegments, c.id = log.active.segmentId ∧ c.entries.length ≤ 1

instance (log log' : Log) : Decidable (SealedShort log log') := inferInstanceAs (Decidable (_ ∧ _))

/-- **What is sealed since lies above the watermark**, but for a first segment of one record at most. -/
theorem above_iff {next : Nat} (h : Steady env log segs act) (hq : Sealing log next)
    (h' : Steady env log' segs' act') (hpre : segs <+: segs') {rest : List SegmentContainer}
    (hrest : log'.catalog.sealedSegments = log.catalog.sealedSegments ++ rest) :
    (∀ c : SegmentContainer, c ∈ rest → currentWatermark log < c.maxLsn) ↔ ¬SealedShort log log' := by
  obtain ⟨more, rfl⟩ := hpre
  have hbase : start (segs ++ more) segs.length = log.active.baseLsn := by
    rw [start_append more (Nat.le_refl _), start_length, h.minLsn]
  have hlength : rest.length = more.length := by
    have := h'.length_sealed
    rw [hrest, List.length_append, List.length_append, h.length_sealed] at this
    omega
  have hat : ∀ i c, rest[i]? = some c → ∃ rs, more[i]? = some rs ∧
      SealedAt env log'.dir (segs.length + i) (start (segs ++ more) (segs.length + i)) c rs := fun i c hc => by
    have hi : i < more.length := hlength ▸ (List.getElem?_eq_some_iff.1 hc).1
    refine ⟨more[i], List.getElem?_eq_getElem hi, h'.sealedAt _ c _ ?_ ?_⟩
    · rw [hrest, ← h.length_sealed, List.getElem?_append_right (Nat.le_add_right _ _), Nat.add_sub_cancel_left]
      exact hc
    · rw [List.getElem?_append_right (Nat.le_add_right _ _), Nat.add_sub_cancel_left]
      exact List.getElem?_eq_getElem hi
  have hge : ∀ (i : Nat) (c : SegmentContainer), rest[i]? = some c → log.active.baseLsn ≤ c.maxLsn := fun i c hc => by
    obtain ⟨rs, -, hsealed⟩ := hat i c hc
    rw [← hbase, hsealed.maxLsn]
    exact Nat.le_trans (start_mono _ (Nat.le_add_right _ _)) (Nat.le_add_right _ _)
  rcases currentWatermark_lt hq with hlt | ⟨hzero, hwm⟩
  · refine iff_of_true (fun c hc => ?_) (fun hshort => ?_)
    · obtain ⟨i, hi⟩ := List.mem_iff_getElem?.1 hc
      exact Nat.lt_of_lt_of_le hlt (hge i c hi)
    · rw [hshort.1] at hlt
      exact Nat.not_lt_zero _ hlt
  · rw [hwm]
    constructor
    · rintro hall ⟨-, c, hc, hid, hshort⟩
      obtain ⟨i, hi⟩ := List.mem_iff_getElem?.1 hc
      have hilt : i < (segs ++ more).length := h'.length_sealed ▸ (List.getElem?_eq_some_iff.1 hi).1
      have hsealed := h'.sealedAt i c _ hi (List.getElem?_eq_getElem hilt)
      have hieq : i = segs.length := by rw [← hsealed.id, hid, h.segmentId]
      subst hieq
      have hcrest : c ∈ rest := by
        rw [hrest, ← h.length_sealed, List.getElem?_append_right (Nat.le_refl _), Nat.sub_self] at hi
        exact List.mem_of_getElem? hi
      have hpos := hall c hcrest
      rw [hsealed.entries, length_indexFrom] at hshort
      rw [hsealed.maxLsn, hbase, hzero] at hpos
      omega
    · intro hshort c hc
      obtain ⟨i, hi⟩ := List.mem_iff_getElem?.1 hc
      obtain ⟨first, hfirst⟩ : ∃ first, rest[0]? = some first := by
        have hpos : 0 < rest.length := List.length_pos_of_mem hc
        exact ⟨_, List.getElem?_eq_getElem hpos⟩
      obtain ⟨fs, hfs, hfirstAt⟩ := hat 0 first hfirst
      have hlong : 2 ≤ fs.length := by
        by_contra hle
        refine hshort ⟨hzero, first, ?_, ?_, ?_⟩
        · rw [hrest]
          exact List.mem_append_right _ (List.mem_of_getElem? hfirst)
        · rw [hfirstAt.id, h.segmentId, Nat.add_zero]
        · rw [hfirstAt.entries, length_indexFrom]
          omega
      obtain ⟨rs, hrs, hsealed⟩ := hat i c hi
      rw [hsealed.maxLsn]
      cases i with
      | zero =>
        cases hfs.symm.trans hrs
        omega
      | succ i =>
        have hsegs : (segs ++ more)[segs.length]? = some fs := by
          rw [List.getElem?_append_right (Nat.le_refl _), Nat.sub_self]
          exact hfs
        have hnext := start_succ hsegs
        have hmono : start (segs ++ more) (segs.length + 1) ≤ start (segs ++ more) (segs.length + (i + 1)) :=
          start_mono _ (by omega)
        omega

/-! ## Histories -/

/-- A log directory with the log opened on it. -/
structure Site where
  log : Except HeraclitusError Log
  segmentMaxBytes : Nat

/-- A batch of appends, or closing the log and opening it again. -/
inductive Act where
  | batch (cmds : List LogCommand)
  | reopen (segmentMaxBytes : Nat)

variable (env) in
def Site.start (segmentMaxBytes : Nat) : Site := { log := openLog env .empty, segmentMaxBytes := segmentMaxBytes }

variable (env) in
def Site.step (s : Site) : Act → Option Site
  | .batch cmds =>
    match s.log with
    | .error _ => none
    | .ok log =>
      if 1 ≤ cmds.length ∧ cmds.length ≤ 128 then some { s with log := .ok (log.batch env s.segmentMaxBytes cmds).1 } else none
  | .reopen segmentMaxBytes =>
    match s.log with
    | .error _ => none
    | .ok log => some { log := openLog env log.dir, segmentMaxBytes := segmentMaxBytes }

variable (env) in
/-- Payloads are within the readers' bound, and LSNs fit their type. -/
def ActOk (s : Site) : Act → Prop
  | .batch cmds => ∀ log, s.log = .ok log → log.BatchOk env cmds
  | .reopen _ => True

instance (s : Site) : ∀ a : Act, Decidable (ActOk env s a)
  | .batch cmds => inferInstanceAs (Decidable (∀ log, s.log = .ok log → log.BatchOk env cmds))
  | .reopen _ => isTrue trivial

variable (env) in
/-- The log, if it is open, is as it should be and still has what was sealed before. -/
def Site.Grown (segs₀ : List (List Rec)) (sealed₀ : List SegmentContainer) (s : Site) : Prop :=
  ∀ log, s.log = .ok log → ∃ segs act, Steady env log segs act ∧ log.dir.get? segs.length ≠ some [] ∧
    Sealing log log.committedLsn ∧ segs₀ <+: segs ∧ sealed₀ <+: log.catalog.sealedSegments

theorem Site.grown_step (hcodec : env.RoundTrips) {segs₀ : List (List Rec)} {sealed₀ : List SegmentContainer} {s s' : Site}
    {a : Act} (h : s.Grown env segs₀ sealed₀) (hok : ActOk env s a) (hs : s.step env a = some s') :
    s'.Grown env segs₀ sealed₀ := by
  intro log' hlog'
  cases hlog : s.log with
  | error e => cases a <;> simp [Site.step, hlog] at hs
  | ok log =>
    obtain ⟨segs, act, hsteady, hsolid, hq, hpre, hsealed⟩ := h log hlog
    cases a with
    | batch cmds =>
      obtain ⟨hbounded, hlsns⟩ := hok log hlog
      obtain ⟨segs', act', done, hsteady', hsolid', -, -, hpre'⟩ :=
        hsteady.batch_keeps (keptByWorker_extends segs) List.prefix_rfl hcodec s.segmentMaxBytes hsolid hbounded hlsns
      obtain ⟨hq', hsealed'⟩ := hq.batch s.segmentMaxBytes cmds hsteady'
      simp only [Site.step, hlog] at hs
      split at hs
      · cases hs
        cases hlog'
        exact ⟨segs', act', hsteady', hsolid', hq', hpre.trans hpre', hsealed.trans hsealed'⟩
      · cases hs
    | reopen segmentMaxBytes =>
      simp only [Site.step, hlog, Option.some.injEq] at hs
      cases hs
      obtain ⟨hsteady', hdir, hq', heq⟩ := hq.reopen hsteady hsolid hlog'
      exact ⟨segs, act, hsteady', hdir ▸ hsolid, hq', hpre, heq ▸ hsealed⟩

theorem Site.grown_of_run (hcodec : env.RoundTrips) {segs₀ : List (List Rec)} {sealed₀ : List SegmentContainer} {s s' : Site}
    {acts : List Act} (h₀ : s.Grown env segs₀ sealed₀) (h : Run (Site.step env) (ActOk env) s acts s') :
    s'.Grown env segs₀ sealed₀ :=
  h.invariant h₀ (fun _ _ _ hi hok hs => Site.grown_step hcodec hi hok hs)

theorem Site.grown_start (segmentMaxBytes : Nat) : (Site.start env segmentMaxBytes).Grown env [] [] := by
  intro log hlog
  cases hlog
  exact ⟨[], [], steady_create, solid_create, sealing_create, List.prefix_rfl, List.prefix_rfl⟩

/-- **A receipt holds exactly as long as the segment that LSN 0 is written to is not sealed short**: for every history of
batches and reopenings, every receipt of its log and every history that follows, the commitment at the receipt's LSN is the
one of the receipt unless the log had sealed no record then and has since sealed the segment it wrote to with one record at
most.  A receipt of the worker always holds. -/
theorem receipt_holds_iff (hcodec : C.RoundTrips) {segmentMaxBytes : Nat} {acts acts' : List Act} {s s' : Site}
    (h : Run (Site.step C.toEnv) (ActOk C.toEnv) (.start C.toEnv segmentMaxBytes) acts s) (hlog : s.log = .ok log)
    (hissued : Anchored C log r) (h' : Run (Site.step C.toEnv) (ActOk C.toEnv) s acts' s') (hlog' : s'.log = .ok log') :
    (commitAt C.toEnv log' r.lsn = commitAt C.toEnv log r.lsn ↔ ¬SealedShort log log') ∧
      (¬SealedShort log log' → Matches C log' r) ∧ (Ticked C log r → ¬SealedShort log log') := by
  obtain ⟨segs, act, hsteady, hsolid, hq, -, -⟩ := Site.grown_of_run hcodec (Site.grown_start segmentMaxBytes) h log hlog
  have hgrown : s.Grown C.toEnv segs log.catalog.sealedSegments := fun log₁ hlog₁ => by
    cases hlog.symm.trans hlog₁
    exact ⟨segs, act, hsteady, hsolid, hq, List.prefix_rfl, List.prefix_rfl⟩
  obtain ⟨segs', act', hsteady', -, hq', hpre, ⟨rest, hrest⟩⟩ := Site.grown_of_run hcodec hgrown h' log' hlog'
  obtain ⟨hlsn, hmatches⟩ := hissued.spec
  have hiff : commitAt C.toEnv log' r.lsn = commitAt C.toEnv log r.lsn ↔ ¬SealedShort log log' := by
    rw [commitAt_eq_iff hsteady hq hsteady' hq' hrest.symm, hlsn]
    exact above_iff hsteady hq hsteady' hpre hrest.symm
  refine ⟨hiff, fun hnot => ?_, fun hticked hshort => ?_⟩
  · rw [Matches, imprintAt, hiff.2 hnot]
    exact hmatches
  · have hpos := hticked.anchored.2
    rw [hlsn] at hpos
    rcases currentWatermark_lt hq with hlt | ⟨-, hzero⟩
    · rw [hshort.1] at hlt
      exact Nat.not_lt_zero _ hlt
    · omega

/-! ## A first segment of one record -/

/-- SHA-256 of the imprints at LSN 0 of a log that has sealed nothing and of one that has sealed the first record alone. -/
def sampleSha256 (input : Bytes) : Digest :=
  if input.drop 39 = List.replicate 32 0 then
    ⟨[231, 166, 107, 150, 220, 120, 75, 163, 162, 3, 154, 39, 222, 252, 166, 156, 155, 197, 122, 189, 205, 186, 33, 94, 53,
      221, 67, 12, 19, 122, 155, 129], rfl⟩
  else
    ⟨[82, 208, 6, 105, 185, 98, 117, 193, 230, 166, 208, 206, 45, 9, 110, 236, 68, 147, 203, 70, 150, 98, 191, 243, 149, 165,
      16, 231, 141, 89, 245, 188], rfl⟩

/-- No token is a development token. -/
def sampleCrates : Crates :=
  { sampleEnv with sha256 := sampleSha256, verifyDevToken := fun _ _ => .error (.der "unexpected tag") }

/-- An authority whose tokens are not checked. -/
def externalTsa : TsaClient :=
  { policyName := "ACT-externa-de-teste".toList, validationState := .externalTokenUnvalidated, stamp := fun _ => .ok [48, 0] }

def emptyDir : ReceiptsDir := { tokens := [], manifest := [] }

/-- The log after some actions, a receipt of it, and the log after some more. -/
def audit (segmentMaxBytes : Nat) (acts acts' : List Act) : Option (Site × LegalReceipt × Log × Site × Log) :=
  (runs (Site.step sampleEnv) (.start sampleEnv segmentMaxBytes) acts).bind (fun s =>
    s.log.toOption.bind (fun log => (anchor sampleCrates log externalTsa 0 emptyDir none).toOption.bind (fun anchored =>
      (runs (Site.step sampleEnv) s acts').bind (fun s' => s'.log.toOption.map (fun log' => (s, anchored.1, log, s', log'))))))

theorem audit_eq_some {segmentMaxBytes : Nat} {acts acts' : List Act} {s s' : Site}
    (h : audit segmentMaxBytes acts acts' = some (s, r, log, s', log')) :
    runs (Site.step sampleEnv) (.start sampleEnv segmentMaxBytes) acts = some s ∧ s.log = .ok log ∧
      Anchored sampleCrates log r ∧ runs (Site.step sampleEnv) s acts' = some s' ∧ s'.log = .ok log' := by
  obtain ⟨s₁, hs, h⟩ := Option.bind_eq_some_iff.1 h
  obtain ⟨log₁, hlog, h⟩ := Option.bind_eq_some_iff.1 h
  obtain ⟨⟨r₁, dir⟩, hanchor, h⟩ := Option.bind_eq_some_iff.1 h
  obtain ⟨s₂, hs', h⟩ := Option.bind_eq_some_iff.1 h
  obtain ⟨log₂, hlog', heq⟩ := Option.map_eq_some_iff.1 h
  cases heq
  exact ⟨hs, Except.toOption_eq_some hlog, ⟨externalTsa, 0, emptyDir, dir, none, rfl, Except.toOption_eq_some hanchor⟩, hs',
    Except.toOption_eq_some hlog'⟩

theorem sampleCrates_roundTrips : sampleCrates.RoundTrips := sampleEnv_roundTrips

set_option maxRecDepth 20000 in
/-- A receipt of a log with one sealed record, after a reopening. -/
theorem receipt_holds_iff_sample : ∃ r log log', r.segments = 1 ∧ Anchored sampleCrates log r ∧ ¬SealedShort log log' ∧
    (commitAt sampleEnv log' r.lsn = commitAt sampleEnv log r.lsn ↔ ¬SealedShort log log') ∧
      (¬SealedShort log log' → Matches sampleCrates log' r) ∧ (Ticked sampleCrates log r → ¬SealedShort log log') := by
  have hdata : (audit 110 [.batch [sampleAppend 0], .batch [sampleAppend 1]] [.reopen 110]).map (fun x =>
      (x.2.1.segments, decide (SealedShort x.2.2.1 x.2.2.2.2))) = some (1, false) := by decide +kernel
  obtain ⟨⟨s, r, log, s', log'⟩, haudit, hdata⟩ := Option.map_eq_some_iff.1 hdata
  obtain ⟨hs, hlog, hanchored, hs', hlog'⟩ := audit_eq_some haudit
  have hok : allOk (Site.step sampleEnv) (ActOk sampleEnv) (.start sampleEnv 110)
      [.batch [sampleAppend 0], .batch [sampleAppend 1]] := by decide +kernel
  exact ⟨r, log, log', congrArg Prod.fst hdata, hanchored, of_decide_eq_false (congrArg Prod.snd hdata),
    receipt_holds_iff sampleCrates_roundTrips (run_of_runs hs hok) hlog hanchored
      (run_of_runs hs' ⟨trivial, fun _ _ => trivial⟩) hlog'⟩

set_option maxRecDepth 20000 in
/-- **A receipt of a new log raises a false alarm** once the first record is sealed alone. -/
theorem receipt_raises_false_alarm : sampleCrates.RoundTrips ∧ ∃ s r log s' log',
    Run (Site.step sampleEnv) (ActOk sampleEnv) (.start sampleEnv 110) [] s ∧ s.log = .ok log ∧
    Anchored sampleCrates log r ∧
    Run (Site.step sampleEnv) (ActOk sampleEnv) s [.batch [sampleAppend 0], .batch [sampleAppend 1]] s' ∧ s'.log = .ok log' ∧
    commitAt sampleEnv log' r.lsn ≠ commitAt sampleEnv log r.lsn ∧
    ∀ dir, verifyReceipt sampleCrates log' dir r = .error (.verify
      s!"commitment recalculado não bate com o recibo no LSN {r.lsn} — log alterado retroativamente?") := by
  have hdata : (audit 110 [] [.batch [sampleAppend 0], .batch [sampleAppend 1]]).map (fun x =>
      (decide (commitAt sampleEnv x.2.2.2.2 x.2.1.lsn = commitAt sampleEnv x.2.2.1 x.2.1.lsn),
        decide (toHex (imprintAt sampleCrates x.2.2.2.2 x.2.1.lsn).1 = x.2.1.imprintHex))) = some (false, false) := by
    decide +kernel
  obtain ⟨⟨s, r, log, s', log'⟩, haudit, hdata⟩ := Option.map_eq_some_iff.1 hdata
  obtain ⟨hs, hlog, hanchored, hs', hlog'⟩ := audit_eq_some haudit
  have hok : allOk (Site.step sampleEnv) (ActOk sampleEnv) (.start sampleEnv 110)
      [.batch [sampleAppend 0], .batch [sampleAppend 1]] := by decide +kernel
  cases hs
  refine ⟨fun m e p h => sampleEnv_roundTrips m e p h, _, r, log, s', log', .start, hlog, hanchored, run_of_runs hs' hok, hlog',
    of_decide_eq_false (congrArg Prod.fst hdata), fun dir => ?_⟩
  exact if_pos (of_decide_eq_false (congrArg Prod.snd hdata))

end Compliance
end Heraclitus
