import Heraclitus.ColdCompact
import Heraclitus.LegacyWindows
import Heraclitus.Lib.F64
import Mathlib.Data.List.Induction
/-!
# TierTick — when a cold segment is worth rewriting (`heraclitus-server/src/engine.rs`)

A tick counts, for each segment with a receipt, the tombstoned LSNs in the range of its latest receipt, and takes off what
all receipts of the segment say was dropped.  The range shrinks when the first or the last record is dropped; the sum goes
on when the segment is demoted again.
-/
namespace Heraclitus
namespace Tier

open Legacy

/-- The tier's environment, JSON of a receipt, the text of a ULID, and `deleted as f64 / total as f64 >= threshold`. -/
structure TickEnv extends TierEnv where
  receiptJson : DemotionReceipt → Except String Bytes
  receiptFromJson : Bytes → Option DemotionReceipt
  parseUlid : Str → Option Nat
  ratioGe : Nat → Nat → F64 → Bool

structure CompactionPolicy where
  deltaRatioThreshold : F64
  minRecords : Nat

variable (env : TickEnv)

def CompactionPolicy.shouldCompact (policy : CompactionPolicy) (deleted total : Nat) : Bool :=
  decide (policy.minRecords ≤ total) && decide (0 < total) && env.ratioGe deleted total policy.deltaRatioThreshold

/-- The engine: its log, the LSN of every event in the graph index, the cold store, and what was appended. -/
structure Engine where
  log : Log
  lsnOf : SortedMap Nat Nat
  store : Store
  history : List Episode

/-! ## Reading the log -/

/-- What an event tombstones. -/
def tombstoneOf (e : Episode) : Option Nat := (e.attrs.get? "tombstone_of".toList).bind env.parseUlid

def tombstonedIds (log : Log) : Except HeraclitusError (List Nat) :=
  log.walk env.toEnv (fun ids r => .ok ((tombstoneOf env r.2).elim ids (fun id => ids.insert id))) log.committedLsn 100000
    log.committedLsn 0 []

/-- The receipt in an event. -/
def receiptIn (e : Episode) : Option DemotionReceipt :=
  if e.kind = .demotionReceipt then env.receiptFromJson e.content else none

def demotionReceipts (log : Log) : Except HeraclitusError (List DemotionReceipt) :=
  log.walk env.toEnv (fun receipts r => .ok (receipts ++ (receiptIn env r.2).toList)) log.committedLsn 100000
    log.committedLsn 0 []

/-- `latest`. -/
def latestReceipts (receipts : List DemotionReceipt) : SortedMap Nat DemotionReceipt :=
  receipts.foldl (fun latest r => latest.insert r.segmentId r) .empty

/-- `dropped_so_far`. -/
def droppedSoFar (receipts : List DemotionReceipt) : SortedMap Nat Nat :=
  receipts.foldl (fun dropped r => dropped.alter r.segmentId (fun d => some (d.getD 0 + r.dropped))) .empty

/-- `in_range`, less what was dropped; the subtraction saturates. -/
def stillPresent (tombLsns : List Nat) (dropped : SortedMap Nat Nat) (receipt : DemotionReceipt) : Nat :=
  (tombLsns.filter (fun l => decide (receipt.minLsn ≤ l) && decide (l ≤ receipt.maxLsn))).length
    - (dropped.get? receipt.segmentId).getD 0

/-! ## Steps -/

/-- One event in the graph index; H-VM frames are kept out of the views. -/
def indexApplied (lsnOf : SortedMap Nat Nat) (r : Nat × Episode) : SortedMap Nat Nat :=
  if isHvm r.2 then lsnOf
  else if (lsnOf.get? r.2.id).isSome then lsnOf
  else lsnOf.insert r.2.id r.1

/-- A batch of the log's worker, and the views behind it. -/
def Engine.batch (segmentMaxBytes : Nat) (s : Engine) (cmds : List LogCommand) : Engine :=
  let done := s.log.batch env.toEnv segmentMaxBytes cmds
  { s with
    log := done.1
    lsnOf := (acks done.2).foldl indexApplied s.lsnOf
    history := s.history ++ (acks done.2).map Prod.snd }

/-- The id, the timestamp and the metadata that the engine gives an event. -/
structure Stamp where
  id : Nat
  tsHlc : Nat
  opaqueMeta : Bytes

def receiptEpisode (stamp : Stamp) (json : Bytes) : Episode :=
  (Episode.new stamp.id "tier".toList .demotionReceipt json).stamp stamp.tsHlc

/-- `append(receipt_episode(..)?)?`: did the receipt get into the log? -/
def Engine.appendReceipt (segmentMaxBytes : Nat) (s : Engine) (stamp : Stamp) (receipt : DemotionReceipt) : Engine × Bool :=
  match env.receiptJson receipt with
  | .error _ => (s, false)
  | .ok json =>
    let cmds := [LogCommand.append stamp.opaqueMeta (receiptEpisode stamp json) none]
    (s.batch env segmentMaxBytes cmds, !(acks (s.log.batch env.toEnv segmentMaxBytes cmds).2).isEmpty)

def Engine.demoteSegment (segmentMaxBytes : Nat) (s : Engine) (stamp : Stamp) (id : Nat) : Engine :=
  match demotePrepared env.toTierEnv s.log s.store id with
  | (.error _, store) => { s with store := store }
  | (.ok receipt, store) => (Engine.appendReceipt env segmentMaxBytes { s with store := store } stamp receipt).1

/-- The loop over the segments; the first error ends the tick. -/
def Engine.compactSegments (segmentMaxBytes : Nat) (policy : CompactionPolicy) (ids tombLsns : List Nat)
    (dropped : SortedMap Nat Nat) : List (DemotionReceipt × Stamp) → Engine → Engine
  | [], s => s
  | (receipt, stamp) :: rest, s =>
    if policy.shouldCompact env (stillPresent tombLsns dropped receipt) receipt.recordCount then
      match compactColdPrepared env.toTierEnv s.store receipt (fun _ e => ids.contains e.id) with
      | (.error _, store) => { s with store := store }
      | (.ok receipt', store) =>
        match Engine.appendReceipt env segmentMaxBytes { s with store := store } stamp receipt' with
        | (s, false) => s
        | (s, true) => Engine.compactSegments segmentMaxBytes policy ids tombLsns dropped rest s
    else Engine.compactSegments segmentMaxBytes policy ids tombLsns dropped rest s

/-- `tier_compaction_tick`; a hash map has no order, so `order` says which segment comes when. -/
def Engine.tick (segmentMaxBytes : Nat) (policy : CompactionPolicy) (order : List (Nat × Stamp)) (s : Engine) : Engine :=
  match tombstonedIds env s.log, demotionReceipts env s.log with
  | .ok ids, .ok receipts =>
    if ids.isEmpty then s
    else
      let latest := latestReceipts receipts
      Engine.compactSegments env segmentMaxBytes policy ids (ids.filterMap s.lsnOf.get?) (droppedSoFar receipts)
        (order.filterMap (fun o => (latest.get? o.1).map (fun r => (r, o.2)))) s
  | _, _ => s

inductive TierAction where
  /-- Events, tombstones among them. -/
  | append (cmds : List LogCommand)
  | demote (stamp : Stamp) (id : Nat)
  | tick (policy : CompactionPolicy) (order : List (Nat × Stamp))

def Engine.step (segmentMaxBytes : Nat) (s : Engine) : TierAction → Option Engine
  | .append cmds => if 1 ≤ cmds.length ∧ cmds.length ≤ 128 then some (s.batch env segmentMaxBytes cmds) else none
  | .demote stamp id => some (s.demoteSegment env segmentMaxBytes stamp id)
  | .tick policy order => if (order.map Prod.fst).Nodup then some (s.tick env segmentMaxBytes policy order) else none

def Engine.start : Engine := { log := Log.create env.toEnv, lsnOf := .empty, store := .empty, history := [] }

/-! ## The count -/

/-- Does some event tombstone the event `id`? -/
def Tombstoned (history : List Episode) (id : Nat) : Prop := ∃ e ∈ history, tombstoneOf env e = some id

instance (history : List Episode) (id : Nat) : Decidable (Tombstoned env history id) :=
  inferInstanceAs (Decidable (∃ e ∈ history, tombstoneOf env e = some id))

/-- **The tick counts right**: what it computes for a segment is the number of tombstoned records in the object of the
latest receipt, and so a rewrite starts exactly when the policy asks for one on that object. -/
def CountsRight (s : Engine) : Prop :=
  ∀ ids receipts, tombstonedIds env s.log = .ok ids → demotionReceipts env s.log = .ok receipts →
    ∀ seg receipt, (latestReceipts receipts).get? seg = some receipt → ∃ bytes rows,
      s.store.get? receipt.objectPath = some bytes ∧ visitedEpisodes env.toTierEnv bytes = .ok rows ∧
      stillPresent (ids.filterMap s.lsnOf.get?) (droppedSoFar receipts) receipt
        = rows.countP (fun r => decide (Tombstoned env s.history r.2.id)) ∧
      ∀ policy : CompactionPolicy,
        policy.shouldCompact env (stillPresent (ids.filterMap s.lsnOf.get?) (droppedSoFar receipts) receipt) receipt.recordCount
          = policy.shouldCompact env (rows.countP (fun r => decide (Tombstoned env s.history r.2.id))) rows.length

/-! ## The receipts of a segment -/

/-- Of the receipts of a segment: the latest demotion, what was dropped before it and since, and the latest receipt. -/
structure Chain where
  demotion : DemotionReceipt
  earlier : Nat
  since : Nat
  latest : DemotionReceipt

def Chain.add (chain : Option Chain) (r : DemotionReceipt) : Chain :=
  match chain with
  | none => ⟨r, 0, r.dropped, r⟩
  | some c =>
    if r.compactedFrom = none then ⟨r, c.earlier + c.since, r.dropped, r⟩
    else { c with since := c.since + r.dropped, latest := r }

/-- The chain of segment `seg`. -/
def chainOf (seg : Nat) (receipts : List DemotionReceipt) : Option Chain :=
  receipts.foldl (fun chain r => if r.segmentId = seg then some (Chain.add chain r) else chain) none

variable {env}

theorem chainOf_append (seg : Nat) (receipts : List DemotionReceipt) (r : DemotionReceipt) : chainOf seg (receipts ++ [r])
    = if r.segmentId = seg then some (Chain.add (chainOf seg receipts) r) else chainOf seg receipts := by
  rw [chainOf, List.foldl_append]
  rfl

theorem Chain.add_latest (chain : Option Chain) (r : DemotionReceipt) : (Chain.add chain r).latest = r := by
  unfold Chain.add
  split
  · rfl
  · split <;> rfl

theorem Chain.add_total (chain : Option Chain) (r : DemotionReceipt) :
    (Chain.add chain r).earlier + (Chain.add chain r).since = (chain.map (fun c => c.earlier + c.since)).getD 0 + r.dropped := by
  unfold Chain.add
  split
  · rfl
  · split
    · rfl
    · exact (Nat.add_assoc _ _ _).symm

/-- **The maps of the tick are the chains.** -/
theorem latestReceipts_get? (receipts : List DemotionReceipt) (seg : Nat) :
    (latestReceipts receipts).get? seg = (chainOf seg receipts).map Chain.latest := by
  induction receipts using List.reverseRecOn with
  | nil => rfl
  | append_singleton receipts r ih =>
    rw [chainOf_append, latestReceipts, List.foldl_append]
    show ((latestReceipts receipts).insert r.segmentId r).get? seg = _
    rw [SortedMap.get?_insert]
    by_cases hseg : r.segmentId = seg
    · rw [if_pos hseg.symm, if_pos hseg, Option.map_some, Chain.add_latest]
    · rw [if_neg (Ne.symm hseg), if_neg hseg, ih]

theorem droppedSoFar_get? (receipts : List DemotionReceipt) (seg : Nat) :
    (droppedSoFar receipts).get? seg = (chainOf seg receipts).map (fun c => c.earlier + c.since) := by
  induction receipts using List.reverseRecOn with
  | nil => rfl
  | append_singleton receipts r ih =>
    rw [chainOf_append, droppedSoFar, List.foldl_append]
    show ((droppedSoFar receipts).alter r.segmentId (fun d => some (d.getD 0 + r.dropped))).get? seg = _
    rw [SortedMap.get?_alter]
    by_cases hseg : r.segmentId = seg
    · rw [if_pos hseg.symm, if_pos hseg, hseg, ih, Option.map_some, Chain.add_total]
    · rw [if_neg (Ne.symm hseg), if_neg hseg, ih]

/-! ## Counting -/

theorem countP_eq_iff {α : Type} {p q : α → Bool} : ∀ {l : List α}, (∀ x ∈ l, p x = true → q x = true) →
    (l.countP p = l.countP q ↔ ∀ x ∈ l, q x = true → p x = true)
  | [], _ => by simp
  | a :: l, h => by
    have hl : ∀ x ∈ l, p x = true → q x = true := fun x hx => h x (List.mem_cons_of_mem a hx)
    have ih := countP_eq_iff hl
    have hle : l.countP p ≤ l.countP q := List.countP_mono_left hl
    have ha := h a List.mem_cons_self
    rw [List.countP_cons, List.countP_cons, List.forall_mem_cons, ← ih]
    cases hp : p a with
    | true => simp [ha hp]
    | false =>
      cases hq : q a with
      | true =>
        simp only [Bool.false_eq_true, if_false, if_true]
        exact iff_of_false (by omega) (by simp)
      | false => simp

/-- **The arithmetic of the tick.**  Of the rows of a segment some are kept, the others were tombstoned; `known` are those
the graph index has, `inside` those in the range of the receipt. -/
theorem stillPresent_arith {ρ : Type} {rows : List ρ} {tomb known inside keep : ρ → Bool} (earlier : Nat)
    (hdropped : ∀ r ∈ rows, keep r = false → tomb r = true) (hinside : ∀ r ∈ rows, keep r = true → inside r = true) :
    rows.countP (fun r => tomb r && known r && inside r) - (earlier + rows.countP (fun r => !keep r))
        = rows.countP (fun r => keep r && tomb r) ↔
      (∀ r ∈ rows, keep r = true → tomb r = false) ∨
        earlier = 0 ∧ (∀ r ∈ rows, keep r = false → inside r = true) ∧ ∀ r ∈ rows, tomb r = true → known r = true := by
  have hsplit : rows.countP (fun r => tomb r && known r && inside r)
      = rows.countP (fun r => tomb r && known r && inside r && keep r)
        + rows.countP (fun r => tomb r && known r && inside r && !keep r) := by
    rw [List.countP_eq_countP_filter_add rows _ keep, List.countP_filter, List.countP_filter]
  have hkept : ∀ r ∈ rows, (tomb r && known r && inside r && keep r) = true → (keep r && tomb r) = true := by
    intro r _ h
    simp only [Bool.and_eq_true] at h ⊢
    exact ⟨h.2, h.1.1.1⟩
  have hgone : ∀ r ∈ rows, (tomb r && known r && inside r && !keep r) = true → (!keep r) = true := by
    intro r _ h
    exact (Bool.and_eq_true_iff.1 h).2
  have hkeptIff := countP_eq_iff hkept
  have hgoneIff := countP_eq_iff hgone
  have hkeptLe := List.countP_mono_left hkept
  have hgoneLe := List.countP_mono_left hgone
  have hzero : rows.countP (fun r => keep r && tomb r) = 0 ↔ ∀ r ∈ rows, keep r = true → tomb r = false := by
    simp [List.countP_eq_zero]
  rw [hsplit]
  constructor
  · intro h
    by_cases hreal : rows.countP (fun r => keep r && tomb r) = 0
    · exact .inl (hzero.1 hreal)
    · have hkeptAll := hkeptIff.1 (by omega)
      have hgoneAll := hgoneIff.1 (by omega)
      refine .inr ⟨by omega, fun r hr hk => ?_, fun r hr ht => ?_⟩
      · have := hgoneAll r hr (by simp [hk])
        simp only [Bool.and_eq_true] at this
        exact this.1.2
      · cases hk : keep r with
        | true =>
          have := hkeptAll r hr (by simp [hk, ht])
          simp only [Bool.and_eq_true] at this
          exact this.1.1.2
        | false =>
          have := hgoneAll r hr (by simp [hk])
          simp only [Bool.and_eq_true] at this
          exact this.1.1.2
  · rintro (hnone | ⟨hearlier, hall, hknown⟩)
    · have hreal := hzero.2 hnone
      omega
    · have hkeptAll := hkeptIff.2 (fun r hr h => by
        obtain ⟨hk, ht⟩ := Bool.and_eq_true_iff.1 h
        simp [hk, ht, hknown r hr ht, hinside r hr hk])
      have hgoneAll := hgoneIff.2 (fun r hr h => by
        have hk : keep r = false := by simpa using h
        have ht := hdropped r hr hk
        simp [hk, ht, hknown r hr ht, hall r hr hk])
      omega

end Tier
end Heraclitus
