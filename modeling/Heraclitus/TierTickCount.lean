import Heraclitus.TableCodec
import Heraclitus.TierTickRun
/-!
# TierTickCount — when a tick counts right

The engine's views follow its log, and of every segment that has a receipt the object of the latest one is known
(`Tracked`).  Appends, demotions and ticks keep this, whatever of them goes through.
-/
namespace Heraclitus
namespace Tier

open Legacy
open Crypto (hexEncode)

variable {env : TickEnv}

/-! ## The log and the views -/

/-- The log and the views of an engine: `segs` are sealed, `act` is in the active segment. -/
structure Sound (env : TickEnv) (s : Engine) (segs : List (List Rec)) (act : List Rec) : Prop where
  steady : Steady env.toEnv s.log segs act
  solid : s.log.dir.get? segs.length ≠ some []
  history : s.history = (segs.flatten ++ act).map Rec.episode
  ids : (s.history.map Episode.id).Nodup
  located : Located s.lsnOf s.history

theorem sound_start : Sound env (Engine.start env) [] [] where
  steady := steady_create
  solid := solid_create
  history := rfl
  ids := .nil
  located := fun id l => by simp [Engine.start]

variable {s : Engine} {segs : List (List Rec)} {act : List Rec}

theorem Sound.committed (h : Sound env s segs act) : s.log.committedLsn = s.history.length := by
  rw [h.steady.committed, h.history, List.length_map]

/-- What a batch acknowledges. -/
def acked (env : TickEnv) (segmentMaxBytes : Nat) (s : Engine) (cmds : List LogCommand) : List Episode :=
  (acks (s.log.batch env.toEnv segmentMaxBytes cmds).2).map Prod.snd

theorem Engine.batch_history (segmentMaxBytes : Nat) (s : Engine) (cmds : List LogCommand) :
    (s.batch env segmentMaxBytes cmds).history = s.history ++ acked env segmentMaxBytes s cmds := rfl

/-- **A batch keeps the engine sound.** -/
theorem Sound.batch (h : Sound env s segs act) (hcodec : env.RoundTrips) (segmentMaxBytes : Nat) {cmds : List LogCommand}
    (hok : s.log.BatchOk env.toEnv cmds) (hids : ((s.history ++ acked env segmentMaxBytes s cmds).map Episode.id).Nodup) :
    ∃ segs' act', Sound env (s.batch env segmentMaxBytes cmds) segs' act' ∧ segs <+: segs' := by
  obtain ⟨segs', act', done, hsteady, hsolid, hrecords, hacks, hpre⟩ :=
    h.steady.batch_keeps (keptByWorker_extends segs) List.prefix_rfl hcodec segmentMaxBytes h.solid hok.1 hok.2
  have hmore : acked env segmentMaxBytes s cmds = done.map Rec.episode := by rw [acked, hacks, map_snd_number]
  rw [hmore] at hids
  refine ⟨segs', act', ⟨hsteady, hsolid, ?_, ?_, ?_⟩, hpre⟩
  · rw [Engine.batch_history, hmore, hrecords, h.history]
    exact List.map_append.symm
  · rwa [Engine.batch_history, hmore]
  · rw [Engine.batch_history, hmore]
    show Located ((acks _).foldl indexApplied s.lsnOf) _
    rw [hacks, h.committed]
    exact h.located.foldl _ hids

/-! ## The receipts -/

/-- The receipts' JSON is read back. -/
def ReceiptsRoundTrip (env : TickEnv) : Prop :=
  ∀ receipt json, env.receiptJson receipt = .ok json → env.receiptFromJson json = some receipt

/-- The record of a receipt is within the readers' bound. -/
def ReceiptFits (env : TickEnv) (stamp : Stamp) (receipt : DemotionReceipt) : Prop :=
  ∀ json, env.receiptJson receipt = .ok json →
    (LogCommand.append stamp.opaqueMeta (receiptEpisode stamp json) none).Bounded env.toEnv

theorem receiptIn_receiptEpisode (hjson : ReceiptsRoundTrip env) {receipt : DemotionReceipt} {json : Bytes}
    (h : env.receiptJson receipt = .ok json) (stamp : Stamp) : receiptIn env (receiptEpisode stamp json) = some receipt :=
  (if_pos rfl).trans (hjson receipt json h)

theorem receiptsOf_append (history more : List Episode) :
    receiptsOf env (history ++ more) = receiptsOf env history ++ receiptsOf env more := List.filterMap_append

/-! ## The object of the latest receipt -/

theorem countP_not_add {α : Type} (p : α → Bool) (l : List α) : l.countP (fun a => !p a) + (l.filter p).length = l.length := by
  have hsplit := List.length_eq_countP_add_countP p (l := l)
  rw [← List.countP_eq_length_filter, hsplit, Nat.add_comm]
  simp

theorem le_min?_getD {l : List Nat} {b d : Nat} (hl : ∀ x ∈ l, b ≤ x) (hd : b ≤ d) : b ≤ l.min?.getD d := by
  cases hmin : l.min? with
  | none => exact hd
  | some m => exact hl m (List.min?_mem hmin)

theorem max?_getD_le {l : List Nat} {b d : Nat} (hl : ∀ x ∈ l, x ≤ b) (hd : d ≤ b) : l.max?.getD d ≤ b := by
  cases hmax : l.max? with
  | none => exact hd
  | some m => exact hl m (List.max?_mem hmax)

/-- Of the rows of segment `i`, which begins at `lsn`, those that are kept are in the object of its latest receipt; the
others were tombstoned. -/
structure Tracked (env : TickEnv) (store : Store) (history : List Episode) (i lsn : Nat) (rows : List (Nat × Episode))
    (c : Chain) (keep : Nat × Episode → Bool) : Prop where
  segmentId : c.latest.segmentId = i
  path : ObjectPath i c.latest.objectPath
  uncut : c.latest.objectPath = coldPath i ".hrkl".toList → ∀ r ∈ rows, keep r = true
  object : Holds env.toTierEnv store c.latest.objectPath (rows.filter keep)
  recordCount : c.latest.recordCount = (rows.filter keep).length
  since : c.since = rows.countP (fun r => !keep r)
  gone : ∀ r ∈ rows, keep r = false → Tombstoned env history r.2.id
  inside : ∀ r ∈ rows, keep r = true → c.latest.minLsn ≤ r.1 ∧ r.1 ≤ c.latest.maxLsn
  demotedMin : c.demotion.minLsn = lsn
  demotedMax : c.demotion.maxLsn = lsn + (rows.length - 1)
  rangeMin : lsn ≤ c.latest.minLsn
  rangeMax : c.latest.maxLsn ≤ lsn + (rows.length - 1)

section Tracked

variable {store store' : Store} {history history' : List Episode} {i lsn : Nat} {rows : List (Nat × Episode)} {c : Chain}
  {keep : Nat × Episode → Bool}

theorem Tracked.later (h : Tracked env store history i lsn rows c keep)
    (htomb : ∀ id, Tombstoned env history id → Tombstoned env history' id) : Tracked env store history' i lsn rows c keep :=
  { h with gone := fun r hr hk => htomb _ (h.gone r hr hk) }

theorem Tracked.setStore (h : Tracked env store history i lsn rows c keep)
    (hobject : Holds env.toTierEnv store' c.latest.objectPath (rows.filter keep)) :
    Tracked env store' history i lsn rows c keep :=
  { h with object := hobject }

/-- **A demotion's receipt** starts the count of its segment again. -/
theorem Tracked.demoted {r : DemotionReceipt} (hr : OfDemotion i lsn rows.length r)
    (hobject : Holds env.toTierEnv store (coldPath i ".hrkl".toList) rows)
    (hrows : ∀ row ∈ rows, lsn ≤ row.1 ∧ row.1 ≤ lsn + (rows.length - 1)) (chain : Option Chain) :
    Tracked env store history i lsn rows (Chain.add chain r) (fun _ => true) := by
  have hadd : ∃ earlier, Chain.add chain r = ⟨r, earlier, r.dropped, r⟩ := by
    unfold Chain.add
    cases chain with
    | none => exact ⟨0, rfl⟩
    | some c => exact ⟨_, if_pos hr.compactedFrom⟩
  obtain ⟨earlier, hadd⟩ := hadd
  rw [hadd]
  have hall : rows.filter (fun _ => true) = rows := List.filter_eq_self.2 (fun _ _ => rfl)
  refine ⟨hr.segmentId, ?_, fun _ _ _ => rfl, ?_, ?_, ?_, fun r _ hk => (by cases hk), fun row hrow _ => ?_, hr.minLsn, hr.maxLsn,
    Nat.le_of_eq hr.minLsn.symm, Nat.le_of_eq hr.maxLsn⟩
  · exact hr.objectPath ▸ .demoted
  · rw [hall]
    exact hr.objectPath ▸ hobject
  · rw [hall]
    exact hr.recordCount
  · show r.dropped = _
    rw [hr.dropped]
    exact (List.countP_eq_zero.2 (fun _ _ h => by cases h)).symm
  · show r.minLsn ≤ _ ∧ _ ≤ r.maxLsn
    rw [hr.minLsn, hr.maxLsn]
    exact hrows row hrow

/-- **A compaction's receipt** goes on counting. -/
theorem Tracked.compacted (h : Tracked env store history i lsn rows c keep) (isDeleted : Nat × Episode → Bool)
    {r : DemotionReceipt} (hr : OfCompaction c.latest (rows.filter keep) ((rows.filter keep).filter (fun p => !isDeleted p)) r)
    (hobject : Holds env.toTierEnv store' r.objectPath ((rows.filter keep).filter (fun p => !isDeleted p)))
    (hdeleted : ∀ p, isDeleted p = true → Tombstoned env history p.2.id) :
    Tracked env store' history i lsn rows (Chain.add (some c) r) (fun p => keep p && !isDeleted p) := by
  have hadd : Chain.add (some c) r = { c with since := c.since + r.dropped, latest := r } := if_neg hr.compactedFrom
  have hkept : (rows.filter keep).filter (fun p => !isDeleted p) = rows.filter (fun p => keep p && !isDeleted p) := by
    rw [List.filter_filter]
    exact congrArg (rows.filter ·) (funext (fun p => Bool.and_comm _ _))
  have hmem : ∀ x ∈ ((rows.filter keep).filter (fun p => !isDeleted p)).map Prod.fst,
      c.latest.minLsn ≤ x ∧ x ≤ c.latest.maxLsn := by
    intro x hx
    obtain ⟨p, hp, rfl⟩ := List.mem_map.1 hx
    obtain ⟨hrow, hk⟩ := List.mem_filter.1 (List.mem_filter.1 hp).1
    exact h.inside p hrow hk
  have hpath : r.objectPath = compactPath i (nextCompaction c.latest.objectPath) ".hrkl".toList := by
    rw [hr.objectPath, newPath, h.segmentId]
  have hnumber : nextCompaction c.latest.objectPath < 2 ^ 32 := Nat.mod_lt _ (by decide)
  rw [hadd]
  refine ⟨hr.segmentId.trans h.segmentId, ?_, fun hplain => ?_, hkept ▸ hobject, hkept ▸ hr.recordCount, ?_, fun p hp hk => ?_,
    fun p hp hk => ?_, h.demotedMin, h.demotedMax, ?_, ?_⟩
  · exact hpath ▸ .compacted _ hnumber
  · have hplain : r.objectPath = coldPath i ".hrkl".toList := hplain
    rw [hpath] at hplain
    exact absurd (List.cons.inj (coldPath_injective (by decide) (by decide) hplain).2).1 (by decide)
  · show c.since + r.dropped = _
    have hall := countP_not_add keep rows
    have hboth := countP_not_add (fun p => keep p && !isDeleted p) rows
    have hle := List.length_filter_le (fun p => !isDeleted p) (rows.filter keep)
    rw [hkept] at hle
    rw [hr.dropped, h.since, hkept]
    omega
  · cases hkeep : keep p with
    | false => exact h.gone p hp hkeep
    | true =>
      rw [hkeep] at hk
      exact hdeleted p (by simpa using hk)
  · have hk := Bool.and_eq_true_iff.1 hk
    have hp : p.1 ∈ ((rows.filter keep).filter (fun p => !isDeleted p)).map Prod.fst :=
      List.mem_map_of_mem (List.mem_filter.2 ⟨List.mem_filter.2 ⟨hp, hk.1⟩, hk.2⟩)
    show r.minLsn ≤ _ ∧ _ ≤ r.maxLsn
    rw [hr.minLsn, hr.maxLsn]
    exact ⟨List.min?_getD_le_of_mem hp, List.le_max?_getD_of_mem hp⟩
  · show lsn ≤ r.minLsn
    rw [hr.minLsn]
    exact le_min?_getD (fun x hx => Nat.le_trans h.rangeMin (hmem x hx).1) h.rangeMin
  · show r.maxLsn ≤ _
    rw [hr.maxLsn]
    exact max?_getD_le (fun x hx => Nat.le_trans (hmem x hx).2 h.rangeMax) h.rangeMax

end Tracked

/-! ## Steps -/

/-- What is known of segment `i` and its receipts. -/
def SegmentOk (env : TickEnv) (store : Store) (history : List Episode) (segs : List (List Rec)) (i : Nat) (c : Chain) : Prop :=
  ∃ rs keep, segs[i]? = some rs ∧ rs ≠ [] ∧ Tracked env store history i (start segs i) (eventsOf segs i rs) c keep

/-- The engine is sound, and so is what its receipts say. -/
structure Inv (env : TickEnv) (s : Engine) (segs : List (List Rec)) (act : List Rec) : Prop extends Sound env s segs act where
  chains : ∀ i c, chainOf i (receiptsOf env s.history) = some c → SegmentOk env s.store s.history segs i c

theorem tombstoned_append {history : List Episode} (more : List Episode) (id : Nat) (h : Tombstoned env history id) :
    Tombstoned env (history ++ more) id := by
  obtain ⟨e, he, heq⟩ := h
  exact ⟨e, List.mem_append_left more he, heq⟩

theorem SegmentOk.later {store : Store} {history history' : List Episode} {segs segs' : List (List Rec)} {i : Nat} {c : Chain}
    (h : SegmentOk env store history segs i c) (hpre : segs <+: segs')
    (htomb : ∀ id, Tombstoned env history id → Tombstoned env history' id) : SegmentOk env store history' segs' i c := by
  obtain ⟨rs, keep, hseg, hne, htracked⟩ := h
  obtain ⟨more, rfl⟩ := hpre
  have hi := (List.getElem?_eq_some_iff.1 hseg).1
  have hstart : start (segs ++ more) i = start segs i := start_append more (Nat.le_of_lt hi)
  refine ⟨rs, keep, by rw [List.getElem?_append_left hi, hseg], hne, ?_⟩
  rw [eventsOf, hstart]
  exact htracked.later htomb

theorem inv_start : Inv env (Engine.start env) [] [] where
  toSound := sound_start
  chains := fun i c hc => by cases hc

/-- A batch without receipts. -/
theorem Inv.batch (h : Inv env s segs act) (hcodec : env.RoundTrips) (segmentMaxBytes : Nat) {cmds : List LogCommand}
    (hok : s.log.BatchOk env.toEnv cmds) (hids : ((s.history ++ acked env segmentMaxBytes s cmds).map Episode.id).Nodup)
    (hnone : receiptsOf env (acked env segmentMaxBytes s cmds) = []) :
    ∃ segs' act', Inv env (s.batch env segmentMaxBytes cmds) segs' act' := by
  obtain ⟨segs', act', hsound, hpre⟩ := h.toSound.batch hcodec segmentMaxBytes hok hids
  refine ⟨segs', act', hsound, fun i c hc => ?_⟩
  rw [Engine.batch_history, receiptsOf_append, hnone, List.append_nil] at hc
  exact (h.chains i c hc).later hpre (fun id => tombstoned_append _ id)

/-- New objects that leave those of the latest receipts as they are. -/
theorem Inv.setStore (h : Inv env s segs act) {store' : Store} (hstore : ∀ i c rs keep,
      chainOf i (receiptsOf env s.history) = some c → segs[i]? = some rs →
      Tracked env s.store s.history i (start segs i) (eventsOf segs i rs) c keep →
      Holds env.toTierEnv store' c.latest.objectPath ((eventsOf segs i rs).filter keep)) :
    Inv env { s with store := store' } segs act := by
  refine ⟨{ h.toSound with }, fun i c hc => ?_⟩
  obtain ⟨rs, keep, hseg, hne, htracked⟩ := h.chains i c hc
  exact ⟨rs, keep, hseg, hne, htracked.setStore (hstore i c rs keep hc hseg htracked)⟩

/-- **A receipt that is appended, or is not.** -/
theorem Inv.appendReceipt (h : Inv env s segs act) (hcodec : env.RoundTrips) (hjson : ReceiptsRoundTrip env)
    (segmentMaxBytes : Nat) (stamp : Stamp) {receipt : DemotionReceipt} (hroom : s.history.length + 1 < 2 ^ 64)
    (hid : stamp.id ∉ s.history.map Episode.id) (hfits : ReceiptFits env stamp receipt)
    (hnew : SegmentOk env s.store s.history segs receipt.segmentId
      (Chain.add (chainOf receipt.segmentId (receiptsOf env s.history)) receipt)) :
    ∃ s' ok segs' act', Engine.appendReceipt env segmentMaxBytes s stamp receipt = (s', ok) ∧ Inv env s' segs' act' ∧
      (ok = true → ∃ e, s'.history = s.history ++ [e] ∧ e.id = stamp.id ∧ receiptIn env e = some receipt) := by
  unfold Engine.appendReceipt
  cases hreceipt : env.receiptJson receipt with
  | error e => exact ⟨s, false, segs, act, rfl, h, fun hok => by cases hok⟩
  | ok json =>
    dsimp only
    generalize hcmds : [LogCommand.append stamp.opaqueMeta (receiptEpisode stamp json) none] = cmds
    have hbatch : s.log.BatchOk env.toEnv cmds := by
      rw [← hcmds]
      refine ⟨fun cmd hcmd => ?_, ?_⟩
      · rw [List.mem_singleton.1 hcmd]
        exact hfits json hreceipt
      · rw [h.committed]
        exact hroom
    have hin := receiptIn_receiptEpisode hjson hreceipt stamp
    have hacked : acked env segmentMaxBytes s cmds = [] ∨ acked env segmentMaxBytes s cmds = [receiptEpisode stamp json] := by
      have hsub := acks_sublist env.toEnv s.log segmentMaxBytes cmds
      rw [← hcmds] at hsub ⊢
      exact List.sublist_singleton.1 hsub
    rcases hacked with hnone | hone
    · obtain ⟨segs', act', hinv⟩ := h.batch hcodec segmentMaxBytes hbatch
        (by rw [hnone, List.append_nil]; exact h.ids) (by rw [hnone]; rfl)
      refine ⟨_, _, segs', act', rfl, hinv, fun hok => ?_⟩
      rw [List.map_eq_nil_iff.1 hnone] at hok
      cases hok
    · have hids : ((s.history ++ acked env segmentMaxBytes s cmds).map Episode.id).Nodup := by
        rw [hone, List.map_append]
        refine List.nodup_append'.2 ⟨h.ids, List.nodup_singleton _, ?_⟩
        exact List.disjoint_singleton.2 hid
      obtain ⟨segs', act', hsound, hpre⟩ := h.toSound.batch hcodec segmentMaxBytes hbatch hids
      have hhistory : (s.batch env segmentMaxBytes cmds).history = s.history ++ [receiptEpisode stamp json] := by
        rw [Engine.batch_history, hone]
      have htomb : ∀ id, Tombstoned env s.history id → Tombstoned env (s.batch env segmentMaxBytes cmds).history id := by
        intro id hid
        rw [hhistory]
        exact tombstoned_append _ id hid
      have hreceipts : receiptsOf env (s.batch env segmentMaxBytes cmds).history = receiptsOf env s.history ++ [receipt] := by
        rw [hhistory, receiptsOf_append]
        simp [receiptsOf, hin]
      refine ⟨_, _, segs', act', rfl, ⟨hsound, fun i c hc => ?_⟩, fun _ => ⟨_, hhistory, rfl, hin⟩⟩
      rw [hreceipts, chainOf_append] at hc
      by_cases hi : receipt.segmentId = i
      · rw [if_pos hi, ← hi, Option.some.injEq] at hc
        rw [← hi, ← hc]
        exact hnew.later hpre htomb
      · rw [if_neg hi] at hc
        exact (h.chains i c hc).later hpre htomb

theorem eventsOf_range {i : Nat} {rs : List Rec} {row : Nat × Episode} (h : row ∈ eventsOf segs i rs) :
    start segs i ≤ row.1 ∧ row.1 ≤ start segs i + ((eventsOf segs i rs).length - 1) := by
  obtain ⟨lsn, e⟩ := row
  obtain ⟨hle, hget⟩ := mem_number.1 h
  have hlt := (List.getElem?_eq_some_iff.1 hget).1
  rw [eventsOf, length_number]
  dsimp only
  omega

/-- **A demotion**, whatever of it goes through. -/
theorem Inv.demoteSegment (h : Inv env s segs act) (hcodec : env.RoundTrips) (hjson : ReceiptsRoundTrip env)
    (segmentMaxBytes : Nat) {stamp : Stamp} {i : Nat} (hroom : s.history.length + 1 < 2 ^ 64)
    (hid : stamp.id ∉ s.history.map Episode.id)
    (hfits : ∀ receipt, (demotePrepared env.toTierEnv s.log s.store i).1 = .ok receipt → ReceiptFits env stamp receipt)
    (hne : ∀ c ∈ s.log.catalog.sealedSegments, c.id = i → c.entries ≠ []) :
    ∃ segs' act', Inv env (s.demoteSegment env segmentMaxBytes stamp i) segs' act' := by
  unfold Engine.demoteSegment
  cases hseg : segs[i]? with
  | none =>
    obtain ⟨e, he⟩ := demotePrepared_unsealed h.steady hseg s.store
    rw [he]
    exact ⟨segs, act, h⟩
  | some rs =>
    obtain ⟨res, store', hdemote, hobject, hframe, hreceipt⟩ := demotePrepared_sealed h.steady hseg s.store
    rw [hdemote] at hfits ⊢
    obtain ⟨c, hmem, hc⟩ := h.steady.container hseg
    have hrs : rs ≠ [] := fun hnil => hne c (List.mem_of_getElem? hmem) hc.id (by rw [hc.entries, hnil]; rfl)
    have hstored : Inv env { s with store := store' } segs act := by
      refine h.setStore (fun j d qs keep hd hqs htracked => ?_)
      by_cases hpath : d.latest.objectPath = coldPath i ".hrkl".toList
      · have hji : j = i := by
          by_contra hji
          exact htracked.path.ne hji (by decide) hpath
        subst hji
        cases hseg.symm.trans hqs
        rw [hpath, List.filter_eq_self.2 (htracked.uncut hpath)]
        exact hobject
      · refine htracked.object.of_get? (hframe _ hpath ?_)
        by_cases hji : j = i
        · subst hji
          exact htracked.path.ne_parquet
        · exact htracked.path.ne hji (by decide)
    cases res with
    | error e => exact ⟨segs, act, hstored⟩
    | ok receipt =>
      have hof := hreceipt receipt rfl
      have hlength : (eventsOf segs i rs).length = rs.length := by rw [eventsOf, length_number, List.length_map]
      have hnew : SegmentOk env store' s.history segs receipt.segmentId
          (Chain.add (chainOf receipt.segmentId (receiptsOf env s.history)) receipt) := by
        rw [hof.segmentId]
        exact ⟨rs, _, hseg, hrs, Tracked.demoted (hlength ▸ hof) hobject (fun row hrow => eventsOf_range hrow) _⟩
      obtain ⟨s', ok, segs', act', heq, hinv, -⟩ :=
        hstored.appendReceipt hcodec hjson segmentMaxBytes stamp hroom hid (hfits receipt rfl) hnew
      dsimp only
      rw [heq]
      exact ⟨segs', act', hinv⟩

/-- **The loop of a tick**: every receipt of it is the latest of its segment until its turn. -/
theorem Inv.compactSegments (hcodec : env.RoundTrips) (hjson : ReceiptsRoundTrip env) (segmentMaxBytes : Nat)
    (policy : CompactionPolicy) {ids tombLsns : List Nat} {dropped : SortedMap Nat Nat} :
    ∀ {todo : List (DemotionReceipt × Stamp)} {s : Engine} {segs : List (List Rec)} {act : List Rec}, Inv env s segs act →
      (∀ id ∈ ids, Tombstoned env s.history id) →
      (∀ p ∈ todo, ∃ c, chainOf p.1.segmentId (receiptsOf env s.history) = some c ∧ c.latest = p.1) →
      (todo.map (fun p => p.1.segmentId)).Nodup → s.history.length + todo.length < 2 ^ 64 →
      (s.history.map Episode.id ++ todo.map (fun p => p.2.id)).Nodup →
      (∀ p ∈ todo, ∀ version visited kept, ReceiptFits env p.2 (compactReceipt env.toTierEnv p.1 version visited kept)) →
      ∃ segs' act', Inv env (Engine.compactSegments env segmentMaxBytes policy ids tombLsns dropped todo s) segs' act'
  | [], s, segs, act, h, _, _, _, _, _, _ => ⟨segs, act, h⟩
  | (receipt, stamp) :: todo, s, segs, act, h, htomb, hlatest, hsegs, hroom, hids, hfits => by
    have hrest : ∀ p ∈ todo, p ∈ (receipt, stamp) :: todo := fun p hp => List.mem_cons_of_mem _ hp
    rw [List.length_cons] at hroom
    rw [List.map_cons, List.nodup_cons] at hsegs
    rw [List.map_cons] at hids
    have hmiddle := List.nodup_middle.1 hids
    unfold Engine.compactSegments
    split
    · obtain ⟨c, hchain, rfl⟩ := hlatest _ List.mem_cons_self
      obtain ⟨rs, keep, hseg, hne, htracked⟩ := h.chains _ c hchain
      have hpath := htracked.path
      obtain ⟨res, store', version, visited, kept, hcompact, hframe, hok⟩ :=
        compactColdPrepared_holds htracked.object (fun _ e => ids.contains e.id)
      have hstored : Inv env { s with store := store' } segs act := by
        refine h.setStore (fun j d qs keep' hd hqs htracked' => ?_)
        refine htracked'.object.of_get? (hframe _ ?_ ?_)
        · by_cases hj : j = c.latest.segmentId
          · subst hj
            cases hchain.symm.trans hd
            exact Ne.symm hpath.newPath_ne
          · exact htracked'.path.ne hj (by decide)
        · by_cases hj : j = c.latest.segmentId
          · exact (hj ▸ htracked'.path).ne_newPath_parquet
          · exact htracked'.path.ne hj (by decide)
      rw [hcompact]
      cases res with
      | error e => exact ⟨segs, act, hstored⟩
      | ok receipt' =>
        obtain ⟨hreceipt, hobject, hof⟩ := hok receipt' rfl
        have hnew : SegmentOk env store' s.history segs receipt'.segmentId
            (Chain.add (chainOf receipt'.segmentId (receiptsOf env s.history)) receipt') := by
          rw [hof.segmentId, hchain]
          exact ⟨rs, _, hseg, hne, htracked.compacted (fun p => ids.contains p.2.id) hof hobject
            (fun p hp => htomb _ (List.contains_iff_mem.1 hp))⟩
        obtain ⟨s', ok, segs', act', heq, hinv, hdone⟩ := hstored.appendReceipt hcodec hjson segmentMaxBytes
          stamp (show s.history.length + 1 < 2 ^ 64 by omega)
          (fun hmem => (List.nodup_cons.1 hmiddle).1 (List.mem_append_left _ hmem))
          (hreceipt ▸ hfits _ List.mem_cons_self version visited kept) hnew
        dsimp only
        rw [heq]
        cases ok with
        | false => exact ⟨segs', act', hinv⟩
        | true =>
          obtain ⟨e, hhistory, hid, hin⟩ := hdone rfl
          have hreceipts : receiptsOf env s'.history = receiptsOf env s.history ++ [receipt'] := by
            rw [hhistory, receiptsOf_append]
            simp [receiptsOf, hin]
          refine Inv.compactSegments hcodec hjson segmentMaxBytes policy hinv (fun id hmem => ?_) (fun p hp => ?_) hsegs.2 ?_ ?_
            (fun p hp => hfits p (hrest p hp))
          · rw [hhistory]
            exact tombstoned_append _ id (htomb id hmem)
          · obtain ⟨d, hd, heq⟩ := hlatest p (hrest p hp)
            have hother : ¬receipt'.segmentId = p.1.segmentId := by
              rw [hof.segmentId]
              exact fun hsame => hsegs.1 (List.mem_map.2 ⟨p, hp, hsame.symm⟩)
            refine ⟨d, ?_, heq⟩
            rw [hreceipts, chainOf_append, if_neg hother]
            exact hd
          · rw [hhistory, List.length_append, List.length_singleton]
            dsimp only
            omega
          · rw [hhistory, List.map_append, List.map_cons, List.map_nil, hid, List.append_assoc]
            exact hids
    · exact Inv.compactSegments hcodec hjson segmentMaxBytes policy h htomb (fun p hp => hlatest p (hrest p hp)) hsegs.2
        (by omega) (List.nodup_cons.1 hmiddle).2 (fun p hp => hfits p (hrest p hp))

/-! ## Runs -/

/-- Event ids are never used twice, the log has room, records are within the readers' bound, only the tier writes receipts,
segments that are demoted have records, and a tick finds every event. -/
def TierActionOk (env : TickEnv) (s : Engine) : TierAction → Prop
  | .append cmds => s.log.BatchOk env.toEnv cmds ∧ receiptsOf env (cmds.filterMap LogCommand.event) = [] ∧
      ((s.history ++ cmds.filterMap LogCommand.event).map Episode.id).Nodup
  | .demote stamp i => s.history.length + 1 < 2 ^ 64 ∧ stamp.id ∉ s.history.map Episode.id ∧
      (∀ receipt, (demotePrepared env.toTierEnv s.log s.store i).1 = .ok receipt → ReceiptFits env stamp receipt) ∧
      ∀ c ∈ s.log.catalog.sealedSegments, c.id = i → c.entries ≠ []
  | .tick _ order => s.log.catalog.NoEmptyHit env.toEnv ∧ s.history.length + order.length < 2 ^ 64 ∧
      (s.history.map Episode.id ++ order.map (fun o => o.2.id)).Nodup ∧
      ∀ o ∈ order, ∀ receipt, (latestReceipts (receiptsOf env s.history)).get? o.1 = some receipt →
        ∀ version visited kept, ReceiptFits env o.2 (compactReceipt env.toTierEnv receipt version visited kept)

theorem map_filterMap_sublist {α β γ : Type} {g : α → Option β} {f : β → γ} {h : α → γ}
    (hg : ∀ a b, g a = some b → f b = h a) : ∀ l : List α, ((l.filterMap g).map f).Sublist (l.map h)
  | [] => List.Sublist.refl _
  | a :: l => by
    rw [List.filterMap_cons, List.map_cons]
    cases ha : g a with
    | none => exact (map_filterMap_sublist hg l).cons _
    | some b =>
      rw [← hg a b ha]
      exact (map_filterMap_sublist hg l).cons_cons _

/-- What a tick reads. -/
theorem Sound.reads (h : Sound env s segs act) (hS : IsBinarySearch env.binarySearch)
    (hhit : s.log.catalog.NoEmptyHit env.toEnv) :
    (∃ ids, tombstonedIds env s.log = .ok ids ∧ ids.Nodup ∧ ∀ id, id ∈ ids ↔ Tombstoned env s.history id) ∧
      demotionReceipts env s.log = .ok (receiptsOf env s.history) := by
  rw [h.history]
  exact ⟨tombstonedIds_eq h.steady hS hhit, demotionReceipts_eq h.steady hS hhit⟩

theorem Inv.tick (h : Inv env s segs act) (hS : IsBinarySearch env.binarySearch) (hcodec : env.RoundTrips)
    (hjson : ReceiptsRoundTrip env) (segmentMaxBytes : Nat) {policy : CompactionPolicy} {order : List (Nat × Stamp)}
    (horder : (order.map Prod.fst).Nodup) (hok : TierActionOk env s (.tick policy order)) :
    ∃ segs' act', Inv env (s.tick env segmentMaxBytes policy order) segs' act' := by
  obtain ⟨hhit, hroom, hids, hfits⟩ := hok
  obtain ⟨⟨ids, htombs, -, hmem⟩, hreceipts⟩ := h.toSound.reads hS hhit
  unfold Engine.tick
  rw [htombs, hreceipts]
  dsimp only
  split
  · exact ⟨segs, act, h⟩
  · have hlatest : ∀ seg receipt, (latestReceipts (receiptsOf env s.history)).get? seg = some receipt →
        ∃ c, chainOf seg (receiptsOf env s.history) = some c ∧ c.latest = receipt ∧ receipt.segmentId = seg := by
      intro seg receipt hget
      rw [latestReceipts_get?, Option.map_eq_some_iff] at hget
      obtain ⟨c, hc, rfl⟩ := hget
      obtain ⟨rs, keep, -, -, htracked⟩ := h.chains seg c hc
      exact ⟨c, hc, rfl, htracked.segmentId⟩
    have htodo : ∀ (o : Nat × Stamp) (p : DemotionReceipt × Stamp),
        ((latestReceipts (receiptsOf env s.history)).get? o.1).map (fun r => (r, o.2)) = some p →
        (latestReceipts (receiptsOf env s.history)).get? o.1 = some p.1 ∧ p.2 = o.2 := by
      intro o p hp
      obtain ⟨receipt, hget, rfl⟩ := Option.map_eq_some_iff.1 hp
      exact ⟨hget, rfl⟩
    refine h.compactSegments hcodec hjson segmentMaxBytes policy (fun id hid => (hmem id).1 hid) (fun p hp => ?_) ?_ ?_ ?_
      (fun p hp => ?_)
    · obtain ⟨o, -, hp⟩ := List.mem_filterMap.1 hp
      obtain ⟨c, hc, heq, hseg⟩ := hlatest o.1 p.1 (htodo o p hp).1
      exact ⟨c, hseg ▸ hc, heq⟩
    · refine (map_filterMap_sublist (fun o p hp => ?_) order).nodup horder
      obtain ⟨c, -, -, hseg⟩ := hlatest o.1 p.1 (htodo o p hp).1
      exact hseg
    · have := List.length_filterMap_le (fun o : Nat × Stamp =>
        ((latestReceipts (receiptsOf env s.history)).get? o.1).map (fun r => (r, o.2))) order
      omega
    · refine ((List.Sublist.refl _).append (map_filterMap_sublist (fun o p hp => ?_) order)).nodup hids
      exact congrArg Stamp.id (htodo o p hp).2
    · obtain ⟨o, ho, hp⟩ := List.mem_filterMap.1 hp
      obtain ⟨hget, hstamp⟩ := htodo o p hp
      rw [hstamp]
      exact hfits o ho p.1 hget

/-- **Every step keeps what is known of the receipts.** -/
theorem Inv.step (h : Inv env s segs act) (hS : IsBinarySearch env.binarySearch) (hcodec : env.RoundTrips)
    (hjson : ReceiptsRoundTrip env) {segmentMaxBytes : Nat} {a : TierAction} {s' : Engine} (hok : TierActionOk env s a)
    (hs : s.step env segmentMaxBytes a = some s') : ∃ segs' act', Inv env s' segs' act' := by
  cases a with
  | append cmds =>
    obtain ⟨hbatch, hnone, hids⟩ := hok
    simp only [Engine.step] at hs
    split at hs
    · cases hs
      have hsub : (acked env segmentMaxBytes s cmds).Sublist (cmds.filterMap LogCommand.event) :=
        acks_sublist env.toEnv s.log segmentMaxBytes cmds
      refine h.batch hcodec segmentMaxBytes hbatch ?_ ?_
      · exact (((List.Sublist.refl _).append hsub).map _).nodup hids
      · exact List.sublist_nil.1 (hnone ▸ hsub.filterMap (receiptIn env))
    · cases hs
  | demote stamp i =>
    obtain ⟨hroom, hid, hfits, hne⟩ := hok
    cases hs
    exact h.demoteSegment hcodec hjson segmentMaxBytes hroom hid hfits hne
  | tick policy order =>
    simp only [Engine.step] at hs
    split at hs
    · rename_i horder
      cases hs
      exact h.tick hS hcodec hjson segmentMaxBytes horder hok
    · cases hs

theorem inv_of_run (hS : IsBinarySearch env.binarySearch) (hcodec : env.RoundTrips) (hjson : ReceiptsRoundTrip env)
    {segmentMaxBytes : Nat} {actions : List TierAction} {s : Engine}
    (h : Run (Engine.step env segmentMaxBytes) (TierActionOk env) (Engine.start env) actions s) :
    ∃ segs act, Inv env s segs act := by
  induction h with
  | start => exact ⟨[], [], inv_start⟩
  | next a _ hok hs ih =>
    obtain ⟨segs, act, hinv⟩ := ih
    exact hinv.step hS hcodec hjson hok hs

/-! ## The count -/

theorem Sound.mem_eventsOf (h : Sound env s segs act) {i : Nat} {rs : List Rec} (hseg : segs[i]? = some rs) (lsn : Nat)
    (e : Episode) : (lsn, e) ∈ eventsOf segs i rs ↔
      start segs i ≤ lsn ∧ lsn ≤ start segs i + ((eventsOf segs i rs).length - 1) ∧ rs ≠ [] ∧ s.history[lsn]? = some e := by
  obtain ⟨rest, hrest⟩ := drop_start hseg
  have hlength : (eventsOf segs i rs).length = rs.length := by rw [eventsOf, length_number, List.length_map]
  have hget : start segs i ≤ lsn → lsn - start segs i < rs.length →
      s.history[lsn]? = (rs.map Rec.episode)[lsn - start segs i]? := by
    intro hle hlt
    have hdrop : s.history.drop (start segs i) = rs.map Rec.episode ++ (rest ++ act).map Rec.episode := by
      rw [h.history, ← List.map_drop, List.drop_append_of_le_length, hrest, List.append_assoc, List.map_append]
      rw [← start_length]
      exact start_mono segs (Nat.le_of_lt (List.getElem?_eq_some_iff.1 hseg).1)
    have hsplit : s.history[lsn]? = (s.history.drop (start segs i))[lsn - start segs i]? := by
      rw [List.getElem?_drop, Nat.add_sub_cancel' hle]
    rw [hsplit, hdrop, List.getElem?_append_left (by rwa [List.length_map])]
  rw [eventsOf, mem_number, ← eventsOf, hlength]
  constructor
  · rintro ⟨hle, hmem⟩
    have hlt := (List.getElem?_eq_some_iff.1 hmem).1
    rw [List.length_map] at hlt
    exact ⟨hle, by omega, List.ne_nil_of_length_pos (by omega), (hget hle hlt).trans hmem⟩
  · rintro ⟨hle, hlt, hne, hmem⟩
    have := List.length_pos_iff.2 hne
    exact ⟨hle, (hget hle (by omega)).symm.trans hmem⟩

/-- **What is in the range of a receipt** are the tombstoned rows of its segment there, H-VM frames apart. -/
theorem Sound.inRange_eq (h : Sound env s segs act) {ids : List Nat} (hids : ids.Nodup)
    (hmem : ∀ id, id ∈ ids ↔ Tombstoned env s.history id) {i : Nat} {rs : List Rec} (hseg : segs[i]? = some rs)
    (hne : rs ≠ []) {low high : Nat} (hlow : start segs i ≤ low)
    (hhigh : high ≤ start segs i + ((eventsOf segs i rs).length - 1)) :
    ((ids.filterMap s.lsnOf.get?).filter (fun l => decide (low ≤ l) && decide (l ≤ high))).length
      = (eventsOf segs i rs).countP (fun r => decide (Tombstoned env s.history r.2.id) && !isHvm r.2
          && (decide (low ≤ r.1) && decide (r.1 ≤ high))) := by
  have hleft : ((ids.filterMap s.lsnOf.get?).filter (fun l => decide (low ≤ l) && decide (l ≤ high))).Nodup := by
    refine List.Nodup.filter _ (hids.filterMap ?_)
    intro id id' l hl hl'
    obtain ⟨e, he, -, heq⟩ := (h.located id l).1 hl
    obtain ⟨e', he', -, heq'⟩ := (h.located id' l).1 hl'
    cases he.symm.trans he'
    rw [← heq, heq']
  have hright : (((eventsOf segs i rs).filter (fun r => decide (Tombstoned env s.history r.2.id) && !isHvm r.2
      && (decide (low ≤ r.1) && decide (r.1 ≤ high)))).map Prod.fst).Nodup := by
    refine (List.Sublist.map _ List.filter_sublist).nodup ?_
    rw [eventsOf, map_fst_number]
    exact List.nodup_range'
  rw [List.countP_eq_length_filter, ← List.length_map (f := Prod.fst)]
  refine ((List.perm_ext_iff_of_nodup hleft hright).2 (fun l => ?_)).length_eq
  constructor
  · intro hl
    obtain ⟨hl, hrange⟩ := List.mem_filter.1 hl
    obtain ⟨id, hid, hget⟩ := List.mem_filterMap.1 hl
    obtain ⟨e, he, hframe, rfl⟩ := (h.located id l).1 hget
    have hrange' : low ≤ l ∧ l ≤ high := by simpa using hrange
    refine List.mem_map.2 ⟨(l, e), List.mem_filter.2 ⟨(h.mem_eventsOf hseg l e).2 ⟨by omega, by omega, hne, he⟩, ?_⟩, rfl⟩
    simp [(hmem e.id).1 hid, hframe, hrange']
  · intro hl
    obtain ⟨⟨l', e⟩, hrow, rfl⟩ := List.mem_map.1 hl
    obtain ⟨hrow, hp⟩ := List.mem_filter.1 hrow
    simp only [Bool.and_eq_true, decide_eq_true_eq, Bool.not_eq_true'] at hp
    obtain ⟨⟨htomb, hframe⟩, hrange⟩ := hp
    obtain ⟨-, -, -, he⟩ := (h.mem_eventsOf hseg l' e).1 hrow
    refine List.mem_filter.2 ⟨List.mem_filterMap.2 ⟨e.id, (hmem e.id).2 htomb, (h.located e.id l').2 ⟨e, he, hframe, rfl⟩⟩, ?_⟩
    simpa using hrange

/-- The object of the latest receipt has no tombstoned record, or nothing was dropped before the latest demotion, the range
is still the segment's, and no H-VM frame of the segment is tombstoned. -/
def Settled (env : TickEnv) (s : Engine) (c : Chain) : Prop :=
  (∀ rows, Holds env.toTierEnv s.store c.latest.objectPath rows → ∀ r ∈ rows, ¬Tombstoned env s.history r.2.id) ∨
  c.earlier = 0 ∧ c.latest.minLsn = c.demotion.minLsn ∧ c.latest.maxLsn = c.demotion.maxLsn ∧
    ∀ lsn e, c.demotion.minLsn ≤ lsn → lsn ≤ c.demotion.maxLsn → s.history[lsn]? = some e →
      Tombstoned env s.history e.id → isHvm e = false

/-- For one segment: the number of the tick is that of the tombstoned records in the object exactly if it is settled. -/
theorem Inv.stillPresent_eq_iff (h : Inv env s segs act) {ids : List Nat} (hids : ids.Nodup)
    (hmem : ∀ id, id ∈ ids ↔ Tombstoned env s.history id) {i : Nat} {c : Chain}
    (hc : chainOf i (receiptsOf env s.history) = some c) :
    ∃ rows, Holds env.toTierEnv s.store c.latest.objectPath rows ∧ c.latest.recordCount = rows.length ∧
      (stillPresent (ids.filterMap s.lsnOf.get?) (droppedSoFar (receiptsOf env s.history)) c.latest
          = rows.countP (fun r => decide (Tombstoned env s.history r.2.id)) ↔ Settled env s c) := by
  obtain ⟨rs, keep, hseg, hne, htracked⟩ := h.chains i c hc
  refine ⟨_, htracked.object, htracked.recordCount, ?_⟩
  have hdropped : ((droppedSoFar (receiptsOf env s.history)).get? c.latest.segmentId).getD 0
      = c.earlier + (eventsOf segs i rs).countP (fun r => !keep r) := by
    rw [htracked.segmentId, droppedSoFar_get?, hc, Option.map_some, Option.getD_some, htracked.since]
  rw [stillPresent, hdropped, h.toSound.inRange_eq hids hmem hseg hne htracked.rangeMin htracked.rangeMax, List.countP_filter]
  have hswap : (eventsOf segs i rs).countP (fun r => decide (Tombstoned env s.history r.2.id) && keep r)
      = (eventsOf segs i rs).countP (fun r => keep r && decide (Tombstoned env s.history r.2.id)) :=
    congrArg (List.countP · _) (funext (fun r => Bool.and_comm _ _))
  rw [hswap, stillPresent_arith c.earlier (fun r hr hk => decide_eq_true (htracked.gone r hr hk))
    (fun r hr hk => by simpa using htracked.inside r hr hk)]
  refine or_congr ?_ (and_congr_right (fun _ => ?_))
  · constructor
    · intro hnone rows hrows r hr
      rw [hrows.unique htracked.object] at hr
      obtain ⟨hr, hk⟩ := List.mem_filter.1 hr
      exact of_decide_eq_false (hnone r hr hk)
    · intro hnone r hr hk
      exact decide_eq_false (hnone _ htracked.object r (List.mem_filter.2 ⟨hr, hk⟩))
  · have hpos := List.length_pos_iff.2 hne
    have hlength : (eventsOf segs i rs).length = rs.length := by rw [eventsOf, length_number, List.length_map]
    have hrow : ∀ l, start segs i ≤ l → l ≤ start segs i + ((eventsOf segs i rs).length - 1) →
        ∃ e, (l, e) ∈ eventsOf segs i rs := by
      intro l hle hge
      have hlt : l - start segs i < (rs.map Rec.episode).length := by
        rw [List.length_map]
        omega
      exact ⟨_, mem_number.2 ⟨hle, List.getElem?_eq_getElem hlt⟩⟩
    have hboth : (∀ r ∈ eventsOf segs i rs, keep r = false → (decide (c.latest.minLsn ≤ r.1) && decide (r.1 ≤ c.latest.maxLsn))
          = true) ↔ c.latest.minLsn = c.demotion.minLsn ∧ c.latest.maxLsn = c.demotion.maxLsn := by
      rw [htracked.demotedMin, htracked.demotedMax]
      have hmin := htracked.rangeMin
      have hmax := htracked.rangeMax
      constructor
      · intro hall
        have hinside : ∀ r ∈ eventsOf segs i rs, c.latest.minLsn ≤ r.1 ∧ r.1 ≤ c.latest.maxLsn := by
          intro r hr
          cases hk : keep r with
          | true => exact htracked.inside r hr hk
          | false => simpa using hall r hr hk
        obtain ⟨first, hfirst⟩ := hrow (start segs i) (Nat.le_refl _) (Nat.le_add_right _ _)
        obtain ⟨last, hlast⟩ := hrow (start segs i + ((eventsOf segs i rs).length - 1)) (Nat.le_add_right _ _) (Nat.le_refl _)
        have := (hinside _ hfirst).1
        have := (hinside _ hlast).2
        omega
      · rintro ⟨hmin, hmax⟩ r hr -
        obtain ⟨hle, hge⟩ := eventsOf_range hr
        simp only [Bool.and_eq_true, decide_eq_true_eq]
        omega
    rw [hboth, and_assoc]
    refine and_congr_right (fun _ => and_congr_right (fun _ => ?_))
    rw [htracked.demotedMin, htracked.demotedMax]
    constructor
    · intro hknown lsn e hle hge he htomb
      simpa using hknown (lsn, e) ((h.toSound.mem_eventsOf hseg lsn e).2 ⟨hle, hge, hne, he⟩) (decide_eq_true htomb)
    · rintro hknown ⟨lsn, e⟩ hr htomb
      obtain ⟨hle, hge, -, he⟩ := (h.toSound.mem_eventsOf hseg lsn e).1 hr
      simpa using hknown lsn e hle hge he (of_decide_eq_true htomb)

def observation (id tsHlc : Nat) : Episode := (Episode.new id "a".toList .observation [120]).stamp tsHlc

def tombstone (id tsHlc target : Nat) : Episode :=
  { (Episode.new id "a".toList .observation []).stamp tsHlc with
    attrs := SortedMap.empty.insert "tombstone_of".toList (ulidText target) }

/-- A digest by its hexadecimal number. -/
def digestOf (n : Nat) : Digest := ⟨(leBytes 32 n).reverse, by rw [List.length_reverse, length_leBytes]⟩

/-- The leaves of the six records of the run, by LSN, and the root of the first segment. -/
def sampleLeaves : List Digest := [
  digestOf 0xd20221d683c445e33dfa31e6cc7fcfeec82f49ecad10cbb55409519fd7e45a95,
  digestOf 0xa3ed5d6296b8f11136b6e4610e511f67eb82592c857036341a8861890d96ab6b,
  digestOf 0x1db0edb2879dbb8a3b2e75fe7d45ff521fa5be670acf29c98722eef5b8e46601,
  digestOf 0x1943f9c51bc50c2cee4d3905587a67da81a825e98dbfecb7c51cc41ffe2d25c9,
  digestOf 0x89591f6a22670fe7c90f5128a473897b7cc5f5106febfc11f81381c0b536bd66,
  digestOf 0xebacd9e08fe3d73404803444f177cbfcedcb75e8fe9fa6340b0c9ddf15fe686a]

def sampleRoot : Digest := digestOf 0x9dd761067b0796ca679e9dcb201624f31c104ad6678e159f5bf21e7e99c137ac

def tierBlake3 (input : Bytes) : Digest :=
  if input.length = 64 then sampleRoot
  else sampleLeaves.getD (leNat ((input.drop 4).take 1)) sampleRoot

def demotedReceipt : DemotionReceipt := {
  segmentId := 0, objectPath := coldPath 0 ".hrkl".toList, recordCount := 2, minLsn := 0, maxLsn := 1
  blake3Root := hexEncode sampleRoot.1, parquetPath := some (coldPath 0 ".parquet".toList)
  compactedFrom := none, dropped := 0 }

def compactedReceipt : DemotionReceipt := {
  segmentId := 0, objectPath := compactPath 0 1 ".hrkl".toList, recordCount := 1, minLsn := 1, maxLsn := 1
  blake3Root := hexEncode (sampleLeaves.getD 1 sampleRoot).1, parquetPath := some (compactPath 0 1 ".parquet".toList)
  compactedFrom := some (coldPath 0 ".hrkl".toList), dropped := 1 }

def jsonField (name : String) (value : Str) : Str := '"' :: name.toList ++ "\":".toList ++ value

def jsonText (text : Str) : Str := '"' :: text ++ ['"']

def jsonOption (text : Option Str) : Str := text.elim "null".toList jsonText

/-- Compact JSON, the fields in the order of the structure; paths and digests need no escapes. -/
def receiptText (r : DemotionReceipt) : Str :=
  '{' :: List.intercalate [','] [
    jsonField "segment_id" (toString r.segmentId).toList, jsonField "object_path" (jsonText r.objectPath),
    jsonField "record_count" (toString r.recordCount).toList, jsonField "min_lsn" (toString r.minLsn).toList,
    jsonField "max_lsn" (toString r.maxLsn).toList, jsonField "blake3_root" (jsonText r.blake3Root),
    jsonField "parquet_path" (jsonOption r.parquetPath), jsonField "compacted_from" (jsonOption r.compactedFrom),
    jsonField "dropped" (toString r.dropped).toList] ++ ['}']

def receiptBytes (r : DemotionReceipt) : Bytes := (receiptText r).map (fun c => UInt8.ofNat c.toNat)

def sampleReceipts : List DemotionReceipt := [demotedReceipt, compactedReceipt]

def sampleStamp (id tsHlc : Nat) : Stamp := ⟨id, tsHlc, List.replicate 16 0⟩

def sampleEvents : List Episode := [observation 1 1, observation 2 2, tombstone 3 3 1,
  receiptEpisode (sampleStamp 5 4) (receiptBytes demotedReceipt),
  receiptEpisode (sampleStamp 6 5) (receiptBytes compactedReceipt), tombstone 4 6 2]

def sampleTable : List (Bytes × Episode) := sampleEvents.map (fun e => (List.replicate 16 0, e))

def half : F64 := ⟨0x3fe0000000000000⟩

def tickEnv : TickEnv where
  toEnv := tableEnv sampleTable { Legacy.sampleEnv with blake3 := tierBlake3 }
  toParquet _ := .ok [80, 65, 82, 49]
  receiptJson r := if r ∈ sampleReceipts then .ok (receiptBytes r) else .error "no sample"
  receiptFromJson json := sampleReceipts.find? (fun r => decide (receiptBytes r = json))
  parseUlid text := (List.range 10).find? (fun id => decide (ulidText id = text))
  ratioGe deleted total threshold := decide (threshold = half ∧ total ≤ 2 * deleted)

def samplePolicy : CompactionPolicy := ⟨half, 1⟩

def sampleMeta : Bytes := List.replicate 16 0

/-- Two records, the first is tombstoned, and their segment is demoted. -/
def demoteActions : List TierAction := [
  .append [.append sampleMeta (observation 1 1) none, .append sampleMeta (observation 2 2) none],
  .append [.append sampleMeta (tombstone 3 3 1) none],
  .demote (sampleStamp 5 4) 0]

/-- A tick drops the first record; then the second is tombstoned. -/
def compactActions : List TierAction :=
  demoteActions ++ [.tick samplePolicy [(0, sampleStamp 6 5)], .append [.append sampleMeta (tombstone 4 6 2) none]]

theorem tickEnv_roundTrips : tickEnv.RoundTrips := tableEnv_roundTrips (by decide +kernel)

theorem tickEnv_receiptsRoundTrip : ReceiptsRoundTrip tickEnv := by
  have htable : ∀ r ∈ sampleReceipts, tickEnv.receiptFromJson (receiptBytes r) = some r := by decide +kernel
  intro receipt json h
  simp only [tickEnv] at h
  split at h
  · rename_i hr
    cases h
    exact htable receipt hr
  · cases h

theorem tickEnv_bounded (cmd : LogCommand) : cmd.Bounded tickEnv.toEnv := tableEnv_bounded (by decide +kernel) cmd

/-- What is left to check of an action over the sample environment. -/
def SampleOk (s : Engine) : TierAction → Prop
  | .append cmds => s.log.committedLsn + cmds.length < 2 ^ 64 ∧ receiptsOf tickEnv (cmds.filterMap LogCommand.event) = [] ∧
      ((s.history ++ cmds.filterMap LogCommand.event).map Episode.id).Nodup
  | .demote stamp _ => s.history.length + 1 < 2 ^ 64 ∧ stamp.id ∉ s.history.map Episode.id ∧ s.log.NoEmptySealed
  | .tick _ order => s.log.NoEmptySealed ∧ s.history.length + order.length < 2 ^ 64 ∧
      (s.history.map Episode.id ++ order.map (fun o => o.2.id)).Nodup

instance (s : Engine) : ∀ a : TierAction, Decidable (SampleOk s a)
  | .append _ => inferInstanceAs (Decidable (_ ∧ _ ∧ _))
  | .demote _ _ => inferInstanceAs (Decidable (_ ∧ _ ∧ _))
  | .tick _ _ => inferInstanceAs (Decidable (_ ∧ _ ∧ _))

theorem SampleOk.tierActionOk (s : Engine) (a : TierAction) (h : SampleOk s a) : TierActionOk tickEnv s a := by
  cases a with
  | append cmds => exact ⟨⟨fun cmd _ => tickEnv_bounded cmd, h.1⟩, h.2⟩
  | demote stamp i => exact ⟨h.1, h.2.1, fun _ _ _ _ => tickEnv_bounded _, fun c hc _ => h.2.2 c hc⟩
  | tick policy order => exact ⟨h.1.noEmptyHit, h.2.1, h.2.2, fun _ _ _ _ _ _ _ _ _ => tickEnv_bounded _⟩

/-- For segment 0, what the tick computes, and how many tombstoned records the object has. -/
def Engine.counted (s : Engine) : Option (Nat × Nat) :=
  match tombstonedIds tickEnv s.log, demotionReceipts tickEnv s.log with
  | .ok ids, .ok receipts =>
    match (latestReceipts receipts).get? 0 with
    | none => none
    | some receipt =>
      match (s.store.get? receipt.objectPath).map (visitedEpisodes tickEnv.toTierEnv) with
      | some (.ok rows) => some (stillPresent (ids.filterMap s.lsnOf.get?) (droppedSoFar receipts) receipt,
          rows.countP (fun r => decide (Tombstoned tickEnv s.history r.2.id)))
      | _ => none
  | _, _ => none

theorem counted_of_countsRight {s : Engine} (h : CountsRight tickEnv s) {computed real : Nat}
    (hcounted : s.counted = some (computed, real)) : computed = real := by
  unfold Engine.counted at hcounted
  split at hcounted
  · rename_i ids receipts hids hreceipts
    split at hcounted
    · cases hcounted
    · rename_i receipt hlatest
      obtain ⟨bytes, rows, hget, hrows, hcount, -⟩ := h ids receipts hids hreceipts 0 receipt hlatest
      rw [hget, Option.map_some, hrows] at hcounted
      cases hcounted
      exact hcount
  · cases hcounted

end Tier
end Heraclitus
