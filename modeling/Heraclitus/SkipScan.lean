import Heraclitus.LegacyRecovery
import Heraclitus.LegacyWindows
import Heraclitus.ZoneMap
/-!
# SkipScan — scans that skip segments (`heraclitus-log/src/skip_scan.rs`)

A scanner has a zone map for each sealed segment, in memory, in a `.zmap` file beside the log, or built from a scan of the
segment's LSNs.  A segment without records has the range of the first record behind it.
-/
namespace Heraclitus
namespace Legacy

structure PruneStats where
  segmentsConsidered : Nat := 0
  segmentsSkipped : Nat := 0
  episodesReturned : Nat := 0

/-- The zone maps in memory, and those in the `.zmap` files that can be decoded. -/
structure SkipScanner where
  cache : SortedMap Nat ZoneMap := .empty
  sidecars : SortedMap Nat ZoneMap := .empty

namespace SkipScanner

variable (env : Env) (log : Log)

def zoneMapFor (sc : SkipScanner) (c : SegmentContainer) : SkipScanner × Except HeraclitusError ZoneMap :=
  match sc.cache.get? c.id with
  | some z => (sc, .ok z)
  | none =>
    match sc.sidecars.get? c.id with
    | some z => ({ sc with cache := sc.cache.insert c.id z }, .ok z)
    | none =>
      match log.scan env c.baseLsn (c.maxLsn + 1) with
      | .error e => (sc, .error e)
      | .ok events =>
        let z := ZoneMap.build events
        ({ cache := sc.cache.insert c.id z, sidecars := sc.sidecars.insert c.id z }, .ok z)

def warmAll : List SegmentContainer → SkipScanner → SkipScanner
  | [], sc => sc
  | c :: cs, sc =>
    match sc.zoneMapFor env log c with
    | (sc, .ok _) => warmAll cs sc
    | (sc, .error _) => sc

def warm (sc : SkipScanner) : SkipScanner := sc.warmAll env log log.catalog.sealedSegments

def evict (sc : SkipScanner) (seg : Nat) : SkipScanner := { sc with cache := sc.cache.erase seg }

def byBaseLsn (a b : SegmentContainer) : Prop := a.baseLsn ≤ b.baseLsn

instance : DecidableRel byBaseLsn := fun a b => inferInstanceAs (Decidable (a.baseLsn ≤ b.baseLsn))

/-- The loop of `scan_pruned` over the sealed segments: `next`, `out` and the counts. -/
def scanSealed (mayMatch : ZoneMap → Bool) : List SegmentContainer → Nat → List (Nat × Episode) → PruneStats → SkipScanner →
    SkipScanner × Except HeraclitusError (Nat × List (Nat × Episode) × PruneStats)
  | [], next, out, stats, sc => (sc, .ok (next, out, stats))
  | c :: cs, _, out, stats, sc =>
    let considered := { stats with segmentsConsidered := stats.segmentsConsidered + 1 }
    match sc.zoneMapFor env log c with
    | (sc, .error e) => (sc, .error e)
    | (sc, .ok z) =>
      if mayMatch z then
        match log.scan env c.baseLsn (c.maxLsn + 1) with
        | .error e => (sc, .error e)
        | .ok events => scanSealed mayMatch cs (c.maxLsn + 1) (out ++ events) considered sc
      else scanSealed mayMatch cs (c.maxLsn + 1) out { considered with segmentsSkipped := stats.segmentsSkipped + 1 } sc

def scanPruned (sc : SkipScanner) (mayMatch : ZoneMap → Bool) :
    SkipScanner × Except HeraclitusError (List (Nat × Episode) × PruneStats) :=
  let sealedSegments := log.catalog.sealedSegments.insertionSort byBaseLsn
  match sc.scanSealed env log mayMatch sealedSegments 0 [] {} with
  | (sc, .error e) => (sc, .error e)
  | (sc, .ok (next, out, stats)) =>
    if next < log.committedLsn then
      match log.scan env next log.committedLsn with
      | .error e => (sc, .error e)
      | .ok events => (sc, .ok (out ++ events, { stats with episodesReturned := (out ++ events).length }))
    else (sc, .ok (out, { stats with episodesReturned := out.length }))

end SkipScanner

/-! ## Slices -/

variable {env : Env} {log : Log} {segs : List (List Rec)} {act : List Rec} {sc sc' : SkipScanner}

/-- The events of the segments from `i` on. -/
def eventsFrom (segs : List (List Rec)) (i : Nat) : List (Nat × Episode) :=
  number (start segs i) ((segs.drop i).flatten.map Rec.episode)

theorem eventsFrom_eq {i : Nat} {rs : List Rec} (hseg : segs[i]? = some rs) :
    eventsFrom segs i = eventsOf segs i rs ++ eventsFrom segs (i + 1) := by
  obtain ⟨hi, heq⟩ := List.getElem?_eq_some_iff.1 hseg
  unfold eventsFrom eventsOf
  rw [List.drop_eq_getElem_cons hi, heq, List.flatten_cons, List.map_append, number_append, List.length_map, start_succ hseg]

/-- **A scan of a sealed segment's range reads the segment**, when all of them have records. -/
theorem Steady.scan_sealed_range (h : Steady env log segs act) (hS : IsBinarySearch env.binarySearch)
    (hne : log.NoEmptySealed) {i : Nat} {c : SegmentContainer} {rs : List Rec} (hseg : segs[i]? = some rs)
    (hc : SealedAt env log.dir i (start segs i) c rs) :
    log.scan env c.baseLsn (c.maxLsn + 1) = .ok (eventsOf segs i rs) := by
  have hpos : 0 < rs.length :=
    List.length_pos_iff.2 (h.noEmptySealed_iff.1 hne rs (List.mem_of_getElem? hseg))
  obtain ⟨rest, hrest⟩ := drop_start hseg
  have hstart : start segs i ≤ segs.flatten.length := by
    rw [← start_length]
    exact start_mono segs (Nat.le_of_lt (List.getElem?_eq_some_iff.1 hseg).1)
  have hlen := congrArg List.length hrest
  have hlsns := h.lsns
  rw [List.length_drop, List.length_append] at hlen
  rw [List.length_append] at hlsns
  have hstop : c.maxLsn + 1 = start segs i + rs.length := by
    rw [hc.maxLsn]
    omega
  rw [Log.scan, h.scanCapped_eq hS hne.noEmptyHit, hc.baseLsn, hstop, h.committed, List.length_append,
    Nat.min_eq_left (by omega), Heraclitus.scanCapped, Nat.add_sub_cancel_left, Nat.min_eq_right (by rw [u64Max]; omega),
    ← List.map_drop, List.drop_append_of_le_length hstart, hrest, ← List.map_take, List.append_assoc, List.take_left]
  rfl

/-! ## The loop -/

/-- Every zone map the scanner has is that of its segment. -/
def SkipScanner.Right (segs : List (List Rec)) (sc : SkipScanner) : Prop :=
  ∀ i z, sc.cache.get? i = some z ∨ sc.sidecars.get? i = some z → ∃ rs, segs[i]? = some rs ∧ z = .build (eventsOf segs i rs)

theorem SkipScanner.Right.insert {cache sidecars : SortedMap Nat ZoneMap} {i : Nat} {rs : List Rec}
    (h : SkipScanner.Right segs ⟨cache, sidecars⟩) (hseg : segs[i]? = some rs) {z : ZoneMap}
    (hz : z = .build (eventsOf segs i rs)) : SkipScanner.Right segs ⟨cache.insert i z, sidecars.insert i z⟩ := by
  intro j y hj
  simp only [SortedMap.get?_insert] at hj
  by_cases hji : j = i
  · simp only [if_pos hji, or_self, Option.some.injEq] at hj
    rw [hji]
    exact ⟨rs, hseg, hj ▸ hz⟩
  · simp only [if_neg hji] at hj
    exact h j y hj

theorem SkipScanner.Right.mono {cache sidecars cache' sidecars' : SortedMap Nat ZoneMap}
    (h : SkipScanner.Right segs ⟨cache, sidecars⟩) (hcache : ∀ i z, cache'.get? i = some z → cache.get? i = some z ∨ sidecars.get? i = some z)
    (hsidecars : ∀ i z, sidecars'.get? i = some z → cache.get? i = some z ∨ sidecars.get? i = some z) :
    SkipScanner.Right segs ⟨cache', sidecars'⟩ :=
  fun i z hz => h i z (hz.elim (hcache i z) (hsidecars i z))

theorem zoneMapFor_eq (h : Steady env log segs act) (hS : IsBinarySearch env.binarySearch) (hne : log.NoEmptySealed)
    (hright : sc.Right segs) {i : Nat} {c : SegmentContainer} {rs : List Rec} (hseg : segs[i]? = some rs)
    (hc : SealedAt env log.dir i (start segs i) c rs) :
    ∃ sc', sc.zoneMapFor env log c = (sc', .ok (.build (eventsOf segs i rs))) ∧ sc'.Right segs := by
  have hknown : ∀ z, sc.cache.get? i = some z ∨ sc.sidecars.get? i = some z → z = .build (eventsOf segs i rs) := by
    intro z hz
    obtain ⟨rs', hseg', hz'⟩ := hright i z hz
    cases hseg.symm.trans hseg'
    exact hz'
  unfold SkipScanner.zoneMapFor
  rw [hc.id]
  cases hcache : sc.cache.get? i with
  | some z =>
    rw [hknown z (.inl hcache)]
    exact ⟨sc, rfl, hright⟩
  | none =>
    dsimp only
    cases hsidecar : sc.sidecars.get? i with
    | some z =>
      have hz := hknown z (.inr hsidecar)
      subst hz
      refine ⟨_, rfl, hright.mono ?_ (fun j y hy => .inr hy)⟩
      intro j y hy
      rw [SortedMap.get?_insert] at hy
      by_cases hj : j = i
      · rw [if_pos hj] at hy
        cases hy
        rw [hj]
        exact .inr hsidecar
      · rw [if_neg hj] at hy
        exact .inl hy
    | none =>
      dsimp only
      rw [h.scan_sealed_range hS hne hseg hc]
      exact ⟨_, rfl, hright.insert hseg rfl⟩

theorem warmAll_right (h : Steady env log segs act) (hS : IsBinarySearch env.binarySearch) (hne : log.NoEmptySealed) :
    ∀ (cs : List SegmentContainer) (sc : SkipScanner), (∀ c ∈ cs, c ∈ log.catalog.sealedSegments) → sc.Right segs →
      (sc.warmAll env log cs).Right segs
  | [], _, _, hright => hright
  | c :: cs, sc, hmem, hright => by
    obtain ⟨i, hget⟩ := List.getElem?_of_mem (hmem c List.mem_cons_self)
    have hi : i < segs.length := h.length_sealed ▸ (List.getElem?_eq_some_iff.1 hget).1
    have hseg : segs[i]? = some segs[i] := List.getElem?_eq_getElem hi
    obtain ⟨sc', hzone, hright'⟩ := zoneMapFor_eq h hS hne hright hseg (h.sealedAt i c _ hget hseg)
    rw [SkipScanner.warmAll, hzone]
    exact warmAll_right h hS hne cs sc' (fun d hd => hmem d (List.mem_cons_of_mem c hd)) hright'

/-- A segment that is skipped has nothing for the predicate. -/
theorem filter_of_skipped {p : SkipPredicate} {events : List (Nat × Episode)} (h : ¬p.mayMatch (.build events) = true) :
    events.filter (fun r => p.accepts r) = [] :=
  List.filter_eq_nil_iff.2 (fun _ hr hp => h (mayMatch_build hr p hp))

/-- **The loop over the sealed segments loses nothing that the predicate accepts**, and repeats nothing. -/
theorem scanSealed_eq (h : Steady env log segs act) (hS : IsBinarySearch env.binarySearch) (hne : log.NoEmptySealed)
    (p : SkipPredicate) : ∀ (n k : Nat) (out : List (Nat × Episode)) (stats : PruneStats) (sc : SkipScanner), n = segs.length - k →
      k ≤ segs.length → sc.Right segs → ∃ sc' out' stats',
        sc.scanSealed env log (fun z => p.mayMatch z) (log.catalog.sealedSegments.drop k) (start segs k) out stats
          = (sc', .ok (segs.flatten.length, out ++ out', stats')) ∧ sc'.Right segs ∧
        out'.filter (fun r => p.accepts r) = (eventsFrom segs k).filter (fun r => p.accepts r)
  | 0, k, out, stats, sc, hn, hk, hright => by
    have hlen : k = segs.length := by omega
    have hnone : log.catalog.sealedSegments.drop k = [] := List.drop_eq_nil_of_le (by rw [h.length_sealed]; omega)
    have hevents : eventsFrom segs k = [] := by
      rw [eventsFrom, hlen, List.drop_length]
      rfl
    rw [hnone, hevents, hlen, start_length]
    exact ⟨sc, [], stats, by rw [List.append_nil]; rfl, hright, rfl⟩
  | n + 1, k, out, stats, sc, hn, hk, hright => by
    have hseg : segs[k]? = some segs[k] := List.getElem?_eq_getElem (by omega)
    obtain ⟨c, hget, hc⟩ := h.container hseg
    have hpos : 0 < segs[k].length :=
      List.length_pos_iff.2 (h.noEmptySealed_iff.1 hne _ (List.mem_of_getElem? hseg))
    have hnext : c.maxLsn + 1 = start segs (k + 1) := by
      rw [hc.maxLsn, start_succ hseg]
      omega
    obtain ⟨hlt, hgetElem⟩ := List.getElem?_eq_some_iff.1 hget
    obtain ⟨sc₁, hzone, hright₁⟩ := zoneMapFor_eq h hS hne hright hseg hc
    rw [List.drop_eq_getElem_cons hlt, hgetElem, SkipScanner.scanSealed, eventsFrom_eq hseg, List.filter_append]
    dsimp only
    rw [hzone]
    dsimp only
    split
    · rw [h.scan_sealed_range hS hne hseg hc, hnext]
      dsimp only
      obtain ⟨sc', out', stats', hrest, hright', hfilter⟩ :=
        scanSealed_eq h hS hne p n (k + 1) (out ++ eventsOf segs k segs[k]) _ sc₁ (by omega) (by omega) hright₁
      refine ⟨sc', eventsOf segs k segs[k] ++ out', stats', ?_, hright', ?_⟩
      · rw [hrest, List.append_assoc]
      · rw [List.filter_append, hfilter]
    · rename_i hskip
      rw [hnext, filter_of_skipped hskip, List.nil_append]
      exact scanSealed_eq h hS hne p n (k + 1) out _ sc₁ (by omega) (by omega) hright₁

theorem Steady.sorted_bases (h : Steady env log segs act) :
    log.catalog.sealedSegments.insertionSort SkipScanner.byBaseLsn = log.catalog.sealedSegments := by
  refine List.Pairwise.insertionSort_eq ?_
  have hsorted := starts_sorted segs
  rw [← h.bases] at hsorted
  have hpairs := List.pairwise_map.1 hsorted
  exact hpairs

variable (env) in
/-- The filtered answer of a skipping scan is that of a full scan, which is the whole history. -/
def SkipsNothing (log : Log) (sc : SkipScanner) (history : List Episode) (p : SkipPredicate) : Prop :=
  ∃ sc' out stats, sc.scanPruned env log (fun z => p.mayMatch z) = (sc', .ok (out, stats)) ∧
    log.scan env 0 log.committedLsn = .ok (number 0 history) ∧
    out.filter (fun r => p.accepts r) = (number 0 history).filter (fun r => p.accepts r)

theorem Steady.scan_eq (h : Steady env log segs act) (hS : IsBinarySearch env.binarySearch) (hne : log.NoEmptySealed) (n : Nat) :
    log.scan env n log.committedLsn = .ok (number n (((segs.flatten ++ act).map Rec.episode).drop n)) := by
  have hlsns := h.lsns
  rw [Log.scan, h.scanCapped_eq hS hne.noEmptyHit, Nat.min_self, h.committed, Heraclitus.scanCapped,
    Nat.min_eq_right (by rw [u64Max]; omega), List.take_of_length_le (by rw [List.length_drop, List.length_map])]

theorem Steady.scanPruned_eq (h : Steady env log segs act) (hS : IsBinarySearch env.binarySearch) (hne : log.NoEmptySealed)
    (hright : sc.Right segs) (p : SkipPredicate) : ∃ sc' out stats,
      sc.scanPruned env log (fun z => p.mayMatch z) = (sc', .ok (out, stats)) ∧ sc'.Right segs ∧
      out.filter (fun r => p.accepts r)
        = (number 0 ((segs.flatten ++ act).map Rec.episode)).filter (fun r => p.accepts r) := by
  obtain ⟨sc', out, stats, hloop, hright', hfilter⟩ :=
    scanSealed_eq h hS hne p segs.length 0 [] {} sc (by omega) (Nat.zero_le _) hright
  have hstart : start segs 0 = 0 := rfl
  rw [List.drop_zero, hstart, List.nil_append] at hloop
  have hevents : eventsFrom segs 0 = number 0 (segs.flatten.map Rec.episode) := rfl
  have hhistory : number 0 ((segs.flatten ++ act).map Rec.episode)
      = number 0 (segs.flatten.map Rec.episode) ++ number segs.flatten.length (act.map Rec.episode) := by
    rw [List.map_append, number_append, List.length_map, Nat.zero_add]
  have htail : ((segs.flatten ++ act).map Rec.episode).drop segs.flatten.length = act.map Rec.episode := by
    rw [← List.map_drop, List.drop_left]
  unfold SkipScanner.scanPruned
  rw [h.sorted_bases]
  dsimp only
  rw [hloop, hhistory, List.filter_append, ← hevents, ← hfilter]
  dsimp only
  split
  · rw [h.scan_eq hS hne, htail]
    exact ⟨_, _, _, rfl, hright', List.filter_append _ _⟩
  · rename_i hhead
    have hact : act = [] := by
      have hcommitted := h.committed
      rw [List.length_append] at hcommitted
      exact List.length_eq_zero_iff.1 (by omega)
    refine ⟨_, _, _, rfl, hright', ?_⟩
    rw [hact, List.map_nil, number, List.filter_nil, List.append_nil]

/-! ## Runs -/

/-- A log directory, the log opened on it, and the scanner of the process. -/
structure Scanning where
  life : Lifetime
  scanner : SkipScanner

inductive ScanAction where
  /-- A batch, or a crash and the opening after it, with a new scanner. -/
  | log (e : Event)
  | scan (p : SkipPredicate)
  | warm
  | evict (seg : Nat)
  /-- A `.zmap` file is deleted, or was not written. -/
  | loseSidecar (seg : Nat)

variable (env) in
def Scanning.start : Scanning := { life := .start env, scanner := {} }

def Event.isCrash : Event → Bool
  | .batch _ => false
  | .crash _ _ => true

variable (env) in
def Scanning.step (segmentMaxBytes : Nat) (s : Scanning) : ScanAction → Option Scanning
  | .log e => (s.life.step env segmentMaxBytes e).map (fun life =>
      { life := life, scanner := if e.isCrash then { s.scanner with cache := .empty } else s.scanner })
  | .scan p => s.life.log.toOption.map (fun log => { s with scanner := (s.scanner.scanPruned env log (fun z => p.mayMatch z)).1 })
  | .warm => s.life.log.toOption.map (fun log => { s with scanner := s.scanner.warm env log })
  | .evict seg => some { s with scanner := s.scanner.evict seg }
  | .loseSidecar seg => some { s with scanner := { s.scanner with sidecars := s.scanner.sidecars.erase seg } }

variable (env) in
def ScanActionOk (s : Scanning) : ScanAction → Prop
  | .log e => EventOk env s.life e
  | _ => True

instance (s : Scanning) : ∀ a : ScanAction, Decidable (ScanActionOk env s a)
  | .log e => inferInstanceAs (Decidable (EventOk env s.life e))
  | .scan _ | .warm | .evict _ | .loseSidecar _ => isTrue trivial

variable (env) in
/-- The log is steady, and as long as it has no empty sealed segment the zone maps are right. -/
def Scanning.Inv (s : Scanning) : Prop :=
  ∃ log segs act, s.life.log = .ok log ∧ Steady env log segs act ∧ s.life.history = (segs.flatten ++ act).map Rec.episode ∧
    ((∀ rs ∈ segs, rs ≠ []) → s.scanner.Right segs)

theorem SkipScanner.Right.extend {segs' : List (List Rec)} (h : sc.Right segs) (hpre : segs <+: segs') : sc.Right segs' := by
  obtain ⟨more, rfl⟩ := hpre
  intro i z hz
  obtain ⟨rs, hseg, heq⟩ := h i z hz
  have hi : i < segs.length := (List.getElem?_eq_some_iff.1 hseg).1
  refine ⟨rs, by rw [List.getElem?_append_left hi, hseg], ?_⟩
  rw [heq, eventsOf, eventsOf, start_append more (Nat.le_of_lt hi)]

theorem Scanning.inv_step (hS : IsBinarySearch env.binarySearch) (hcodec : env.RoundTrips) {segmentMaxBytes : Nat}
    {s s' : Scanning} {a : ScanAction} (h : s.Inv env) (hok : ScanActionOk env s a)
    (hs : s.step env segmentMaxBytes a = some s') : s'.Inv env := by
  obtain ⟨log, segs, act, hlog, hsteady, hhistory, hright⟩ := h
  cases a with
  | log e =>
    obtain ⟨life, hlife, heq⟩ := Option.map_eq_some_iff.1 hs
    obtain ⟨log', segs', act', hlog', hsteady', hhistory', hpre⟩ :=
      Lifetime.steady_step hcodec hlog hsteady hhistory hok hlife
    cases heq
    refine ⟨log', segs', act', hlog', hsteady', hhistory', ?_⟩
    intro hne
    have hextended := (hright (fun rs hrs => hne rs (hpre.subset hrs))).extend hpre
    dsimp only
    split
    · exact hextended.mono (fun _ _ hz => absurd hz (by simp)) (fun _ _ hz => .inr hz)
    · exact hextended
  | scan p =>
    obtain ⟨log', hlog', heq⟩ := Option.map_eq_some_iff.1 hs
    rw [hlog] at hlog'
    cases hlog'
    cases heq
    refine ⟨log, segs, act, hlog, hsteady, hhistory, ?_⟩
    intro hne
    obtain ⟨sc', out, stats, hscan, hright', -⟩ :=
      hsteady.scanPruned_eq hS (hsteady.noEmptySealed_iff.2 hne) (hright hne) p
    rw [hscan]
    exact hright'
  | warm =>
    obtain ⟨log', hlog', heq⟩ := Option.map_eq_some_iff.1 hs
    rw [hlog] at hlog'
    cases hlog'
    cases heq
    refine ⟨log, segs, act, hlog, hsteady, hhistory, ?_⟩
    exact fun hne => warmAll_right hsteady hS (hsteady.noEmptySealed_iff.2 hne) _ _ (fun _ hc => hc) (hright hne)
  | evict seg =>
    cases hs
    refine ⟨log, segs, act, hlog, hsteady, hhistory, ?_⟩
    exact fun hne => (hright hne).mono (fun _ _ hz => .inl (SortedMap.get?_of_erase hz)) (fun _ _ hz => .inr hz)
  | loseSidecar seg =>
    cases hs
    refine ⟨log, segs, act, hlog, hsteady, hhistory, ?_⟩
    exact fun hne => (hright hne).mono (fun _ _ hz => .inl hz) (fun _ _ hz => .inr (SortedMap.get?_of_erase hz))

/-- The sample environment, with a search that finds the last of several equal bases. -/
def lastEnv : Env := { sampleEnv with binarySearch := searchLast }

theorem lastEnv_roundTrips : lastEnv.RoundTrips := sampleEnv_roundTrips

/-- Two records, one to a segment, and a scan between them. -/
def sampleScans : List ScanAction :=
  [.log (.batch [sampleAppend 0]), .scan (.agent "a".toList), .log (.batch [sampleAppend 1]), .warm]

/-- The LSNs that a scan for a predicate returns, skipping and in full, both filtered. -/
def bothScans (p : SkipPredicate) (s : Scanning) : Option (List Nat × List Nat) :=
  s.life.log.toOption.bind (fun log =>
    (s.scanner.scanPruned lastEnv log (fun z => p.mayMatch z)).2.toOption.bind (fun answer =>
      (log.scan lastEnv 0 log.committedLsn).toOption.map (fun full =>
        ((answer.1.filter (fun r => p.accepts r)).map Prod.fst, (full.filter (fun r => p.accepts r)).map Prod.fst))))

end Legacy
end Heraclitus
