import Heraclitus.LegacyLogRun
/-!
# LegacyAsOf — the log at an instant (`heraclitus-query/src/backend.rs`, `heraclitus-server/src/engine.rs`)

Stamps do not decrease along the log, so a binary search that reads one record a turn finds where an instant falls.  The
search of the log backend and of the engine looks for the first record after an instant, `lsnEm` for the first one at or
after it.  An instant is in milliseconds, the upper bits of a stamp.
-/
namespace Heraclitus
namespace Legacy

/-- `ts_hlc >> 16`: the milliseconds of a stamp. -/
def stampMs (tsHlc : Nat) : Nat := tsHlc >>> 16

/-- `+` and `-` on `u64`; `none` is a result that does not fit. -/
def checkedAdd64 (a b : Nat) : Option Nat := if a + b ≤ u64Max then some (a + b) else none
def checkedSub64 (a b : Nat) : Option Nat := if b ≤ a then some (a - b) else none

/-- The middle of a window, as all of the searches compute it. -/
def middle (low high : Nat) : Option Nat := do
  let span ← checkedSub64 high low
  checkedAdd64 low (span / 2)

variable (env : Env) (log : Log)

/-- The loop of `lsn_for_timestamp`, with the turns that are left; `none` is an overflow or a turn too many. -/
def searchAfter (tsMs : Nat) : Nat → Nat → Nat → Nat → Option (Except HeraclitusError Nat)
  | 0, _, _, _ => none
  | fuel + 1, low, high, ans =>
    if high < low then some (.ok ans)
    else do
      let mid ← middle low high
      match log.read env mid with
      | .error e => some (.error e)
      | .ok (some (_, e)) =>
        if tsMs < stampMs e.tsHlc then
          if mid = 0 then some (.ok mid)
          else
            let high ← checkedSub64 mid 1
            searchAfter tsMs fuel low high mid
        else
          let low ← checkedAdd64 mid 1
          searchAfter tsMs fuel low high ans
      | .ok none =>
        if mid = 0 then some (.ok ans)
        else
          let high ← checkedSub64 mid 1
          searchAfter tsMs fuel low high ans

def LogBackend.lsnForTimestamp (tsMs : Nat) : Option (Except HeraclitusError Nat) :=
  searchAfter env log tsMs (log.committedLsn + 2) 0 log.committedLsn log.committedLsn

/-- The same algorithm as the backend of reference. -/
def Engine.lsnForTimestamp (tsMs : Nat) : Option (Except HeraclitusError Nat) :=
  searchAfter env log tsMs (log.committedLsn + 2) 0 log.committedLsn log.committedLsn

/-- The loop of `lsn_em`; a record that cannot be read counts as one before the instant. -/
def searchFrom (ms : Nat) : Nat → Nat → Nat → Option Nat
  | 0, _, _ => none
  | fuel + 1, lo, hi =>
    if hi ≤ lo then some lo
    else do
      let meio ← middle lo hi
      match log.read env meio with
      | .ok (some (_, ep)) =>
        if stampMs ep.tsHlc < ms then
          let lo ← checkedAdd64 meio 1
          searchFrom ms fuel lo hi
        else searchFrom ms fuel lo meio
      | _ =>
        let lo ← checkedAdd64 meio 1
        searchFrom ms fuel lo hi

def Engine.lsnEm (ms : Nat) : Option Nat := searchFrom env log ms (log.committedLsn + 1) 0 log.committedLsn

/-! ## The searches find the boundary -/

variable {env log}

theorem middle_eq {low high : Nat} (h : low ≤ high) (hmax : high ≤ u64Max) : middle low high = some (low + (high - low) / 2) := by
  rw [middle, checkedSub64, if_pos h]
  exact if_pos (by omega)

section

variable {history : List Episode} {n t : Nat}
  (hread : ∀ lsn, log.read env lsn = .ok ((history[lsn]?).map (fun e => (lsn, e)))) (hmax : history.length ≤ u64Max)
include hread hmax

/-- A search after `t` between bounds around the boundary `n` answers it: beyond `high` the answer is known. -/
theorem searchAfter_eq (hn : ∀ i e, history[i]? = some e → (t < stampMs e.tsHlc ↔ n ≤ i)) :
    ∀ fuel low high, high + 1 - low < fuel → low ≤ n → n ≤ high + 1 → high ≤ history.length → n ≤ history.length →
      searchAfter env log t fuel low high (min history.length (high + 1)) = some (.ok n)
  | 0, _, _, hfuel, _, _, _, _ => absurd hfuel (Nat.not_lt_zero _)
  | fuel + 1, low, high, hfuel, hlow, hhigh, hlen, hle => by
    rw [searchAfter]
    by_cases hexit : high < low
    · rw [if_pos hexit]
      have : min history.length (high + 1) = n := by omega
      rw [this]
    · rw [if_neg hexit, middle_eq (Nat.not_lt.1 hexit) (Nat.le_trans hlen hmax), Option.bind_eq_bind, Option.bind_some,
        hread]
      generalize hmid : low + (high - low) / 2 = mid
      have hmid₁ : low ≤ mid := by omega
      have hmid₂ : mid ≤ high := by omega
      cases he : history[mid]? with
      | none =>
        have hend : history.length ≤ mid := List.getElem?_eq_none_iff.1 he
        dsimp only [Option.map_none]
        by_cases hzero : mid = 0
        · rw [if_pos hzero]
          have : min history.length (high + 1) = n := by omega
          rw [this]
        · have hstep := searchAfter_eq hn fuel low (mid - 1) (by omega) hlow (by omega) (by omega) hle
          have hans : min history.length (high + 1) = min history.length (mid - 1 + 1) := by omega
          rw [if_neg hzero, checkedSub64, if_pos (Nat.one_le_iff_ne_zero.2 hzero), Option.bind_some, hans, hstep]
      | some e =>
        have hlt : mid < history.length := (List.getElem?_eq_some_iff.1 he).1
        have hside := hn mid e he
        dsimp only [Option.map_some]
        by_cases hafter : t < stampMs e.tsHlc
        · have hnmid : n ≤ mid := hside.1 hafter
          rw [if_pos hafter]
          by_cases hzero : mid = 0
          · rw [if_pos hzero]
            have : mid = n := by omega
            rw [this]
          · have hstep := searchAfter_eq hn fuel low (mid - 1) (by omega) hlow (by omega) (by omega) hle
            have hans : min history.length (mid - 1 + 1) = mid := by omega
            rw [hans] at hstep
            rw [if_neg hzero, checkedSub64, if_pos (Nat.one_le_iff_ne_zero.2 hzero), Option.bind_some, hstep]
        · have hnmid : ¬ n ≤ mid := fun h => hafter (hside.2 h)
          have hstep := searchAfter_eq hn fuel (mid + 1) high (by omega) (by omega) hhigh hlen hle
          rw [if_neg hafter, checkedAdd64, if_pos (by omega), Option.bind_some, hstep]

theorem searchFrom_eq (hn : ∀ i e, history[i]? = some e → (stampMs e.tsHlc < t ↔ i < n)) :
    ∀ fuel lo hi, hi - lo < fuel → lo ≤ n → n ≤ hi → hi ≤ history.length → searchFrom env log t fuel lo hi = some n
  | 0, _, _, hfuel, _, _, _ => absurd hfuel (Nat.not_lt_zero _)
  | fuel + 1, lo, hi, hfuel, hlo, hhi, hlen => by
    rw [searchFrom]
    by_cases hexit : hi ≤ lo
    · rw [if_pos hexit, Nat.le_antisymm hlo (Nat.le_trans hhi hexit)]
    · rw [if_neg hexit, middle_eq (by omega) (Nat.le_trans hlen hmax), Option.bind_eq_bind, Option.bind_some, hread]
      generalize hmid : lo + (hi - lo) / 2 = meio
      have hlt : meio < history.length := by omega
      have hside := hn meio history[meio] (List.getElem?_eq_getElem hlt)
      rw [List.getElem?_eq_getElem hlt]
      dsimp only [Option.map_some]
      by_cases hbefore : stampMs history[meio].tsHlc < t
      · have hn' := hside.1 hbefore
        rw [if_pos hbefore, checkedAdd64, if_pos (by omega), Option.bind_some]
        exact searchFrom_eq hn fuel (meio + 1) hi (by omega) (by omega) hhi hlen
      · have hn' : ¬ meio < n := fun h => hbefore (hside.2 h)
        rw [if_neg hbefore]
        exact searchFrom_eq hn fuel lo meio (by omega) hlo (by omega) (by omega)

end

/-- The records up to an instant. -/
def upTo (history : List Episode) (tsMs : Nat) : Nat := (history.filter (fun e => decide (stampMs e.tsHlc ≤ tsMs))).length

/-- **Both searches answer the number of records up to the instant**, and the third one agrees on the instant after. -/
theorem lsnForTimestamp_eq (env : Env) (log : Log) (segs : List (List Rec)) (act : List Rec)
    (h : Steady env log segs act) (hS : IsBinarySearch env.binarySearch) (hhit : log.catalog.NoEmptyHit env)
    (hstamps : ((segs.flatten ++ act).map Rec.episode).Pairwise (fun a b => a.tsHlc ≤ b.tsHlc)) (t : Nat) :
    LogBackend.lsnForTimestamp env log t = some (.ok (upTo ((segs.flatten ++ act).map Rec.episode) t)) ∧
      Engine.lsnForTimestamp env log t = some (.ok (upTo ((segs.flatten ++ act).map Rec.episode) t)) ∧
      Engine.lsnEm env log (t + 1) = some (upTo ((segs.flatten ++ act).map Rec.episode) t) := by
  obtain ⟨hhead, hread, -⟩ := (h.readsAs_iff hS).2 hhit
  have hlen : ((segs.flatten ++ act).map Rec.episode).length ≤ u64Max := by
    have := h.lsns
    rw [List.length_map]
    unfold u64Max
    omega
  have hsorted : ((segs.flatten ++ act).map Rec.episode).Pairwise (fun a b =>
      decide (stampMs b.tsHlc ≤ t) = true → decide (stampMs a.tsHlc ≤ t) = true) := by
    refine hstamps.imp (fun {a b} hle hb => ?_)
    have hms : stampMs a.tsHlc ≤ stampMs b.tsHlc := by
      unfold stampMs
      rw [Nat.shiftRight_eq_div_pow, Nat.shiftRight_eq_div_pow]
      exact Nat.div_le_div_right hle
    exact decide_eq_true (Nat.le_trans hms (of_decide_eq_true hb))
  have hcount : upTo ((segs.flatten ++ act).map Rec.episode) t ≤ ((segs.flatten ++ act).map Rec.episode).length :=
    List.length_filter_le _ _
  generalize (segs.flatten ++ act).map Rec.episode = history at *
  have hside : ∀ i e, history[i]? = some e → (stampMs e.tsHlc ≤ t ↔ i < upTo history t) := fun i e he => by
    have := iff_lt_length_filter hsorted i e he
    rwa [decide_eq_true_iff] at this
  have hafter : searchAfter env log t (log.committedLsn + 2) 0 log.committedLsn log.committedLsn
      = some (.ok (upTo history t)) := by
    have := searchAfter_eq hread hlen (n := upTo history t) (fun i e he => by rw [← Nat.not_le, hside i e he, Nat.not_lt])
      (log.committedLsn + 2) 0 log.committedLsn (by omega) (Nat.zero_le _) (by omega) (by omega) hcount
    rwa [hhead, Nat.min_eq_left (Nat.le_succ _), ← hhead] at this
  refine ⟨hafter, hafter, ?_⟩
  exact searchFrom_eq hread hlen (fun i e he => by rw [Nat.lt_succ_iff, hside i e he]) _ 0 _ (by omega) (Nat.zero_le _)
    (by omega) (by omega)

/-- Two records of the first millisecond. -/
theorem lsnForTimestamp_eq_sample : ∃ log : Log, LogBackend.lsnForTimestamp sampleEnv log 0 = some (.ok 2) ∧
    Engine.lsnForTimestamp sampleEnv log 0 = some (.ok 2) ∧ Engine.lsnEm sampleEnv log 1 = some 2 := by
  obtain ⟨s, hs⟩ : ∃ s, (Session.start sampleEnv).step sampleEnv 4096 [sampleAppend 0, sampleAppend 1] = some s := ⟨_, rfl⟩
  have hrun : ((Session.start sampleEnv).step sampleEnv 4096 [sampleAppend 0, sampleAppend 1]).map
      (fun s => (s.acked, s.log.catalog.sealedSegments)) = some ([(0, sampleEpisode 0), (1, sampleEpisode 1)], []) := by
    decide +kernel
  rw [hs, Option.map_some, Option.some.injEq, Prod.mk.injEq] at hrun
  obtain ⟨segs, act, hsteady, -, hacked⟩ : s.Inv sampleEnv :=
    Session.inv_step sampleEnv_roundTrips ⟨[], [], steady_create, solid_create, rfl⟩ sample_stepOk hs
  have hhistory : (segs.flatten ++ act).map Rec.episode = [sampleEpisode 0, sampleEpisode 1] := by
    rw [← map_snd_number ((segs.flatten ++ act).map Rec.episode) 0, ← hacked, hrun.1]
    rfl
  have hhit : s.log.catalog.NoEmptyHit sampleEnv := fun lsn i c _ _ hc => by
    rw [hrun.2] at hc
    cases hc
  have hall := lsnForTimestamp_eq sampleEnv s.log segs act hsteady isBinarySearch_searchFirst hhit
    (by rw [hhistory]; decide) 0
  rw [hhistory] at hall
  exact ⟨s.log, hall⟩

set_option maxRecDepth 20000 in
/-- A record with the stamp 5, later than the instant 4 as a number, is of the millisecond 0. -/
theorem stamps_count_in_millis : (sampleEpisode 4).tsHlc = 5 ∧
    ((Session.start sampleEnv).step sampleEnv 4096 [sampleAppend 4]).map
        (fun s => (s.acked, LogBackend.lsnForTimestamp sampleEnv s.log 4, Engine.lsnForTimestamp sampleEnv s.log 4))
      = some ([(0, sampleEpisode 4)], some (.ok 1), some (.ok 1)) := by
  decide +kernel

end Legacy
end Heraclitus
