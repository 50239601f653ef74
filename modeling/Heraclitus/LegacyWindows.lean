import Heraclitus.LegacyLogRead
/-!
# LegacyWindows — walks over the v5 log, window by window

Replays and maintenance read the log by `scan_capped`, a window at a time, each from behind the last record of the one
before.  A sealed segment without records is what a search must not find.
-/
namespace Heraclitus
namespace Legacy

variable {σ : Type}

/-- `while cur < stop`: scan a window, visit its records, go on behind the last one; an empty window ends the walk. -/
def Log.walk (env : Env) (log : Log) (visit : σ → Nat × Episode → Except HeraclitusError σ) (stop window : Nat) :
    Nat → Nat → σ → Except HeraclitusError σ
  | 0, _, s => .ok s
  | fuel + 1, cur, s =>
    if cur < stop then
      match log.scanCapped env cur stop window with
      | .error e => .error e
      | .ok batch =>
        match batch.getLast? with
        | none => .ok s
        | some last =>
          match batch.foldlM visit s with
          | .error e => .error e
          | .ok s => log.walk env visit stop window fuel (last.1 + 1) s
    else .ok s

variable {env : Env} {log : Log} {segs : List (List Rec)} {act : List Rec}

/-- **A walk visits every record from its start on, once, in the order of the log.** -/
theorem Steady.walk_eq (h : Steady env log segs act) (hS : IsBinarySearch env.binarySearch) (hhit : log.catalog.NoEmptyHit env)
    (visit : σ → Nat × Episode → Except HeraclitusError σ) {stop window : Nat} (hstop : log.committedLsn ≤ stop)
    (hwindow : 0 < window) : ∀ (fuel cur : Nat) (s : σ), stop - cur ≤ fuel →
      log.walk env visit stop window fuel cur s
        = (number cur (((segs.flatten ++ act).map Rec.episode).drop cur)).foldlM visit s
  | 0, cur, s, hfuel => by
    have hcommitted := h.committed
    rw [List.drop_eq_nil_of_le (by rw [List.length_map]; omega)]
    rfl
  | fuel + 1, cur, s, hfuel => by
    have hcommitted := h.committed
    rw [Log.walk]
    by_cases hcur : cur < stop
    · rw [if_pos hcur, h.scanCapped_eq hS hhit, Nat.min_eq_right hstop]
      dsimp only
      generalize hall : (segs.flatten ++ act).map Rec.episode = all at *
      have hlen : all.length = log.committedLsn := by rw [← hall, List.length_map, hcommitted]
      have hlast := getLast?_number ((all.drop cur).take (min window (log.committedLsn - cur))) cur
      have hlength : ((all.drop cur).take (min window (log.committedLsn - cur))).length
          = min window (log.committedLsn - cur) := by
        rw [List.length_take, List.length_drop, hlen]
        omega
      have hsplit : number cur (all.drop cur) = Heraclitus.scanCapped all cur log.committedLsn window
          ++ number (cur + min window (log.committedLsn - cur)) (all.drop (cur + min window (log.committedLsn - cur))) := by
        conv_lhs => rw [← List.take_append_drop (min window (log.committedLsn - cur)) (all.drop cur), number_append, hlength,
          List.drop_drop]
        rfl
      cases hget : (Heraclitus.scanCapped all cur log.committedLsn window).getLast? with
      | none =>
        rw [List.getLast?_eq_none_iff] at hget
        have hnil : min window (log.committedLsn - cur) = 0 := by
          have := congrArg List.length hget
          rwa [Heraclitus.scanCapped, length_number, hlength] at this
        rw [List.drop_eq_nil_of_le (show all.length ≤ cur by omega)]
        rfl
      | some last =>
        rw [Heraclitus.scanCapped] at hget
        rw [hget] at hlast
        have hpos : 0 < min window (log.committedLsn - cur) := by
          rw [← hlength]
          refine List.length_pos_iff.2 (fun hnil => ?_)
          rw [hnil] at hget
          cases hget
        rw [if_neg (List.length_pos_iff.1 (by rw [hlength]; exact hpos)), hlength, Option.map_some, Option.some.injEq] at hlast
        have hnext : last.1 + 1 = cur + min window (log.committedLsn - cur) := by omega
        rw [hsplit, List.foldlM_append]
        dsimp only
        rw [hnext]
        cases hvisit : (Heraclitus.scanCapped all cur log.committedLsn window).foldlM visit s with
        | error e => rfl
        | ok s' =>
          dsimp only
          rw [h.walk_eq hS hhit visit hstop hwindow fuel _ s' (by omega), hall]
          rfl
    · rw [if_neg hcur, List.drop_eq_nil_of_le (by rw [List.length_map]; omega)]
      rfl

/-- A visitor that does not fail. -/
theorem foldlM_ok {α ε : Type} (f : σ → α → σ) : ∀ (l : List α) (s : σ),
    l.foldlM (fun s a => (Except.ok (f s a) : Except ε σ)) s = .ok (l.foldl f s)
  | [], _ => rfl
  | a :: l, s => foldlM_ok f l (f s a)

/-! ## Sealed segments -/

/-- The events of segment `i`, whose records are `rs`. -/
def eventsOf (segs : List (List Rec)) (i : Nat) (rs : List Rec) : List (Nat × Episode) :=
  number (start segs i) (rs.map Rec.episode)

/-- No sealed segment is without records. -/
def Log.NoEmptySealed (log : Log) : Prop := ∀ c ∈ log.catalog.sealedSegments, c.entries ≠ []

instance (log : Log) : Decidable log.NoEmptySealed :=
  inferInstanceAs (Decidable (∀ c ∈ log.catalog.sealedSegments, c.entries ≠ []))

theorem Layout.noEmptySealed_iff (h : Layout env log segs act) : log.NoEmptySealed ↔ ∀ rs ∈ segs, rs ≠ [] := by
  constructor
  · intro hne rs hrs hnil
    obtain ⟨i, hseg⟩ := List.getElem?_of_mem hrs
    obtain ⟨c, hmem, hc⟩ := h.container hseg
    refine hne c (List.mem_of_getElem? hmem) ?_
    rw [hc.entries, hnil]
    rfl
  · intro hne c hmem hnil
    obtain ⟨i, hget⟩ := List.getElem?_of_mem hmem
    have hi : i < segs.length := h.length_sealed ▸ (List.getElem?_eq_some_iff.1 hget).1
    have hseg : segs[i]? = some segs[i] := List.getElem?_eq_getElem hi
    have hc := h.sealedAt i c _ hget hseg
    have hlen := length_indexFrom segs[i] (start segs i) headerLen
    rw [← hc.entries, hnil] at hlen
    exact hne _ (List.mem_of_getElem? hseg) (List.length_eq_zero_iff.1 hlen.symm)

theorem Log.NoEmptySealed.noEmptyHit (h : log.NoEmptySealed) : log.catalog.NoEmptyHit env :=
  fun _ _ c _ _ hc => h c (List.mem_of_getElem? hc)

end Legacy
end Heraclitus
