import Heraclitus.Views
/-!
# ViewsReplay — when a boot finds the views where the log says they are

`catch_up` adds to every restored snapshot the events above the watermark of `watermarks.json`, in order.  So the views
come out as a replay of the log exactly when the two files agree at the end of the session before.
-/
namespace Heraclitus
namespace Views

variable {σ : Type}

/-- The LSNs of the events that are not H-VM frames. -/
def eventLsns (log : List Episode) : List Nat := ((number 0 log).filter (fun r => !isHvm r.2)).map Prod.fst

/-- A fresh view after every such event, once, in LSN order. -/
def replayed (v : View σ) (log : List Episode) : σ :=
  (number 0 log).foldl (fun st r => if isHvm r.2 then st else v.apply st r.1 r.2) v.init

/-- A fresh view after the listed records of the log. -/
def stateOf (v : View σ) (log : List Episode) (lsns : List Nat) : σ :=
  lsns.foldl (fun st l => (log[l]?).elim st (v.apply st l)) v.init

/-- A snapshot holds what it was given, all of it from the log. -/
structure Good (v : View σ) (log : List Episode) (snapshot : Snapshot σ) : Prop where
  state : snapshot.state = stateOf v log snapshot.received
  inLog : ∀ l ∈ snapshot.received, l < log.length

theorem stateOf_eventLsns (v : View σ) (log : List Episode) : stateOf v log (eventLsns log) = replayed v log := by
  unfold stateOf eventLsns replayed
  rw [List.foldl_map, List.foldl_filter]
  refine List.foldl_ext _ _ _ (fun st r hr => ?_)
  have hget : log[r.1]? = some r.2 := (mem_number.1 hr).2
  rw [hget]
  cases isHvm r.2 <;> rfl

theorem Good.append {v : View σ} {log : List Episode} {snapshot : Snapshot σ} (h : Good v log snapshot) (e : Episode) :
    Good v (log ++ [e]) snapshot := by
  refine ⟨?_, fun l hl => ?_⟩
  · rw [h.state]
    refine List.foldl_ext _ _ _ (fun st l hl => ?_)
    rw [List.getElem?_append_left (h.inLog l hl)]
  · rw [List.length_append]
    exact Nat.lt_add_right _ (h.inLog l hl)

theorem good_fresh (v : View σ) (log : List Episode) : Good v log ⟨v.init, []⟩ :=
  ⟨rfl, fun _ hl => by cases hl⟩

theorem Good.give {v : View σ} {log : List Episode} {x : Slot σ} (h : Good v log (x.get v)) {l : Nat} {e : Episode}
    (hl : log[l]? = some e) (w : Nat) : Good v log ((x.give v l e w).get v) := by
  refine ⟨?_, fun i hi => ?_⟩
  · show v.apply (x.get v).state l e = stateOf v log ((x.get v).received ++ [l])
    unfold stateOf
    rw [List.foldl_append, List.foldl_cons, List.foldl_nil, hl, h.state]
    rfl
  · rcases List.mem_append.1 hi with hi | hi
    · exact h.inLog i hi
    · rw [List.mem_singleton.1 hi]
      exact (List.getElem?_eq_some_iff.1 hl).1

/-! ## One view at a time -/

section OneView

variable {R : Registry σ} {v : View σ} {log : List Episode}

theorem applyAll_eq_sweep (g : Nat → Episode → View σ → Slot σ → Slot σ) (slots : Str → Slot σ) (r : Nat × Episode) :
    applyAll R g slots r = sweep View.name (fun v x => if isHvm r.2 then x else g r.1 r.2 v x) R.views slots := by
  unfold applyAll
  cases isHvm r.2 with
  | true => exact (sweep_eq_self (fun _ _ => rfl) R.views slots).symm
  | false => rfl

theorem replayFrom_applyAll (g : Nat → Episode → View σ → Slot σ → Slot σ) (hv : v ∈ R.views) (cur : Nat)
    (slots : Str → Slot σ) : replayFrom (applyAll R g) log cur slots v.name
      = replayFrom (fun x r => if isHvm r.2 then x else g r.1 r.2 v x) log cur (slots v.name) := by
  unfold replayFrom
  have hfeed : applyAll R g = fun slots (r : Nat × Episode) =>
      sweep View.name (fun v x => if isHvm r.2 then x else g r.1 r.2 v x) R.views slots := by
    funext slots r
    exact applyAll_eq_sweep g slots r
  rw [hfeed]
  exact foldl_sweep_of_mem (fun (r : Nat × Episode) v x => if isHvm r.2 then x else g r.1 r.2 v x) R.distinct hv _ slots

/-- Whatever a loop decides to give, it gives from the log. -/
theorem good_replayFrom {g : Nat → Episode → View σ → Slot σ → Slot σ}
    (hg : ∀ l e x, g l e v x = x ∨ ∃ w, g l e v x = x.give v l e w) {cur : Nat} {x : Slot σ}
    (h : Good v log (x.get v)) :
    Good v log ((replayFrom (fun x r => if isHvm r.2 then x else g r.1 r.2 v x) log cur x).get v) := by
  unfold replayFrom
  have hrec : ∀ (records : List (Nat × Episode)) (x : Slot σ), (∀ r ∈ records, log[r.1]? = some r.2) →
      Good v log (x.get v) →
        Good v log ((records.foldl (fun x r => if isHvm r.2 then x else g r.1 r.2 v x) x).get v) := by
    intro records
    induction records with
    | nil => exact fun _ _ h => h
    | cons r records ih =>
      intro x hr hx
      rw [List.foldl_cons]
      refine ih _ (fun r' hr' => hr r' (by simp [hr'])) ?_
      split
      · exact hx
      · rcases hg r.1 r.2 x with hgx | ⟨w, hgx⟩
        · rw [hgx]
          exact hx
        · rw [hgx]
          exact hx.give (hr r (by simp)) w
  exact hrec _ x (fun r hr => (mem_number_drop.1 hr).2) h

/-- `catch_up` appends to what a view was given the events at or above its bound. -/
theorem catchUp_foldl : ∀ (records : List (Nat × Episode)) (x : Slot σ), records.Pairwise (fun a b => a.1 < b.1) →
    ((records.foldl (fun x r => if isHvm r.2 then x else catchUpSlot r.1 r.2 v x) x).get v).received
      = (x.get v).received
        ++ ((records.filter (fun r => decide (bound x.watermark ≤ r.1))).filter (fun r => !isHvm r.2)).map Prod.fst
  | [], x, _ => by simp
  | r :: records, x, h => by
    obtain ⟨hr, hrecords⟩ := List.pairwise_cons.1 h
    rw [List.foldl_cons]
    cases hhvm : isHvm r.2 with
    | true =>
      rw [if_pos rfl, catchUp_foldl records x hrecords, List.filter_cons]
      split <;> simp [hhvm]
    | false =>
      rw [if_neg (by simp), catchUp_foldl records _ hrecords]
      by_cases hb : bound x.watermark ≤ r.1
      · have hgive : catchUpSlot r.1 r.2 v x = x.give v r.1 r.2 r.1 := by
          unfold catchUpSlot
          cases hw : x.watermark with
          | none => rfl
          | some w =>
            rw [hw] at hb
            exact if_pos hb
        have htail : ∀ b, b ≤ r.1 + 1 → records.filter (fun r => decide (b ≤ r.1)) = records := fun b hb =>
          List.filter_eq_self.2 (fun r' hr' => by
            have := hr r' hr'
            simp only [decide_eq_true_eq]
            omega)
        have hnext : bound (x.give v r.1 r.2 r.1).watermark = r.1 + 1 := rfl
        rw [hgive, List.filter_cons_of_pos (by simpa using hb), hnext, htail (r.1 + 1) (Nat.le_refl _),
          htail (bound x.watermark) (by omega), List.filter_cons_of_pos (by simp [hhvm])]
        simp [Slot.give, Slot.get]
      · have hskip : catchUpSlot r.1 r.2 v x = x := by
          unfold catchUpSlot
          cases hw : x.watermark with
          | none =>
            rw [hw] at hb
            exact absurd (Nat.zero_le _) hb
          | some w =>
            rw [hw] at hb
            exact if_neg (fun hlt => hb hlt)
        rw [hskip, List.filter_cons_of_neg (by simpa using hb)]

theorem eventLsns_split (log : List Episode) (b : Nat) :
    eventLsns log = eventLsns (log.take b) ++ ((number b (log.drop b)).filter (fun r => !isHvm r.2)).map Prod.fst := by
  unfold eventLsns
  have hsplit : number 0 log = number 0 (log.take b) ++ number b (log.drop b) := number_split (Nat.zero_le b) log
  rw [← List.map_append, ← List.filter_append, ← hsplit]

/-- From a start no higher than its bound, `catch_up` completes a view exactly when it had been given the events below
its bound. -/
theorem received_catchUp_iff {x : Slot σ} {start : Nat} (hstart : start ≤ bound x.watermark) :
    ((replayFrom (fun x r => if isHvm r.2 then x else catchUpSlot r.1 r.2 v x) log start x).get v).received
        = eventLsns log
      ↔ (x.get v).received = eventLsns (log.take (bound x.watermark)) := by
  unfold replayFrom
  rw [catchUp_foldl _ x (number_pairwise _ _), filter_number_drop hstart, eventLsns_split log (bound x.watermark),
    List.append_left_inj]

end OneView

/-! ## Sessions -/

section Sessions

variable {R : Registry σ}

/-- The files of a closed session agree: a snapshot was given, once and in order, the events up to its view's entry in
`watermarks.json`, and nothing else. -/
def DiskAgrees (R : Registry σ) (s : St σ) : Prop :=
  ∀ v ∈ R.views, v.durable = true → ∀ snapshot, s.snapshots v.name = some snapshot →
    snapshot.received = eventLsns (s.log.take (bound (s.watermarks v.name)))

/-- The condition on a step: a session ends only when its files agree. -/
def StepOk (R : Registry σ) (s : St σ) : Act → Prop
  | .crash => DiskAgrees R s
  | _ => True

structure Inv (R : Registry σ) (s : St σ) : Prop where
  disk : ∀ v ∈ R.views, ∀ snapshot, s.snapshots v.name = some snapshot → Good v s.log snapshot
  session : ∀ slots, s.session = some slots → ∀ v ∈ R.views, Good v s.log ((slots v.name).get v)
  closed : s.session = none → DiskAgrees R s

theorem catchUpStart_le {slots : Str → Slot σ} {v : View σ} (hv : v ∈ R.views) :
    catchUpStart R slots ≤ bound (slots v.name).watermark := by
  have hmem : bound (slots v.name).watermark ∈ R.views.map (fun v => bound (slots v.name).watermark) :=
    List.mem_map_of_mem hv
  unfold catchUpStart
  cases hmin : (R.views.map (fun v => bound (slots v.name).watermark)).min? with
  | none => exact Nat.zero_le _
  | some a => exact (List.min?_eq_some_iff.1 hmin).2 _ hmem

theorem window_pos : 0 < window := by decide

/-- What `catch_up` leaves under one name. -/
theorem catchUp_slot {s : St σ} {slots slots' : Str → Slot σ} {v : View σ} (hv : v ∈ R.views)
    (h : (catchUp R s slots).session = some slots') :
    ∃ start ≤ bound (restoreSlot s.snapshots v (slots v.name)).watermark,
      slots' v.name = replayFrom (fun x r => if isHvm r.2 then x else catchUpSlot r.1 r.2 v x) s.log start
        (restoreSlot s.snapshots v (slots v.name)) := by
  have hslot := sweep_of_mem (restoreSlot s.snapshots) R.views slots R.distinct hv
  refine ⟨catchUpStart R (sweep View.name (restoreSlot s.snapshots) R.views slots), ?_, ?_⟩
  · rw [← hslot]
    exact catchUpStart_le hv
  · rw [← hslot, ← replayFrom_applyAll catchUpSlot hv,
      ← drain_eq_replayFrom window_pos _ _ (Nat.le_succ _) _ _ _ (Nat.sub_le _ _)]
    exact congrFun (Option.some.inj h).symm v.name

theorem rebuild_slot {s : St σ} {slots slots' : Str → Slot σ} {only : Option Str} {v : View σ} (hv : v ∈ R.views)
    (h : (rebuild R s slots only).session = some slots') :
    slots' v.name = replayFrom (fun x r => if isHvm r.2 then x else rebuildSlot only r.1 r.2 v x) s.log 0
      (resetSlot only v (slots v.name)) := by
  rw [← sweep_of_mem (resetSlot only) R.views slots R.distinct hv, ← replayFrom_applyAll (rebuildSlot only) hv,
    ← drain_eq_replayFrom window_pos _ _ (Nat.le_refl _) _ _ _ (Nat.sub_le _ _)]
  exact congrFun (Option.some.inj h).symm v.name

theorem good_restoreSlot {s : St σ} {v : View σ} {x : Slot σ}
    (hdisk : ∀ snapshot, s.snapshots v.name = some snapshot → Good v s.log snapshot) (h : Good v s.log (x.get v)) :
    Good v s.log ((restoreSlot s.snapshots v x).get v) := by
  unfold restoreSlot
  split
  · rename_i snapshot hs
    split at hs
    · exact hdisk snapshot hs
    · cases hs
  · exact h

theorem good_catchUp {s : St σ} {slots slots' : Str → Slot σ} (h : Inv R s)
    (hslots : ∀ v ∈ R.views, Good v s.log ((slots v.name).get v)) (hs : (catchUp R s slots).session = some slots') :
    ∀ v ∈ R.views, Good v s.log ((slots' v.name).get v) := by
  intro v hv
  obtain ⟨start, -, hslot⟩ := catchUp_slot hv hs
  rw [hslot]
  refine good_replayFrom (fun l e x => ?_) (good_restoreSlot (h.disk v hv) (hslots v hv))
  unfold catchUpSlot
  split
  · exact .inr ⟨l, rfl⟩
  · split
    · exact .inr ⟨l, rfl⟩
    · exact .inl rfl

theorem good_rebuild {s : St σ} {slots slots' : Str → Slot σ} {only : Option Str}
    (hslots : ∀ v ∈ R.views, Good v s.log ((slots v.name).get v)) (hs : (rebuild R s slots only).session = some slots') :
    ∀ v ∈ R.views, Good v s.log ((slots' v.name).get v) := by
  intro v hv
  rw [rebuild_slot hv hs]
  refine good_replayFrom (fun l e x => ?_) ?_
  · unfold rebuildSlot
    split
    · exact .inr ⟨l, rfl⟩
    · exact .inl rfl
  · unfold resetSlot
    split
    · exact good_fresh v s.log
    · exact hslots v hv

/-- A step that keeps the log and the snapshots, and leaves every view good. -/
theorem Inv.session_step {s s' : St σ} (h : Inv R s) (hlog : s'.log = s.log) (hsnap : s'.snapshots = s.snapshots)
    (hopen : s'.session ≠ none)
    (hslots : ∀ slots, s'.session = some slots → ∀ v ∈ R.views, Good v s.log ((slots v.name).get v)) : Inv R s' where
  disk v hv snapshot hs := by
    rw [hlog]
    exact h.disk v hv snapshot (hsnap ▸ hs)
  session slots hs v hv := by
    rw [hlog]
    exact hslots slots hs v hv
  closed hnone := absurd hnone hopen

theorem inv_step {s s' : St σ} {a : Act} (h : Inv R s) (hok : StepOk R s a) (hs : step R s a = some s') : Inv R s' := by
  cases a with
  | boot b =>
    simp only [step] at hs
    split at hs
    · cases hs
    · have hfresh : ∀ v ∈ R.views, Good v s.log ((opened s v.name).get v) := fun v _ => good_fresh v s.log
      cases b with
      | catchUp =>
        cases hs
        exact h.session_step rfl rfl (fun hn => by cases hn) (fun slots hs' => good_catchUp h hfresh hs')
      | skipReplay =>
        cases hs
        refine h.session_step rfl rfl (fun hn => by cases hn) (fun slots hs' v _ => ?_)
        cases Option.some.inj hs'
        exact good_fresh v s.log
      | privacyRebuild =>
        cases hs
        exact h.session_step rfl rfl (fun hn => by cases hn) (fun slots hs' => good_rebuild hfresh hs')
  | append e =>
    obtain ⟨slots, hses, rfl⟩ := Option.map_eq_some_iff.1 hs
    refine ⟨fun v hv snapshot hsn => (h.disk v hv snapshot hsn).append e,
      fun slots hs' v hv => (h.session slots hs' v hv).append e, fun hnone => ?_⟩
    exact absurd (hses.symm.trans hnone) (fun h => by cases h)
  | live lsn =>
    simp only [step] at hs
    split at hs
    · rename_i slots e hses hget
      cases hs
      refine h.session_step rfl rfl (fun hn => by cases hn) (fun slots' hs' v hv => ?_)
      cases Option.some.inj hs'
      rw [applyAll_eq_sweep, sweep_of_mem _ R.views slots R.distinct hv]
      split
      · exact h.session slots hses v hv
      · exact (h.session slots hses v hv).give hget _
    · cases hs
  | rebuild only =>
    obtain ⟨slots, hses, rfl⟩ := Option.map_eq_some_iff.1 hs
    exact h.session_step rfl rfl (fun hn => by cases hn) (fun slots' hs' => good_rebuild (h.session slots hses) hs')
  | checkpoint =>
    obtain ⟨slots, hses, rfl⟩ := Option.map_eq_some_iff.1 hs
    refine ⟨fun v hv snapshot hsn => ?_, fun slots' hs' v hv => ?_, fun hnone => by cases hnone⟩
    · have hsaved := sweep_of_mem (fun (v : View σ) old => if v.durable then some ((slots v.name).get v) else old)
        R.views s.snapshots R.distinct hv
      have hsn' := hsaved.symm.trans hsn
      split at hsn'
      · cases hsn'
        exact h.session slots hses v hv
      · exact h.disk v hv snapshot hsn'
    · cases Option.some.inj hs'
      exact h.session slots hses v hv
  | crash =>
    cases hs
    exact ⟨h.disk, fun slots hs' => (by cases hs'), fun _ => hok⟩

theorem inv_init : Inv R {} :=
  ⟨fun _ _ _ hs => (by cases hs), fun _ hs => (by cases hs), fun _ _ _ _ _ hs => (by cases hs)⟩

/-- A boot that catches up gives every view exactly the events of the log, in order, when the files agree. -/
theorem received_of_diskAgrees {s : St σ} {slots : Str → Slot σ} (hdisk : DiskAgrees R s)
    (hs : (catchUp R s (opened s)).session = some slots) :
    ∀ v ∈ R.views, ((slots v.name).get v).received = eventLsns s.log := by
  intro v hv
  obtain ⟨start, hstart, hslot⟩ := catchUp_slot hv hs
  rw [hslot, received_catchUp_iff hstart]
  unfold restoreSlot
  split
  · rename_i snapshot hsnap
    split at hsnap
    · rename_i hd
      exact hdisk v hv hd snapshot hsnap
    · cases hsnap
  · rfl

/-- And only then: where the files disagree, some view misses an event, repeats one or has two out of order. -/
theorem received_catchUp_iff_diskAgrees {s : St σ} {slots : Str → Slot σ}
    (hs : (catchUp R s (opened s)).session = some slots) :
    (∀ v ∈ R.views, ((slots v.name).get v).received = eventLsns s.log) ↔ DiskAgrees R s := by
  refine ⟨fun h v hv hd snapshot hsnap => ?_, fun h => received_of_diskAgrees h hs⟩
  obtain ⟨start, hstart, hslot⟩ := catchUp_slot hv hs
  have hrec := h v hv
  rw [hslot, received_catchUp_iff hstart] at hrec
  unfold restoreSlot at hrec
  rw [if_pos hd, hsnap] at hrec
  exact hrec

/-- **After a catch-up every view is the replay of the log, in every run whose sessions end with files that agree.** -/
theorem catchUp_replays {acts : List Act} {s s' : St σ} {slots : Str → Slot σ}
    (h : Run (step R) (StepOk R) {} acts s) (hs : step R s (.boot .catchUp) = some s') (hslots : s'.session = some slots) :
    ∀ v ∈ R.views, ((slots v.name).get v).state = replayed v s'.log
      ∧ ((slots v.name).get v).received = eventLsns s'.log := by
  have hinv := h.invariant inv_init (fun _ _ _ hi hok hst => inv_step hi hok hst)
  intro v hv
  have hok : StepOk R s (.boot .catchUp) := trivial
  have hinv' : Inv R s' := inv_step hinv hok hs
  simp only [step] at hs
  split at hs
  · cases hs
  · rename_i hnone
    cases hs
    have hrec := received_of_diskAgrees (hinv.closed (by simpa using hnone)) hslots v hv
    refine ⟨?_, hrec⟩
    rw [(hinv'.session slots hslots v hv).state, hrec]
    exact stateOf_eventLsns v _

end Sessions

/-- A view that persists the list of the LSNs it has seen. -/
def recorder : View (List Nat) where
  name := "recorder".toList
  init := []
  apply seen lsn _ := seen ++ [lsn]
  durable := true

def recorders : Registry (List Nat) := ⟨[recorder], by simp⟩

def sampleEvent : Episode := .new 0 "a".toList .observation [120]

theorem catchUp_replays_sample : ∃ (s' : St (List Nat)) (slots : Str → Slot (List Nat)), s'.session = some slots ∧ s'.log.length = 1 ∧
    ∀ v ∈ recorders.views, ((slots v.name).get v).state = replayed v s'.log
      ∧ ((slots v.name).get v).received = eventLsns s'.log := by
  have h₀ : Run (step recorders) (StepOk recorders) {} [] {} := .start
  have h₁ := h₀.next (.boot .catchUp) (by exact trivial) rfl
  have h₂ := h₁.next (.append sampleEvent) (by exact trivial) rfl
  have h₃ := h₂.next (.live 0) (by exact trivial) rfl
  have h₄ := h₃.next .checkpoint (by exact trivial) rfl
  have h₅ := h₄.next .crash (by
    intro v hv _ snapshot hs
    obtain rfl := List.mem_singleton.1 hv
    cases hs
    decide) rfl
  exact ⟨_, _, rfl, rfl, catchUp_replays h₅ rfl rfl⟩

theorem received_catchUp_iff_diskAgrees_sample : ∃ s : St (List Nat), ∃ slots : Str → Slot (List Nat), s.log = [sampleEvent] ∧
    ((∀ v ∈ recorders.views, ((slots v.name).get v).received = eventLsns s.log) ↔ DiskAgrees recorders s) :=
  ⟨{ log := [sampleEvent] }, _, rfl, received_catchUp_iff_diskAgrees rfl⟩

/-- **A crash between a catch-up and the checkpoint after it loses what the catch-up applied: the second boot restores
the empty snapshot under the new watermark.** -/
theorem catchUp_loses_event : ∃ acts s s' slots, Run (step recorders) (fun _ _ => True) {} acts s ∧
    step recorders s (.boot .catchUp) = some s' ∧ s'.session = some slots ∧
    ∃ v ∈ recorders.views, ((slots v.name).get v).state ≠ replayed v s'.log := by
  have h₀ : Run (step recorders) (fun _ _ => True) {} [] {} := .start
  have h₁ := h₀.next (.boot .catchUp) trivial rfl
  have h₂ := h₁.next .checkpoint trivial rfl
  have h₃ := h₂.next (.append sampleEvent) trivial rfl
  have h₄ := h₃.next .crash trivial rfl
  have h₅ := h₄.next (.boot .catchUp) trivial rfl
  have h₆ := h₅.next .crash trivial rfl
  exact ⟨_, _, _, _, h₆, rfl, rfl, recorder, List.mem_singleton_self _, by decide⟩

end Views
end Heraclitus
