import Heraclitus.Hlc
import Heraclitus.Lib.Ranked
import Heraclitus.Lib.Run
/-!
# LegacyClock — timestamps and LSNs of the legacy log (`heraclitus-log/src/lib.rs`)

Who stamps an episode and who orders it are different threads.  A local append stamps under the lock that also queues it;
a replicated one observes its leader's timestamp first, and queues the episode later with that timestamp.  One worker
takes the queue in order and gives the LSNs; it reads the clock too, for the headers of new segments.
-/
namespace Heraclitus
namespace LegacyClock

/-- `LogCommand::Append`, as far as order and time go. -/
structure Command where
  tsHlc : Nat
  expectedLsn : Option Nat
  deriving DecidableEq

/-- A call of `append_replicated` that has observed its timestamp; has it read the head yet? -/
structure Call where
  lsn : Nat
  tsHlc : Nat
  checked : Bool
  deriving DecidableEq

/-- `stored` are the timestamps by LSN; `head` is the committed LSN. -/
structure World where
  hlc : Hlc
  calls : List Call
  locked : Option Command
  queue : List Command
  stored : List Nat
  head : Nat
  deriving DecidableEq

inductive Action where
  /-- `append` and `append_stamped`: the lock, and the stamp. -/
  | append (ms : Nat)
  /-- `append_replicated` begins. -/
  | observe (lsn tsHlc : Nat)
  | readHead (i : Nat)
  /-- A replicated call takes the lock; it keeps its timestamp. -/
  | enter (i : Nat)
  /-- The holder of the lock queues its command, or gives up after ten seconds. -/
  | send (sent : Bool)
  /-- The worker takes the next command; the payload may fail to encode. -/
  | work (encoded : Bool)
  /-- The worker acknowledges what it wrote. -/
  | commit
  /-- The worker rolls to a new segment. -/
  | roll (ms : Nat)
  /-- The process ends and `Log::open` finds the first `kept` records; a new segment reads the clock. -/
  | reopen (kept : Nat) (newActive : Option Nat)
  deriving DecidableEq

def World.start : World := { hlc := .new, calls := [], locked := none, queue := [], stored := [], head := 0 }

/-- `Log::open`: a new clock observes what every segment holds. -/
def restoredClock (stored : List Nat) (newActive : Option Nat) : Hlc :=
  let hlc := stored.foldl Hlc.observe .new
  newActive.elim hlc (fun ms => (hlc.now ms).2)

/-- The record the worker writes for a command, if it writes one. -/
def World.accepts (w : World) (c : Command) : Bool := c.expectedLsn.all (fun lsn => decide (lsn = w.stored.length))

def World.step (w : World) : Action → Option World
  | .append ms =>
    if w.locked.isNone then
      let stamp := w.hlc.now ms
      some { w with hlc := stamp.2, locked := some ⟨stamp.1, none⟩ }
    else none
  | .observe lsn tsHlc =>
    if tsHlc ≤ u64Max then some { w with hlc := w.hlc.observe tsHlc, calls := w.calls ++ [⟨lsn, tsHlc, false⟩] } else none
  | .readHead i =>
    w.calls[i]?.map (fun call =>
      if call.lsn < w.head then { w with calls := w.calls.eraseIdx i }
      else { w with calls := w.calls.set i { call with checked := true } })
  | .enter i =>
    w.calls[i]?.bind (fun call =>
      if call.checked ∧ w.locked.isNone then
        some { w with calls := w.calls.eraseIdx i, locked := some ⟨call.tsHlc, some call.lsn⟩ }
      else none)
  | .send sent =>
    w.locked.map (fun c => { w with locked := none, queue := if sent then w.queue ++ [c] else w.queue })
  | .work encoded =>
    match w.queue with
    | [] => none
    | c :: queue =>
      some { w with queue := queue, stored := if w.accepts c && encoded then w.stored ++ [c.tsHlc] else w.stored }
  | .commit => some { w with head := w.stored.length }
  | .roll ms => some { w with hlc := (w.hlc.now ms).2 }
  | .reopen kept newActive =>
    let stored := w.stored.take kept
    some { hlc := restoredClock stored newActive, calls := [], locked := none, queue := [], stored := stored,
           head := stored.length }

/-- A replicated episode, or one that a saturated counter stamped, is not stored over a later timestamp. -/
def StepOk (w : World) : Action → Prop
  | .work true => ∀ c ∈ w.queue.head?, w.accepts c → c.expectedLsn.isSome ∨ c.tsHlc = u64Max →
      ∀ t ∈ w.stored.getLast?, t < c.tsHlc
  | _ => True

/-- **Timestamps follow LSNs.** -/
abbrev World.Ordered (w : World) : Prop := w.stored.Pairwise (· < ·)

/-! ## What the clock and the lock give -/

/-- The commands on their way to the worker. -/
def World.pending (w : World) : List Command := w.queue ++ w.locked.toList

/-- A local command, stamped below saturation, is later than `t`. -/
def Later (t : Nat) (c : Command) : Prop := c.expectedLsn = none → c.tsHlc < u64Max → t < c.tsHlc

structure World.Inv (w : World) : Prop where
  clock : w.hlc.last ≤ u64Max
  stored : ∀ t ∈ w.stored, t ≤ w.hlc.last
  calls : ∀ call ∈ w.calls, call.tsHlc ≤ w.hlc.last
  pending : ∀ c ∈ w.pending, c.tsHlc ≤ w.hlc.last
  afterStored : ∀ c ∈ w.pending, ∀ t ∈ w.stored, Later t c
  queued : w.pending.Pairwise (fun a c => Later a.tsHlc c)

variable {w w' : World}

/-- A later clock, and fewer calls. -/
theorem World.Inv.tick (hw : w.Inv) {hlc : Hlc} (hle : w.hlc.last ≤ hlc.last) (hmax : hlc.last ≤ u64Max)
    {calls : List Call} (hcalls : ∀ call ∈ calls, call.tsHlc ≤ hlc.last) :
    World.Inv { w with hlc := hlc, calls := calls } where
  clock := hmax
  stored t ht := Nat.le_trans (hw.stored t ht) hle
  calls := hcalls
  pending c hc := Nat.le_trans (hw.pending c hc) hle
  afterStored := hw.afterStored
  queued := hw.queued

/-- The lock is taken with a command. -/
theorem World.Inv.lock (hw : w.Inv) (hfree : w.locked = none) {c : Command} (hc : c.tsHlc ≤ w.hlc.last)
    (hlater : ∀ t, (t ∈ w.stored ∨ ∃ a ∈ w.queue, a.tsHlc = t) → Later t c) : World.Inv { w with locked := some c } := by
  have hqueue : w.pending = w.queue := by rw [World.pending, hfree, Option.toList_none, List.append_nil]
  have hpending : World.pending { w with locked := some c } = w.pending ++ [c] := by rw [hqueue]; rfl
  refine ⟨hw.clock, hw.stored, hw.calls, fun x hx => ?_, fun x hx t ht => ?_, ?_⟩
  · rw [hpending, List.mem_append, List.mem_singleton] at hx
    rcases hx with hx | rfl
    · exact hw.pending x hx
    · exact hc
  · rw [hpending, List.mem_append, List.mem_singleton] at hx
    rcases hx with hx | rfl
    · exact hw.afterStored x hx t ht
    · exact hlater t (.inl ht)
  · rw [hpending, List.pairwise_append]
    refine ⟨hw.queued, List.pairwise_singleton _ _, fun a ha b hb => ?_⟩
    rw [List.mem_singleton] at hb
    subst hb
    exact hlater _ (.inr ⟨a, hqueue ▸ ha, rfl⟩)

/-- Fewer commands on their way. -/
theorem World.Inv.sublist (hw : w.Inv) {queue : List Command} {locked : Option Command}
    (h : (queue ++ locked.toList).Sublist w.pending) : World.Inv { w with queue := queue, locked := locked } :=
  ⟨hw.clock, hw.stored, hw.calls, fun c hc => hw.pending c (h.subset hc), fun c hc => hw.afterStored c (h.subset hc),
    hw.queued.sublist h⟩

/-- **The reopened clock** is not behind what is stored. -/
theorem restoredClock_spec {stored : List Nat} (h : ∀ t ∈ stored, t ≤ u64Max) (newActive : Option Nat) :
    (restoredClock stored newActive).last ≤ u64Max ∧ ∀ t ∈ stored, t ≤ (restoredClock stored newActive).last := by
  have hmax := Hlc.foldl_observe_le stored .new (Nat.zero_le _) h
  obtain ⟨-, hall⟩ := Hlc.le_foldl_observe stored .new
  cases newActive with
  | none => exact ⟨hmax, hall⟩
  | some ms => exact ⟨Hlc.now_le _ ms, fun t ht => Nat.le_trans (hall t ht) (Hlc.le_now hmax ms)⟩

/-! ## One step -/

theorem World.inv_start : World.start.Inv :=
  ⟨Nat.zero_le _, nofun, nofun, nofun, nofun, .nil⟩

/-- **Whatever happens, a local stamp is later than everything before it.** -/
theorem World.Inv.step {a : Action} (hw : w.Inv) (h : w.step a = some w') : w'.Inv := by
  cases a with
  | append ms =>
    unfold World.step at h
    dsimp only at h
    split at h
    · rename_i hfree
      cases h
      have hle := Hlc.le_now hw.clock ms
      have htick : World.Inv { w with hlc := (w.hlc.now ms).2, calls := w.calls } :=
        hw.tick hle (Hlc.now_le _ ms) (fun call hcall => Nat.le_trans (hw.calls call hcall) hle)
      refine htick.lock (Option.isNone_iff_eq_none.1 hfree) (Nat.le_refl _) (fun t ht _ hlt => ?_)
      have hlast : t ≤ w.hlc.last := by
        rcases ht with ht | ⟨b, hb, rfl⟩
        · exact hw.stored t ht
        · exact hw.pending b (List.mem_append_left _ hb)
      exact Nat.lt_of_le_of_lt hlast (Hlc.lt_now hlt)
    · cases h
  | observe lsn tsHlc =>
    unfold World.step at h
    dsimp only at h
    split at h
    · rename_i hts
      cases h
      have hle : w.hlc.last ≤ (w.hlc.observe tsHlc).last := Nat.le_max_left _ _
      refine hw.tick hle (Nat.max_le.2 ⟨hw.clock, hts⟩) (fun call hcall => ?_)
      rcases List.mem_append.1 hcall with hcall | hcall
      · exact Nat.le_trans (hw.calls call hcall) hle
      · rw [List.mem_singleton] at hcall
        rw [hcall]
        exact Nat.le_max_right _ _
    · cases h
  | readHead i =>
    obtain ⟨call, hcall, rfl⟩ := Option.map_eq_some_iff.1 h
    split
    · exact hw.tick (Nat.le_refl _) hw.clock (fun x hx => hw.calls x (List.mem_of_mem_eraseIdx hx))
    · refine hw.tick (Nat.le_refl _) hw.clock (fun x hx => ?_)
      rcases List.mem_or_eq_of_mem_set hx with hx | rfl
      · exact hw.calls x hx
      · exact hw.calls call (List.mem_of_getElem? hcall)
  | enter i =>
    obtain ⟨call, hcall, hlock⟩ := Option.bind_eq_some_iff.1 h
    split at hlock
    · rename_i hfree
      cases hlock
      have htick : World.Inv { w with hlc := w.hlc, calls := w.calls.eraseIdx i } :=
        hw.tick (Nat.le_refl _) hw.clock (fun x hx => hw.calls x (List.mem_of_mem_eraseIdx hx))
      exact htick.lock (Option.isNone_iff_eq_none.1 hfree.2) (hw.calls call (List.mem_of_getElem? hcall)) (fun _ _ => nofun)
    · cases hlock
  | send sent =>
    obtain ⟨c, hc, rfl⟩ := Option.map_eq_some_iff.1 h
    refine hw.sublist ?_
    unfold World.pending
    rw [hc, Option.toList_none, List.append_nil]
    cases sent with
    | true => exact List.Sublist.refl _
    | false => exact List.sublist_append_left _ _
  | work encoded =>
    unfold World.step at h
    dsimp only at h
    split at h
    · cases h
    · rename_i c queue hqueue
      cases h
      have hpending : w.pending = c :: (queue ++ w.locked.toList) := by rw [World.pending, hqueue]; rfl
      have hsub : (queue ++ w.locked.toList).Sublist w.pending := by
        rw [hpending]
        exact List.sublist_cons_self _ _
      have hrest := hw.sublist hsub
      have hqueued := hw.queued
      rw [hpending, List.pairwise_cons] at hqueued
      have hmem : ∀ t ∈ (if w.accepts c && encoded then w.stored ++ [c.tsHlc] else w.stored),
          t ∈ w.stored ∨ t = c.tsHlc := fun t ht => by
        split at ht
        · exact (List.mem_append.1 ht).imp id List.mem_singleton.1
        · exact .inl ht
      refine ⟨hw.clock, fun t ht => ?_, hw.calls, hrest.pending, fun x hx t ht => ?_, hrest.queued⟩
      · rcases hmem t ht with ht | rfl
        · exact hw.stored t ht
        · exact hw.pending c (hpending ▸ List.mem_cons_self)
      · rcases hmem t ht with ht | rfl
        · exact hrest.afterStored x hx t ht
        · exact hqueued.1 x hx
  | commit =>
    cases h
    exact ⟨hw.clock, hw.stored, hw.calls, hw.pending, hw.afterStored, hw.queued⟩
  | roll ms =>
    cases h
    have hle := Hlc.le_now hw.clock ms
    exact hw.tick hle (Hlc.now_le _ ms) (fun call hcall => Nat.le_trans (hw.calls call hcall) hle)
  | reopen kept newActive =>
    cases h
    have hmax : ∀ t ∈ w.stored.take kept, t ≤ u64Max := fun t ht =>
      Nat.le_trans (hw.stored t (List.mem_of_mem_take ht)) hw.clock
    obtain ⟨hclock, hstored⟩ := restoredClock_spec hmax newActive
    exact ⟨hclock, hstored, nofun, nofun, nofun, .nil⟩

/-- **One step keeps the order exactly when it is ok.** -/
theorem World.ordered_step {a : Action} (hw : w.Inv) (hordered : w.Ordered) (h : w.step a = some w') :
    w'.Ordered ↔ StepOk w a := by
  cases a with
  | work encoded =>
    unfold World.step at h
    dsimp only at h
    split at h
    · cases h
    · rename_i c queue hqueue
      cases h
      unfold World.Ordered StepOk
      dsimp only
      rw [hqueue]
      cases hstores : w.accepts c && encoded with
      | false =>
        rw [if_neg nofun]
        refine ⟨fun _ => ?_, fun _ => hordered⟩
        cases encoded with
        | true =>
          rw [Bool.and_true] at hstores
          intro x hx hacc
          cases hx
          rw [hstores] at hacc
          cases hacc
        | false => trivial
      | true =>
        obtain ⟨hacc, rfl⟩ := Bool.and_eq_true_iff.1 hstores
        rw [if_pos rfl, pairwise_concat_iff hordered]
        constructor
        · intro hlast x hx _ _
          cases hx
          exact hlast
        · intro hok t ht
          have hc : c ∈ w.pending := List.mem_append_left _ (hqueue ▸ List.mem_cons_self)
          by_cases hforeign : c.expectedLsn.isSome ∨ c.tsHlc = u64Max
          · exact hok c rfl hacc hforeign t ht
          · rw [not_or, Option.not_isSome_iff_eq_none] at hforeign
            have hlt : c.tsHlc < u64Max :=
              Nat.lt_of_le_of_ne (Nat.le_trans (hw.pending c hc) hw.clock) hforeign.2
            exact hw.afterStored c hc t (List.mem_of_getLast? ht) hforeign.1 hlt
  | reopen kept newActive =>
    cases h
    exact ⟨fun _ => trivial, fun _ => hordered.sublist (List.take_sublist _ _)⟩
  | append ms =>
    unfold World.step at h
    dsimp only at h
    split at h
    · cases h
      exact ⟨fun _ => trivial, fun _ => hordered⟩
    · cases h
  | observe lsn tsHlc =>
    unfold World.step at h
    dsimp only at h
    split at h
    · cases h
      exact ⟨fun _ => trivial, fun _ => hordered⟩
    · cases h
  | readHead i =>
    obtain ⟨call, -, rfl⟩ := Option.map_eq_some_iff.1 h
    refine ⟨fun _ => trivial, fun _ => ?_⟩
    split <;> exact hordered
  | enter i =>
    obtain ⟨call, -, hlock⟩ := Option.bind_eq_some_iff.1 h
    split at hlock
    · cases hlock
      exact ⟨fun _ => trivial, fun _ => hordered⟩
    · cases hlock
  | send sent =>
    obtain ⟨c, -, rfl⟩ := Option.map_eq_some_iff.1 h
    exact ⟨fun _ => trivial, fun _ => hordered⟩
  | commit =>
    cases h
    exact ⟨fun _ => trivial, fun _ => hordered⟩
  | roll ms =>
    cases h
    exact ⟨fun _ => trivial, fun _ => hordered⟩

/-- **Timestamps follow LSNs in every state of a run** exactly when no step of it stores a replicated episode, or one that
a saturated counter stamped, over a later timestamp. -/
theorem timestamps_follow_lsns_iff (acts : List Action) (h : (runs World.step .start acts).isSome) :
    (∀ n w, runs World.step .start (acts.take n) = some w → w.Ordered) ↔ allOk World.step StepOk .start acts :=
  always_iff_allOk (P := World.Ordered) (I := World.Inv)
    (fun _ _ _ hw hordered hs => ⟨hw.step hs, World.ordered_step hw hordered hs⟩) acts .start World.inv_start .nil h

/-- A local append, the record after it from a leader whose clock is ahead, and again a local one. -/
def orderedActions : List Action :=
  [.append 1, .send true, .work true, .commit, .observe 1 70000, .readHead 0, .enter 0, .send true, .work true, .commit,
    .append 1, .send true, .work true, .reopen 3 none]

theorem timestamps_follow_lsns_iff_sample :
    (∀ n w, runs World.step .start (orderedActions.take n) = some w → w.Ordered) ↔
      allOk World.step StepOk .start orderedActions :=
  timestamps_follow_lsns_iff orderedActions (by decide +kernel)

/-- The timestamps of the replicated episodes, as they arrive. -/
def leaderTimestamps (acts : List Action) : List Nat :=
  acts.filterMap fun | .observe _ tsHlc => some tsHlc | _ => none

/-- A local append comes between the observation of a leader's timestamp and the queue. -/
def overtakenActions : List Action :=
  [.observe 1 70000, .readHead 0, .append 1, .send true, .enter 0, .send true, .work true, .work true, .commit]

/-- **A replicated episode is stored under its leader's older timestamp**, behind a local one. -/
theorem replicated_behind_local :
    (leaderTimestamps overtakenActions).Pairwise (· < ·) ∧
    (runs World.step .start overtakenActions).map World.stored = some [70001, 70000] ∧
    ¬(∀ n w, runs World.step .start (overtakenActions.take n) = some w → w.Ordered) := by
  have hrun : (runs World.step .start overtakenActions).map World.stored = some [70001, 70000] := by decide +kernel
  refine ⟨by decide, hrun, fun hall => ?_⟩
  obtain ⟨w, hw, hstored⟩ := Option.map_eq_some_iff.1 hrun
  have hordered : w.stored.Pairwise (· < ·) := hall overtakenActions.length w (by rwa [List.take_length])
  rw [hstored] at hordered
  revert hordered
  decide

end LegacyClock
end Heraclitus
