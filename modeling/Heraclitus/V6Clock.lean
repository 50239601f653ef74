import Heraclitus.Hlc
import Heraclitus.Lib.Ranked
import Heraclitus.Lib.Run
/-!
# V6Clock — timestamps and LSNs of the v6 log (`heraclitus-log/src/v6/engine.rs`)

An append reads the clock before it takes the lock of the state, and the lock gives the LSN.  A reopened clock observes
the records of the active tail and no sealed ones.
-/
namespace Heraclitus
namespace V6Clock

/-- An append that is stamped and waits for the lock; the ticket counts the stamps of the session. -/
structure Call where
  tsHlc : Nat
  ticket : Nat
  deriving DecidableEq

/-- Timestamps by LSN, of the sealed segments and of the active one.  Of the session: the stamps so far, the ticket of the
last append that was stored, and whether the opening found records in the active tail. -/
structure World where
  hlc : Hlc
  calls : List Call
  sealedTs : List Nat
  activeTs : List Nat
  tickets : Nat
  lastTicket : Option Nat
  tailRestored : Bool
  deriving DecidableEq

abbrev World.stored (w : World) : List Nat := w.sealedTs ++ w.activeTs

inductive Action where
  /-- `append` stamps. -/
  | stamp (ms : Nat)
  /-- `append_inner` takes the lock and writes the record. -/
  | commit (i : Nat)
  /-- It fails before it writes. -/
  | abandon (i : Nat)
  /-- `seal_active_locked`, called for or when the segment is full; the next segment reads the clock. -/
  | seal_ (ms : Nat)
  /-- `pack_pending` reads the clock. -/
  | pack (ms : Nat)
  /-- The process ends and `V6Log::open` finds the active file with its first `kept` records. -/
  | reopen (kept : Nat)
  /-- It finds no active file, or one with a footer, and creates the next one. -/
  | reopenSealed (ms : Nat)
  deriving DecidableEq

/-- A new directory: the first segment reads the clock. -/
def World.start (ms : Nat) : World :=
  { hlc := (Hlc.new.now ms).2, calls := [], sealedTs := [], activeTs := [], tickets := 0, lastTicket := none,
    tailRestored := false }

def World.step (w : World) : Action → Option World
  | .stamp ms =>
    let stamp := w.hlc.now ms
    some { w with hlc := stamp.2, calls := w.calls ++ [⟨stamp.1, w.tickets⟩], tickets := w.tickets + 1 }
  | .commit i =>
    w.calls[i]?.map (fun call =>
      { w with calls := w.calls.eraseIdx i, activeTs := w.activeTs ++ [call.tsHlc], lastTicket := some call.ticket })
  | .abandon i => some { w with calls := w.calls.eraseIdx i }
  | .seal_ ms => some { w with hlc := (w.hlc.now ms).2, sealedTs := w.stored, activeTs := [] }
  | .pack ms => some { w with hlc := (w.hlc.now ms).2 }
  | .reopen kept =>
    let active := w.activeTs.take kept
    some { w with hlc := active.foldl Hlc.observe .new, calls := [], activeTs := active, tickets := 0,
                  lastTicket := none, tailRestored := !active.isEmpty }
  | .reopenSealed ms =>
    some { w with hlc := (Hlc.new.now ms).2, calls := [], sealedTs := w.stored, activeTs := [], tickets := 0,
                  lastTicket := none, tailRestored := false }

/-- An append is stored behind none of its session that stamped later; the first one after an opening that found nothing in
the active tail is later than what is sealed; and a saturated stamp is not repeated. -/
def StepOk (w : World) : Action → Prop
  | .commit i => ∀ call ∈ w.calls[i]?, (∀ k ∈ w.lastTicket, k < call.ticket) ∧
      (w.lastTicket = none ∧ w.tailRestored = false ∨ call.tsHlc = u64Max → ∀ t ∈ w.stored.getLast?, t < call.tsHlc)
  | _ => True

/-- **Timestamps follow LSNs.** -/
abbrev World.Ordered (w : World) : Prop := w.stored.Pairwise (· < ·)

/-! ## What holds in any run -/

/-- Two stamps of one session: the later one is greater, unless the counter is saturated. -/
def Before (a b : Call) : Prop := a.ticket < b.ticket ∧ a.tsHlc ≤ b.tsHlc ∧ (b.tsHlc < u64Max → a.tsHlc < b.tsHlc)

/-- Where a waiting append stands to the last record `t`, of ticket `k`. -/
def Beside (k t : Nat) (c : Call) : Prop :=
  c.ticket ≠ k ∧ (c.ticket < k → c.tsHlc ≤ t) ∧ (k < c.ticket → c.tsHlc < u64Max → t < c.tsHlc)

structure World.Inv (w : World) : Prop where
  clock : w.hlc.last ≤ u64Max
  stored : ∀ t ∈ w.stored, t ≤ u64Max
  calls : ∀ c ∈ w.calls, c.tsHlc ≤ w.hlc.last ∧ c.ticket < w.tickets
  stamped : w.calls.Pairwise Before
  session : ∀ k ∈ w.lastTicket, k < w.tickets ∧ ∃ t, w.stored.getLast? = some t ∧ t ≤ w.hlc.last ∧
    ∀ c ∈ w.calls, Beside k t c
  restored : w.lastTicket = none → w.tailRestored = true → ∀ t ∈ w.stored.getLast?, t ≤ w.hlc.last ∧
    ∀ c ∈ w.calls, c.tsHlc < u64Max → t < c.tsHlc

variable {w w' : World}

theorem World.inv_start (ms : Nat) : (World.start ms).Inv :=
  ⟨Hlc.now_le _ ms, nofun, nofun, .nil, nofun, nofun⟩

/-- The clock is read, nothing is stored and no call comes. -/
theorem World.Inv.tick (hw : w.Inv) (ms : Nat) {sealedTs activeTs : List Nat} (h : sealedTs ++ activeTs = w.stored) :
    World.Inv { w with hlc := (w.hlc.now ms).2, sealedTs := sealedTs, activeTs := activeTs } := by
  have hle := Hlc.le_now hw.clock ms
  refine ⟨Hlc.now_le _ ms, fun t ht => hw.stored t (h ▸ ht),
    fun c hc => ⟨Nat.le_trans (hw.calls c hc).1 hle, (hw.calls c hc).2⟩, hw.stamped, fun k hk => ?_,
    fun hnone htail t ht => ?_⟩
  · obtain ⟨hlt, t, ht, htle, hbeside⟩ := hw.session k hk
    exact ⟨hlt, t, (congrArg List.getLast? h).trans ht, Nat.le_trans htle hle, hbeside⟩
  · have ht : t ∈ w.stored.getLast? := by
      rw [← h]
      exact ht
    obtain ⟨htle, hcalls⟩ := hw.restored hnone htail t ht
    exact ⟨Nat.le_trans htle hle, hcalls⟩

/-- An append stamps: later than everything that the clock has seen. -/
theorem World.Inv.stamp (hw : w.Inv) (ms : Nat) : World.Inv { w with
    hlc := (w.hlc.now ms).2, calls := w.calls ++ [⟨(w.hlc.now ms).1, w.tickets⟩], tickets := w.tickets + 1 } := by
  have hle := Hlc.le_now hw.clock ms
  have hlater : ∀ t, t ≤ w.hlc.last → (w.hlc.now ms).1 < u64Max → t < (w.hlc.now ms).1 :=
    fun t ht hlt => Nat.lt_of_le_of_lt ht (Hlc.lt_now hlt)
  refine ⟨Hlc.now_le _ ms, hw.stored, fun c hc => ?_, ?_, fun k hk => ?_, fun hnone htail t ht => ?_⟩
  · rcases List.mem_append.1 hc with hc | hc
    · exact ⟨Nat.le_trans (hw.calls c hc).1 hle, Nat.lt_succ_of_lt (hw.calls c hc).2⟩
    · rw [List.mem_singleton.1 hc]
      exact ⟨Nat.le_refl _, Nat.lt_succ_self _⟩
  · rw [List.pairwise_append]
    refine ⟨hw.stamped, List.pairwise_singleton _ _, fun a ha b hb => ?_⟩
    rw [List.mem_singleton.1 hb]
    obtain ⟨hts, hticket⟩ := hw.calls a ha
    exact ⟨hticket, Nat.le_trans hts hle, hlater _ hts⟩
  · obtain ⟨hlt, t, ht, htle, hbeside⟩ := hw.session k hk
    refine ⟨Nat.lt_succ_of_lt hlt, t, ht, Nat.le_trans htle hle, fun c hc => ?_⟩
    rcases List.mem_append.1 hc with hc | hc
    · exact hbeside c hc
    · rw [List.mem_singleton.1 hc]
      exact ⟨(Nat.ne_of_lt hlt).symm, fun h => absurd h (Nat.lt_asymm hlt), fun _ => hlater t htle⟩
  · obtain ⟨htle, hcalls⟩ := hw.restored hnone htail t ht
    refine ⟨Nat.le_trans htle hle, fun c hc => ?_⟩
    rcases List.mem_append.1 hc with hc | hc
    · exact hcalls c hc
    · rw [List.mem_singleton.1 hc]
      exact hlater t htle

/-- A call leaves. -/
theorem World.Inv.leave (hw : w.Inv) (i : Nat) : World.Inv { w with calls := w.calls.eraseIdx i } := by
  have hsub : ∀ c ∈ w.calls.eraseIdx i, c ∈ w.calls := fun c hc => List.mem_of_mem_eraseIdx hc
  refine ⟨hw.clock, hw.stored, fun c hc => hw.calls c (hsub c hc), hw.stamped.sublist (List.eraseIdx_sublist _ _),
    fun k hk => ?_, fun hnone htail t ht => ?_⟩
  · obtain ⟨hlt, t, ht, htle, hbeside⟩ := hw.session k hk
    exact ⟨hlt, t, ht, htle, fun c hc => hbeside c (hsub c hc)⟩
  · obtain ⟨htle, hcalls⟩ := hw.restored hnone htail t ht
    exact ⟨htle, fun c hc => hcalls c (hsub c hc)⟩

/-- The calls around one of them, by their tickets. -/
theorem beside_of_pairwise {calls : List Call} (h : calls.Pairwise Before) {i : Nat} {call : Call}
    (hi : calls[i]? = some call) : ∀ c ∈ calls.eraseIdx i, Beside call.ticket call.tsHlc c := by
  intro c hc
  obtain ⟨hlt, rfl⟩ := List.getElem?_eq_some_iff.1 hi
  obtain ⟨j, hj, hne, rfl⟩ := List.mem_eraseIdx_iff_getElem.1 hc
  rcases Nat.lt_or_gt_of_ne hne with hji | hij
  · obtain ⟨hticket, hts, -⟩ := List.pairwise_iff_getElem.1 h j i hj hlt hji
    exact ⟨Nat.ne_of_lt hticket, fun _ => hts, fun hgt => absurd hgt (Nat.lt_asymm hticket)⟩
  · obtain ⟨hticket, -, hts⟩ := List.pairwise_iff_getElem.1 h i j hlt hj hij
    exact ⟨(Nat.ne_of_lt hticket).symm, fun hlt => absurd hlt (Nat.lt_asymm hticket), fun _ => hts⟩

theorem stored_commit (w : World) (call : Call) (calls : List Call) (k : Option Nat) :
    World.stored { w with calls := calls, activeTs := w.activeTs ++ [call.tsHlc], lastTicket := k }
      = w.stored ++ [call.tsHlc] := (List.append_assoc _ _ _).symm

/-- **Whatever happens**, the last record and the waiting appends stand as their tickets do. -/
theorem World.Inv.step {a : Action} (hw : w.Inv) (h : w.step a = some w') : w'.Inv := by
  cases a with
  | stamp ms =>
    cases h
    exact hw.stamp ms
  | commit i =>
    obtain ⟨call, hcall, rfl⟩ := Option.map_eq_some_iff.1 h
    obtain ⟨hts, hticket⟩ := hw.calls call (List.mem_of_getElem? hcall)
    have hleave := hw.leave i
    refine ⟨hw.clock, fun t ht => ?_, hleave.calls, hleave.stamped, fun k hk => ?_, nofun⟩
    · rw [stored_commit, List.mem_append, List.mem_singleton] at ht
      rcases ht with ht | rfl
      · exact hw.stored t ht
      · exact Nat.le_trans hts hw.clock
    · cases hk
      refine ⟨hticket, call.tsHlc, ?_, hts, beside_of_pairwise hw.stamped hcall⟩
      rw [stored_commit, List.getLast?_concat]
  | abandon i =>
    cases h
    exact hw.leave i
  | seal_ ms =>
    cases h
    exact hw.tick ms (List.append_nil _)
  | pack ms =>
    cases h
    exact hw.tick ms rfl
  | reopen kept =>
    cases h
    have hsub : ∀ t ∈ w.activeTs.take kept, t ≤ u64Max := fun t ht =>
      hw.stored t (List.mem_append_right _ (List.mem_of_mem_take ht))
    obtain ⟨-, hseen⟩ := Hlc.le_foldl_observe (w.activeTs.take kept) .new
    refine ⟨Hlc.foldl_observe_le _ .new (Nat.zero_le _) hsub, fun t ht => ?_, nofun, .nil, nofun, fun _ htail t ht => ?_⟩
    · rcases List.mem_append.1 ht with ht | ht
      · exact hw.stored t (List.mem_append_left _ ht)
      · exact hsub t ht
    · refine ⟨hseen t ?_, nofun⟩
      -- the last record is in the tail that was found
      rcases List.eq_nil_or_concat (w.activeTs.take kept) with hnil | ⟨init, last, hconcat⟩
      · rw [hnil] at htail
        cases htail
      · have hstored : World.stored { w with activeTs := w.activeTs.take kept } = (w.sealedTs ++ init) ++ [last] := by
          rw [World.stored, hconcat, List.concat_eq_append, List.append_assoc]
        have ht : t ∈ (World.stored { w with activeTs := w.activeTs.take kept }).getLast? := ht
        rw [hstored, List.getLast?_concat] at ht
        cases ht
        rw [hconcat, List.concat_eq_append]
        exact List.mem_append_right _ List.mem_cons_self
  | reopenSealed ms =>
    cases h
    refine ⟨Hlc.now_le _ ms, fun t ht => hw.stored t ?_, nofun, .nil, nofun, nofun⟩
    rwa [World.stored, List.append_nil] at ht

/-- **One step keeps the order exactly when it is ok.** -/
theorem World.ordered_step {a : Action} (hw : w.Inv) (hordered : w.Ordered) (h : w.step a = some w') :
    w'.Ordered ↔ StepOk w a := by
  cases a with
  | commit i =>
    obtain ⟨call, hcall, rfl⟩ := Option.map_eq_some_iff.1 h
    unfold World.Ordered StepOk
    dsimp only
    rw [stored_commit, pairwise_concat_iff hordered, hcall]
    obtain ⟨hts, hticket⟩ := hw.calls call (List.mem_of_getElem? hcall)
    constructor
    · intro hlast x hx
      cases hx
      refine ⟨fun k hk => ?_, fun _ => hlast⟩
      obtain ⟨-, t, ht, -, hbeside⟩ := hw.session k hk
      obtain ⟨hne, hle, -⟩ := hbeside call (List.mem_of_getElem? hcall)
      have hlt := hlast t ht
      by_contra hnot
      have := hle (Nat.lt_of_le_of_ne (Nat.not_lt.1 hnot) hne)
      omega
    · intro hok t ht
      obtain ⟨hticket, hlater⟩ := hok call rfl
      by_cases hsaturated : call.tsHlc = u64Max
      · exact hlater (.inr hsaturated) t ht
      · have hlt : call.tsHlc < u64Max := Nat.lt_of_le_of_ne (Nat.le_trans hts hw.clock) hsaturated
        cases hk : w.lastTicket with
        | some k =>
          obtain ⟨-, t', ht', -, hbeside⟩ := hw.session k hk
          cases ht'.symm.trans ht
          exact (hbeside call (List.mem_of_getElem? hcall)).2.2 (hticket k hk) hlt
        | none =>
          cases htail : w.tailRestored with
          | true => exact (hw.restored hk htail t ht).2 call (List.mem_of_getElem? hcall) hlt
          | false => exact hlater (.inl ⟨hk, htail⟩) t ht
  | reopen kept =>
    cases h
    exact ⟨fun _ => trivial, fun _ => hordered.sublist ((List.Sublist.refl _).append (List.take_sublist _ _))⟩
  | seal_ ms =>
    cases h
    exact ⟨fun _ => trivial, fun _ => (congrArg (List.Pairwise (· < ·)) (List.append_nil w.stored)).mpr hordered⟩
  | reopenSealed ms =>
    cases h
    exact ⟨fun _ => trivial, fun _ => (congrArg (List.Pairwise (· < ·)) (List.append_nil w.stored)).mpr hordered⟩
  | stamp ms =>
    cases h
    exact ⟨fun _ => trivial, fun _ => hordered⟩
  | abandon i =>
    cases h
    exact ⟨fun _ => trivial, fun _ => hordered⟩
  | pack ms =>
    cases h
    exact ⟨fun _ => trivial, fun _ => hordered⟩

/-- **Timestamps follow LSNs in every state of a run** exactly when the appends of each session are stored in the order of
their stamps, the first one after an opening with an empty tail is later than what is sealed, and no saturated stamp is
repeated. -/
theorem stamps_follow_lsns_iff (ms : Nat) (acts : List Action) (h : (runs World.step (.start ms) acts).isSome) :
    (∀ n w, runs World.step (.start ms) (acts.take n) = some w → w.Ordered) ↔
      allOk World.step StepOk (.start ms) acts :=
  always_iff_allOk (P := World.Ordered) (I := World.Inv)
    (fun _ _ _ hw hordered hs => ⟨hw.step hs, World.ordered_step hw hordered hs⟩) acts (.start ms)
    (World.inv_start ms) .nil h

/-- An append, a seal, an append into the new segment; and, after a reopening that finds it, one more. -/
def orderedActions : List Action :=
  [.stamp 5, .commit 0, .seal_ 5, .stamp 6, .commit 0, .reopen 1, .stamp 0, .commit 0]

theorem stamps_follow_lsns_iff_sample :
    (∀ n w, runs World.step (.start 0) (orderedActions.take n) = some w → w.Ordered) ↔
      allOk World.step StepOk (.start 0) orderedActions :=
  stamps_follow_lsns_iff 0 orderedActions (by decide +kernel)

/-- Two appends stamp, and the second one takes the lock first. -/
def overtakenActions : List Action := [.stamp 5, .stamp 5, .commit 1, .commit 0]

/-- An append, a seal, and a reopening after which the wall clock is behind. -/
def steppedBackActions : List Action := [.stamp 5, .commit 0, .seal_ 5, .reopen 0, .stamp 1, .commit 0]

/-- **A later LSN under an older timestamp**: by the lock, and by a reopening that observes no sealed record. -/
theorem stamps_behind_lsns :
    (runs World.step (.start 0) overtakenActions).map World.stored = some [327681, 327680] ∧
    (runs World.step (.start 0) steppedBackActions).map World.stored = some [327680, 65536] ∧
    ¬(∀ n w, runs World.step (.start 0) (overtakenActions.take n) = some w → w.Ordered) ∧
    ¬(∀ n w, runs World.step (.start 0) (steppedBackActions.take n) = some w → w.Ordered) := by
  have hnot : ∀ acts a b, (runs World.step (.start 0) acts).map World.stored = some [a, b] → ¬a < b →
      ¬(∀ n w, runs World.step (.start 0) (acts.take n) = some w → w.Ordered) := fun acts a b hrun hab hall => by
    obtain ⟨w, hw, hstored⟩ := Option.map_eq_some_iff.1 hrun
    have hordered : w.stored.Pairwise (· < ·) := hall acts.length w (by rwa [List.take_length])
    rw [hstored] at hordered
    exact hab ((List.pairwise_cons.1 hordered).1 b List.mem_cons_self)
  have h₁ : (runs World.step (.start 0) overtakenActions).map World.stored = some [327681, 327680] := by decide +kernel
  have h₂ : (runs World.step (.start 0) steppedBackActions).map World.stored = some [327680, 65536] := by decide +kernel
  exact ⟨h₁, h₂, hnot _ _ _ h₁ (by decide), hnot _ _ _ h₂ (by decide)⟩

end V6Clock
end Heraclitus
