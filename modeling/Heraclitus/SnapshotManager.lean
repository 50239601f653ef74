import Heraclitus.Lib.Counts
import Heraclitus.Lib.Run
/-!
# SnapshotManager — pinned read points and the floor below them (`heraclitus-txn/src/lib.rs`)

Readers begin and release snapshots under one lock, while the head and the epoch move without it: a call reads the head, the
epoch and the table of pins one after the other, and stores the watermark last.  Nothing below the watermark is read by a
snapshot that is live.
-/
namespace Heraclitus
namespace Txn

structure TransactionSnapshot where
  targetLsn : Nat
  watermarkLsn : Nat
  catalogEpoch : Nat
  deriving DecidableEq

def TransactionSnapshot.contains (snap : TransactionSnapshot) (lsn : Nat) : Bool := decide (lsn < snap.targetLsn)

structure SnapshotManager where
  currentLsn : Nat
  watermarkLsn : Nat
  currentEpoch : Nat
  /-- How many live snapshots are pinned at a head. -/
  active : SortedMap Nat Nat
  deriving DecidableEq

def SnapshotManager.new (initialLsn initialEpoch : Nat) : SnapshotManager :=
  { currentLsn := initialLsn, watermarkLsn := initialLsn, currentEpoch := initialEpoch, active := .empty }

/-- How far the call is that holds the lock. -/
inductive Phase where
  | idle
  | begun
  | loaded (target : Nat)
  /-- `begin` has counted its snapshot. -/
  | pinned (snap : TransactionSnapshot)
  /-- `release` has taken the last snapshot away. -/
  | emptied
  | floored (wm : Nat)
  deriving DecidableEq

structure World where
  manager : SnapshotManager
  phase : Phase
  /-- The snapshots that `begin` returned and that are not released yet. -/
  live : List TransactionSnapshot
  deriving DecidableEq

inductive Action where
  | advanceHead (head : Nat)
  | bumpEpoch
  /-- `begin` takes the lock. -/
  | begin
  | loadTarget
  /-- `begin` reads the epoch, counts its target and looks for the oldest one. -/
  | pin
  /-- `release` takes the lock, gives its target back and looks for the oldest one. -/
  | release (snap : TransactionSnapshot)
  | loadHead
  /-- Either call stores the watermark and leaves the lock. -/
  | store
  deriving DecidableEq

def World.start (initialLsn initialEpoch : Nat) : World := ⟨.new initialLsn initialEpoch, .idle, []⟩

def World.step (w : World) : Action → Option World
  | .advanceHead head => some { w with manager.currentLsn := max w.manager.currentLsn head }
  | .bumpEpoch => some { w with manager.currentEpoch := (w.manager.currentEpoch + 1) % 2 ^ 64 }
  | .begin => if w.phase = .idle then some { w with phase := .begun } else none
  | .loadTarget => if w.phase = .begun then some { w with phase := .loaded w.manager.currentLsn } else none
  | .pin =>
    match w.phase with
    | .loaded target =>
      let active := w.manager.active.up target
      let wm := active.first?.getD target
      some { w with manager.active := active, phase := .pinned ⟨target, wm, w.manager.currentEpoch⟩ }
    | _ => none
  | .release snap =>
    if w.phase = .idle then
      let active := w.manager.active.down snap.targetLsn
      some { manager := { w.manager with active := active }, phase := active.first?.elim .emptied .floored,
             live := w.live.erase snap }
    else none
  | .loadHead => if w.phase = .emptied then some { w with phase := .floored w.manager.currentLsn } else none
  | .store =>
    match w.phase with
    | .pinned snap =>
      some { manager := { w.manager with watermarkLsn := snap.watermarkLsn }, phase := .idle, live := snap :: w.live }
    | .floored wm => some { w with manager.watermarkLsn := wm, phase := .idle }
    | _ => none

/-- Every snapshot is released by its holder, and once. -/
def World.Held (w : World) : Action → Prop
  | .release snap => snap ∈ w.live
  | _ => True

instance (w : World) (a : Action) : Decidable (w.Held a) := by
  cases a <;> unfold World.Held <;> infer_instance

/-! ## The invariant -/

def Phase.counted : Phase → List Nat
  | .pinned snap => [snap.targetLsn]
  | _ => []

/-- The heads that are pinned. -/
def World.pins (w : World) : List Nat := w.phase.counted ++ w.live.map (·.targetLsn)

structure World.Inv (w : World) : Prop where
  counts : w.manager.active.Counts w.pins
  head : ∀ t ∈ w.pins, t ≤ w.manager.currentLsn
  floor : ∀ t ∈ w.pins, w.manager.watermarkLsn ≤ t
  behind : w.manager.watermarkLsn ≤ w.manager.currentLsn
  idle : w.phase = .idle → w.pins ≠ [] → w.manager.watermarkLsn ∈ w.pins
  loaded : ∀ t, w.phase = .loaded t → w.manager.watermarkLsn ≤ t ∧ t ≤ w.manager.currentLsn
  pinned : ∀ snap, w.phase = .pinned snap → IsLeast {t | t ∈ w.pins} snap.watermarkLsn
  emptied : w.phase = .emptied → w.pins = []
  floored : ∀ wm, w.phase = .floored wm → w.manager.watermarkLsn ≤ wm ∧ wm ≤ w.manager.currentLsn ∧
    (w.pins = [] ∨ IsLeast {t | t ∈ w.pins} wm)

variable {w w' : World} {a : Action} {initialLsn initialEpoch : Nat} {acts more : List Action}

theorem inv_start (initialLsn initialEpoch : Nat) : (World.start initialLsn initialEpoch).Inv := by
  constructor <;> simp [World.start, World.pins, Phase.counted, SnapshotManager.new, SortedMap.counts_empty]

/-- Moving the head on, or the epoch, changes no pin. -/
theorem World.Inv.advance (h : w.Inv) (epoch : Nat) {n : Nat} (hn : w.manager.currentLsn ≤ n) :
    World.Inv { w with manager := { w.manager with currentLsn := n, currentEpoch := epoch } } where
  counts := h.counts
  head t ht := le_trans (h.head t ht) hn
  floor := h.floor
  behind := le_trans h.behind hn
  idle := h.idle
  loaded t ht := ⟨(h.loaded t ht).1, le_trans (h.loaded t ht).2 hn⟩
  pinned := h.pinned
  emptied := h.emptied
  floored wm hwm := ⟨(h.floored wm hwm).1, le_trans (h.floored wm hwm).2.1 hn, (h.floored wm hwm).2.2⟩

/-- Until something is counted the phase says nothing about the pins. -/
theorem World.Inv.enter (h : w.Inv) {phase : Phase} (hcount : w.phase.counted = []) (hphase : phase.counted = [])
    (hidle : phase ≠ .idle) (hloaded : ∀ t, phase = .loaded t → t = w.manager.currentLsn) (hemptied : phase ≠ .emptied)
    (hfloored : ∀ wm, phase = .floored wm → wm = w.manager.currentLsn ∧ w.pins = []) :
    World.Inv { w with phase := phase } := by
  have hpins : World.pins { w with phase := phase } = w.pins := by rw [World.pins, World.pins, hcount, hphase]
  constructor
  · rw [hpins]
    exact h.counts
  · rw [hpins]
    exact h.head
  · rw [hpins]
    exact h.floor
  · exact h.behind
  · exact fun hp => absurd hp hidle
  · intro t ht
    rw [hloaded t ht]
    exact ⟨h.behind, le_refl _⟩
  · rintro snap rfl
    cases hphase
  · exact fun hp => absurd hp hemptied
  · intro wm hwm
    obtain ⟨rfl, hnil⟩ := hfloored wm hwm
    exact ⟨h.behind, le_refl _, Or.inl (hpins.trans hnil)⟩

theorem World.Inv.pin (h : w.Inv) {target : Nat} (hphase : w.phase = .loaded target) :
    World.Inv { w with
      manager.active := w.manager.active.up target
      phase := .pinned ⟨target, (w.manager.active.up target).first?.getD target, w.manager.currentEpoch⟩ } := by
  have hpins : w.pins = w.live.map (·.targetLsn) := by rw [World.pins, hphase]; rfl
  have hcounts : (w.manager.active.up target).Counts (target :: w.live.map (·.targetLsn)) := hpins ▸ h.counts.up target
  obtain ⟨hlow, hhigh⟩ := h.loaded target hphase
  refine ⟨hcounts, ?_, ?_, h.behind, fun hp => (by cases hp), fun t hp => (by cases hp), ?_, fun hp => (by cases hp),
    fun wm hp => (by cases hp)⟩
  · rintro t ht
    rcases List.mem_cons.1 ht with rfl | ht
    · exact hhigh
    · exact h.head t (hpins ▸ ht)
  · rintro t ht
    rcases List.mem_cons.1 ht with rfl | ht
    · exact hlow
    · exact h.floor t (hpins ▸ ht)
  · rintro snap hp
    cases hp
    cases hfirst : (w.manager.active.up target).first? with
    | none => cases hcounts.eq_nil hfirst
    | some wm => exact hcounts.isLeast hfirst

theorem World.Inv.release (h : w.Inv) (hphase : w.phase = .idle) {snap : TransactionSnapshot} (hsnap : snap ∈ w.live) :
    World.Inv { manager := { w.manager with active := w.manager.active.down snap.targetLsn }
                phase := (w.manager.active.down snap.targetLsn).first?.elim .emptied .floored
                live := w.live.erase snap } := by
  have hpins : w.pins = w.live.map (·.targetLsn) := by rw [World.pins, hphase]; rfl
  have hmem : snap.targetLsn ∈ w.pins := hpins ▸ List.mem_map_of_mem hsnap
  have hperm : (w.pins.erase snap.targetLsn).Perm ((w.live.erase snap).map (·.targetLsn)) := by
    refine List.Perm.cons_inv (a := snap.targetLsn) ?_
    exact (List.perm_cons_erase hmem).symm.trans (hpins ▸ (List.perm_cons_erase hsnap).map _)
  have hcounts := (h.counts.down hmem).perm hperm
  have hold : ∀ t ∈ (w.live.erase snap).map (·.targetLsn), t ∈ w.pins := fun t ht =>
    List.mem_of_mem_erase (hperm.mem_iff.2 ht)
  cases hfirst : (w.manager.active.down snap.targetLsn).first? with
  | none =>
    have hnil := hcounts.eq_nil hfirst
    refine ⟨hcounts, fun t ht => h.head t (hold t ht), fun t ht => h.floor t (hold t ht), h.behind, fun hp => (by cases hp),
      fun t hp => (by cases hp), fun s hp => (by cases hp), fun _ => hnil, fun wm hp => (by cases hp)⟩
  | some wm =>
    have hleast := hcounts.isLeast hfirst
    refine ⟨hcounts, fun t ht => h.head t (hold t ht), fun t ht => h.floor t (hold t ht), h.behind, fun hp => (by cases hp),
      fun t hp => (by cases hp), fun s hp => (by cases hp), fun hp => (by cases hp), fun wm' hp => ?_⟩
    cases hp
    exact ⟨h.floor _ (hold _ hleast.1), h.head _ (hold _ hleast.1), Or.inr hleast⟩

/-- Storing the least pin, or the head where there is none, raises the watermark at most to the least pin. -/
theorem World.Inv.store (h : w.Inv) {wm : Nat} {live : List TransactionSnapshot} (hpins : live.map (·.targetLsn) = w.pins)
    (hhigh : wm ≤ w.manager.currentLsn) (hleast : w.pins = [] ∨ IsLeast {t | t ∈ w.pins} wm) :
    World.Inv { manager := { w.manager with watermarkLsn := wm }, phase := .idle, live := live } := by
  refine ⟨?_, ?_, ?_, hhigh, fun _ hne => ?_, fun t hp => (by cases hp), fun s hp => (by cases hp), fun hp => (by cases hp),
    fun wm' hp => (by cases hp)⟩ <;> simp only [World.pins, Phase.counted, List.nil_append, hpins] at *
  · exact h.counts
  · exact h.head
  · intro t ht
    rcases hleast with hnil | hleast
    · rw [hnil] at ht
      cases ht
    · exact hleast.2 ht
  · exact (hleast.resolve_left hne).1

/-- **A step of any call keeps the invariant, and the watermark never goes back.** -/
theorem World.Inv.step (h : w.Inv) (hheld : w.Held a) (hs : w.step a = some w') :
    w'.Inv ∧ w.manager.watermarkLsn ≤ w'.manager.watermarkLsn := by
  cases a with
  | advanceHead head =>
    cases hs
    exact ⟨h.advance w.manager.currentEpoch (le_max_left _ _), le_refl _⟩
  | bumpEpoch =>
    cases hs
    exact ⟨h.advance _ (le_refl w.manager.currentLsn), le_refl _⟩
  | begin =>
    obtain ⟨hphase, hs⟩ := Option.ite_none_right_eq_some.1 hs
    cases hs
    refine ⟨h.enter (by rw [hphase]; rfl) rfl ?_ ?_ ?_ ?_, le_refl _⟩ <;> simp
  | loadTarget =>
    obtain ⟨hphase, hs⟩ := Option.ite_none_right_eq_some.1 hs
    cases hs
    refine ⟨h.enter (by rw [hphase]; rfl) rfl ?_ ?_ ?_ ?_, le_refl _⟩ <;> simp
  | pin =>
    simp only [World.step] at hs
    split at hs <;> cases hs
    rename_i hphase
    exact ⟨h.pin hphase, le_refl _⟩
  | release snap =>
    obtain ⟨hphase, hs⟩ := Option.ite_none_right_eq_some.1 hs
    cases hs
    exact ⟨h.release hphase hheld, le_refl _⟩
  | loadHead =>
    obtain ⟨hphase, hs⟩ := Option.ite_none_right_eq_some.1 hs
    cases hs
    refine ⟨h.enter (by rw [hphase]; rfl) rfl ?_ ?_ ?_ ?_, le_refl _⟩ <;> simp [h.emptied hphase]
  | store =>
    simp only [World.step] at hs
    split at hs <;> cases hs
    · rename_i snap hphase
      have hpins : (snap :: w.live).map (·.targetLsn) = w.pins := by rw [World.pins, hphase]; rfl
      have hleast := h.pinned snap hphase
      exact ⟨h.store hpins (h.head _ hleast.1) (Or.inr hleast), h.floor _ hleast.1⟩
    · rename_i wm hphase
      have hpins : w.live.map (·.targetLsn) = w.pins := by rw [World.pins, hphase]; rfl
      obtain ⟨hlow, hhigh, hleast⟩ := h.floored wm hphase
      exact ⟨h.store hpins hhigh hleast, hlow⟩

theorem inv_of_run (h : Run World.step World.Held (.start initialLsn initialEpoch) acts w) : w.Inv :=
  h.invariant (inv_start initialLsn initialEpoch) fun _ _ _ hinv hheld hs => (hinv.step hheld hs).1

/-! ## What the watermark says -/

/-- **The floor is safe for every later reader.**  However the calls interleave, what is below the watermark at some moment is
below every snapshot that is live then or at any later moment, and the watermark only moves up. -/
theorem floor_safe (h : Run World.step World.Held (.start initialLsn initialEpoch) acts w)
    (hmore : Run World.step World.Held w more w') : w.manager.watermarkLsn ≤ w'.manager.watermarkLsn ∧
      ∀ snap ∈ w'.live, w.manager.watermarkLsn ≤ snap.targetLsn ∧ snap.targetLsn ≤ w'.manager.currentLsn := by
  have hlater : w'.Inv ∧ w.manager.watermarkLsn ≤ w'.manager.watermarkLsn := by
    induction hmore with
    | start => exact ⟨inv_of_run h, le_refl _⟩
    | next a _ hheld hs ih => exact ⟨(ih.1.step hheld hs).1, ih.2.trans (ih.1.step hheld hs).2⟩
  refine ⟨hlater.2, fun snap hsnap => ?_⟩
  have hpin : snap.targetLsn ∈ w'.pins := List.mem_append_right _ (List.mem_map_of_mem hsnap)
  exact ⟨hlater.2.trans (hlater.1.floor _ hpin), hlater.1.head _ hpin⟩

/-- A reader begins at 100 and is released while the head moves to 150 and a second one begins. -/
def firstReader : List Action := [.begin, .loadTarget, .pin, .store]

def secondReader : List Action := [.advanceHead 150, .begin, .loadTarget, .pin, .store, .release ⟨100, 100, 0⟩, .store]

theorem floor_safe_two_readers : ∃ w w' : World, w.manager.watermarkLsn = 100 ∧ w'.live = [⟨150, 100, 0⟩] ∧
    w.manager.watermarkLsn ≤ w'.manager.watermarkLsn ∧
    ∀ snap ∈ w'.live, w.manager.watermarkLsn ≤ snap.targetLsn ∧ snap.targetLsn ≤ w'.manager.currentLsn := by
  have hfirst : runs World.step (.start 100 0) firstReader
      = some ⟨⟨100, 100, 0, .up .empty 100⟩, .idle, [⟨100, 100, 0⟩]⟩ := by decide
  have hsecond : runs World.step ⟨⟨100, 100, 0, .up .empty 100⟩, .idle, [⟨100, 100, 0⟩]⟩ secondReader
      = some ⟨⟨150, 150, 0, .up .empty 150⟩, .idle, [⟨150, 100, 0⟩]⟩ := by decide
  exact ⟨_, _, rfl, rfl, floor_safe (run_of_runs hfirst (by decide)) (run_of_runs hsecond (by decide))⟩

/-- **Between calls the table counts the live snapshots, and the watermark is the oldest of them.** -/
theorem oldest_reader (h : Run World.step World.Held (.start initialLsn initialEpoch) acts w) (hidle : w.phase = .idle) :
    (∀ t, w.manager.active.get? t =
      let n := w.live.countP (fun snap => snap.targetLsn = t)
      if n = 0 then none else some n) ∧
    (w.live ≠ [] → IsLeast {t | ∃ snap ∈ w.live, snap.targetLsn = t} w.manager.watermarkLsn) := by
  have hinv := inv_of_run h
  have hpins : w.pins = w.live.map (·.targetLsn) := by rw [World.pins, hidle]; rfl
  have hmem : ∀ t, t ∈ w.pins ↔ ∃ snap ∈ w.live, snap.targetLsn = t := fun t => by rw [hpins, List.mem_map]
  refine ⟨fun t => ?_, fun hne => ⟨(hmem _).1 (hinv.idle hidle ?_), fun t ht => hinv.floor t ((hmem t).2 ht)⟩⟩
  · have hcount : w.pins.count t = w.live.countP (fun snap => snap.targetLsn = t) := by
      rw [hpins, List.count, List.countP_map]
      rfl
    rw [hinv.counts t, hcount]
  · rw [hpins]
    exact fun hnil => hne (List.map_eq_nil_iff.1 hnil)

theorem oldest_reader_of_two : ∃ w : World, w.live = [⟨150, 100, 0⟩, ⟨100, 100, 0⟩] ∧
    (∀ t, w.manager.active.get? t =
      let n := w.live.countP (fun snap => snap.targetLsn = t)
      if n = 0 then none else some n) ∧
    (w.live ≠ [] → IsLeast {t | ∃ snap ∈ w.live, snap.targetLsn = t} w.manager.watermarkLsn) := by
  have hrun : runs World.step (.start 100 0) (firstReader ++ secondReader.take 5)
      = some ⟨⟨150, 100, 0, (SortedMap.up .empty 100).up 150⟩, .idle, [⟨150, 100, 0⟩, ⟨100, 100, 0⟩]⟩ := by decide
  exact ⟨_, rfl, oldest_reader (run_of_runs hrun (by decide)) rfl⟩

end Txn
end Heraclitus
