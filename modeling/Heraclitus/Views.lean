import Heraclitus.Episode
import Heraclitus.LogSpec
import Heraclitus.Lib.Slots
import Heraclitus.Lib.Run
/-!
# Views — the registry of derived views (`heraclitus-views/src/lib.rs`)

A view is any state with a deterministic `apply`.  The registry keeps one watermark per view name and persists, at
different moments, the views' snapshots and `watermarks.json`; a session of the engine starts by one of the three
paths of `Engine::open`.
-/
namespace Heraclitus
namespace Views

variable {σ : Type}

/-- A view over the log; `durable` says that it implements `checkpoint` and `restore`. -/
structure View (σ : Type) where
  name : Str
  init : σ
  apply : σ → Nat → Episode → σ
  durable : Bool

/-- The registered views; their names are their keys. -/
structure Registry (σ : Type) where
  views : List (View σ)
  distinct : (views.map View.name).Nodup

/-- The state of a view, with the LSNs it has been given. -/
structure Snapshot (σ : Type) where
  state : σ
  received : List Nat
  deriving DecidableEq

/-- What the registry holds under one name; a view that was given nothing yet is fresh. -/
structure Slot (σ : Type) where
  view : Option (Snapshot σ) := none
  watermark : Option Nat := none
  deriving DecidableEq

structure St (σ : Type) where
  log : List Episode := []
  /-- `<name>.ckpt` -/
  snapshots : Str → Option (Snapshot σ) := fun _ => none
  /-- `watermarks.json` -/
  watermarks : Str → Option Nat := fun _ => none
  session : Option (Str → Slot σ) := none

def Slot.get (x : Slot σ) (v : View σ) : Snapshot σ := x.view.getD ⟨v.init, []⟩

/-- `v.apply(lsn, event)`, and the registry's watermark for `v`. -/
def Slot.give (x : Slot σ) (v : View σ) (lsn : Nat) (event : Episode) (watermark : Nat) : Slot σ :=
  { view := some ⟨v.apply (x.get v).state lsn event, (x.get v).received ++ [lsn]⟩, watermark := some watermark }

/-- One event for every view, unless it is an H-VM frame. -/
def applyAll (R : Registry σ) (g : Nat → Episode → View σ → Slot σ → Slot σ) (slots : Str → Slot σ)
    (record : Nat × Episode) : Str → Slot σ :=
  if isHvm record.2 then slots else sweep View.name (g record.1 record.2) R.views slots

/-- `ViewRegistry::apply`: the watermark only advances. -/
def liveSlot (lsn : Nat) (event : Episode) (v : View σ) (x : Slot σ) : Slot σ :=
  x.give v lsn event (max (x.watermark.getD 0) lsn)

/-- `catch_up` gives a view what lies above its watermark. -/
def catchUpSlot (lsn : Nat) (event : Episode) (v : View σ) (x : Slot σ) : Slot σ :=
  match x.watermark with
  | none => x.give v lsn event lsn
  | some w => if lsn > w then x.give v lsn event lsn else x

def rebuildSlot (only : Option Str) (lsn : Nat) (event : Episode) (v : View σ) (x : Slot σ) : Slot σ :=
  if only.all (· == v.name) then x.give v lsn event lsn else x

/-- `restore`: the snapshot, or else the loss of the watermark. -/
def restoreSlot (snapshots : Str → Option (Snapshot σ)) (v : View σ) (x : Slot σ) : Slot σ :=
  match if v.durable then snapshots v.name else none with
  | some snapshot => { x with view := some snapshot }
  | none => { x with watermark := none }

def resetSlot (only : Option Str) (v : View σ) (x : Slot σ) : Slot σ :=
  if only.all (· == v.name) then { view := some ⟨v.init, []⟩, watermark := none } else x

/-- One past a watermark; no watermark is none applied. -/
def bound (watermark : Option Nat) : Nat := (watermark.map (· + 1)).getD 0

/-- The LSN `catch_up` starts from: the least that some view still needs. -/
def catchUpStart (R : Registry σ) (slots : Str → Slot σ) : Nat :=
  (R.views.map (fun v => bound (slots v.name).watermark)).min?.getD 0

def window : Nat := 100000

/-- `persist_watermarks`. -/
def persist (s : St σ) (slots : Str → Slot σ) : St σ :=
  { s with session := some slots, watermarks := fun name => (slots name).watermark }

def catchUp (R : Registry σ) (s : St σ) (slots : Str → Slot σ) : St σ :=
  let slots := sweep View.name (restoreSlot s.snapshots) R.views slots
  persist s (drain window (applyAll R catchUpSlot) s.log (s.log.length + 1) s.log.length (catchUpStart R slots) slots)

def rebuild (R : Registry σ) (s : St σ) (slots : Str → Slot σ) (only : Option Str) : St σ :=
  let slots := sweep View.name (resetSlot only) R.views slots
  persist s (drain window (applyAll R (rebuildSlot only)) s.log s.log.length s.log.length 0 slots)

def checkpoint (R : Registry σ) (s : St σ) (slots : Str → Slot σ) : St σ :=
  let save := fun (v : View σ) old => if v.durable then some ((slots v.name).get v) else old
  persist { s with snapshots := sweep View.name save R.views s.snapshots } slots

/-- `ViewRegistry::open`: fresh views under the watermarks of the file. -/
def opened (s : St σ) : Str → Slot σ := fun name => { watermark := s.watermarks name }

/-- How `Engine::open` brings the views up: catch up, skip the replay, or rebuild after a shred. -/
inductive Boot where
  | catchUp | skipReplay | privacyRebuild
  deriving DecidableEq

inductive Act where
  | boot (b : Boot)
  | append (e : Episode)
  | live (lsn : Nat)
  | rebuild (only : Option Str)
  | checkpoint
  | crash

def step (R : Registry σ) (s : St σ) : Act → Option (St σ)
  | .boot b =>
    if s.session.isSome then none
    else match b with
      | .catchUp => some (catchUp R s (opened s))
      | .skipReplay => some { s with session := some (fun _ => {}) }
      | .privacyRebuild => some (rebuild R s (opened s) none)
  | .append e => s.session.map (fun _ => { s with log := s.log ++ [e] })
  | .live lsn =>
    match s.session, s.log[lsn]? with
    | some slots, some e => some { s with session := some (applyAll R liveSlot slots (lsn, e)) }
    | _, _ => none
  | .rebuild only => s.session.map (fun slots => rebuild R s slots only)
  | .checkpoint => s.session.map (checkpoint R s)
  | .crash => some { s with session := none }

end Views
end Heraclitus
