import Heraclitus.Core
import Heraclitus.Lib.SortedMap
import Mathlib.Data.List.Lex
import Mathlib.Data.Char
/-!
# Episode — the unit of truth (`heraclitus-core/src/event.rs`)

An episode is appended to the log and never changed.  The log stamps `tsHlc`; everything else is the producer's.
-/
namespace Heraclitus

/-- The bits of an `f32`. -/
abbrev F32 := UInt32

structure ProductPoint where
  hyp : List F32
  sph : List F32
  euc : List F32
  deriving DecidableEq

inductive EventKind where
  | observation | action | message | retrievalFeedback | factDerived | demotionReceipt
  | custom (name : Str)
  | systemMetric
  deriving DecidableEq

/-- The canonical label: what queries, and the `_kind` pseudo-attribute, call the kind. -/
def EventKind.label : EventKind → Str
  | .observation => "Observation".toList
  | .action => "Action".toList
  | .message => "Message".toList
  | .retrievalFeedback => "RetrievalFeedback".toList
  | .factDerived => "FactDerived".toList
  | .demotionReceipt => "DemotionReceipt".toList
  | .custom name => name
  | .systemMetric => "SystemMetric".toList

structure Episode where
  id : Nat
  tsHlc : Nat
  agentId : Str
  sessionId : Str
  kind : EventKind
  content : Bytes
  embedding : Option ProductPoint
  attrs : SortedMap Str Str
  parents : List Nat
  validFrom : Option Nat
  validTo : Option Nat
  deriving DecidableEq

/-- `Episode::new`; the fresh ULID is the caller's. -/
def Episode.new (id : Nat) (agentId : Str) (kind : EventKind) (content : Bytes) : Episode :=
  { id := id, tsHlc := 0, agentId := agentId, sessionId := [], kind := kind, content := content, embedding := none,
    attrs := .empty, parents := [], validFrom := none, validTo := none }

/-- The copy of an episode that the log stamps and stores. -/
def Episode.stamp (e : Episode) (hlc : Nat) : Episode := { e with tsHlc := hlc }

@[simp] theorem Episode.stamp_attrs (e : Episode) (hlc : Nat) : (e.stamp hlc).attrs = e.attrs := rfl

def hvmKind : Str := "hvm_isa".toList

/-- Is this an H-VM instruction frame? -/
def isHvm (e : Episode) : Bool := e.kind == .custom hvmKind

@[simp] theorem isHvm_stamp (e : Episode) (hlc : Nat) : isHvm (e.stamp hlc) = isHvm e := rfl

end Heraclitus
