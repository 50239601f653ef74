import Heraclitus.Episode
import Mathlib.Data.List.Sort
import Mathlib.Data.Prod.Lex
/-!
# TemporalGraph — the edges derived from the log, and their reads `AS OF` an LSN (`heraclitus-index-graph/src/temporal.rs`)

An event asserts or closes edges.  An edge is kept once, under an id made of its ends and its type: it carries the LSNs
between which it lives now, and those of its earlier lives; a new assert of a closed edge opens another life.
-/
namespace Heraclitus
namespace Temporal

inductive EdgeType where
  | fraudPartner | socioDe | pagou | similarA | notRelated
  | custom (name : Str)
  deriving DecidableEq

/-- The place of a type in the derived order. -/
def EdgeType.place : EdgeType → Nat × Str
  | .fraudPartner => (0, [])
  | .socioDe => (1, [])
  | .pagou => (2, [])
  | .similarA => (3, [])
  | .notRelated => (4, [])
  | .custom name => (5, name)

theorem EdgeType.place_injective : Function.Injective (fun t : EdgeType => toLex t.place) := by
  intro a b h
  have h : a.place = b.place := toLex.injective h
  cases a <;> cases b <;> simp [EdgeType.place] at h <;> simp [h]

instance : LinearOrder EdgeType := LinearOrder.lift' _ EdgeType.place_injective

/-- `1.0` and `-1.0`. -/
def one : F32 := 0x3f800000

def minusOne : F32 := 0xbf800000

def EdgeType.polarity : EdgeType → F32
  | .notRelated => minusOne
  | _ => one

def EdgeType.key : EdgeType → Str
  | .fraudPartner => "fraud_partner".toList
  | .socioDe => "socio_de".toList
  | .pagou => "pagou".toList
  | .similarA => "similar_a".toList
  | .notRelated => "not_related".toList
  | .custom s => "custom:".toList ++ s

def EdgeType.fromAttr (s : Str) : EdgeType :=
  let s := toAsciiLowercase s
  if s = "fraud_partner".toList ∨ s = "fraudpartner".toList then .fraudPartner
  else if s = "socio_de".toList ∨ s = "sociode".toList then .socioDe
  else if s = "pagou".toList then .pagou
  else if s = "similar_a".toList ∨ s = "similara".toList then .similarA
  else if s = "not_related".toList ∨ s = "notrelated".toList then .notRelated
  else .custom s

structure EdgeVersion where
  hypothesisId : Str
  confidence : F32
  source : Str
  provenance : List Str
  polarity : F32
  validFromLsn : Nat
  deriving DecidableEq

structure Edge where
  id : Str
  from_ : Str
  to_ : Str
  etype : EdgeType
  validFromLsn : Nat
  validToLsn : Option Nat
  worldValidFrom : Option Nat
  worldValidTo : Option Nat
  closedIntervals : List (Nat × Nat)
  deriving DecidableEq

def Edge.aliveAt (e : Edge) (t : Nat) : Bool :=
  (decide (e.validFromLsn ≤ t) && e.validToLsn.all (fun stop => decide (t < stop))) ||
    e.closedIntervals.any (fun i => decide (i.1 ≤ t) && decide (t < i.2))

/-- What the graph takes from its libraries: `parse::<f32>`, the text of a ULID, and the arithmetic on `f32` of the
aggregation (log-odds, sum, sigmoid) and of the weight (belief times the decay over a number of LSNs). -/
structure Env where
  parseF32 : Str → Option F32
  ulidText : Nat → Str
  aggregate : List EdgeVersion → F32
  weight : F32 → F32 → Nat → F32

structure TemporalGraph where
  out : SortedMap Str (SortedMap EdgeType (List Str)) := .empty
  inn : SortedMap Str (SortedMap EdgeType (List Str)) := .empty
  edges : SortedMap Str Edge := .empty
  versions : SortedMap Str (List EdgeVersion) := .empty
  builtUntilLsn : Nat := 0
  watermark : Nat := 0

/-! ## Writes -/

/-- `entry(node).or_default().entry(etype).or_default().push(id)`. -/
def link (m : SortedMap Str (SortedMap EdgeType (List Str))) (node : Str) (etype : EdgeType) (id : Str) :
    SortedMap Str (SortedMap EdgeType (List Str)) :=
  m.alter node (fun types => some ((types.getD .empty).alter etype (fun ids => some (ids.getD [] ++ [id]))))

/-- The versions of an edge with a new one, unless its hypothesis is known. -/
def addVersion (entry : List EdgeVersion) (v : EdgeVersion) : List EdgeVersion :=
  if entry.any (fun e => e.hypothesisId == v.hypothesisId) then entry else entry ++ [v]

def byHypothesis (a b : EdgeVersion) : Prop := a.hypothesisId ≤ b.hypothesisId

instance : DecidableRel byHypothesis := fun a b => inferInstanceAs (Decidable (a.hypothesisId ≤ b.hypothesisId))

/-- An edge that is asserted again: a closed one opens another life. -/
def Edge.reopen (existing edge : Edge) : Edge :=
  match existing.validToLsn with
  | none => existing
  | some closedAt =>
    { existing with
      closedIntervals := existing.closedIntervals ++ [(existing.validFromLsn, closedAt)]
      validFromLsn := edge.validFromLsn
      validToLsn := none
      worldValidFrom := edge.worldValidFrom
      worldValidTo := edge.worldValidTo }

namespace TemporalGraph

def upsertEdge (g : TemporalGraph) (edge : Edge) (versions : List EdgeVersion) : TemporalGraph :=
  let g := { g with versions := g.versions.alter edge.id (fun entry =>
    some ((versions.foldl addVersion (entry.getD [])).insertionSort byHypothesis)) }
  match g.edges.get? edge.id with
  | some existing =>
    { g with
      edges := g.edges.insert edge.id (existing.reopen edge)
      builtUntilLsn := if existing.validToLsn.isSome then max g.builtUntilLsn edge.validFromLsn else g.builtUntilLsn }
  | none =>
    { g with
      out := link g.out edge.from_ edge.etype edge.id
      inn := link g.inn edge.to_ edge.etype edge.id
      builtUntilLsn := max g.builtUntilLsn edge.validFromLsn
      edges := g.edges.insert edge.id edge }

/-- `close_edge`. -/
def closeEdge (g : TemporalGraph) (id : Str) (lsn : Nat) : TemporalGraph :=
  match g.edges.get? id with
  | none => g
  | some e => { g with edges := g.edges.insert id { e with validToLsn := some (e.validToLsn.getD lsn) } }

end TemporalGraph

def edgeId (from_ to_ : Str) (etype : EdgeType) : Str := from_ ++ "->".toList ++ to_ ++ "#".toList ++ etype.key

def provenanceText : Str := "provenance".toList

/-- The type that an event gives its edges. -/
def etypeOf (e : Episode) : EdgeType :=
  ((e.attrs.get? "edge_type".toList).map EdgeType.fromAttr).getD (.custom provenanceText)

/-- `retract` and `close` close an edge, every other operation asserts it. -/
def closes (e : Episode) : Bool :=
  let op := toAsciiLowercase ((e.attrs.get? "edge_op".toList).getD "assert".toList)
  op == "retract".toList || op == "close".toList

section Apply

variable (env : Env)

def confidenceOf (e : Episode) : F32 := ((e.attrs.get? "confidence".toList).bind env.parseF32).getD one

/-- An edge between named entities that an event asserts, with its hypothesis. -/
def explicitEdge (lsn : Nat) (e : Episode) (from_ to_ : Str) : Edge × EdgeVersion :=
  let id := edgeId from_ to_ (etypeOf e)
  let stance := toAsciiLowercase ((e.attrs.get? "stance".toList).getD "support".toList)
  let wnum := fun (k : String) => (e.attrs.get? k.toList).bind (fun v => parseU64 (trim v))
  ({ id := id, from_ := from_, to_ := to_, etype := etypeOf e, validFromLsn := lsn, validToLsn := none,
     worldValidFrom := e.validFrom <|> wnum "valid_from", worldValidTo := e.validTo <|> wnum "valid_to",
     closedIntervals := [] },
   { hypothesisId := (e.attrs.get? "hypothesis".toList <|> e.attrs.get? "rule".toList).getD id
     confidence := confidenceOf env e
     source := (e.attrs.get? "rule".toList).getD provenanceText
     provenance := [env.ulidText e.id]
     polarity := if stance = "refute".toList ∨ stance = "against".toList then minusOne else one
     validFromLsn := lsn })

/-- The edge from a causal parent to the event. -/
def provenanceEdge (lsn : Nat) (e : Episode) (parent : Nat) : Edge × EdgeVersion :=
  let from_ := env.ulidText parent
  let child := env.ulidText e.id
  let id := edgeId from_ child (etypeOf e)
  ({ id := id, from_ := from_, to_ := child, etype := etypeOf e, validFromLsn := lsn, validToLsn := none,
     worldValidFrom := e.validFrom, worldValidTo := e.validTo, closedIntervals := [] },
   { hypothesisId := id, confidence := confidenceOf env e, source := (e.attrs.get? "rule".toList).getD provenanceText,
     provenance := [child], polarity := (etypeOf e).polarity, validFromLsn := lsn })

/-- What an event does to the edges. -/
inductive Mutation where
  | close (id : Str)
  | assert (edge : Edge) (version : EdgeVersion)

def mutations (lsn : Nat) (e : Episode) : List Mutation :=
  match e.attrs.get? "edge_from".toList, e.attrs.get? "edge_to".toList with
  | some from_, some to_ =>
    if closes e then [.close (edgeId from_ to_ (etypeOf e))]
    else
      let (edge, version) := explicitEdge env lsn e from_ to_
      [.assert edge version]
  | _, _ => e.parents.map (fun p =>
      let (edge, version) := provenanceEdge env lsn e p
      .assert edge version)

def TemporalGraph.mutate (lsn : Nat) (g : TemporalGraph) : Mutation → TemporalGraph
  | .close id => g.closeEdge id lsn
  | .assert edge version => g.upsertEdge edge [version]

def TemporalGraph.applyEpisode (g : TemporalGraph) (record : Nat × Episode) : TemporalGraph :=
  let g := (mutations env record.1 record.2).foldl (TemporalGraph.mutate record.1) g
  { g with watermark := max g.watermark record.1 }

/-- The graph of a log. -/
def TemporalGraph.ofLog (log : List (Nat × Episode)) : TemporalGraph :=
  log.foldl (TemporalGraph.applyEpisode env) {}

/-! ## Reads -/

def isNan (x : F32) : Bool := decide (0x7f800000 < x.toNat % 2 ^ 31)

/-- The place of a number in the order of all numbers. -/
def placeOf (x : F32) : Int := if 2 ^ 31 ≤ x.toNat then -((x.toNat % 2 ^ 31 : Nat) : Int) else x.toNat

/-- `x < y` on `f32`. -/
def f32Lt (x y : F32) : Bool := !isNan x && !isNan y && decide (placeOf x < placeOf y)

/-- `aggregate_as_of`. -/
def aggregateAsOf (versions : List EdgeVersion) (asOf : Nat) : F32 :=
  let vs := versions.filter (fun v => decide (v.validFromLsn ≤ asOf))
  if vs.isEmpty then 0 else env.aggregate (vs.insertionSort byHypothesis)

structure Neighbor where
  edgeId : Str
  to_ : Str
  etype : EdgeType
  belief : F32
  weight : F32
  lsn : Nat

structure EdgeMatch where
  edgeId : Str
  from_ : Str
  to_ : Str
  etype : EdgeType
  belief : F32
  worldValidFrom : Option Nat
  worldValidTo : Option Nat

namespace TemporalGraph

variable (g : TemporalGraph)

def beliefAt (id : Str) (asOf : Nat) : F32 :=
  match g.versions.get? id with
  | none => 0
  | some vs => aggregateAsOf env vs asOf

/-- What the loop of `neighbors` takes from one adjacent edge. -/
def neighbor (etype : EdgeType) (asOf : Nat) (minConfidence lambda : F32) (eid : Str) (edge : Edge) : Option Neighbor :=
  if !edge.aliveAt asOf then none
  else
    let belief := g.beliefAt env eid asOf
    if f32Lt belief minConfidence then none
    else some { edgeId := eid, to_ := edge.to_, etype := etype, belief := belief,
                weight := env.weight belief lambda (asOf - edge.validFromLsn), lsn := edge.validFromLsn }

def neighbors (node : Str) (etype : Option EdgeType) (asOf : Nat) (minConfidence lambda : F32) : List Neighbor :=
  match g.out.get? node with
  | none => []
  | some types => types.entries.flatMap (fun te =>
      if etype.any (fun want => want != te.1) then []
      else te.2.filterMap (fun eid => (g.edges.get? eid).bind (g.neighbor env te.1 asOf minConfidence lambda eid)))

/-- The closure `consider` of `match_edges`. -/
def consider (etype : Option EdgeType) (dst : Option Str) (asOf : Nat) (minConfidence : F32) (edge : Edge) :
    Option EdgeMatch :=
  if !edge.aliveAt asOf then none
  else if etype.any (fun want => want != edge.etype) then none
  else if dst.any (fun d => edge.to_ != d) then none
  else
    let belief := g.beliefAt env edge.id asOf
    if f32Lt belief minConfidence then none
    else some { edgeId := edge.id, from_ := edge.from_, to_ := edge.to_, etype := edge.etype, belief := belief,
                worldValidFrom := edge.worldValidFrom, worldValidTo := edge.worldValidTo }

def matchEdges (src : Option Str) (etype : Option EdgeType) (dst : Option Str) (asOf : Nat) (minConfidence : F32) :
    List EdgeMatch :=
  match src with
  | some s =>
    match g.out.get? s with
    | none => []
    | some types => types.entries.flatMap (fun te => te.2.filterMap (fun eid =>
        (g.edges.get? eid).bind (g.consider env etype dst asOf minConfidence)))
  | none => g.edges.entries.filterMap (fun ke => g.consider env etype dst asOf minConfidence ke.2)

/-- Is there a live edge under the id? -/
def aliveAt (id : Str) (asOf : Nat) : Bool := (g.edges.get? id).any (fun e => e.aliveAt asOf)

end TemporalGraph

end Apply

end Temporal
end Heraclitus
