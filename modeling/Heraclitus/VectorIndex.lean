import Heraclitus.Lib.BinaryHeap
import Mathlib
/-!
# VectorIndex — the HNSW index (`heraclitus-index-vector/src/lib.rs`)

Nodes with one list of neighbour ids for each level, an entry point, and a best-first search of one level that insertion and
search are made of.  `none` is a panic: an index outside, or arithmetic that overflows.
-/
namespace Heraclitus
namespace VectorIndex

structure Node (P : Type) where
  point : P
  level : Nat
  neighbors : List (List Nat)
  deriving DecidableEq

structure Candidate (D : Type) where
  dist : D
  id : Nat

structure VectorHit (E F : Type) where
  id : E
  lsn : Nat
  dist : F
  deriving DecidableEq

/-- What the index takes from elsewhere: the distance of two points under a signature, `<` and `f64::MIN` of distances, their
`as f32`, the two heaps, and the level that `random_level` makes, for a degree `m`, of each number drawn since the seed.  The level
is finite except for `m = 1`, whose logarithm is zero. -/
structure Host (P D F Sig : Type) [LinearOrder D] where
  metricDist : Sig → P → P → D
  less : D → D → Bool
  least : D
  narrow : D → F
  nearest : BinaryHeap (Candidate D) (fun a b => b.dist ≤ a.dist)
  farthest : BinaryHeap (Candidate D) (fun a b => a.dist ≤ b.dist)
  level : Nat → Nat → Nat
  level_fits : ∀ m i, m ≠ 1 → level m i + 1 < 2 ^ 64
  level_one : ∀ i, level 1 i = 2 ^ 64 - 1

end VectorIndex

structure VectorIndex (P E Sig : Type) where
  metric : Sig
  m : Nat
  efConstruction : Nat
  nodes : List (VectorIndex.Node P)
  entry : Option Nat
  byEvent : E → Option Nat
  ids : List E
  lsns : List Nat
  watermark : Nat
  /-- How many numbers were drawn since the seed. -/
  rng : Nat
  tombstones : Finset Nat

namespace VectorIndex

def defaultM : Nat := 16

def defaultEfConstruction : Nat := 200

variable {P D F E Sig : Type} [LinearOrder D] [DecidableEq E] (S : Host P D F Sig)

def new (metric : Sig) : VectorIndex P E Sig where
  metric := metric
  m := defaultM
  efConstruction := defaultEfConstruction
  nodes := []
  entry := none
  byEvent := fun _ => none
  ids := []
  lsns := []
  watermark := 0
  rng := 0
  tombstones := ∅

def tombstoneEvent (v : VectorIndex P E Sig) (event : E) : Bool × VectorIndex P E Sig :=
  match v.byEvent event with
  | some id => (true, { v with tombstones := insert id v.tombstones })
  | none => (false, v)

def dist (v : VectorIndex P E Sig) (a : Nat) (b : P) : Option D :=
  (v.nodes[a]?).map (fun node => S.metricDist v.metric node.point b)

def randomLevel (v : VectorIndex P E Sig) : Nat := S.level v.m v.rng

/-! ## One level -/

/-- Tombstones are walked through but never among the results. -/
def passes (v : VectorIndex P E Sig) (filter : Option (Finset Nat)) (id : Nat) : Bool :=
  decide (id ∉ v.tombstones) && (match filter with
    | some f => decide (id ∈ f)
    | none => true)

structure Frontier (S : Host P D F Sig) where
  visited : Finset Nat
  candidates : S.nearest.Heap
  results : S.farthest.Heap

def worst (results : S.farthest.Heap) : D := ((S.farthest.peek results).map (·.dist)).getD S.least

/-- A result goes in, and the worst one out when there are more than `ef`. -/
def keep (ef : Nat) (c : Candidate D) (results : S.farthest.Heap) : S.farthest.Heap :=
  let results := S.farthest.push c results
  if ef < S.farthest.len results then S.farthest.drop results else results

def visit (v : VectorIndex P E Sig) (query : P) (ef : Nat) (filter : Option (Finset Nat)) (f : Frontier S) (n : Nat) :
    Option (Frontier S) :=
  if n ∈ f.visited then some f
  else (v.dist S n query).map (fun d =>
    if S.farthest.len f.results < ef ∨ S.less d (worst S f.results) = true then {
      visited := insert n f.visited
      candidates := S.nearest.push ⟨d, n⟩ f.candidates
      results := if v.passes filter n then keep S ef ⟨d, n⟩ f.results else f.results }
    else { f with visited := insert n f.visited })

/-- The list a search of `level` reads at a node: that of the level, or of the node's last one. -/
def layer (v : VectorIndex P E Sig) (level id : Nat) : Option (List Nat) :=
  (v.nodes[id]?).bind (fun node => if node.neighbors = [] then none else node.neighbors[min level (node.neighbors.length - 1)]?)

def searchLoop (v : VectorIndex P E Sig) (query : P) (level ef : Nat) (filter : Option (Finset Nat)) :
    Nat → Frontier S → Option S.farthest.Heap
  | 0, _ => none
  | fuel + 1, f =>
    match S.nearest.pop f.candidates with
    | none => some f.results
    | some (c, candidates) =>
      if ef ≤ S.farthest.len f.results ∧ S.less (worst S f.results) c.dist = true then some f.results
      else (v.layer level c.id).bind (fun ns =>
        (ns.foldlM (v.visit S query ef filter) { f with candidates := candidates }).bind
          (v.searchLoop query level ef filter fuel))

/-- No node is a candidate twice, so the loop takes at most one turn for each node and one more. -/
def searchLayer (v : VectorIndex P E Sig) (query : P) (entry level ef : Nat) (filter : Option (Finset Nat)) :
    Option (List (Candidate D)) :=
  (v.dist S entry query).bind (fun d0 =>
    (v.searchLoop S query level ef filter (v.nodes.length + 1) {
      visited := {entry}
      candidates := S.nearest.push ⟨d0, entry⟩ S.nearest.empty
      results := if v.passes filter entry then S.farthest.push ⟨d0, entry⟩ S.farthest.empty else S.farthest.empty }).map
        (fun results => (S.farthest.toVec results).insertionSort (fun a b => a.dist ≤ b.dist)))

/-- Level by level the nearest node found becomes the entry point, if one is found. -/
def descend (v : VectorIndex P E Sig) (query : P) (pick : Nat → Nat → Option Nat) : List Nat → Nat → Option Nat
  | [], ep => some ep
  | l :: levels, ep =>
    (pick l ep).bind (fun l =>
      (v.searchLayer S query ep l 1 none).bind (fun best =>
        v.descend query pick levels ((best.head?.map (·.id)).getD ep)))

/-! ## Insertion -/

def setList (v : VectorIndex P E Sig) (n l : Nat) (list : List Nat) : VectorIndex P E Sig :=
  { v with nodes := v.nodes.modify n (fun node => { node with neighbors := node.neighbors.set l list }) }

/-- `nb.sort_by` on the distance to a point. -/
def sortByDist (v : VectorIndex P E Sig) (np : P) (nb : List Nat) : Option (List Nat) :=
  (nb.mapM (fun a => (v.dist S a np).map (fun d => (⟨d, a⟩ : Candidate D)))).map
    (fun keyed => (keyed.insertionSort (fun a b => a.dist ≤ b.dist)).map (·.id))

/-- The link back from a selected node, whose list is cut to the `m*2` closest when it grows past them. -/
def backLink (id l : Nat) (v : VectorIndex P E Sig) (n : Nat) : Option (VectorIndex P E Sig) :=
  (v.nodes[n]?).bind (fun node =>
    match node.neighbors[l]? with
    | none => some v
    | some list =>
      let nb := list ++ [id]
      if v.m * 2 < 2 ^ 64 then
        if v.m * 2 < nb.length then (v.sortByDist S node.point nb).map (fun nb => v.setList n l (nb.take (v.m * 2)))
        else some (v.setList n l nb)
      else none)

def select (id m : Nat) (neighbors : List (Candidate D)) : List Nat :=
  ((neighbors.filter (fun c => c.id ≠ id)).take m).map (·.id)

def connectLevel (id : Nat) (point : P) (v : VectorIndex P E Sig) (ep l : Nat) : Option (VectorIndex P E Sig × Nat) :=
  (v.searchLayer S point ep l v.efConstruction none).bind (fun neighbors =>
    let selected := select id v.m neighbors
    (selected.foldlM (backLink S id l) v).bind (fun v =>
      (v.nodes[id]?).bind (fun node =>
        if l < node.neighbors.length then some (v.setList id l selected, (neighbors.head?.map (·.id)).getD ep) else none)))

def connect (id : Nat) (point : P) : List Nat → VectorIndex P E Sig × Nat → Option (VectorIndex P E Sig × Nat)
  | [], x => some x
  | l :: levels, x => (connectLevel S id point x.1 x.2 l).bind (connect id point levels)

/-- The node goes in, with empty lists, before it is connected. -/
def pushNode (v : VectorIndex P E Sig) (eventId : E) (lsn : Nat) (point : P) (level : Nat) : VectorIndex P E Sig :=
  { v with
    nodes := v.nodes ++ [{ point := point, level := level, neighbors := List.replicate (level + 1) [] }]
    byEvent := Function.update v.byEvent eventId (some (v.nodes.length % 2 ^ 32))
    ids := v.ids ++ [eventId]
    lsns := v.lsns ++ [lsn]
    rng := v.rng + 1 }

/-- `self.nodes[ep].level`, and the entry point after the descent to just above `level`. -/
def approach (v : VectorIndex P E Sig) (point : P) (level ep : Nat) : Option (Nat × Nat) :=
  (v.nodes[ep]?).bind (fun node =>
    (v.descend S point (fun l ep => (v.nodes[ep]?).map (fun node => min l node.level))
      (List.range' (level + 1) (node.level - level)).reverse ep).map (fun ep => (node.level, ep)))

def insert (v : VectorIndex P E Sig) (eventId : E) (lsn : Nat) (point : P) : Option (VectorIndex P E Sig) :=
  if (v.byEvent eventId).isSome then some v
  else
    let id := v.nodes.length % 2 ^ 32
    let level := v.randomLevel S
    if level + 1 < 2 ^ 64 then
      let v := v.pushNode eventId lsn point level
      match v.entry with
      | none => some { v with entry := some id }
      | some ep =>
        (v.approach S point level ep).bind (fun x =>
          (connect S id point (List.range (min level x.1 + 1)).reverse (v, x.2)).map (fun y =>
            if x.1 < level then { y.1 with entry := some id } else y.1))
    else none

/-! ## Search -/

def hit (v : VectorIndex P E Sig) (c : Candidate D) : Option (VectorHit E F) :=
  (v.ids[c.id]?).bind (fun id => (v.lsns[c.id]?).map (fun lsn => { id := id, lsn := lsn, dist := S.narrow c.dist }))

def search (v : VectorIndex P E Sig) (query : P) (k ef : Nat) (filter : Option (Finset Nat)) : Option (List (VectorHit E F)) :=
  match v.entry with
  | none => some []
  | some ep =>
    (v.nodes[ep]?).bind (fun node =>
      (v.descend S query (fun l _ => some l) (List.range' 1 node.level).reverse ep).bind (fun ep =>
        (v.searchLayer S query ep 0 (max (max ef k) (min v.efConstruction 64)) filter).bind (fun candidates =>
          (candidates.take k).mapM (v.hit S))))

/-! ## Checkpoint -/

structure VectorSnapshot (P E Sig : Type) where
  m : Nat
  efConstruction : Nat
  nodes : List (Node P)
  entry : Option Nat
  ids : List E
  lsns : List Nat
  watermark : Nat
  sig : Sig
  tombstones : List Nat

def saveCheckpoint (v : VectorIndex P E Sig) : VectorSnapshot P E Sig where
  m := v.m
  efConstruction := v.efConstruction
  nodes := v.nodes
  entry := v.entry
  ids := v.ids
  lsns := v.lsns
  watermark := v.watermark
  sig := v.metric
  tombstones := v.tombstones.sort (· ≤ ·)

/-- Each node has `level + 1` lists; the comparison of the first one that fails ends it. -/
def layered : List (Node P) → Option Bool
  | [] => some true
  | node :: nodes =>
    if node.level + 1 < 2 ^ 64 then
      if node.neighbors.length = node.level + 1 ∧ node.neighbors ≠ [] then layered nodes else some false
    else none

def coherent (snap : VectorSnapshot P E Sig) : Option Bool :=
  if snap.nodes.length = snap.ids.length ∧ snap.nodes.length = snap.lsns.length then
    (layered snap.nodes).map (fun layers => layers && (match snap.entry with
      | some e => decide (e < snap.nodes.length)
      | none => true))
  else some false

/-- The id of the last place an event has. -/
def eventMap (ids : List E) : E → Option Nat :=
  (ids.zipIdx).foldl (fun map x => Function.update map x.1 (some (x.2 % 2 ^ 32))) (fun _ => none)

/-- `none` for a file that is missing or does not decode. -/
def loadCheckpoint (v : VectorIndex P E Sig) (file : Option (VectorSnapshot P E Sig)) : Option (Bool × VectorIndex P E Sig) :=
  match file with
  | none => some (false, v)
  | some snap =>
    (coherent snap).map (fun ok =>
      if ok then (true, { v with
        byEvent := eventMap snap.ids
        m := snap.m
        efConstruction := snap.efConstruction
        nodes := snap.nodes
        entry := snap.entry
        ids := snap.ids
        lsns := snap.lsns
        watermark := snap.watermark
        metric := snap.sig
        tombstones := snap.tombstones.toFinset })
      else (false, v))

end VectorIndex
end Heraclitus
