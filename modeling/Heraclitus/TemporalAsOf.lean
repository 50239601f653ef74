import Heraclitus.TemporalGraph
import Heraclitus.Lib.Fallible
/-!
# TemporalAsOf — a read `AS OF t` of the whole graph and of the graph up to `t`

What happens after `t` leaves every read `AS OF t` alone, but for one thing: an edge that lived at `t`, was closed and is
asserted again takes the LSN and the world validity of its new life.  `asOf_eq_prefix_iff` says when this happens.
-/
namespace Heraclitus
namespace Temporal

variable {env : Env} {t lsn : Nat} {g g' : TemporalGraph} {id : Str}

/-! ## What a read sees of an edge -/

/-- The edge as a read at `t` sees it. -/
def Edge.seen (t : Nat) (e : Edge) : Option Edge :=
  if e.aliveAt t then some { e with validToLsn := none, closedIntervals := [] } else none

namespace TemporalGraph

def seenAt (g : TemporalGraph) (t : Nat) (id : Str) : Option Edge := (g.edges.get? id).bind (Edge.seen t)

/-- The two graphs answer alike as of `t`. -/
structure SameReads (env : Env) (t : Nat) (g g' : TemporalGraph) : Prop where
  alive : ∀ id, g.aliveAt id t = g'.aliveAt id t
  neighbors : ∀ node etype minConfidence lambda,
    g.neighbors env node etype t minConfidence lambda = g'.neighbors env node etype t minConfidence lambda
  matchEdges : ∀ src etype dst minConfidence,
    g.matchEdges env src etype dst t minConfidence = g'.matchEdges env src etype dst t minConfidence

theorem SameReads.refl (g : TemporalGraph) : SameReads env t g g := ⟨fun _ => rfl, fun _ _ _ _ => rfl, fun _ _ _ _ => rfl⟩

theorem SameReads.trans {g'' : TemporalGraph} (h : SameReads env t g g') (h' : SameReads env t g' g'') :
    SameReads env t g g'' :=
  ⟨fun id => (h.alive id).trans (h'.alive id), fun _ _ _ _ => (h.neighbors _ _ _ _).trans (h'.neighbors _ _ _ _),
    fun _ _ _ _ => (h.matchEdges _ _ _ _).trans (h'.matchEdges _ _ _ _)⟩

theorem aliveAt_eq : g.aliveAt id t = (g.seenAt t id).isSome := by
  unfold aliveAt seenAt
  cases g.edges.get? id with
  | none => rfl
  | some e =>
    rw [Option.bind_some, Option.any_some, Edge.seen]
    split <;> simp_all

theorem neighbor_eq (etype : EdgeType) (minConfidence lambda : F32) (eid : Str) :
    (g.edges.get? eid).bind (g.neighbor env etype t minConfidence lambda eid)
      = (g.seenAt t eid).bind (fun e => if f32Lt (g.beliefAt env eid t) minConfidence then none
          else some { edgeId := eid, to_ := e.to_, etype := etype, belief := g.beliefAt env eid t,
                      weight := env.weight (g.beliefAt env eid t) lambda (t - e.validFromLsn), lsn := e.validFromLsn }) := by
  unfold seenAt
  cases g.edges.get? eid with
  | none => rfl
  | some e =>
    rw [Option.bind_some, Option.bind_some, neighbor, Edge.seen]
    cases e.aliveAt t <;> rfl

theorem consider_eq (etype : Option EdgeType) (dst : Option Str) (minConfidence : F32) (e : Edge) :
    g.consider env etype dst t minConfidence e = (e.seen t).bind (fun e =>
      if etype.any (fun want => want != e.etype) then none
      else if dst.any (fun d => e.to_ != d) then none
      else if f32Lt (g.beliefAt env e.id t) minConfidence then none
      else some { edgeId := e.id, from_ := e.from_, to_ := e.to_, etype := e.etype, belief := g.beliefAt env e.id t,
                  worldValidFrom := e.worldValidFrom, worldValidTo := e.worldValidTo }) := by
  rw [consider, Edge.seen]
  cases e.aliveAt t <;> rfl

/-- A walk over the adjacency of a node sees nothing of an edge that does not live. -/
theorem flatMap_link {γ : Type} {out : SortedMap Str (SortedMap EdgeType (List Str))} {from_ : Str} {ty : EdgeType}
    (h : EdgeType → Str → List γ) (hid : h ty id = []) (node : Str) :
    ((link out from_ ty id).get? node).toList.flatMap (fun types => types.entries.flatMap (fun te => te.2.flatMap (h te.1)))
      = (out.get? node).toList.flatMap (fun types => types.entries.flatMap (fun te => te.2.flatMap (h te.1))) := by
  rw [link, SortedMap.get?_alter]
  split
  · rename_i hnode
    subst hnode
    have hinner : ∀ types : SortedMap EdgeType (List Str),
        (types.alter ty (fun ids => some (ids.getD [] ++ [id]))).entries.flatMap (fun te => te.2.flatMap (h te.1))
          = types.entries.flatMap (fun te => te.2.flatMap (h te.1)) := fun types => by
      refine SortedMap.flatMap_alter types _ ?_
      cases types.get? ty with
      | none => simp [hid]
      | some ids => simp [hid]
    cases out.get? node with
    | none =>
      simp only [Option.getD_none, Option.toList_some, Option.toList_none, List.flatMap_singleton, List.flatMap_nil]
      exact hinner .empty
    | some types =>
      simp only [Option.getD_some, Option.toList_some, List.flatMap_singleton]
      exact hinner types
  · rfl

/-- The walks of the reads: they see the adjacency, and behind it the live edges and their beliefs. -/
theorem neighbors_eq (node : Str) (etype : Option EdgeType) (minConfidence lambda : F32) :
    g.neighbors env node etype t minConfidence lambda = (g.out.get? node).toList.flatMap (fun types =>
      types.entries.flatMap (fun te => te.2.flatMap (fun eid => if etype.any (fun want => want != te.1) then []
        else ((g.edges.get? eid).bind (g.neighbor env te.1 t minConfidence lambda eid)).toList))) := by
  unfold neighbors
  cases g.out.get? node with
  | none => rfl
  | some types =>
    rw [Option.toList_some, List.flatMap_singleton]
    refine List.flatMap_congr fun te _ => ?_
    split
    · simp
    · rw [List.filterMap_eq_flatMap_toList]

theorem matchEdges_some (src : Str) (etype : Option EdgeType) (dst : Option Str) (minConfidence : F32) :
    g.matchEdges env (some src) etype dst t minConfidence = (g.out.get? src).toList.flatMap (fun types =>
      types.entries.flatMap (fun te => te.2.flatMap (fun eid =>
        ((g.edges.get? eid).bind (g.consider env etype dst t minConfidence)).toList))) := by
  unfold matchEdges
  dsimp only
  cases g.out.get? src with
  | none => rfl
  | some types =>
    rw [Option.toList_some, List.flatMap_singleton]
    exact List.flatMap_congr fun te _ => List.filterMap_eq_flatMap_toList _ _

/-- **A write that changes nothing a read at `t` sees**: it rewrites one edge to one that looks the same, links at most an
edge that does not live, and leaves the beliefs alone. -/
theorem SameReads.of_write {e' : Edge} (hedges : g'.edges = g.edges.insert id e') (hseen : e'.seen t = g.seenAt t id)
    (hout : g'.out = g.out ∨ ∃ from_ ty, g'.out = link g.out from_ ty id ∧ g.seenAt t id = none)
    (hbelief : ∀ id, g'.beliefAt env id t = g.beliefAt env id t) : SameReads env t g' g := by
  have hseenAt : ∀ j, g'.seenAt t j = g.seenAt t j := fun j => by
    rw [seenAt, hedges, SortedMap.get?_insert]
    split
    · rename_i hj
      rw [hj, Option.bind_some, hseen]
    · rfl
  have hneighbor : ∀ ty minConfidence lambda eid, (g'.edges.get? eid).bind (g'.neighbor env ty t minConfidence lambda eid)
      = (g.edges.get? eid).bind (g.neighbor env ty t minConfidence lambda eid) := fun ty minConfidence lambda eid => by
    rw [neighbor_eq, neighbor_eq, hseenAt, hbelief]
  have hconsider : ∀ etype dst minConfidence e, g'.consider env etype dst t minConfidence e
      = g.consider env etype dst t minConfidence e := fun etype dst minConfidence e => by
    simp only [consider_eq, hbelief]
  have hedge : ∀ etype dst minConfidence eid, (g'.edges.get? eid).bind (g.consider env etype dst t minConfidence)
      = (g.edges.get? eid).bind (g.consider env etype dst t minConfidence) := fun etype dst minConfidence eid => by
    have := hseenAt eid
    unfold seenAt at this
    simp only [funext (consider_eq etype dst minConfidence), ← Option.bind_assoc]
    exact congrArg (fun o => Option.bind o _) this
  have hwalk : ∀ {γ : Type} (h : EdgeType → Str → List γ), (∀ ty, g.seenAt t id = none → h ty id = []) → ∀ node,
      (g'.out.get? node).toList.flatMap (fun types => types.entries.flatMap (fun te => te.2.flatMap (h te.1)))
        = (g.out.get? node).toList.flatMap (fun types => types.entries.flatMap (fun te => te.2.flatMap (h te.1))) := by
    intro γ h hid node
    rcases hout with hout | ⟨from_, ty, hout, hnone⟩
    · rw [hout]
    · rw [hout, flatMap_link h (hid ty hnone)]
  refine ⟨fun j => by rw [aliveAt_eq, aliveAt_eq, hseenAt], fun node etype minConfidence lambda => ?_,
    fun src etype dst minConfidence => ?_⟩
  · rw [neighbors_eq, neighbors_eq]
    simp only [hneighbor]
    refine hwalk (fun ty eid => if etype.any (fun want => want != ty) then []
        else ((g.edges.get? eid).bind (g.neighbor env ty t minConfidence lambda eid)).toList) (fun ty hnone => ?_) node
    rw [neighbor_eq, hnone]
    simp
  · cases src with
    | some src =>
      rw [matchEdges_some, matchEdges_some]
      simp only [funext (hconsider etype dst minConfidence), hedge]
      refine hwalk (fun _ eid => ((g.edges.get? eid).bind (g.consider env etype dst t minConfidence)).toList)
        (fun ty hnone => ?_) src
      unfold seenAt at hnone
      rw [funext (consider_eq etype dst minConfidence), ← Option.bind_assoc, hnone]
      rfl
    | none =>
      unfold TemporalGraph.matchEdges
      dsimp only
      rw [List.filterMap_eq_flatMap_toList, List.filterMap_eq_flatMap_toList, hedges]
      simp only [hconsider]
      refine SortedMap.flatMap_alter g.edges (fun ke => (g.consider env etype dst t minConfidence ke.2).toList) ?_
      have := hedge etype dst minConfidence id
      rw [hedges, SortedMap.get?_insert, if_pos rfl, Option.bind_some] at this
      dsimp only
      rw [Option.toList_some, List.flatMap_singleton, this]
      cases g.edges.get? id with
      | none => rfl
      | some e => simp

end TemporalGraph

/-! ## Beliefs -/

instance : Std.Total byHypothesis := ⟨fun a b => le_total a.hypothesisId b.hypothesisId⟩

instance : IsTrans EdgeVersion byHypothesis := ⟨fun _ _ _ => le_trans⟩

/-- No hypothesis stands twice. -/
def Distinct (vs : List EdgeVersion) : Prop := (vs.map EdgeVersion.hypothesisId).Nodup

theorem insertionSort_eq_of_perm {vs ws : List EdgeVersion} (hvs : Distinct vs) (h : vs.Perm ws) :
    vs.insertionSort byHypothesis = ws.insertionSort byHypothesis := by
  have hsort := (List.perm_insertionSort byHypothesis vs).trans (h.trans (List.perm_insertionSort byHypothesis ws).symm)
  refine hsort.eq_of_pairwise (fun a b ha hb hab hba => ?_) (List.pairwise_insertionSort _ _) (List.pairwise_insertionSort _ _)
  have ha := (List.mem_insertionSort _).1 ha
  have hb := h.mem_iff.2 ((List.mem_insertionSort _).1 hb)
  exact List.inj_on_of_nodup_map hvs ha hb (le_antisymm hab hba)

theorem distinct_addVersion {vs : List EdgeVersion} (h : Distinct vs) (v : EdgeVersion) : Distinct (addVersion vs v) := by
  unfold addVersion
  split
  · exact h
  · rename_i hnew
    unfold Distinct
    rw [List.map_append, List.nodup_append]
    refine ⟨h, List.nodup_singleton _, fun a ha b hb => ?_⟩
    obtain ⟨w, hw, rfl⟩ := List.mem_map.1 ha
    rw [List.map_singleton, List.mem_singleton] at hb
    rintro rfl
    exact hnew (List.any_eq_true.2 ⟨w, hw, beq_iff_eq.2 hb⟩)

theorem distinct_insertionSort {vs : List EdgeVersion} (h : Distinct vs) : Distinct (vs.insertionSort byHypothesis) :=
  ((List.perm_insertionSort byHypothesis vs).map _).nodup_iff.2 h

/-- A version from after `t` changes no belief as of `t`. -/
theorem aggregateAsOf_addVersion {vs : List EdgeVersion} (h : Distinct vs) {v : EdgeVersion} (hv : t < v.validFromLsn) :
    aggregateAsOf env ((addVersion vs v).insertionSort byHypothesis) t = aggregateAsOf env vs t := by
  have hfilter : (addVersion vs v).filter (fun v => decide (v.validFromLsn ≤ t))
      = vs.filter (fun v => decide (v.validFromLsn ≤ t)) := by
    unfold addVersion
    split
    · rfl
    · rw [List.filter_append, List.filter_cons, if_neg (by simpa using hv), List.filter_nil, List.append_nil]
  have hperm := (List.perm_insertionSort byHypothesis (addVersion vs v)).filter (fun v => decide (v.validFromLsn ≤ t))
  rw [hfilter] at hperm
  have hdistinct : Distinct (vs.filter (fun v => decide (v.validFromLsn ≤ t))) := h.sublist ((List.filter_sublist).map _)
  unfold aggregateAsOf
  dsimp only
  rw [hperm.isEmpty_eq, insertionSort_eq_of_perm hdistinct hperm.symm]

namespace TemporalGraph

/-! ## One mutation -/

/-- What holds of every graph: hypotheses stand once, an edge keeps its id and is linked from its origin. -/
structure Wf (g : TemporalGraph) : Prop where
  versions : ∀ id vs, g.versions.get? id = some vs → Distinct vs
  linked : ∀ id e, g.edges.get? id = some e → ∃ types ids, g.out.get? e.from_ = some types ∧
    types.get? e.etype = some ids ∧ id ∈ ids

theorem beliefAt_upsertEdge (hwf : g.Wf) {edge : Edge} {v : EdgeVersion} (hv : t < v.validFromLsn) (id : Str) :
    (g.upsertEdge edge [v]).beliefAt env id t = g.beliefAt env id t := by
  have hversions : (g.upsertEdge edge [v]).versions = g.versions.alter edge.id (fun entry =>
      some ((addVersion (entry.getD []) v).insertionSort byHypothesis)) := by
    unfold upsertEdge
    dsimp only
    split <;> rfl
  unfold beliefAt
  rw [hversions, SortedMap.get?_alter]
  by_cases hid : id = edge.id
  · rw [if_pos hid, hid]
    cases hget : g.versions.get? edge.id with
    | none => exact aggregateAsOf_addVersion (show Distinct [] from List.nodup_nil) hv
    | some vs => exact aggregateAsOf_addVersion (hwf.versions _ _ hget) hv
  · rw [if_neg hid]

theorem edges_upsertEdge (edge : Edge) (vs : List EdgeVersion) : (g.upsertEdge edge vs).edges
    = g.edges.insert edge.id (((g.edges.get? edge.id).map (·.reopen edge)).getD edge) := by
  unfold upsertEdge
  dsimp only
  split
  · rename_i hget
    rw [hget]
    rfl
  · rename_i hget
    rw [hget]
    rfl

theorem out_upsertEdge (edge : Edge) (vs : List EdgeVersion) : (g.upsertEdge edge vs).out
    = if (g.edges.get? edge.id).isSome then g.out else link g.out edge.from_ edge.etype edge.id := by
  unfold upsertEdge
  dsimp only
  split
  · rename_i hget
    rw [hget]
    rfl
  · rename_i hget
    rw [hget]
    rfl

end TemporalGraph

/-- Closing an edge, unless it is closed. -/
def Edge.close (lsn : Nat) (e : Edge) : Edge := { e with validToLsn := some (e.validToLsn.getD lsn) }

/-- What events do to one edge. -/
inductive EdgeOp where
  | assert | close
  deriving DecidableEq

def Mutation.opOn (id : Str) : Mutation → Option EdgeOp
  | .close j => if j = id then some .close else none
  | .assert edge _ => if edge.id = id then some .assert else none

/-- The edge that a mutation asserts begins its life at the event. -/
def Mutation.Fresh (lsn : Nat) : Mutation → Prop
  | .close _ => True
  | .assert edge version => edge.validFromLsn = lsn ∧ edge.validToLsn = none ∧ edge.closedIntervals = [] ∧
      version.validFromLsn = lsn

theorem fresh_of_mem_mutations {lsn : Nat} {e : Episode} {m : Mutation} (h : m ∈ mutations env lsn e) : m.Fresh lsn := by
  unfold mutations at h
  split at h
  · split at h
    · rw [List.mem_singleton] at h
      subst h
      trivial
    · rw [List.mem_singleton] at h
      subst h
      exact ⟨rfl, rfl, rfl, rfl⟩
  · obtain ⟨p, -, rfl⟩ := List.mem_map.1 h
    exact ⟨rfl, rfl, rfl, rfl⟩

theorem Edge.aliveAt_close {e : Edge} (h : t < lsn) : (e.close lsn).aliveAt t = e.aliveAt t := by
  unfold Edge.close Edge.aliveAt
  cases e.validToLsn <;> simp [h]

/-- A new life after `t` leaves open whether the edge lived at `t`. -/
theorem Edge.aliveAt_reopen {e edge : Edge} (h : t < edge.validFromLsn) : (e.reopen edge).aliveAt t = e.aliveAt t := by
  unfold Edge.reopen
  cases hto : e.validToLsn with
  | none => rfl
  | some closedAt =>
    unfold Edge.aliveAt
    simp [hto, Nat.not_le.2 h, Bool.or_comm]

/-- How an edge stands to the instant `t`, seen from later: it did not live at `t`, or it did and still lives the same
life, or that life ended, or another life began. -/
inductive Phase where
  | dead | living | ended | reborn
  deriving DecidableEq

def Phase.next : Phase → EdgeOp → Phase
  | .living, .close => .ended
  | .ended, .assert => .reborn
  | p, _ => p

def Edge.phase (t : Nat) (e : Edge) : Phase :=
  if !e.aliveAt t then .dead
  else if t < e.validFromLsn then .reborn
  else if e.validToLsn.isNone then .living else .ended

def TemporalGraph.phase (g : TemporalGraph) (t : Nat) (id : Str) : Phase := ((g.edges.get? id).map (Edge.phase t)).getD .dead

theorem Edge.phase_close {e : Edge} (h : t < lsn) : (e.close lsn).phase t = (e.phase t).next .close := by
  unfold Edge.phase
  rw [Edge.aliveAt_close h]
  unfold Edge.close
  cases e.aliveAt t with
  | false => rfl
  | true =>
    by_cases hfrom : t < e.validFromLsn
    · simp [hfrom, Phase.next]
    · cases e.validToLsn <;> simp [hfrom, Phase.next]

theorem Edge.phase_reopen {e edge : Edge} (h : t < edge.validFromLsn) :
    (e.reopen edge).phase t = (e.phase t).next .assert := by
  unfold Edge.phase
  rw [Edge.aliveAt_reopen h]
  unfold Edge.reopen
  cases hto : e.validToLsn with
  | none =>
    cases e.aliveAt t with
    | false => rfl
    | true => by_cases hfrom : t < e.validFromLsn <;> simp [hfrom, hto, Phase.next]
  | some closedAt =>
    cases e.aliveAt t with
    | false => rfl
    | true => by_cases hfrom : t < e.validFromLsn <;> simp [hfrom, h, Phase.next]

theorem Edge.phase_fresh {e : Edge} (h : t < e.validFromLsn) (hclosed : e.closedIntervals = []) : e.phase t = .dead := by
  have : e.aliveAt t = false := by simp [Edge.aliveAt, hclosed, Nat.not_le.2 h]
  rw [Edge.phase, this]
  rfl

namespace TemporalGraph

theorem closeEdge_eq (id : Str) (lsn : Nat) : g.closeEdge id lsn
    = { g with edges := g.edges.alter id (fun o => o.map (Edge.close lsn)) } := by
  unfold closeEdge
  cases hget : g.edges.get? id with
  | none =>
    have : g.edges.alter id (fun o => o.map (Edge.close lsn)) = g.edges := by
      ext1 j
      rw [SortedMap.get?_alter]
      split
      · rename_i hj
        rw [hj, hget]
        rfl
      · rfl
    rw [this]
  | some e =>
    have : g.edges.alter id (fun o => o.map (Edge.close lsn)) = g.edges.insert id (e.close lsn) := by
      ext1 j
      rw [SortedMap.get?_alter, SortedMap.get?_insert, hget]
      rfl
    rw [this]
    rfl

/-- **A mutation after `t` moves the phase of its edge**, and of no other. -/
theorem phase_mutate {m : Mutation} (hm : m.Fresh lsn) (ht : t < lsn) (id : Str) :
    (g.mutate lsn m).phase t id = (m.opOn id).toList.foldl Phase.next (g.phase t id) := by
  unfold phase
  cases m with
  | close j =>
    rw [mutate, closeEdge_eq, Mutation.opOn, SortedMap.get?_alter]
    by_cases hj : j = id
    · subst hj
      rw [if_pos rfl, if_pos rfl]
      cases g.edges.get? j with
      | none => rfl
      | some e => exact Edge.phase_close ht
    · rw [if_neg (Ne.symm hj), if_neg hj]
      rfl
  | assert edge version =>
    obtain ⟨hfrom, -, hclosed, -⟩ := hm
    have ht' : t < edge.validFromLsn := hfrom ▸ ht
    rw [mutate, edges_upsertEdge, Mutation.opOn, SortedMap.get?_insert]
    by_cases hj : edge.id = id
    · rw [if_pos hj.symm, if_pos hj, hj]
      cases g.edges.get? id with
      | none => exact Edge.phase_fresh ht' hclosed
      | some e => exact Edge.phase_reopen ht'
    · rw [if_neg (Ne.symm hj), if_neg hj]
      rfl

/-- **A mutation after `t` that gives no edge of `t` another life** changes no read as of `t`. -/
theorem sameReads_mutate (hwf : g.Wf) {m : Mutation} (hm : m.Fresh lsn) (ht : t < lsn)
    (hphase : ∀ id, (g.mutate lsn m).phase t id ≠ .reborn) : SameReads env t (g.mutate lsn m) g := by
  cases m with
  | close j =>
    rw [mutate, closeEdge]
    cases hget : g.edges.get? j with
    | none => exact .refl g
    | some e =>
      have hseen : (e.close lsn).seen t = g.seenAt t j := by
        rw [seenAt, hget, Option.bind_some, Edge.seen, Edge.seen, Edge.aliveAt_close ht]
        rfl
      refine .of_write ?_ hseen (.inl rfl) (fun _ => rfl)
      rfl
  | assert edge version =>
    obtain ⟨hfrom, -, hclosed, hversion⟩ := id hm
    have ht' : t < edge.validFromLsn := hfrom ▸ ht
    have hbelief : ∀ j, (g.upsertEdge edge [version]).beliefAt env j t = g.beliefAt env j t :=
      beliefAt_upsertEdge hwf (hversion ▸ ht)
    refine .of_write (edges_upsertEdge edge [version]) ?_ ?_ hbelief
    · cases hget : g.edges.get? edge.id with
      | none =>
        have : edge.aliveAt t = false := by simp [Edge.aliveAt, hclosed, Nat.not_le.2 ht']
        rw [seenAt, hget, Option.map_none, Option.getD_none, Edge.seen, this]
        rfl
      | some e =>
        have hnot := hphase edge.id
        rw [phase_mutate hm ht, Mutation.opOn, if_pos rfl, phase, hget] at hnot
        have hnot : (e.phase t).next .assert ≠ .reborn := hnot
        rw [seenAt, hget, Option.map_some, Option.getD_some, Option.bind_some, Edge.seen, Edge.seen, Edge.aliveAt_reopen ht']
        unfold Edge.phase at hnot
        cases halive : e.aliveAt t with
        | false => rfl
        | true =>
          cases hto : e.validToLsn with
          | none => simp [Edge.reopen, hto]
          | some closedAt => by_cases hle : t < e.validFromLsn <;> simp [halive, hto, hle, Phase.next] at hnot
    · rw [mutate, out_upsertEdge]
      cases hget : g.edges.get? edge.id with
      | none => exact .inr ⟨edge.from_, edge.etype, rfl, by rw [seenAt, hget]; rfl⟩
      | some e => exact .inl rfl

/-! ## Every graph is well formed -/

/-- The id is linked under the node and the type. -/
def Linked (out : SortedMap Str (SortedMap EdgeType (List Str))) (node : Str) (ty : EdgeType) (id : Str) : Prop :=
  ∃ types ids, out.get? node = some types ∧ types.get? ty = some ids ∧ id ∈ ids

theorem linked_link (out : SortedMap Str (SortedMap EdgeType (List Str))) (node : Str) (ty : EdgeType) (id : Str) :
    Linked (link out node ty id) node ty id := by
  refine ⟨_, _, by rw [link, SortedMap.get?_alter, if_pos rfl], by rw [SortedMap.get?_alter, if_pos rfl], ?_⟩
  simp

theorem Linked.link {out : SortedMap Str (SortedMap EdgeType (List Str))} {node : Str} {ty : EdgeType} {id : Str}
    (h : Linked out node ty id) (node' : Str) (ty' : EdgeType) (id' : Str) : Linked (link out node' ty' id') node ty id := by
  obtain ⟨types, ids, htypes, hids, hid⟩ := h
  by_cases hnode : node = node'
  · subst hnode
    refine ⟨types.alter ty' (fun ids => some (ids.getD [] ++ [id'])), ?_⟩
    by_cases hty : ty = ty'
    · subst hty
      refine ⟨ids ++ [id'], by rw [Temporal.link, SortedMap.get?_alter, if_pos rfl, htypes]; rfl, ?_, by simp [hid]⟩
      rw [SortedMap.get?_alter, if_pos rfl, hids]
      rfl
    · refine ⟨ids, by rw [Temporal.link, SortedMap.get?_alter, if_pos rfl, htypes]; rfl, ?_, hid⟩
      rw [SortedMap.get?_alter, if_neg hty, hids]
  · exact ⟨types, ids, by rw [Temporal.link, SortedMap.get?_alter, if_neg hnode, htypes], hids, hid⟩

theorem Wf.mutate (h : g.Wf) (m : Mutation) : (g.mutate lsn m).Wf := by
  cases m with
  | close j =>
    rw [TemporalGraph.mutate, closeEdge_eq]
    refine ⟨h.versions, fun id e he => ?_⟩
    rw [SortedMap.get?_alter] at he
    split at he
    · rename_i hid
      obtain ⟨e₀, he₀, rfl⟩ := Option.map_eq_some_iff.1 he
      rw [hid]
      exact h.linked j e₀ he₀
    · exact h.linked id e he
  | assert edge version =>
    rw [TemporalGraph.mutate]
    have hversions : (g.upsertEdge edge [version]).versions = g.versions.alter edge.id (fun entry =>
        some ((addVersion (entry.getD []) version).insertionSort byHypothesis)) := by
      unfold upsertEdge
      dsimp only
      split <;> rfl
    refine ⟨fun id vs hvs => ?_, fun id e he => ?_⟩
    · rw [hversions, SortedMap.get?_alter] at hvs
      split at hvs
      · cases hvs
        refine distinct_insertionSort (distinct_addVersion ?_ version)
        cases hget : g.versions.get? edge.id with
        | none => exact List.nodup_nil
        | some vs => exact h.versions _ vs hget
      · exact h.versions id vs hvs
    · rw [edges_upsertEdge, SortedMap.get?_insert] at he
      rw [out_upsertEdge]
      cases hget : g.edges.get? edge.id with
      | none =>
        rw [hget] at he
        rw [if_neg (by simp)]
        split at he
        · rename_i hid
          cases he
          exact hid ▸ linked_link _ _ _ _
        · exact Linked.link (h.linked id e he) _ _ _
      | some e₀ =>
        rw [hget] at he
        rw [if_pos (show (some e₀).isSome = true from rfl)]
        split at he
        · rename_i hid
          cases he
          have hkeep : (e₀.reopen edge).from_ = e₀.from_ ∧ (e₀.reopen edge).etype = e₀.etype := by
            unfold Edge.reopen
            split <;> exact ⟨rfl, rfl⟩
          rw [hid, Option.map_some, Option.getD_some, hkeep.1, hkeep.2]
          exact h.linked edge.id e₀ hget
        · exact h.linked id e he

/-! ## After `t` -/

theorem foldl_next_dead : ∀ ops : List EdgeOp, ops.foldl Phase.next .dead = .dead
  | [] => rfl
  | .assert :: ops | .close :: ops => foldl_next_dead ops

theorem foldl_next_reborn : ∀ ops : List EdgeOp, ops.foldl Phase.next .reborn = .reborn
  | [] => rfl
  | .assert :: ops | .close :: ops => foldl_next_reborn ops

theorem foldl_next_ended : ∀ ops : List EdgeOp, ops.foldl Phase.next .ended = .reborn ↔ .assert ∈ ops
  | [] => by simp
  | .assert :: ops => by simp [Phase.next, foldl_next_reborn]
  | .close :: ops => by simpa [Phase.next] using foldl_next_ended ops

/-- **A living edge is reborn by a close and a later assert.** -/
theorem foldl_next_living : ∀ ops : List EdgeOp,
    ops.foldl Phase.next .living = .reborn ↔ [EdgeOp.close, .assert].Sublist ops
  | [] => by simp
  | .assert :: ops => by
    have hnext : Phase.living.next .assert = .living := rfl
    rw [List.foldl_cons, hnext, foldl_next_living ops, List.cons_sublist_cons']
    simp
  | .close :: ops => by
    rw [List.foldl_cons, List.cons_sublist_cons, List.singleton_sublist]
    exact foldl_next_ended ops

/-- A mutation moves nothing but edges, their links and their versions. -/
theorem phase_foldl (ht : t < lsn) (id : Str) : ∀ (ms : List Mutation) (g : TemporalGraph), (∀ m ∈ ms, m.Fresh lsn) →
    (ms.foldl (mutate lsn) g).phase t id = (ms.filterMap (Mutation.opOn id)).foldl Phase.next (g.phase t id)
  | [], _, _ => rfl
  | m :: ms, g, h => by
    rw [List.foldl_cons, phase_foldl ht id ms _ (fun m' hm' => h m' (List.mem_cons_of_mem m hm')),
      phase_mutate (h m List.mem_cons_self) ht, List.filterMap_cons]
    cases m.opOn id <;> rfl

theorem wf_foldl (ms : List Mutation) (h : g.Wf) : (ms.foldl (mutate lsn) g).Wf :=
  foldl_preserves (P := Wf) (fun _ m hg => hg.mutate m) ms g h

theorem sameReads_foldl (ht : t < lsn) : ∀ (ms : List Mutation) (g : TemporalGraph), g.Wf → (∀ m ∈ ms, m.Fresh lsn) →
    (∀ id, (ms.foldl (mutate lsn) g).phase t id ≠ .reborn) → SameReads env t (ms.foldl (mutate lsn) g) g
  | [], g, _, _, _ => .refl g
  | m :: ms, g, hwf, hfresh, hphase => by
    have hm := hfresh m List.mem_cons_self
    have hms : ∀ m' ∈ ms, m'.Fresh lsn := fun m' hm' => hfresh m' (List.mem_cons_of_mem m hm')
    have hrest := sameReads_foldl ht ms _ (hwf.mutate m) hms hphase
    refine hrest.trans (sameReads_mutate hwf hm ht fun id hreborn => hphase id ?_)
    rw [List.foldl_cons, phase_foldl ht id ms _ hms, hreborn, foldl_next_reborn]

end TemporalGraph

/-- What the events of a log do to one edge, in order. -/
def history (env : Env) (id : Str) (log : List (Nat × Episode)) : List EdgeOp :=
  log.flatMap (fun r => (mutations env r.1 r.2).filterMap (Mutation.opOn id))

theorem history_cons (r : Nat × Episode) (log : List (Nat × Episode)) :
    history env id (r :: log) = (mutations env r.1 r.2).filterMap (Mutation.opOn id) ++ history env id log := List.flatMap_cons

namespace TemporalGraph

theorem Wf.applyEpisode (h : g.Wf) (r : Nat × Episode) : (g.applyEpisode env r).Wf :=
  have hwf : ((mutations env r.1 r.2).foldl (TemporalGraph.mutate r.1) g).Wf := wf_foldl _ h
  ⟨hwf.versions, hwf.linked⟩

theorem wf_log (h : g.Wf) (log : List (Nat × Episode)) : (log.foldl (applyEpisode env) g).Wf :=
  foldl_preserves (P := Wf) (fun _ r hg => hg.applyEpisode r) log g h

theorem phase_log (id : Str) : ∀ (log : List (Nat × Episode)) (g : TemporalGraph), (∀ r ∈ log, t < r.1) →
    (log.foldl (applyEpisode env) g).phase t id = (history env id log).foldl Phase.next (g.phase t id)
  | [], _, _ => rfl
  | r :: log, g, h => by
    have hr : (g.applyEpisode env r).phase t id
        = ((mutations env r.1 r.2).filterMap (Mutation.opOn id)).foldl Phase.next (g.phase t id) :=
      phase_foldl (h r List.mem_cons_self) id _ g (fun _ => fresh_of_mem_mutations)
    rw [List.foldl_cons, phase_log id log _ (fun r' hr' => h r' (List.mem_cons_of_mem r hr')), hr, history_cons,
      List.foldl_append]

theorem sameReads_log : ∀ (log : List (Nat × Episode)) (g : TemporalGraph), g.Wf → (∀ r ∈ log, t < r.1) →
    (∀ id, (log.foldl (applyEpisode env) g).phase t id ≠ .reborn) → SameReads env t (log.foldl (applyEpisode env) g) g
  | [], g, _, _, _ => .refl g
  | r :: log, g, hwf, hlsn, hphase => by
    have hlog : ∀ r' ∈ log, t < r'.1 := fun r' hr' => hlsn r' (List.mem_cons_of_mem r hr')
    have hfresh : ∀ m ∈ mutations env r.1 r.2, m.Fresh r.1 := fun _ => fresh_of_mem_mutations
    have hrest := sameReads_log log (g.applyEpisode env r) (hwf.applyEpisode r) hlog hphase
    have hone : SameReads env t (g.applyEpisode env r) ((mutations env r.1 r.2).foldl (mutate r.1) g) :=
      ⟨fun _ => rfl, fun _ _ _ _ => rfl, fun _ _ _ _ => rfl⟩
    refine (hrest.trans hone).trans
      (sameReads_foldl (hlsn r List.mem_cons_self) _ g hwf hfresh fun id hreborn => hphase id ?_)
    have hr : (g.applyEpisode env r).phase t id = .reborn := hreborn
    rw [List.foldl_cons, phase_log id log _ hlog, hr, foldl_next_reborn]

end TemporalGraph

/-! ## Up to `t` -/

/-- Every LSN in the edge is at most `t`. -/
structure Edge.Settled (t : Nat) (e : Edge) : Prop where
  start : e.validFromLsn ≤ t
  stop : ∀ c, e.validToLsn = some c → c ≤ t
  closed : ∀ i ∈ e.closedIntervals, i.2 ≤ t

theorem Edge.Settled.close {e : Edge} (h : e.Settled t) (ht : lsn ≤ t) : (e.close lsn).Settled t := by
  refine ⟨h.start, fun c hc => ?_, h.closed⟩
  cases hto : e.validToLsn with
  | none =>
    simp only [Edge.close, hto, Option.getD_none, Option.some.injEq] at hc
    exact hc ▸ ht
  | some c' =>
    simp only [Edge.close, hto, Option.getD_some, Option.some.injEq] at hc
    exact hc ▸ h.stop c' hto

theorem Edge.Settled.reopen {e edge : Edge} (h : e.Settled t) (ht : edge.validFromLsn ≤ t) : (e.reopen edge).Settled t := by
  unfold Edge.reopen
  cases hto : e.validToLsn with
  | none => exact h
  | some closedAt =>
    refine ⟨ht, nofun, fun i hi => ?_⟩
    rcases List.mem_append.1 hi with hi | hi
    · exact h.closed i hi
    · rw [List.mem_singleton] at hi
      exact hi ▸ h.stop closedAt hto

/-- An edge whose history is over by `t` lives at `t` exactly when it is open. -/
theorem Edge.Settled.phase_eq {e : Edge} (h : e.Settled t) :
    e.phase t = if e.validToLsn.isNone then .living else .dead := by
  have hclosed : e.closedIntervals.any (fun i => decide (i.1 ≤ t) && decide (t < i.2)) = false :=
    List.any_eq_false.2 fun i hi => by simp [Nat.not_lt.2 (h.closed i hi)]
  unfold Edge.phase Edge.aliveAt
  cases hto : e.validToLsn with
  | none => simp [h.start, Nat.not_lt.2 h.start]
  | some c => simp [hclosed, Nat.not_lt.2 (h.stop c hto)]

/-- What an operation leaves open. -/
def EdgeOp.opens (_ : Bool) (op : EdgeOp) : Bool := decide (op = .assert)

namespace TemporalGraph

def isOpen (g : TemporalGraph) (id : Str) : Bool := (g.edges.get? id).any (fun e => e.validToLsn.isNone)

def Settled (t : Nat) (g : TemporalGraph) : Prop := ∀ id e, g.edges.get? id = some e → e.Settled t

theorem isOpen_mutate {m : Mutation} (hm : m.Fresh lsn) (id : Str) :
    (g.mutate lsn m).isOpen id = (m.opOn id).toList.foldl EdgeOp.opens (g.isOpen id) := by
  unfold isOpen
  cases m with
  | close j =>
    rw [mutate, closeEdge_eq, Mutation.opOn, SortedMap.get?_alter]
    by_cases hj : j = id
    · subst hj
      rw [if_pos rfl, if_pos rfl]
      cases g.edges.get? j <;> rfl
    · rw [if_neg (Ne.symm hj), if_neg hj]
      rfl
  | assert edge version =>
    obtain ⟨-, hto, -, -⟩ := hm
    rw [mutate, edges_upsertEdge, Mutation.opOn, SortedMap.get?_insert]
    by_cases hj : edge.id = id
    · rw [if_pos hj.symm, if_pos hj, hj]
      cases g.edges.get? id with
      | none => simp [hto, EdgeOp.opens]
      | some e =>
        simp only [Option.map_some, Option.getD_some, Option.any_some, Edge.reopen]
        split <;> simp_all [EdgeOp.opens]
    · rw [if_neg (Ne.symm hj), if_neg hj]
      rfl

theorem Settled.mutate (h : g.Settled t) {m : Mutation} (hm : m.Fresh lsn) (ht : lsn ≤ t) : (g.mutate lsn m).Settled t := by
  cases m with
  | close j =>
    intro id e he
    rw [TemporalGraph.mutate, closeEdge_eq, SortedMap.get?_alter] at he
    split at he
    · obtain ⟨e₀, he₀, rfl⟩ := Option.map_eq_some_iff.1 he
      exact (h j e₀ he₀).close ht
    · exact h id e he
  | assert edge version =>
    obtain ⟨hfrom, hto, hclosed, -⟩ := hm
    have ht' : edge.validFromLsn ≤ t := hfrom ▸ ht
    intro id e he
    rw [TemporalGraph.mutate, edges_upsertEdge, SortedMap.get?_insert] at he
    split at he
    · cases hget : g.edges.get? edge.id with
      | none =>
        rw [hget, Option.map_none, Option.getD_none, Option.some.injEq] at he
        subst he
        exact ⟨ht', by rw [hto]; exact nofun, by rw [hclosed]; exact nofun⟩
      | some e₀ =>
        rw [hget] at he
        cases he
        exact (h edge.id e₀ hget).reopen ht'
    · exact h id e he

/-- The events up to `t`: every edge is settled, and open when its last operation is an assert. -/
theorem settled_foldl (ht : lsn ≤ t) (id : Str) : ∀ (ms : List Mutation) (g : TemporalGraph), g.Settled t →
    (∀ m ∈ ms, m.Fresh lsn) → (ms.foldl (TemporalGraph.mutate lsn) g).Settled t ∧
      (ms.foldl (TemporalGraph.mutate lsn) g).isOpen id = (ms.filterMap (Mutation.opOn id)).foldl EdgeOp.opens (g.isOpen id)
  | [], g, h, _ => ⟨h, rfl⟩
  | m :: ms, g, h, hfresh => by
    have hm := hfresh m List.mem_cons_self
    obtain ⟨hsettled, hopen⟩ := settled_foldl ht id ms _ (h.mutate hm ht) (fun m' hm' => hfresh m' (List.mem_cons_of_mem m hm'))
    refine ⟨hsettled, ?_⟩
    rw [List.foldl_cons, hopen, isOpen_mutate hm, List.filterMap_cons]
    cases m.opOn id <;> rfl

theorem settled_log (id : Str) : ∀ (log : List (Nat × Episode)) (g : TemporalGraph), g.Settled t → (∀ r ∈ log, r.1 ≤ t) →
    (log.foldl (applyEpisode env) g).Settled t ∧
      (log.foldl (applyEpisode env) g).isOpen id = (history env id log).foldl EdgeOp.opens (g.isOpen id)
  | [], g, h, _ => ⟨h, rfl⟩
  | r :: log, g, h, hlsn => by
    obtain ⟨hsettled, hopen⟩ := settled_foldl (hlsn r List.mem_cons_self) id (mutations env r.1 r.2) g h
      (fun _ => fresh_of_mem_mutations)
    have hr : (g.applyEpisode env r).Settled t := hsettled
    have hopen : (g.applyEpisode env r).isOpen id
        = ((mutations env r.1 r.2).filterMap (Mutation.opOn id)).foldl EdgeOp.opens (g.isOpen id) := hopen
    obtain ⟨hlog, hlogOpen⟩ := settled_log id log (g.applyEpisode env r) hr (fun r' hr' => hlsn r' (List.mem_cons_of_mem r hr'))
    refine ⟨hlog, ?_⟩
    rw [List.foldl_cons, hlogOpen, hopen, history_cons, List.foldl_append]

theorem foldl_opens (ops : List EdgeOp) : ops.foldl EdgeOp.opens false = decide (ops.getLast? = some .assert) := by
  rcases List.eq_nil_or_concat ops with rfl | ⟨init, op, rfl⟩
  · rfl
  · rw [List.concat_eq_append, List.foldl_append, List.getLast?_concat]
    cases op <;> rfl

/-- **Up to `t` an edge lives or does not**, by its last operation. -/
theorem phase_settled {log : List (Nat × Episode)} (h : ∀ r ∈ log, r.1 ≤ t) (id : Str) :
    (ofLog env log).phase t id = if (history env id log).getLast? = some .assert then .living else .dead := by
  obtain ⟨hsettled, hopen⟩ : (ofLog env log).Settled t ∧ _ := settled_log id log {} nofun h
  have hfalse : ({} : TemporalGraph).isOpen id = false := rfl
  rw [hfalse, foldl_opens] at hopen
  have hopen : (ofLog env log).isOpen id = decide ((history env id log).getLast? = some .assert) := hopen
  unfold phase
  unfold isOpen at hopen
  cases hget : (ofLog env log).edges.get? id with
  | none =>
    rw [hget] at hopen
    rw [if_neg (of_decide_eq_false hopen.symm)]
    rfl
  | some e =>
    rw [hget, Option.any_some] at hopen
    rw [Option.map_some, Option.getD_some, (hsettled id e hget).phase_eq, hopen]
    simp

end TemporalGraph

/-! ## The whole log and its prefix -/

/-- The last thing that happens to the edge up to `t` is an assert, and later it is closed and then asserted again. -/
def ReopenedAfter (env : Env) (log : List (Nat × Episode)) (t : Nat) (id : Str) : Prop :=
  (history env id (log.filter (fun r => decide (r.1 ≤ t)))).getLast? = some .assert ∧
    [EdgeOp.close, .assert].Sublist (history env id (log.filter (fun r => decide (t < r.1))))

namespace TemporalGraph

theorem split_log : ∀ {log : List (Nat × Episode)}, log.Pairwise (fun a b => a.1 < b.1) →
    log = log.filter (fun r => decide (r.1 ≤ t)) ++ log.filter (fun r => decide (t < r.1))
  | [], _ => rfl
  | r :: log, h => by
    obtain ⟨hr, hlog⟩ := List.pairwise_cons.1 h
    by_cases hle : r.1 ≤ t
    · rw [List.filter_cons_of_pos (by simpa using hle), List.filter_cons_of_neg (by simpa using hle), List.cons_append,
        ← split_log hlog]
    · have hrest : log.filter (fun r => decide (r.1 ≤ t)) = [] :=
        List.filter_eq_nil_iff.2 fun r' hr' => by
          have := hr r' hr'
          simp only [decide_eq_true_eq]
          omega
      have hall : log.filter (fun r => decide (t < r.1)) = log := by
        rw [← List.nil_append (log.filter _), ← hrest]
        exact (split_log hlog).symm
      rw [List.filter_cons_of_neg (by simpa using hle), List.filter_cons_of_pos (by simpa using Nat.not_le.1 hle), hrest, hall,
        List.nil_append]

theorem ofLog_split {log : List (Nat × Episode)} (h : log.Pairwise (fun a b => a.1 < b.1)) (t : Nat) :
    ofLog env log = (log.filter (fun r => decide (t < r.1))).foldl (applyEpisode env)
      (ofLog env (log.filter (fun r => decide (r.1 ≤ t)))) := by
  have hfold := congrArg (fun l => l.foldl (applyEpisode env) {}) (split_log (t := t) h)
  rwa [List.foldl_append] at hfold

theorem phase_reborn_iff {log : List (Nat × Episode)} (h : log.Pairwise (fun a b => a.1 < b.1)) (id : Str) :
    (ofLog env log).phase t id = .reborn ↔ ReopenedAfter env log t id := by
  have hlast : (ofLog env (log.filter (fun r => decide (r.1 ≤ t)))).phase t id = _ :=
    phase_settled (fun r hr => of_decide_eq_true (List.mem_filter.1 hr).2) id
  rw [ofLog_split h t, phase_log id _ _ (fun r hr => of_decide_eq_true (List.mem_filter.1 hr).2), hlast]
  unfold ReopenedAfter
  split
  · rename_i hassert
    rw [foldl_next_living]
    exact ⟨fun h => ⟨hassert, h⟩, And.right⟩
  · rename_i hassert
    rw [foldl_next_dead]
    exact ⟨nofun, fun h => absurd h.1 hassert⟩

/-- A quiet NaN: no belief is less. -/
def anyConfidence : F32 := 0x7fc00000

/-- **A reborn edge shows**: a neighbour of its origin has an LSN after `t`. -/
theorem neighbor_of_reborn (hwf : g.Wf) (h : g.phase t id = .reborn) :
    ∃ node nb, nb ∈ g.neighbors env node none t anyConfidence 0 ∧ t < nb.lsn := by
  unfold phase at h
  cases hget : g.edges.get? id with
  | none =>
    rw [hget] at h
    cases h
  | some e =>
    rw [hget, Option.map_some, Option.getD_some, Edge.phase] at h
    cases halive : e.aliveAt t with
    | false =>
      rw [halive] at h
      cases h
    | true =>
      rw [halive] at h
      by_cases hlt : t < e.validFromLsn
      · obtain ⟨types, ids, htypes, hids, hid⟩ := hwf.linked id e hget
        refine ⟨e.from_, ⟨id, e.to_, e.etype, g.beliefAt env id t,
          env.weight (g.beliefAt env id t) 0 (t - e.validFromLsn), e.validFromLsn⟩, ?_, hlt⟩
        have hconf : f32Lt (g.beliefAt env id t) anyConfidence = false := by
          unfold f32Lt
          rw [show isNan anyConfidence = true by decide]
          simp
        rw [neighbors_eq, htypes]
        simp only [Option.toList_some, List.flatMap_singleton, Option.any_none, Bool.false_eq_true, if_false]
        refine List.mem_flatMap.2 ⟨(e.etype, ids), SortedMap.get?_eq_some.1 hids, List.mem_flatMap.2 ⟨id, hid, ?_⟩⟩
        rw [hget, Option.bind_some, neighbor, halive, Bool.not_true, if_neg Bool.false_ne_true]
        dsimp only
        rw [hconf]
        simp
      · rw [Bool.not_true, if_neg Bool.false_ne_true, if_neg hlt] at h
        split at h <;> cases h

theorem lsn_le_of_settled (h : g.Settled t) {node : Str} {etype : Option EdgeType} {minConfidence lambda : F32}
    {nb : Neighbor} (hnb : nb ∈ g.neighbors env node etype t minConfidence lambda) : nb.lsn ≤ t := by
  rw [neighbors_eq] at hnb
  obtain ⟨types, -, hnb⟩ := List.mem_flatMap.1 hnb
  obtain ⟨te, -, hnb⟩ := List.mem_flatMap.1 hnb
  obtain ⟨eid, -, hnb⟩ := List.mem_flatMap.1 hnb
  split at hnb
  · cases hnb
  · obtain ⟨e, he, hnb⟩ := Option.bind_eq_some_iff.1 (Option.mem_toList.1 hnb)
    unfold neighbor at hnb
    split at hnb
    · cases hnb
    · dsimp only at hnb
      split at hnb
      · cases hnb
      · cases hnb
        exact (h eid e he).start

end TemporalGraph

open TemporalGraph

/-- **A read `AS OF t` of the whole graph is the same read of the graph up to `t`, exactly when no edge that lives at `t`
is closed later and then asserted again.** -/
theorem asOf_eq_prefix_iff (env : Env) {log : List (Nat × Episode)} (h : log.Pairwise (fun a b => a.1 < b.1)) (t : Nat) :
    SameReads env t (ofLog env log) (ofLog env (log.filter (fun r => decide (r.1 ≤ t)))) ↔
      ∀ id, ¬ReopenedAfter env log t id := by
  have hempty : ({} : TemporalGraph).Wf := ⟨nofun, nofun⟩
  constructor
  · intro hreads id hre
    have hreborn : (ofLog env log).phase t id = .reborn := (phase_reborn_iff h id).2 hre
    obtain ⟨node, nb, hnb, hlt⟩ : ∃ node nb, nb ∈ (ofLog env log).neighbors env node none t anyConfidence 0 ∧ t < nb.lsn :=
      neighbor_of_reborn (wf_log hempty log) hreborn
    rw [hreads.neighbors] at hnb
    have hle := lsn_le_of_settled (settled_log id _ {} nofun
      (fun r hr => of_decide_eq_true (List.mem_filter.1 hr).2)).1 hnb
    omega
  · intro hnot
    have hphase : ∀ id, (ofLog env log).phase t id ≠ .reborn := fun id hre => hnot id ((phase_reborn_iff h id).1 hre)
    rw [ofLog_split h t] at hphase ⊢
    exact sameReads_log _ _ (wf_log hempty _) (fun r hr => of_decide_eq_true (List.mem_filter.1 hr).2) hphase

/-! ## One edge, retracted and asserted again -/

/-- `Alfa` becomes a partner of `Maria`, stops, and becomes one again. -/
def edgeEvent (op : String) : Episode :=
  { Episode.new 1 "ag".toList .observation [] with
    attrs := (((SortedMap.empty.insert "edge_from".toList "Alfa".toList).insert "edge_to".toList "Maria".toList).insert
      "edge_type".toList "socio_de".toList).insert "edge_op".toList op.toList }

def reopeningLog : List (Nat × Episode) := [(1, edgeEvent "assert"), (5, edgeEvent "retract"), (9, edgeEvent "assert")]

/-- Every belief is that of one supporting version of confidence 1, clamped to 0.9999; nothing decays. -/
def sampleEnv : Env where
  parseF32 _ := none
  ulidText _ := List.replicate 25 '0' ++ ['1']
  aggregate _ := 0x3f7ff972
  weight belief _ _ := belief

theorem asOf_eq_prefix_iff_sample : reopeningLog.Pairwise (fun a b => a.1 < b.1) ∧
    (SameReads sampleEnv 3 (ofLog sampleEnv reopeningLog)
        (ofLog sampleEnv (reopeningLog.filter (fun r => decide (r.1 ≤ 3)))) ↔
      ∀ id, ¬ReopenedAfter sampleEnv reopeningLog 3 id) :=
  ⟨by decide, asOf_eq_prefix_iff sampleEnv (by decide) 3⟩

/-- **The neighbour of `Alfa` as of LSN 3** has LSN 9 in the whole graph, 1 in the graph up to 3. -/
theorem neighbors_change_the_past :
    ((ofLog sampleEnv reopeningLog).neighbors sampleEnv "Alfa".toList none 3 0 0).map Neighbor.lsn = [9] ∧
      ((ofLog sampleEnv (reopeningLog.filter (fun r => decide (r.1 ≤ 3)))).neighbors sampleEnv "Alfa".toList none 3 0 0).map
        Neighbor.lsn = [1] := by
  decide +kernel

end Temporal
end Heraclitus
