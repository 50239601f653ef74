import Heraclitus.TemporalAsOf
/-!
# TemporalAdjacency — a walk over the adjacency of a node is a scan of the edges that leave it

Upserts and closes link every edge once, from its origin and under its type, and nothing else (`Built.sound`).  What a walk
finds is then what a scan of all edges finds with that origin, in another order (`walk_perm`).
-/
namespace Heraclitus
namespace Temporal
namespace TemporalGraph

/-- A graph that upserts and closes have built. -/
inductive Built : TemporalGraph → Prop
  | empty : Built {}
  | upsertEdge {g : TemporalGraph} (h : Built g) (edge : Edge) (versions : List EdgeVersion) : Built (g.upsertEdge edge versions)
  | closeEdge {g : TemporalGraph} (h : Built g) (id : Str) (lsn : Nat) : Built (g.closeEdge id lsn)
  | mark {g : TemporalGraph} (h : Built g) (watermark : Nat) : Built { g with watermark := watermark }

variable {env : Env} {g : TemporalGraph} {out : SortedMap Str (SortedMap EdgeType (List Str))} {node node' id : Str}
  {ty ty' : EdgeType}

/-! ## Links -/

/-- The ids under a node and a type. -/
def adjacent (out : SortedMap Str (SortedMap EdgeType (List Str))) (node : Str) (ty : EdgeType) : List Str :=
  ((out.get? node).bind (fun types => types.get? ty)).getD []

theorem adjacent_link : adjacent (link out node ty id) node' ty'
    = adjacent out node' ty' ++ if node' = node ∧ ty' = ty then [id] else [] := by
  rw [adjacent, link, SortedMap.get?_alter]
  by_cases hnode : node' = node
  · subst hnode
    rw [if_pos rfl, Option.bind_some, SortedMap.get?_alter]
    by_cases hty : ty' = ty
    · subst hty
      cases hget : out.get? node' with
      | none => simp [adjacent, hget]
      | some types => simp [adjacent, hget]
    · cases hget : out.get? node' with
      | none => simp [adjacent, hget, hty]
      | some types => simp [adjacent, hget, hty]
  · simp [adjacent, hnode]

/-- **What holds of every graph that is built**: an edge is stored under its id, and linked once, under its origin and type;
the hypotheses of an edge stand once and in order. -/
structure Sound (g : TemporalGraph) : Prop where
  ids : ∀ id e, g.edges.get? id = some e → e.id = id
  nodup : ∀ node ty, (adjacent g.out node ty).Nodup
  mem : ∀ node ty id, id ∈ adjacent g.out node ty ↔ ∃ e, g.edges.get? id = some e ∧ e.from_ = node ∧ e.etype = ty
  versions : ∀ id vs, g.versions.get? id = some vs → Distinct vs ∧ vs.Pairwise byHypothesis

theorem versions_of_upsertEdge (edge : Edge) (vs : List EdgeVersion) : (g.upsertEdge edge vs).versions
    = g.versions.alter edge.id (fun entry => some ((vs.foldl addVersion (entry.getD [])).insertionSort byHypothesis)) := by
  unfold TemporalGraph.upsertEdge
  dsimp only
  split <;> rfl

theorem distinct_foldl_addVersion {vs : List EdgeVersion} (h : Distinct vs) : ∀ ws, Distinct (List.foldl addVersion vs ws)
  | [] => h
  | w :: ws => distinct_foldl_addVersion (distinct_addVersion h w) ws

/-- An edge that is asserted again keeps its id, its ends and its type. -/
theorem reopen_same (e edge : Edge) : (e.reopen edge).id = e.id ∧ (e.reopen edge).from_ = e.from_ ∧
    (e.reopen edge).to_ = e.to_ ∧ (e.reopen edge).etype = e.etype := by
  unfold Edge.reopen
  cases e.validToLsn with
  | none => exact ⟨rfl, rfl, rfl, rfl⟩
  | some closedAt => exact ⟨rfl, rfl, rfl, rfl⟩

theorem Sound.upsertEdge (h : g.Sound) (edge : Edge) (vs : List EdgeVersion) : (g.upsertEdge edge vs).Sound := by
  have hversions : ∀ id ws, (g.upsertEdge edge vs).versions.get? id = some ws → Distinct ws ∧ ws.Pairwise byHypothesis := by
    intro id ws hws
    rw [versions_of_upsertEdge, SortedMap.get?_alter] at hws
    split at hws
    · cases hws
      refine ⟨distinct_insertionSort (distinct_foldl_addVersion ?_ vs), List.pairwise_insertionSort byHypothesis _⟩
      cases hget : g.versions.get? edge.id with
      | none => exact List.nodup_nil
      | some ws => exact (h.versions _ ws hget).1
    · exact h.versions id ws hws
  cases hget : g.edges.get? edge.id with
  | none =>
    have hedges : (g.upsertEdge edge vs).edges = g.edges.insert edge.id edge := by
      rw [edges_upsertEdge, hget]
      rfl
    have hout : (g.upsertEdge edge vs).out = link g.out edge.from_ edge.etype edge.id := by
      rw [out_upsertEdge, hget]
      rfl
    have hfresh : ∀ node ty, edge.id ∉ adjacent g.out node ty := fun node ty hmem => by
      obtain ⟨e, he, -⟩ := (h.mem node ty edge.id).1 hmem
      rw [hget] at he
      cases he
    refine ⟨fun id e he => ?_, fun node ty => ?_, fun node ty id => ?_, hversions⟩
    · rw [hedges, SortedMap.get?_insert] at he
      split at he
      · rename_i hid
        cases he
        exact hid.symm
      · exact h.ids id e he
    · rw [hout, adjacent_link]
      split
      · exact List.nodup_append.2 ⟨h.nodup node ty, List.nodup_singleton _,
          fun id hid id' hid' heq => hfresh node ty (List.mem_singleton.1 hid' ▸ heq ▸ hid)⟩
      · rw [List.append_nil]
        exact h.nodup node ty
    · rw [hout, adjacent_link, hedges, SortedMap.get?_insert, List.mem_append, h.mem]
      by_cases hid : id = edge.id
      · subst hid
        simp only [hget, if_true, Option.some.injEq, exists_eq_left', reduceCtorEq, false_and, exists_false, false_or]
        by_cases hends : node = edge.from_ ∧ ty = edge.etype
        · simp [hends]
        · rw [if_neg hends]
          exact ⟨fun hmem => absurd hmem List.not_mem_nil, fun heq => absurd ⟨heq.1.symm, heq.2.symm⟩ hends⟩
      · rw [if_neg hid]
        by_cases hends : node = edge.from_ ∧ ty = edge.etype
        · simp [hends, hid]
        · simp [if_neg hends]
  | some existing =>
    have hedges : (g.upsertEdge edge vs).edges = g.edges.insert edge.id (existing.reopen edge) := by
      rw [edges_upsertEdge, hget]
      rfl
    have hout : (g.upsertEdge edge vs).out = g.out := by
      rw [out_upsertEdge, hget]
      rfl
    obtain ⟨hsameId, hsameFrom, -, hsameType⟩ := reopen_same existing edge
    refine ⟨fun id e he => ?_, fun node ty => hout ▸ h.nodup node ty, fun node ty id => ?_, hversions⟩
    · rw [hedges, SortedMap.get?_insert] at he
      split at he
      · rename_i hid
        cases he
        rw [hid, hsameId]
        exact h.ids edge.id existing hget
      · exact h.ids id e he
    · rw [hout, h.mem, hedges, SortedMap.get?_insert]
      by_cases hid : id = edge.id
      · subst hid
        simp [hget, hsameFrom, hsameType]
      · rw [if_neg hid]

theorem Sound.closeEdge (h : g.Sound) (id : Str) (lsn : Nat) : (g.closeEdge id lsn).Sound := by
  rw [closeEdge_eq]
  refine ⟨fun id' e he => ?_, h.nodup, fun node ty id' => ?_, h.versions⟩
  · dsimp only at he
    rw [SortedMap.get?_alter] at he
    split at he
    · rename_i hid
      obtain ⟨e₀, he₀, rfl⟩ := Option.map_eq_some_iff.1 he
      rw [hid]
      exact h.ids id e₀ he₀
    · exact h.ids id' e he
  · dsimp only
    rw [h.mem, SortedMap.get?_alter]
    by_cases hid : id' = id
    · subst hid
      rw [if_pos rfl]
      cases g.edges.get? id' with
      | none => simp
      | some e => simp [Edge.close]
    · rw [if_neg hid]

theorem sound_empty : ({} : TemporalGraph).Sound := by
  refine ⟨fun id e he => ?_, fun node ty => List.nodup_nil, fun node ty id => ?_, fun id vs hvs => ?_⟩
  · cases he
  · simp [adjacent]
  · cases hvs

/-- **Every graph that is built is sound.** -/
theorem Built.sound (h : g.Built) : g.Sound := by
  induction h with
  | empty => exact sound_empty
  | upsertEdge h edge versions ih => exact ih.upsertEdge edge versions
  | closeEdge h id lsn ih => exact ih.closeEdge id lsn
  | mark h watermark ih => exact ⟨ih.ids, ih.nodup, ih.mem, ih.versions⟩

/-! ## Walks -/

/-- The types and ids that a walk over a node meets. -/
def walk (g : TemporalGraph) (node : Str) : List (EdgeType × Str) :=
  (g.out.get? node).toList.flatMap (fun types => types.entries.flatMap (fun te => te.2.map (fun id => (te.1, id))))

theorem mem_walk : (ty, id) ∈ g.walk node ↔ id ∈ adjacent g.out node ty := by
  unfold walk adjacent
  cases g.out.get? node with
  | none => simp
  | some types =>
    rw [Option.toList_some, List.flatMap_singleton, Option.bind_some, List.mem_flatMap]
    constructor
    · rintro ⟨⟨ty', ids⟩, hte, hid⟩
      obtain ⟨id', hid', heq⟩ := List.mem_map.1 hid
      cases heq
      rw [SortedMap.get?_eq_some.2 hte]
      exact hid'
    · intro hid
      cases hget : types.get? ty with
      | none => simp [hget] at hid
      | some ids =>
        rw [hget] at hid
        exact ⟨(ty, ids), SortedMap.get?_eq_some.1 hget, List.mem_map.2 ⟨id, hid, rfl⟩⟩

theorem Sound.nodup_walk (h : g.Sound) (node : Str) : (g.walk node).Nodup := by
  have hnodup := h.nodup node
  unfold walk
  unfold adjacent at hnodup
  cases hout : g.out.get? node with
  | none => exact List.nodup_nil
  | some types =>
    rw [Option.toList_some, List.flatMap_singleton, List.nodup_flatMap]
    rw [hout] at hnodup
    constructor
    · rintro ⟨ty, ids⟩ hte
      have hids := hnodup ty
      rw [Option.bind_some, SortedMap.get?_eq_some.2 hte, Option.getD_some] at hids
      exact hids.map (fun id id' heq => (Prod.mk.inj heq).2)
    · refine types.sorted.imp (fun hlt => ?_)
      rw [Function.onFun_apply, List.disjoint_left]
      intro p hp hp'
      obtain ⟨id, -, rfl⟩ := List.mem_map.1 hp
      obtain ⟨id', -, heq⟩ := List.mem_map.1 hp'
      exact absurd (Prod.mk.inj heq).1.symm (ne_of_lt hlt)

/-- **A walk over a node is a scan of the edges from it**, in another order. -/
theorem Sound.walk_perm (h : g.Sound) (node : Str) :
    (g.walk node).Perm ((g.edges.entries.filter (fun ke => ke.2.from_ == node)).map (fun ke => (ke.2.etype, ke.1))) := by
  have hkeys : (g.edges.entries.map Prod.fst).Nodup := by
    rw [List.Nodup, List.pairwise_map]
    exact g.edges.sorted.imp (fun hlt => ne_of_lt hlt)
  have hnodup : ((g.edges.entries.filter (fun ke => ke.2.from_ == node)).map (fun ke => (ke.2.etype, ke.1))).Nodup := by
    refine List.Nodup.of_map Prod.snd ?_
    rw [List.map_map]
    exact hkeys.sublist (List.filter_sublist.map _)
  refine (List.perm_ext_iff_of_nodup (h.nodup_walk node) hnodup).2 ?_
  rintro ⟨ty, id⟩
  rw [mem_walk, h.mem, List.mem_map]
  constructor
  · rintro ⟨e, he, rfl, rfl⟩
    exact ⟨(id, e), List.mem_filter.2 ⟨SortedMap.get?_eq_some.1 he, by simp⟩, rfl⟩
  · rintro ⟨⟨id', e⟩, hmem, heq⟩
    obtain ⟨hmem, hfrom⟩ := List.mem_filter.1 hmem
    cases heq
    exact ⟨e, SortedMap.get?_eq_some.2 hmem, by simpa using hfrom, rfl⟩

/-- What a walk reads of the edges it meets is what a scan reads of the edges from the node. -/
theorem Sound.filterMap_walk_perm {γ : Type} (h : g.Sound) (node : Str) (read : EdgeType → Str → Edge → Option γ) :
    ((g.walk node).filterMap (fun p => (g.edges.get? p.2).bind (read p.1 p.2))).Perm
      ((g.edges.entries.filter (fun ke => ke.2.from_ == node)).filterMap (fun ke => read ke.2.etype ke.1 ke.2)) := by
  refine ((h.walk_perm node).filterMap _).trans (.of_eq ?_)
  rw [List.filterMap_map]
  refine List.filterMap_congr (fun ke hke => ?_)
  rw [Function.comp_apply, SortedMap.get?_eq_some.2 (List.mem_of_mem_filter hke)]
  rfl

theorem neighbors_eq_walk (node : Str) (etype : Option EdgeType) (t : Nat) (minConfidence lambda : F32) :
    g.neighbors env node etype t minConfidence lambda = (g.walk node).filterMap (fun p =>
      (g.edges.get? p.2).bind (fun e => if etype.any (fun want => want != p.1) then none
        else g.neighbor env p.1 t minConfidence lambda p.2 e)) := by
  unfold neighbors walk
  cases g.out.get? node with
  | none => rfl
  | some types =>
    rw [Option.toList_some, List.flatMap_singleton, List.filterMap_flatMap]
    refine List.flatMap_congr (fun te _ => ?_)
    rw [List.filterMap_map]
    by_cases hskip : etype.any (fun want => want != te.1) = true
    · rw [if_pos hskip, eq_comm, List.filterMap_eq_nil_iff]
      intro id _
      simp [hskip]
    · rw [if_neg hskip]
      refine List.filterMap_congr (fun id _ => ?_)
      simp [hskip]

theorem matchEdges_eq_walk (src : Str) (etype : Option EdgeType) (dst : Option Str) (t : Nat) (minConfidence : F32) :
    g.matchEdges env (some src) etype dst t minConfidence
      = (g.walk src).filterMap (fun p => (g.edges.get? p.2).bind (g.consider env etype dst t minConfidence)) := by
  unfold matchEdges walk
  dsimp only
  cases g.out.get? src with
  | none => rfl
  | some types =>
    rw [Option.toList_some, List.flatMap_singleton, List.filterMap_flatMap]
    refine List.flatMap_congr (fun te _ => ?_)
    rw [List.filterMap_map]
    rfl

/-- **A match with a fixed origin is a scan of the edges from it.** -/
theorem Sound.matchEdges_perm (h : g.Sound) (src : Option Str) (etype : Option EdgeType) (dst : Option Str) (t : Nat)
    (minConfidence : F32) : (g.matchEdges env src etype dst t minConfidence).Perm
      ((g.edges.entries.filter (fun ke => src.all (fun s => ke.2.from_ == s))).filterMap
        (fun ke => g.consider env etype dst t minConfidence ke.2)) := by
  cases src with
  | none => simp [matchEdges]
  | some s =>
    rw [matchEdges_eq_walk]
    simpa using h.filterMap_walk_perm s (fun _ _ e => g.consider env etype dst t minConfidence e)

/-- **Neighbors are a scan of the edges from the node.** -/
theorem Sound.neighbors_perm (h : g.Sound) (node : Str) (etype : Option EdgeType) (t : Nat) (minConfidence lambda : F32) :
    (g.neighbors env node etype t minConfidence lambda).Perm
      ((g.edges.entries.filter (fun ke => ke.2.from_ == node)).filterMap (fun ke =>
        if etype.any (fun want => want != ke.2.etype) then none
        else g.neighbor env ke.2.etype t minConfidence lambda ke.1 ke.2)) := by
  rw [neighbors_eq_walk]
  exact h.filterMap_walk_perm node (fun ty id e => if etype.any (fun want => want != ty) then none
    else g.neighbor env ty t minConfidence lambda id e)

end TemporalGraph
end Temporal
end Heraclitus
