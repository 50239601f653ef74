import Mathlib.Data.List.Induction
import Heraclitus.TemporalAdjacency
/-!
# Simulate — the virtual graph of `SIMULATE` (`materialize_virtual` in `heraclitus-query/src/backend.rs`)

A virtual graph is a copy with one edge added or removed; a nested `SIMULATE` copies the copy.  An addition is an upsert from
LSN 0, so an edge that is open already stays as it is.
-/
namespace Heraclitus
namespace Temporal

inductive SimulateOp where
  | addEdge | removeEdge
  deriving DecidableEq

/-- `SIMULATE ADD|REMOVE EDGE (from, to, type)`. -/
structure Simulate where
  op : SimulateOp
  from_ : Str
  to_ : Str
  etype : Str

def Simulate.edgeId (s : Simulate) : Str := Temporal.edgeId s.from_ s.to_ (EdgeType.fromAttr s.etype)

/-- The edge that is added. -/
def Simulate.edge (s : Simulate) : Edge where
  id := s.edgeId
  from_ := s.from_
  to_ := s.to_
  etype := EdgeType.fromAttr s.etype
  validFromLsn := 0
  validToLsn := none
  worldValidFrom := none
  worldValidTo := none
  closedIntervals := []

def Simulate.version (s : Simulate) : EdgeVersion where
  hypothesisId := s.edgeId
  confidence := one
  source := "simulate".toList
  provenance := []
  polarity := (EdgeType.fromAttr s.etype).polarity
  validFromLsn := 0

namespace TemporalGraph

def copyEdge (base : TemporalGraph) (g : TemporalGraph) (ke : Str × Edge) : TemporalGraph :=
  g.upsertEdge ke.2 ((base.versions.get? ke.1).getD [])

def materializeVirtual (base : TemporalGraph) (s : Simulate) : TemporalGraph :=
  let kept := base.edges.entries.filter (fun ke => !(decide (s.op = .removeEdge) && ke.1 == s.edgeId))
  let g := kept.foldl (copyEdge base) {}
  let g := match s.op with
    | .addEdge => g.upsertEdge s.edge [s.version]
    | .removeEdge => g
  { g with watermark := base.watermark }

end TemporalGraph

/-! ## What is claimed -/

/-- What a list of operations does to the edge with an id. -/
def kinds (ops : List Simulate) (id : Str) : List SimulateOp :=
  ops.filterMap (fun s => if s.edgeId = id then some s.op else none)

namespace TemporalGraph

variable {env : Env}

/-- **The virtual graph `v` of `g` is exact**: added edges live at every instant, removed ones at none, and every read of the other
edges is that of `g`. -/
structure Materialized (env : Env) (g : TemporalGraph) (ops : List Simulate) (v : TemporalGraph) : Prop where
  added : ∀ id, (kinds ops id).getLast? = some .addEdge → ∀ t, v.aliveAt id t = true
  removed : ∀ id, (kinds ops id).getLast? = some .removeEdge → ∀ t, v.aliveAt id t = false
  edges : ∀ id, kinds ops id = [] → v.edges.get? id = g.edges.get? id
  beliefs : ∀ id, kinds ops id = [] → ∀ t, v.beliefAt env id t = g.beliefAt env id t
  matches_ : ∀ src etype dst t minConfidence,
    ((v.matchEdges env src etype dst t minConfidence).filter (fun m => (kinds ops m.edgeId).isEmpty)).Perm
      ((g.matchEdges env src etype dst t minConfidence).filter (fun m => (kinds ops m.edgeId).isEmpty))
  neighbors : ∀ node etype t minConfidence lambda,
    ((v.neighbors env node etype t minConfidence lambda).filter (fun n => (kinds ops n.edgeId).isEmpty)).Perm
      ((g.neighbors env node etype t minConfidence lambda).filter (fun n => (kinds ops n.edgeId).isEmpty))

variable {base g v : TemporalGraph} {ops : List Simulate} {id : Str} {s : Simulate} {e : Edge}

/-! ## The copy -/

theorem foldl_addVersion_of_distinct {vs : List EdgeVersion} : ∀ {ws : List EdgeVersion}, Distinct (vs ++ ws) →
    ws.foldl addVersion vs = vs ++ ws
  | [], _ => (List.append_nil vs).symm
  | w :: ws, h => by
    have hnew : ¬(vs.any (fun e => e.hypothesisId == w.hypothesisId)) = true := by
      intro hany
      obtain ⟨e, he, heq⟩ := List.any_eq_true.1 hany
      unfold Distinct at h
      rw [List.map_append, List.nodup_append] at h
      exact h.2.2 e.hypothesisId (List.mem_map_of_mem he) w.hypothesisId List.mem_cons_self (beq_iff_eq.1 heq)
    rw [List.foldl_cons, addVersion, if_neg hnew, foldl_addVersion_of_distinct (by rwa [List.append_assoc]),
      List.append_assoc, List.singleton_append]

/-- A copied edge brings its hypotheses as they are. -/
theorem versions_copy (h : base.Sound) :
    ((((base.versions.get? id).getD []).foldl addVersion []).insertionSort byHypothesis) = (base.versions.get? id).getD [] := by
  cases hget : base.versions.get? id with
  | none => rfl
  | some vs =>
    obtain ⟨hdistinct, hsorted⟩ := h.versions id vs hget
    rw [Option.getD_some, foldl_addVersion_of_distinct (by exact hdistinct)]
    exact List.Pairwise.insertionSort_eq hsorted

/-- **The copy of some edges**: they are there, with their hypotheses, and nothing else. -/
theorem foldl_copyEdge (h : base.Sound) : ∀ (l : List (Str × Edge)) (g : TemporalGraph),
    l.Pairwise (fun a b => a.1 < b.1) → (∀ ke ∈ l, ke.2.id = ke.1) →
    (∀ ke ∈ l, g.edges.get? ke.1 = none ∧ g.versions.get? ke.1 = none) →
    (∀ ke ∈ l, (l.foldl (copyEdge base) g).edges.get? ke.1 = some ke.2 ∧
      (l.foldl (copyEdge base) g).versions.get? ke.1 = some ((base.versions.get? ke.1).getD [])) ∧
    ∀ id, (∀ ke ∈ l, ke.1 ≠ id) → (l.foldl (copyEdge base) g).edges.get? id = g.edges.get? id ∧
      (l.foldl (copyEdge base) g).versions.get? id = g.versions.get? id
  | [], g, _, _, _ => ⟨fun ke hke => absurd hke List.not_mem_nil, fun _ _ => ⟨rfl, rfl⟩⟩
  | ke :: l, g, hl, hids, hnew => by
    obtain ⟨hlt, hl⟩ := List.pairwise_cons.1 hl
    have hid := hids ke List.mem_cons_self
    obtain ⟨hedge, hversions⟩ := hnew ke List.mem_cons_self
    have hget : ∀ id, (copyEdge base g ke).edges.get? id = if id = ke.1 then some ke.2 else g.edges.get? id := fun id => by
      unfold copyEdge
      rw [edges_upsertEdge, hid, hedge, SortedMap.get?_insert]
      split_ifs <;> rfl
    have hvs : ∀ id, (copyEdge base g ke).versions.get? id
        = if id = ke.1 then some ((base.versions.get? ke.1).getD []) else g.versions.get? id := fun id => by
      unfold copyEdge
      rw [versions_of_upsertEdge, hid, SortedMap.get?_alter, hversions, Option.getD_none, versions_copy h]
      split_ifs <;> rfl
    obtain ⟨hmem, hother⟩ := foldl_copyEdge h l (copyEdge base g ke) hl (fun ke' h => hids ke' (List.mem_cons_of_mem _ h))
      (fun ke' h => by
        rw [hget, hvs, if_neg (ne_of_gt (hlt ke' h)), if_neg (ne_of_gt (hlt ke' h))]
        exact hnew ke' (List.mem_cons_of_mem _ h))
    rw [List.foldl_cons]
    refine ⟨fun ke' hke' => ?_, fun id hne => ?_⟩
    · rcases List.mem_cons.1 hke' with rfl | hke'
      · obtain ⟨hsame, hsameVersions⟩ := hother ke'.1 (fun ke'' h => ne_of_gt (hlt ke'' h))
        rw [hsame, hsameVersions, hget, hvs, if_pos rfl, if_pos rfl]
        exact ⟨rfl, rfl⟩
      · exact hmem ke' hke'
    · have hne' : id ≠ ke.1 := (hne ke List.mem_cons_self).symm
      obtain ⟨hsame, hsameVersions⟩ := hother id (fun ke' h => hne ke' (List.mem_cons_of_mem _ h))
      rw [hsame, hsameVersions, hget, hvs, if_neg hne', if_neg hne']
      exact ⟨rfl, rfl⟩

/-- What one operation does to the edge under its id. -/
def edited (s : Simulate) (o : Option Edge) : Option Edge :=
  match s.op with
  | .addEdge => some (o.elim s.edge (fun e => e.reopen s.edge))
  | .removeEdge => none

theorem Built.versions_none (h : g.Built) (hid : g.edges.get? id = none) : g.versions.get? id = none := by
  induction h with
  | empty => rfl
  | upsertEdge h edge vs ih =>
    rw [edges_upsertEdge, SortedMap.get?_insert] at hid
    rw [versions_of_upsertEdge, SortedMap.get?_alter]
    split at hid
    · cases hid
    · rename_i hne
      rw [if_neg hne]
      exact ih hid
  | closeEdge h id' lsn ih =>
    rw [closeEdge_eq] at hid ⊢
    refine ih ?_
    dsimp only at hid
    rw [SortedMap.get?_alter] at hid
    split at hid
    · rename_i heq
      rw [heq]
      exact Option.map_eq_none_iff.1 hid
    · exact hid
  | mark h watermark ih => exact ih hid

/-- **One operation**: the edge under its id is edited, all others are as they were. -/
theorem get?_materializeVirtual (h : g.Built) (s : Simulate) (id : Str) :
    (g.materializeVirtual s).edges.get? id = (if id = s.edgeId then edited s (g.edges.get? id) else g.edges.get? id) ∧
    (id ≠ s.edgeId → ((g.materializeVirtual s).versions.get? id).getD [] = (g.versions.get? id).getD []) := by
  have hcopy : ∀ keep : Str → Bool, ∀ id,
      ((g.edges.entries.filter (fun ke => keep ke.1)).foldl (copyEdge g) {}).edges.get? id
        = (if keep id then g.edges.get? id else none) ∧
      (keep id = true →
        (((g.edges.entries.filter (fun ke => keep ke.1)).foldl (copyEdge g) {}).versions.get? id).getD []
          = (g.versions.get? id).getD []) := fun keep id => by
    obtain ⟨hmem, hother⟩ := foldl_copyEdge h.sound (g.edges.entries.filter (fun ke => keep ke.1)) {}
      (g.edges.sorted.sublist List.filter_sublist)
      (fun ke hke => h.sound.ids ke.1 ke.2 (SortedMap.get?_eq_some.2 (List.mem_of_mem_filter hke))) (fun _ _ => ⟨rfl, rfl⟩)
    cases hget : g.edges.get? id with
    | none =>
      obtain ⟨hedges, hversions⟩ := hother id (fun ke hke heq => by
        have := SortedMap.get?_eq_some.2 (List.mem_of_mem_filter hke)
        rw [heq, hget] at this
        cases this)
      rw [hedges, hversions, h.versions_none hget, ite_self]
      exact ⟨rfl, fun _ => rfl⟩
    | some e =>
      cases hkeep : keep id with
      | true =>
        obtain ⟨hedges, hversions⟩ := hmem (id, e) (List.mem_filter.2 ⟨SortedMap.get?_eq_some.1 hget, hkeep⟩)
        rw [hedges, hversions]
        exact ⟨rfl, fun _ => rfl⟩
      | false =>
        obtain ⟨hedges, -⟩ := hother id (fun ke hke heq => by
          have := (List.mem_filter.1 hke).2
          rw [heq, hkeep] at this
          cases this)
        rw [hedges]
        exact ⟨rfl, fun hk => by cases hk⟩
  cases hop : s.op with
  | removeEdge =>
    have hg : g.materializeVirtual s = { (g.edges.entries.filter (fun ke => !(ke.1 == s.edgeId))).foldl (copyEdge g) {} with
        watermark := g.watermark } := by
      unfold materializeVirtual
      simp [hop]
    obtain ⟨hedges, hversions⟩ := hcopy (fun id => !(id == s.edgeId)) id
    rw [hg]
    refine ⟨hedges.trans ?_, fun hne => hversions (by simpa using hne)⟩
    unfold edited
    rw [hop]
    by_cases hid : id = s.edgeId
    · simp [hid]
    · simp [hid]
  | addEdge =>
    have hg : g.materializeVirtual s = { ((g.edges.entries.filter (fun _ => true)).foldl (copyEdge g) {}).upsertEdge
        s.edge [s.version] with watermark := g.watermark } := by
      unfold materializeVirtual
      simp [hop]
    have hcopied := hcopy (fun _ => true)
    rw [hg]
    dsimp only
    have hid : s.edge.id = s.edgeId := rfl
    rw [edges_upsertEdge, versions_of_upsertEdge, SortedMap.get?_insert, SortedMap.get?_alter, hid, (hcopied s.edgeId).1,
      (hcopied id).1, if_pos rfl, if_pos rfl]
    refine ⟨?_, fun hne => ?_⟩
    · unfold edited
      rw [hop]
      by_cases heq : id = s.edgeId
      · rw [if_pos heq, if_pos heq, heq]
        cases g.edges.get? s.edgeId <;> rfl
      · rw [if_neg heq, if_neg heq]
    · rw [if_neg hne]
      exact (hcopied id).2 rfl

theorem built_materializeVirtual (g : TemporalGraph) (s : Simulate) : (g.materializeVirtual s).Built := by
  have hcopy : ∀ (l : List (Str × Edge)) {g₀ : TemporalGraph}, g₀.Built → (l.foldl (copyEdge g) g₀).Built := by
    intro l
    induction l with
    | nil => exact fun h => h
    | cons ke l ih => exact fun h => ih (h.upsertEdge _ _)
  unfold materializeVirtual
  cases s.op with
  | addEdge => exact .mark (.upsertEdge (hcopy _ .empty) _ _) _
  | removeEdge => exact .mark (hcopy _ .empty) _

/-! ## Many operations -/

theorem kinds_concat (ops : List Simulate) (s : Simulate) (id : Str) :
    kinds (ops ++ [s]) id = kinds ops id ++ if s.edgeId = id then [s.op] else [] := by
  unfold kinds
  rw [List.filterMap_append]
  split
  · simp [*]
  · simp [*]

/-- What the operations on an id make of its edge. -/
inductive Outcome (o : Option Edge) : List SimulateOp → Option Edge → Prop
  | untouched : Outcome o [] o
  | removed (ks : List SimulateOp) : Outcome o (ks ++ [.removeEdge]) none
  | kept {ks : List SimulateOp} {e : Edge} (ho : o = some e) (hopen : e.validToLsn = none) (hks : .removeEdge ∉ ks) :
    Outcome o (ks ++ [.addEdge]) (some e)
  | opened {ks : List SimulateOp} {e : Edge} (hks : .removeEdge ∈ ks ∨ ∀ e₀, o = some e₀ → e₀.validToLsn ≠ none)
    (hopen : e.validToLsn = none) (halive : ∀ t, e.aliveAt t = true) : Outcome o (ks ++ [.addEdge]) (some e)

theorem aliveAt_of_first (hopen : e.validToLsn = none) (hfirst : e.validFromLsn = 0) (t : Nat) : e.aliveAt t = true := by
  simp [Edge.aliveAt, hopen, hfirst]

theorem reopen_open (e : Edge) (s : Simulate) : (e.reopen s.edge).validToLsn = none := by
  unfold Edge.reopen
  cases h : e.validToLsn with
  | none => exact h
  | some _ => rfl

theorem reopen_of_open (hopen : e.validToLsn = none) (edge : Edge) : e.reopen edge = e := by
  unfold Edge.reopen
  rw [hopen]

/-- One more operation on the id. -/
theorem Outcome.edited {o o' : Option Edge} {ks : List SimulateOp} (h : Outcome o ks o') (s : Simulate) :
    Outcome o (ks ++ [s.op]) (edited s o') := by
  unfold TemporalGraph.edited
  cases s.op with
  | removeEdge => exact .removed ks
  | addEdge =>
    cases h with
    | untouched =>
      cases o with
      | none => exact .opened (.inr (fun e h => by cases h)) rfl (aliveAt_of_first rfl rfl)
      | some e =>
        cases hopen : e.validToLsn with
        | none =>
          show Outcome _ _ (some (e.reopen s.edge))
          rw [reopen_of_open hopen]
          exact .kept rfl hopen List.not_mem_nil
        | some stop =>
          refine .opened (.inr (fun e₀ h => ?_)) (reopen_open e s) (aliveAt_of_first (reopen_open e s) ?_)
          · cases h
            rw [hopen]
            exact Option.some_ne_none stop
          · show (e.reopen s.edge).validFromLsn = 0
            unfold Edge.reopen
            rw [hopen]
            rfl
    | removed ks => exact .opened (.inl (by simp)) rfl (aliveAt_of_first rfl rfl)
    | kept ho hopen hks =>
      rename_i e
      show Outcome _ _ (some (e.reopen s.edge))
      rw [reopen_of_open hopen]
      exact .kept ho hopen (by simpa using hks)
    | opened hks hopen halive =>
      rename_i e
      show Outcome _ _ (some (e.reopen s.edge))
      rw [reopen_of_open hopen]
      exact .opened (hks.imp_left (List.mem_append_left _)) hopen halive

/-- **Any operations**: the virtual graph is built, every edge is what the operations on its id make of it, and the hypotheses of
an id without operations are as they were. -/
theorem foldl_materializeVirtual (h : g.Built) (ops : List Simulate) : (ops.foldl materializeVirtual g).Built ∧
    ∀ id, Outcome (g.edges.get? id) (kinds ops id) ((ops.foldl materializeVirtual g).edges.get? id) ∧
      (kinds ops id = [] → ((ops.foldl materializeVirtual g).versions.get? id).getD [] = (g.versions.get? id).getD []) := by
  induction ops using List.reverseRecOn with
  | nil => exact ⟨h, fun id => ⟨.untouched, fun _ => rfl⟩⟩
  | append_singleton ops s ih =>
    obtain ⟨hbuilt, hedges⟩ := ih
    rw [List.foldl_append, List.foldl_cons, List.foldl_nil]
    refine ⟨built_materializeVirtual _ s, fun id => ?_⟩
    obtain ⟨hedge, hversions⟩ := get?_materializeVirtual hbuilt s id
    obtain ⟨houtcome, hsame⟩ := hedges id
    rw [hedge, kinds_concat]
    by_cases hid : id = s.edgeId
    · rw [if_pos hid, if_pos hid.symm]
      exact ⟨houtcome.edited s, fun hnil => absurd hnil (by simp)⟩
    · rw [if_neg hid, if_neg (Ne.symm hid), List.append_nil]
      exact ⟨houtcome, fun hnil => (hversions hid).trans (hsame hnil)⟩

/-! ## Reads of the other edges -/

theorem beliefAt_eq (g : TemporalGraph) (id : Str) (t : Nat) :
    g.beliefAt env id t = aggregateAsOf env ((g.versions.get? id).getD []) t := by
  unfold beliefAt
  cases g.versions.get? id <;> rfl

/-- A scan that reads two graphs alike where their edges agree. -/
theorem scan_perm {γ : Type} (other : Str → Bool) (hedges : ∀ id, other id = true → v.edges.get? id = g.edges.get? id)
    (name : γ → Str) (p : Edge → Bool) (f f' : Str × Edge → Option γ)
    (hname : ∀ ke ∈ v.edges.entries, ∀ m, f ke = some m → name m = ke.1)
    (hname' : ∀ ke ∈ g.edges.entries, ∀ m, f' ke = some m → name m = ke.1)
    (hsame : ∀ ke ∈ g.edges.entries, other ke.1 = true → f ke = f' ke) :
    (((v.edges.entries.filter (fun ke => p ke.2)).filterMap f).filter (fun m => other (name m))).Perm
      (((g.edges.entries.filter (fun ke => p ke.2)).filterMap f').filter (fun m => other (name m))) := by
  have hpull : ∀ (f : Str × Edge → Option γ) (l : List (Str × Edge)), (∀ ke ∈ l, ∀ m, f ke = some m → name m = ke.1) →
      ((l.filter (fun ke => p ke.2)).filterMap f).filter (fun m => other (name m))
        = ((l.filter (fun ke => other ke.1)).filter (fun ke => p ke.2)).filterMap f := by
    intro f l hname
    rw [List.filter_filterMap, List.filterMap_filter, List.filterMap_filter, List.filterMap_filter]
    refine List.filterMap_congr (fun ke hke => ?_)
    cases hf : f ke with
    | none => simp
    | some m => cases hp : p ke.2 <;> cases ho : other ke.1 <;> simp [Option.filter, hname ke hke m hf, ho]
  rw [hpull f _ hname, hpull f' _ hname']
  have hentries : (v.edges.entries.filter (fun ke => other ke.1)).Perm (g.edges.entries.filter (fun ke => other ke.1)) := by
    have hnodup : ∀ m : SortedMap Str Edge, (m.entries.filter (fun ke => other ke.1)).Nodup := fun m =>
      ((m.sorted.imp (fun hlt heq => absurd (congrArg Prod.fst heq) (ne_of_lt hlt))).sublist List.filter_sublist)
    refine (List.perm_ext_iff_of_nodup (hnodup _) (hnodup _)).2 (fun ke => ?_)
    rw [List.mem_filter, List.mem_filter, ← SortedMap.get?_eq_some, ← SortedMap.get?_eq_some]
    exact and_congr_left (fun ho => by rw [hedges ke.1 ho])
  refine ((hentries.filter _).filterMap _).trans (.of_eq (List.filterMap_congr (fun ke hke => ?_)))
  obtain ⟨hmem, ho⟩ := List.mem_filter.1 (List.mem_of_mem_filter hke)
  exact hsame ke hmem ho

theorem edgeId_of_consider {etype : Option EdgeType} {dst : Option Str} {t : Nat} {minConfidence : F32} {m : EdgeMatch}
    (h : g.consider env etype dst t minConfidence e = some m) : m.edgeId = e.id := by
  unfold consider at h
  dsimp only at h
  split_ifs at h
  cases h
  rfl

theorem edgeId_of_neighbor {etype : EdgeType} {t : Nat} {minConfidence lambda : F32} {n : Neighbor}
    (h : g.neighbor env etype t minConfidence lambda id e = some n) : n.edgeId = id := by
  unfold neighbor at h
  dsimp only at h
  split_ifs at h
  cases h
  rfl

/-- **Two graphs that agree on some edges give the same answers about them.** -/
theorem reads_perm (hv : v.Built) (hg : g.Built) (other : Str → Bool)
    (hedges : ∀ id, other id = true → v.edges.get? id = g.edges.get? id)
    (hbeliefs : ∀ id, other id = true → ∀ t, v.beliefAt env id t = g.beliefAt env id t) :
    (∀ src etype dst t minConfidence,
      ((v.matchEdges env src etype dst t minConfidence).filter (fun m => other m.edgeId)).Perm
        ((g.matchEdges env src etype dst t minConfidence).filter (fun m => other m.edgeId))) ∧
    ∀ node etype t minConfidence lambda,
      ((v.neighbors env node etype t minConfidence lambda).filter (fun n => other n.edgeId)).Perm
        ((g.neighbors env node etype t minConfidence lambda).filter (fun n => other n.edgeId)) := by
  have hids : ∀ {g : TemporalGraph}, g.Built → ∀ ke ∈ g.edges.entries, ke.2.id = ke.1 :=
    fun h ke hke => h.sound.ids ke.1 ke.2 (SortedMap.get?_eq_some.2 hke)
  constructor
  · intro src etype dst t minConfidence
    refine ((hv.sound.matchEdges_perm src etype dst t minConfidence).filter _).trans (.trans ?_
      ((hg.sound.matchEdges_perm src etype dst t minConfidence).filter _).symm)
    refine scan_perm other hedges EdgeMatch.edgeId (fun e => src.all (fun s => e.from_ == s)) _ _
      (fun ke hke m hm => ?_) (fun ke hke m hm => ?_) (fun ke hke ho => ?_)
    · rw [edgeId_of_consider hm, hids hv ke hke]
    · rw [edgeId_of_consider hm, hids hg ke hke]
    · unfold consider
      rw [hids hg ke hke, hbeliefs ke.1 ho]
  · intro node etype t minConfidence lambda
    refine ((hv.sound.neighbors_perm node etype t minConfidence lambda).filter _).trans (.trans ?_
      ((hg.sound.neighbors_perm node etype t minConfidence lambda).filter _).symm)
    refine scan_perm other hedges Neighbor.edgeId (fun e => e.from_ == node) _ _ (fun ke hke n hn => ?_)
      (fun ke hke n hn => ?_) (fun ke hke ho => ?_)
    · split at hn
      · cases hn
      · exact edgeId_of_neighbor hn
    · split at hn
      · cases hn
      · exact edgeId_of_neighbor hn
    · unfold neighbor
      rw [hbeliefs ke.1 ho]

/-! ## Virtual graphs -/

/-- What is added to `g` never falls on an edge that is open and began too late. -/
def AddsOnlyLasting (g : TemporalGraph) (ops : List Simulate) : Prop :=
  ∀ id e, (kinds ops id).getLast? = some .addEdge → .removeEdge ∉ kinds ops id → g.edges.get? id = some e →
    e.validToLsn = none → ∀ t, e.aliveAt t = true

/-- **When a virtual graph is exact.** -/
theorem materialized_iff (env : Env) (h : g.Built) (ops : List Simulate) :
    Materialized env g ops (ops.foldl materializeVirtual g) ↔ AddsOnlyLasting g ops := by
  obtain ⟨hbuilt, hids⟩ := foldl_materializeVirtual h ops
  constructor
  · intro hm id e hlast hremove hget hopen t
    have halive := hm.added id hlast t
    have houtcome := (hids id).1
    unfold aliveAt at halive
    generalize hv : (ops.foldl materializeVirtual g).edges.get? id = o at houtcome halive
    generalize hks : kinds ops id = ks at houtcome hlast hremove
    cases houtcome with
    | untouched => cases hlast
    | removed ks => simp at hlast
    | kept ho _ _ =>
      rw [hget] at ho
      cases ho
      exact halive
    | opened hor _ _ =>
      rcases hor with hmem | hclosed
      · exact absurd (List.mem_append_left _ hmem) hremove
      · exact absurd hopen (hclosed e hget)
  · intro hlasting
    have hother : ∀ id, (kinds ops id).isEmpty = true →
        (ops.foldl materializeVirtual g).edges.get? id = g.edges.get? id := fun id hnil => by
      have houtcome := (hids id).1
      generalize (ops.foldl materializeVirtual g).edges.get? id = o at houtcome
      rw [List.isEmpty_iff.1 hnil] at houtcome
      generalize hks : ([] : List SimulateOp) = ks at houtcome
      cases houtcome with
      | untouched => rfl
      | removed ks => simp at hks
      | kept _ _ _ => simp at hks
      | opened _ _ _ => simp at hks
    have hbelief : ∀ id, (kinds ops id).isEmpty = true → ∀ t,
        (ops.foldl materializeVirtual g).beliefAt env id t = g.beliefAt env id t := fun id hnil t => by
      rw [beliefAt_eq, beliefAt_eq, (hids id).2 (List.isEmpty_iff.1 hnil)]
    obtain ⟨hmatches, hneighbors⟩ := reads_perm hbuilt h (fun id => (kinds ops id).isEmpty) hother hbelief
    refine ⟨fun id hlast t => ?_, fun id hlast t => ?_, fun id hnil => hother id (List.isEmpty_iff.2 hnil),
      fun id hnil => hbelief id (List.isEmpty_iff.2 hnil), hmatches, hneighbors⟩
    · have houtcome := (hids id).1
      have hlasting := hlasting id
      unfold aliveAt
      generalize (ops.foldl materializeVirtual g).edges.get? id = o at houtcome
      generalize kinds ops id = ks at houtcome hlast hlasting
      cases houtcome with
      | untouched => cases hlast
      | removed ks => simp at hlast
      | kept ho hopen hks => exact hlasting _ hlast (by simpa using hks) ho hopen t
      | opened _ _ halive => exact halive t
    · have houtcome := (hids id).1
      unfold aliveAt
      generalize (ops.foldl materializeVirtual g).edges.get? id = o at houtcome
      generalize kinds ops id = ks at houtcome hlast
      cases houtcome with
      | untouched => cases hlast
      | removed ks => rfl
      | kept _ _ _ => simp at hlast
      | opened _ _ _ => simp at hlast

/-- An edge from LSN 5 on. -/
def laterEdge : Edge where
  id := Temporal.edgeId "Alfa".toList "Beto".toList .pagou
  from_ := "Alfa".toList
  to_ := "Beto".toList
  etype := .pagou
  validFromLsn := 5
  validToLsn := none
  worldValidFrom := none
  worldValidTo := none
  closedIntervals := []

def addLater : Simulate := ⟨.addEdge, "Alfa".toList, "Beto".toList, "pagou".toList⟩

def valueless : Env := { parseF32 := fun _ => none, ulidText := fun _ => [], aggregate := fun _ => one, weight := fun b _ _ => b }

theorem materialized_iff_sample :
    Materialized valueless (TemporalGraph.upsertEdge {} laterEdge []) [addLater]
        ([addLater].foldl materializeVirtual (TemporalGraph.upsertEdge {} laterEdge [])) ↔
      AddsOnlyLasting (TemporalGraph.upsertEdge {} laterEdge []) [addLater] :=
  materialized_iff valueless (.upsertEdge .empty laterEdge []) [addLater]

/-- **An added edge that is not there**: it was added at every instant, and stays dead before LSN 5. -/
theorem added_edge_not_alive :
    (kinds [addLater] laterEdge.id).getLast? = some .addEdge ∧
    ([addLater].foldl materializeVirtual (TemporalGraph.upsertEdge {} laterEdge [])).aliveAt laterEdge.id 3 = false ∧
    ¬Materialized valueless (TemporalGraph.upsertEdge {} laterEdge []) [addLater]
      ([addLater].foldl materializeVirtual (TemporalGraph.upsertEdge {} laterEdge [])) := by
  have hlast : (kinds [addLater] laterEdge.id).getLast? = some .addEdge := by decide +kernel
  have hdead : ([addLater].foldl materializeVirtual (TemporalGraph.upsertEdge {} laterEdge [])).aliveAt laterEdge.id 3 = false := by
    decide +kernel
  refine ⟨hlast, hdead, fun h => ?_⟩
  have := h.added _ hlast 3
  rw [hdead] at this
  cases this

end TemporalGraph
end Temporal
end Heraclitus
