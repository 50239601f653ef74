import Heraclitus.AnalyticsRun
import Mathlib.Data.List.Sort
/-!
# AnalyticsPlan — the optimizer, and what comes out of it

The optimizer puts the filters of a query in the order of their estimates and lays them out as nodes.  Whatever the estimates,
the batches and the threads, what comes out is what the predicates say of the events, one by one.
-/
namespace Heraclitus
namespace Analytics

/-- `LogicalPlan`; only `select` is lowered here. -/
inductive LogicalPlan where
  | select (relations : List Str) (predicates : List Nat) (aggregate : Option (List Nat × List Nat))
  | graphMatch (patternId : Nat)
  | traceProvenance (target : Nat)
  deriving DecidableEq

/-- The order of `total_cmp`, as an integer. -/
def totalKey (x : F64) : Int := if x.negative then -(x.magnitude : Int) - 1 else x.magnitude

/-- The filters of a plan, each reading the node before it. -/
def filterNodes : Nat → List Nat → List ExecutionNode
  | _, [] => []
  | prev, pid :: pids => ⟨prev + 1, .vectorFilter pid, [prev]⟩ :: filterNodes (prev + 1) pids

/-- `SelectivityOptimizer::optimize`; a plan that it does not lower comes back. -/
def optimize (selectivities : SortedMap Nat F64) : LogicalPlan → Except LogicalPlan (List ExecutionNode)
  | .select _ predicates aggregate =>
    let ordered := predicates.mergeSort (fun a b =>
      decide (totalKey (VecExecutor.estimate selectivities a) ≤ totalKey (VecExecutor.estimate selectivities b)))
    .ok (⟨0, .columnScan [], []⟩ :: (filterNodes 0 ordered ++
      (aggregate.map fun a => ⟨ordered.length + 1, .vectorAggregate a.1 a.2, [ordered.length]⟩).toList))
  | other => .error other

/-- The rows that pass every filter. -/
def passing (preds : List Predicate) (pids : List Nat) (rows : List Row) : List Row :=
  rows.filter fun row => pids.all fun pid => (preds[pid]?).any (·.holds row)

/-- A relation over the events: no rows, no batch. -/
def eventsRelation (rows : List Row) : Relation := ⟨if rows = [] then none else some batchSchema, rows⟩

/-- What a query asks of the rows of the events. -/
def answer (preds : List Predicate) (pids : List Nat) (aggregate : Option (List Nat × List Nat)) (rows : List Row) : Relation :=
  match aggregate with
  | none => eventsRelation (passing preds pids rows)
  | some (keys, aggs) => ⟨some (aggregateSchema keys aggs), grouped keys aggs (passing preds pids rows)⟩

variable {preds : List Predicate} {sources : List Relation} {env : Env} {rows : List Row} {pids : List Nat} {scans : Nat}

/-! ## The events -/

/-- **The batches of the events** are one relation, whatever their length. -/
theorem batches_eq (events : List (Nat × Episode)) (n : Nat) : ∃ bs, episodesToBatchesSized events n = .ok bs ∧
    view bs = eventsRelation (events.map eventRow) ∧ Uniform bs ∧ ∀ b ∈ bs, b.numRows ≤ max n 1 := by
  have hpos : 0 < max n 1 := by omega
  have hne : batchSchema ≠ [] := by simp [batchSchema]
  have hall : ∀ cs : List (List (Nat × Episode)), cs.mapM (fun chunk => RecordBatch.tryNew batchSchema (chunk.map eventRow))
      = .ok (cs.map (fun chunk => ⟨batchSchema, chunk.map eventRow⟩)) := by
    intro cs
    simp only [tryNew_eq hne]
    exact List.mapM_pure
  refine ⟨_, hall _, ?_, ⟨batchSchema, hne, fun b hb => ?_⟩, fun b hb => ?_⟩
  · have hschema : ∀ b ∈ (chunks (max n 1) events).map (fun chunk => (⟨batchSchema, chunk.map eventRow⟩ : RecordBatch)),
        b.schema = batchSchema ∧ b.rows ≠ [] := by
      intro b hb
      obtain ⟨chunk, hchunk, rfl⟩ := List.mem_map.1 hb
      have hlength := (length_of_mem_chunks hpos hchunk).1
      exact ⟨rfl, fun hnil => by simp_all⟩
    have hrows : ((chunks (max n 1) events).map (fun chunk => (⟨batchSchema, chunk.map eventRow⟩ : RecordBatch))).flatMap
        RecordBatch.rows = events.map eventRow := by
      conv_rhs => rw [← flatten_chunks hpos events, List.map_flatten]
      rw [List.flatMap_map]
      rfl
    rw [view, head?_schema hschema, hrows]
    rfl
  · obtain ⟨chunk, -, rfl⟩ := List.mem_map.1 hb
    rfl
  · obtain ⟨chunk, hchunk, rfl⟩ := List.mem_map.1 hb
    exact (Nat.le_of_eq (List.length_map _)).trans (length_of_mem_chunks hpos hchunk).2

/-! ## The plan -/

theorem filter_eventsRelation {p : Predicate} (hfits : p.fits batchSchema = true) (rows : List Row) :
    (eventsRelation rows).filter p = some (eventsRelation (rows.filter p.holds)) := by
  unfold eventsRelation Relation.filter
  by_cases hrows : rows = []
  · simp [hrows]
  · simp [hrows, hfits]

/-- Filters of the events, one after the other. -/
theorem filterSteps_eventsRelation : ∀ {pids : List Nat} (rows : List Row),
    (∀ pid ∈ pids, ∃ p, preds[pid]? = some p ∧ p.fits batchSchema = true) →
    pids.foldlM (Relation.filterStep preds) (eventsRelation rows) = some (eventsRelation (passing preds pids rows))
  | [], rows, _ => by simp [passing]
  | pid :: pids, rows, h => by
    obtain ⟨p, hp, hfits⟩ := h pid List.mem_cons_self
    have hone : (eventsRelation rows).filterStep preds pid = some (eventsRelation (rows.filter p.holds)) := by
      rw [Relation.filterStep, hp, Option.bind_some, filter_eventsRelation hfits]
    have hrest := filterSteps_eventsRelation (rows.filter p.holds) fun pid' h' => h pid' (List.mem_cons_of_mem pid h')
    have hpassing : passing preds pids (rows.filter p.holds) = passing preds (pid :: pids) rows := by
      simp [passing, List.filter_filter, hp, Bool.and_comm]
    rw [List.foldlM_cons, hone, ← hpassing]
    exact hrest

/-- The nodes of the filters leave what the filters leave to the nodes after them. -/
theorem denoteFrom_filterNodes (scans : Nat) (tail : List ExecutionNode) : ∀ {pids : List Nat} {prev : Nat} {env : Env} {rel out : Relation},
    env prev = some rel → pids.foldlM (Relation.filterStep preds) rel = some out → ∃ env', env' (prev + pids.length) = some out ∧
      denoteFrom preds sources (filterNodes prev pids ++ tail) env scans (some rel) = denoteFrom preds sources tail env' scans (some out)
  | [], prev, env, rel, out, henv, hout => by
    cases hout
    exact ⟨env, henv, rfl⟩
  | pid :: pids, prev, env, rel, out, henv, hout => by
    rw [List.foldlM_cons] at hout
    obtain ⟨rel', hrel', hout⟩ := Option.bind_eq_some_iff.1 hout
    have hnext : Function.update env (prev + 1) (some rel') (prev + 1) = some rel' := Function.update_self _ _ _
    obtain ⟨env', henv', hrest⟩ := denoteFrom_filterNodes scans tail hnext hout
    have hnode : denoteNode preds sources env scans ⟨prev + 1, .vectorFilter pid, [prev]⟩ = some rel' := by
      simpa [denoteNode, Env.read, henv] using hrel'
    refine ⟨env', by rwa [List.length_cons, Nat.add_comm pids.length, ← Nat.add_assoc], ?_⟩
    rw [filterNodes, List.cons_append, denoteFrom, hnode]
    exact hrest

theorem not_gathers_filterNodes {node : ExecutionNode} : ∀ {pids : List Nat} {prev : Nat}, node ∈ filterNodes prev pids → node.gathers = false
  | _ :: _, _, h => by
    rcases List.mem_cons.1 h with rfl | h
    · rfl
    · exact not_gathers_filterNodes h

theorem fits_nodes (pids : List Nat) (aggregate : Option (List Nat × List Nat)) :
    Fits preds sources (⟨0, .columnScan [], []⟩ :: (filterNodes 0 pids ++
      (aggregate.map fun a => ⟨pids.length + 1, .vectorAggregate a.1 a.2, [pids.length]⟩).toList)) env scans := by
  have hfront : ∀ node ∈ (⟨0, .columnScan [], []⟩ : ExecutionNode) :: filterNodes 0 pids, node.gathers = false := fun node h => by
    rcases List.mem_cons.1 h with rfl | h
    · rfl
    · exact not_gathers_filterNodes h
  apply fits_of_last
  cases aggregate with
  | none => exact fun node h => hfront node (List.append_nil (filterNodes 0 pids) ▸ List.mem_of_mem_dropLast h)
  | some a =>
    rw [Option.map_some, Option.toList_some, ← List.cons_append, List.dropLast_concat]
    exact hfront

/-- The nodes of a plan whose filters are in order. -/
theorem denote_nodes {aggregate : Option (List Nat × List Nat)} (hrel : sources[0]? = some (eventsRelation rows))
    (hpids : ∀ pid ∈ pids, ∃ p, preds[pid]? = some p ∧ p.fits batchSchema = true)
    (hcolumns : ∀ a, aggregate = some a → ∀ k ∈ a.1 ++ a.2, k < batchSchema.length) :
    denote preds sources (⟨0, .columnScan [], []⟩ :: (filterNodes 0 pids ++
      (aggregate.map fun a => ⟨pids.length + 1, .vectorAggregate a.1 a.2, [pids.length]⟩).toList))
      = some (answer preds pids aggregate rows) := by
  have hscan : denoteNode preds sources (fun _ => none) 0 ⟨0, .columnScan [], []⟩ = some (eventsRelation rows) := hrel
  have hstart : Function.update (fun _ => none : Env) 0 (some (eventsRelation rows)) 0 = some (eventsRelation rows) :=
    Function.update_self _ _ _
  obtain ⟨env', henv', hdenote⟩ := denoteFrom_filterNodes 1
    (aggregate.map fun a => (⟨pids.length + 1, .vectorAggregate a.1 a.2, [pids.length]⟩ : ExecutionNode)).toList
    hstart (filterSteps_eventsRelation rows hpids)
  rw [Nat.zero_add] at henv'
  rw [denote, denoteFrom, hscan]
  refine (congrArg (Option.bind · id) hdenote).trans ?_
  cases aggregate with
  | none => rfl
  | some a =>
    obtain ⟨keys, aggs⟩ := a
    have hreads : (eventsRelation (passing preds pids rows)).Reads (keys ++ aggs) := by
      by_cases hnil : passing preds pids rows = []
      · exact .inl hnil
      · refine .inr fun k hk => (hcolumns (keys, aggs) rfl k hk).trans_eq ?_
        rw [Relation.width, eventsRelation, if_neg hnil]
        rfl
    have hnode : denoteNode preds sources env' 1 ⟨pids.length + 1, .vectorAggregate keys aggs, [pids.length]⟩
        = some (answer preds pids (some (keys, aggs)) rows) := by
      show (env' pids.length).bind (·.aggregate keys aggs) = _
      rw [henv', Option.bind_some, Relation.aggregate, if_pos hreads]
      rfl
    rw [Option.map_some, Option.toList_some, denoteFrom, hnode]
    rfl

def sampleEvents : List (Nat × Episode) :=
  [(0, Episode.new 1 "alice".toList .observation [1]), (1, Episode.new 2 "bob".toList .observation []),
    (2, Episode.new 3 "alice".toList .observation [])]

/-- `lsn < 2`, and `agent_id = "alice"`. -/
def sampleQuery : VecExecutor := ⟨[], [⟨0, .lt, .u64 2⟩, ⟨1, .eq, .str "alice".toList⟩], 1, .empty, fun _ => true⟩

end Analytics
end Heraclitus
