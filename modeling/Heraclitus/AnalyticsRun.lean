import Heraclitus.AnalyticsGroups
/-!
# AnalyticsRun — a plan, node by node

What a plan means is what its nodes make of relations, one after the other.  The executor runs a chain of filters as one node; what
lies inside the chain has no other reader, so no node misses it.
-/
namespace Heraclitus
namespace Analytics

abbrev Env := Nat → Option Relation

def Env.read (env : Env) (node : ExecutionNode) (i : Nat) : Option Relation := (node.dependencies[i]?).bind env

/-- What one node makes of the relations so far. -/
def denoteNode (preds : List Predicate) (sources : List Relation) (env : Env) (scans : Nat) (node : ExecutionNode) : Option Relation :=
  match node.operation with
  | .columnScan _ => sources[scans]?
  | .vectorFilter pid => (env.read node 0).bind (·.filterStep preds pid)
  | .vectorAggregate keys aggs => (env.read node 0).bind (·.aggregate keys aggs)
  | .hashJoin lk rk => (env.read node 0).bind fun l => (env.read node 1).bind fun r => l.join lk rk r

def ExecutionNode.scansAfter (node : ExecutionNode) (scans : Nat) : Nat :=
  match node.operation with
  | .columnScan _ => scans + 1
  | _ => scans

def denoteFrom (preds : List Predicate) (sources : List Relation) : List ExecutionNode → Env → Nat → Option Relation →
    Option (Option Relation)
  | [], _, _, last => some last
  | node :: rest, env, scans, _ => (denoteNode preds sources env scans node).bind fun rel =>
      denoteFrom preds sources rest (Function.update env node.nodeId (some rel)) (node.scansAfter scans) (some rel)

/-- **What a plan means:** the relation of its last node. -/
def denote (preds : List Predicate) (sources : List Relation) (dag : List ExecutionNode) : Option Relation :=
  (denoteFrom preds sources dag (fun _ => none) 0 none).bind id

/-- A group or a join comes out as one batch. -/
def ExecutionNode.gathers (node : ExecutionNode) : Bool :=
  match node.operation with
  | .columnScan _ | .vectorFilter _ => false
  | .vectorAggregate _ _ | .hashJoin _ _ => true

/-- No batch that the plan goes on with has more rows than a `u32` numbers. -/
def Fits (preds : List Predicate) (sources : List Relation) : List ExecutionNode → Env → Nat → Prop
  | [], _, _ => True
  | node :: rest, env, scans => ∀ rel, denoteNode preds sources env scans node = some rel →
      (rest ≠ [] → node.gathers = true → rel.rows.length ≤ 2 ^ 32) ∧
        Fits preds sources rest (Function.update env node.nodeId (some rel)) (node.scansAfter scans)

def reads (nodes : List ExecutionNode) : List Nat := nodes.flatMap ExecutionNode.dependencies

variable {preds : List Predicate} {sources : List Relation} {dag rest : List ExecutionNode} {env env' : Env} {ex : VecExecutor}
  {node : ExecutionNode} {rel : Relation} {scans : Nat} {last : Option Relation} {b : RecordBatch}

/-! ## What a plan reads -/

theorem reads_cons (node : ExecutionNode) (rest : List ExecutionNode) : reads (node :: rest) = node.dependencies ++ reads rest :=
  List.flatMap_cons

theorem Env.read_congr (h : ∀ d ∈ node.dependencies, env d = env' d) (i : Nat) : env.read node i = env'.read node i :=
  Option.bind_congr fun d hd => h d (List.mem_of_getElem? hd)

theorem denoteNode_congr (h : ∀ d ∈ node.dependencies, env d = env' d) :
    denoteNode preds sources env scans node = denoteNode preds sources env' scans node := by
  unfold denoteNode
  simp only [Env.read_congr h]

theorem update_congr {d id : Nat} (rel : Option Relation) (h : env d = env' d) :
    Function.update env id rel d = Function.update env' id rel d := by
  by_cases hd : d = id
  · subst hd
    simp
  · rw [Function.update_of_ne hd, Function.update_of_ne hd, h]

theorem denoteFrom_congr : ∀ {rest : List ExecutionNode} {env env' : Env} {scans : Nat} {last : Option Relation},
    (∀ d ∈ reads rest, env d = env' d) → denoteFrom preds sources rest env scans last = denoteFrom preds sources rest env' scans last
  | [], _, _, _, _, _ => rfl
  | node :: rest, env, env', scans, last, h => by
    rw [reads_cons] at h
    rw [denoteFrom, denoteFrom, denoteNode_congr fun d hd => h d (List.mem_append_left _ hd)]
    refine Option.bind_congr fun rel _ => denoteFrom_congr fun d hd => ?_
    exact update_congr _ (h d (List.mem_append_right _ hd))

theorem Fits.congr : ∀ {rest : List ExecutionNode} {env env' : Env} {scans : Nat},
    (∀ d ∈ reads rest, env d = env' d) → Fits preds sources rest env scans → Fits preds sources rest env' scans
  | [], _, _, _, _, _ => trivial
  | node :: rest, env, env', scans, h, hfits => by
    rw [reads_cons] at h
    intro rel hrel
    rw [← denoteNode_congr fun d hd => h d (List.mem_append_left _ hd)] at hrel
    exact ⟨(hfits rel hrel).1, Fits.congr (fun d hd => update_congr _ (h d (List.mem_append_right _ hd))) (hfits rel hrel).2⟩

/-- A plan that gathers at its end only needs no bound. -/
theorem fits_of_last : ∀ {nodes : List ExecutionNode} {env : Env} {scans : Nat}, (∀ node ∈ nodes.dropLast, node.gathers = false) →
    Fits preds sources nodes env scans
  | [], _, _, _ => trivial
  | node :: [], _, _, _ => fun _ _ => ⟨fun h => (h rfl).elim, trivial⟩
  | node :: next :: rest, _, _, h => fun _ _ =>
    ⟨fun _ hgathers => absurd hgathers (by simp [h node List.mem_cons_self]),
      fits_of_last fun other hother => h other (List.mem_cons_of_mem node hother)⟩

/-! ## Chains of filters -/

/-- No node is read more often from here on than in the whole plan. -/
def Within (dag rest : List ExecutionNode) : Prop := ∀ d, (reads rest).count d ≤ VecExecutor.consumers dag d

theorem Within.tail (h : Within dag (node :: rest)) : Within dag rest := fun d => by
  have hd := h d
  rw [reads_cons, List.count_append] at hd
  omega

/-- What only the next node reads is read by none after it. -/
theorem Within.not_read {cur : Nat} (h : Within dag (node :: rest)) (hdeps : node.dependencies = [cur])
    (hsingle : VecExecutor.consumers dag cur = 1) : cur ∉ reads rest := by
  have hcur := h cur
  rw [reads_cons, hdeps, List.count_append, List.count_singleton_self, hsingle] at hcur
  exact List.count_eq_zero.1 (by omega)

theorem update_update_congr {cur id d : Nat} (a b : Option Relation) (hd : d ≠ cur) :
    Function.update (Function.update env cur a) id b d = Function.update env id b d := by
  refine update_congr b ?_
  rw [Function.update_of_ne hd]

/-- What a chain of filters leaves to the rest of the plan. -/
structure ChainSpec (preds : List Predicate) (sources : List Relation) (dag rest : List ExecutionNode) (env : Env) (scans cur : Nat)
    (rel : Relation) (chain : List Nat × Nat × List ExecutionNode) : Prop where
  within : Within dag chain.2.2
  shorter : chain.2.2.length ≤ rest.length
  subset : ∀ d ∈ reads chain.2.2, d ∈ reads rest
  meaning : denoteFrom preds sources rest (Function.update env cur (some rel)) scans (some rel) =
    (chain.1.foldlM (Relation.filterStep preds) rel).bind fun out =>
      denoteFrom preds sources chain.2.2 (Function.update env chain.2.1 (some out)) scans (some out)
  fits : Fits preds sources rest (Function.update env cur (some rel)) scans →
    ∀ out, chain.1.foldlM (Relation.filterStep preds) rel = some out →
      Fits preds sources chain.2.2 (Function.update env chain.2.1 (some out)) scans

theorem chainSpec_nil {cur : Nat} (h : Within dag rest) : ChainSpec preds sources dag rest env scans cur rel ([], cur, rest) where
  within := h
  shorter := le_refl _
  subset _ hd := hd
  meaning := rfl
  fits hfits out hout := by
    cases hout
    exact hfits

/-- **A chain of filters is its nodes, one after the other.** -/
theorem filterChain_spec : ∀ {rest : List ExecutionNode} {cur : Nat} {rel : Relation}, Within dag rest →
    ChainSpec preds sources dag rest env scans cur rel (VecExecutor.filterChain dag cur rest)
  | [], _, _, h => chainSpec_nil h
  | ⟨_, .columnScan _, _⟩ :: _, _, _, h => chainSpec_nil h
  | ⟨_, .vectorAggregate _ _, _⟩ :: _, _, _, h => chainSpec_nil h
  | ⟨_, .hashJoin _ _, _⟩ :: _, _, _, h => chainSpec_nil h
  | ⟨id, .vectorFilter pid, deps⟩ :: rest, cur, rel, h => by
    rw [VecExecutor.filterChain]
    by_cases hc : deps = [cur] ∧ VecExecutor.consumers dag cur = 1
    · obtain ⟨hdeps, hsingle⟩ := hc
      rw [if_pos ⟨hdeps, hsingle⟩]
      have hdead : cur ∉ reads rest := h.not_read hdeps hsingle
      have hnode : denoteNode preds sources (Function.update env cur (some rel)) scans ⟨id, .vectorFilter pid, deps⟩
          = rel.filterStep preds pid := by
        simp [denoteNode, Env.read, hdeps]
      have hsame : ∀ (out : Relation), ∀ d ∈ reads rest,
          Function.update (Function.update env cur (some rel)) id (some out) d = Function.update env id (some out) d :=
        fun out d hd => update_update_congr _ _ fun hdc => hdead (hdc ▸ hd)
      have ih : ∀ out, ChainSpec preds sources dag rest env scans id out (VecExecutor.filterChain dag id rest) :=
        fun out => filterChain_spec h.tail
      generalize VecExecutor.filterChain dag id rest = chain at ih
      obtain ⟨pids, last, rest'⟩ := chain
      refine ⟨(ih rel).within, (ih rel).shorter.trans (Nat.le_succ _), fun d hd => ?_, ?_, fun hfits out hout => ?_⟩
      · rw [reads_cons]
        exact List.mem_append_right _ ((ih rel).subset d hd)
      · rw [denoteFrom, hnode, List.foldlM_cons]
        show _ = ((rel.filterStep preds pid).bind _).bind _
        rw [Option.bind_assoc]
        exact Option.bind_congr fun rel' _ => (denoteFrom_congr (hsame rel')).trans (ih rel').meaning
      · rw [List.foldlM_cons] at hout
        obtain ⟨rel', hrel', hout⟩ := Option.bind_eq_some_iff.1 hout
        exact (ih rel').fits (Fits.congr (hsame rel') (hfits rel' (hnode.trans hrel')).2) out hout
    · rw [if_neg hc]
      exact chainSpec_nil h

/-! ## The loop -/

/-- What the executor holds, for the nodes that are left. -/
structure Holds (dag rest : List ExecutionNode) (env : Env) (results : VecExecutor.Results) : Prop where
  within : Within dag rest
  agrees : ∀ d ∈ reads rest, (results d).map view = env d
  sound : ∀ d bs, results d = some bs → Uniform bs ∧ (rest ≠ [] → Small bs)

variable {results : VecExecutor.Results} {bs : List RecordBatch}

theorem Holds.dependency (h : Holds dag (node :: rest) env results) (i : Nat) :
    (VecExecutor.dependency results node i).toOption.map view = env.read node i := by
  rw [VecExecutor.dependency, Env.read]
  cases hd : node.dependencies[i]? with
  | none => rfl
  | some d =>
    have hagrees := h.agrees d (by rw [reads_cons]; exact List.mem_append_left _ (List.mem_of_getElem? hd))
    rw [Option.bind_some, ← hagrees]
    dsimp only
    cases results d <;> rfl

theorem Holds.input (h : Holds dag (node :: rest) env results) {i : Nat}
    (hinput : (VecExecutor.dependency results node i).toOption = some bs) : Uniform bs ∧ Small bs := by
  unfold VecExecutor.dependency at hinput
  split at hinput
  · cases hinput
  · rename_i d _
    cases hd : results d with
    | none =>
      rw [hd] at hinput
      cases hinput
    | some input =>
      rw [hd] at hinput
      cases hinput
      exact (h.sound d bs hd).imp_right fun hsmall => hsmall (List.cons_ne_nil _ _)

theorem Holds.update {nodes : List ExecutionNode} {id : Nat} (h : Holds dag nodes env results) (hwithin : Within dag rest)
    (hsubset : ∀ d ∈ reads rest, d ∈ reads nodes) (huniform : Uniform bs) (hsmall : rest ≠ [] → Small bs)
    (hnodes : nodes ≠ []) :
    Holds dag rest (Function.update env id (some (view bs))) (Function.update results id (some bs)) := by
  refine ⟨hwithin, fun d hd => ?_, fun d out hout => ?_⟩
  · by_cases hid : d = id
    · subst hid
      simp
    · rw [Function.update_of_ne hid, Function.update_of_ne hid, h.agrees d (hsubset d hd)]
  · by_cases hid : d = id
    · subst hid
      rw [Function.update_self] at hout
      cases hout
      exact ⟨huniform, hsmall⟩
    · rw [Function.update_of_ne hid] at hout
      exact (h.sound d out hout).imp_right fun hold _ => hold hnodes

theorem small_of_rows (h : (view bs).rows.length ≤ 2 ^ 32) : Small bs := fun _ hb =>
  (List.sublist_flatten_of_mem (List.mem_map_of_mem hb)).length_le.trans h

/-! ## One turn -/

/-- What a turn makes of a node that is not a filter. -/
def VecExecutor.runNode (ex : VecExecutor) (results : VecExecutor.Results) (scans : Nat) (node : ExecutionNode) :
    Except AnalyticsError (List RecordBatch) :=
  match node.operation with
  | .columnScan _ =>
    match ex.sources[scans]? with
    | none => .error (.noSource scans)
    | some src => .ok src
  | .vectorFilter pid => do
    let input ← dependency results node 0
    ex.runFilter input pid
  | .vectorAggregate keys aggs => do
    let input ← dependency results node 0
    runAggregate input keys aggs
  | .hashJoin lk rk => do
    let l ← dependency results node 0
    let r ← dependency results node 1
    runHashJoin l r lk rk

def ExecutionNode.filters (node : ExecutionNode) : Bool :=
  match node.operation with
  | .vectorFilter _ => true
  | _ => false

theorem executeLoop_cons (hnode : node.filters = false) (turns scans : Nat) (last : Option Nat) :
    ex.executeLoop dag (turns + 1) (node :: rest) results scans last = (ex.runNode results scans node >>= fun out =>
      ex.executeLoop dag turns rest (Function.update results node.nodeId (some out)) (node.scansAfter scans) (some node.nodeId)) := by
  rw [VecExecutor.executeLoop]
  obtain ⟨id, operation, deps⟩ := node
  cases operation with
  | columnScan projection =>
    unfold VecExecutor.runNode
    dsimp only
    cases ex.sources[scans]? <;> rfl
  | vectorFilter pid => cases hnode
  | vectorAggregate keys aggs =>
    unfold VecExecutor.runNode
    exact (bind_assoc _ _ _).symm
  | hashJoin lk rk =>
    unfold VecExecutor.runNode
    dsimp only
    simp only [bind_assoc]
    rfl

/-- **One turn** makes of the batches what the node makes of the relations. -/
theorem view_runNode (hsources : ∀ src ∈ ex.sources, Uniform src ∧ Small src) (h : Holds dag (node :: rest) env results)
    (hnode : node.filters = false) (scans : Nat) :
    (ex.runNode results scans node).toOption.map view = denoteNode ex.predicates (ex.sources.map view) env scans node ∧
      ∀ out, (ex.runNode results scans node).toOption = some out → Uniform out ∧ (node.gathers = false → Small out) := by
  have hdep := h.dependency
  obtain ⟨id, operation, deps⟩ := node
  cases operation with
  | columnScan projection =>
    have hread : denoteNode ex.predicates (ex.sources.map view) env scans ⟨id, .columnScan projection, deps⟩
        = (ex.sources[scans]?).map view := List.getElem?_map
    rw [hread]
    unfold VecExecutor.runNode
    dsimp only
    cases hsrc : ex.sources[scans]? with
    | none => exact ⟨rfl, fun out hout => by cases hout⟩
    | some src =>
      obtain ⟨huniform, hsmall⟩ := hsources src (List.mem_of_getElem? hsrc)
      refine ⟨rfl, fun out hout => ?_⟩
      cases hout
      exact ⟨huniform, fun _ => hsmall⟩
  | vectorFilter pid => cases hnode
  | vectorAggregate keys aggs =>
    unfold VecExecutor.runNode denoteNode
    dsimp only
    rw [← hdep 0, Except.toOption_bind, Option.map_bind, Option.bind_map]
    refine ⟨Option.bind_congr fun input hinput => (view_aggregate (h.input hinput).1 keys aggs).1, fun out hout => ?_⟩
    obtain ⟨input, hinput, hout⟩ := Option.bind_eq_some_iff.1 hout
    exact ⟨(view_aggregate (h.input hinput).1 keys aggs).2 out hout, fun hplain => by cases hplain⟩
  | hashJoin lk rk =>
    unfold VecExecutor.runNode denoteNode
    dsimp only
    rw [← hdep 0, ← hdep 1, Except.toOption_bind, Option.map_bind, Option.bind_map]
    refine ⟨Option.bind_congr fun l hl => ?_, fun out hout => ?_⟩
    · rw [Function.comp_apply, Function.comp_apply, Except.toOption_bind, Option.map_bind, Option.bind_map]
      exact Option.bind_congr fun r hr => (view_join (h.input hl).1 (h.input hr).1 lk rk).1
    · obtain ⟨l, hl, hout⟩ := Option.bind_eq_some_iff.1 hout
      rw [Except.toOption_bind] at hout
      obtain ⟨r, hr, hout⟩ := Option.bind_eq_some_iff.1 hout
      exact ⟨(view_join (h.input hl).1 (h.input hr).1 lk rk).2 out hout, fun hplain => by cases hplain⟩

/-! ## All turns -/

/-- What the loop ends with. -/
def outcome (out : VecExecutor.Results × Option Nat) : Option Relation := out.2.map fun id => view ((out.1 id).getD [])

/-- **The loop of `execute`, from any node on.** -/
theorem executeLoop_denotes (hsources : ∀ src ∈ ex.sources, Uniform src ∧ Small src) : ∀ {turns : Nat} {rest : List ExecutionNode} {env : Env}
    {results : VecExecutor.Results} {scans : Nat} {last : Option Nat}, rest.length ≤ turns → Holds dag rest env results →
    Fits ex.predicates (ex.sources.map view) rest env scans →
    (ex.executeLoop dag turns rest results scans last).toOption.map outcome
      = denoteFrom ex.predicates (ex.sources.map view) rest env scans (outcome (results, last))
  | 0, [], _, _, _, _, _, _, _ => rfl
  | _ + 1, [], _, _, _, _, _, _, _ => rfl
  | turns + 1, node :: rest, env, results, scans, last, hturns, h, hfits => by
    have hlength : rest.length ≤ turns := Nat.le_of_succ_le_succ hturns
    have hsubset : ∀ d ∈ reads rest, d ∈ reads (node :: rest) := fun d hd => by
      rw [reads_cons]
      exact List.mem_append_right _ hd
    cases hfilters : node.filters with
    | false =>
      obtain ⟨hview, hout⟩ := view_runNode hsources h hfilters scans
      rw [executeLoop_cons hfilters, denoteFrom, ← hview, Except.toOption_bind, Option.map_bind, Option.bind_map]
      refine Option.bind_congr fun out hrun => ?_
      obtain ⟨huniform, hplain⟩ := hout out hrun
      obtain ⟨hbound, hrest⟩ := hfits (view out) (by rw [← hview, hrun]; rfl)
      have hsmall : rest ≠ [] → Small out := fun hne => by
        cases hg : node.gathers with
        | true => exact small_of_rows (hbound hne hg)
        | false => exact hplain hg
      rw [Function.comp_apply,
        executeLoop_denotes hsources hlength (h.update h.within.tail hsubset huniform hsmall (List.cons_ne_nil _ _)) hrest]
      simp [outcome]
    | true =>
      obtain ⟨id, operation, deps⟩ := node
      cases operation with
      | columnScan _ | vectorAggregate _ _ | hashJoin _ _ => cases hfilters
      | vectorFilter pid =>
        rw [denoteFrom, VecExecutor.executeLoop]
        have hdep := h.dependency 0
        have hspec : ∀ rel, ChainSpec ex.predicates (ex.sources.map view) dag rest env scans id rel
            (VecExecutor.filterChain dag id rest) := fun rel => filterChain_spec h.within.tail
        dsimp only at hfits ⊢
        generalize VecExecutor.filterChain dag id rest = chain at hspec
        obtain ⟨pids, cur, rest'⟩ := chain
        have hread : denoteNode ex.predicates (ex.sources.map view) env scans ⟨id, .vectorFilter pid, deps⟩
            = (env.read ⟨id, .vectorFilter pid, deps⟩ 0).bind (·.filterStep ex.predicates pid) := rfl
        rw [hread, ← hdep]
        dsimp only
        rw [Except.toOption_bind, Option.map_bind, Option.bind_map, Option.bind_assoc]
        refine Option.bind_congr fun input hinput => ?_
        obtain ⟨huniform, hsmall⟩ := h.input hinput
        have hchain : (ex.runChain input pid pids).toOption = (pid :: pids).foldlM (filterStep ex.predicates) input :=
          toOption_runChain huniform hsmall pid pids
        have hview := (congrArg (Option.map view) hchain).trans (view_filterSteps ex.predicates (pid :: pids) huniform)
        have hmeaning : ((view input).filterStep ex.predicates pid).bind (fun rel => denoteFrom ex.predicates (ex.sources.map view) rest
              (Function.update env id (some rel)) scans (some rel))
            = ((ex.runChain input pid pids).toOption.map view).bind fun out => denoteFrom ex.predicates (ex.sources.map view) rest'
              (Function.update env cur (some out)) scans (some out) := by
          rw [hview, List.foldlM_cons]
          show _ = (((view input).filterStep ex.predicates pid).bind _).bind _
          rw [Option.bind_assoc]
          exact Option.bind_congr fun rel _ => (hspec rel).meaning
        rw [Function.comp_apply]
        refine Eq.trans ?_ hmeaning.symm
        rw [Except.toOption_bind, Option.map_bind, Option.bind_map]
        refine Option.bind_congr fun out hout => ?_
        have hrun : (pid :: pids).foldlM (Relation.filterStep ex.predicates) (view input) = some (view out) := by
          rw [← hview, hout]
          rfl
        rw [List.foldlM_cons] at hrun
        obtain ⟨rel, hrel, hrest⟩ := Option.bind_eq_some_iff.1 hrun
        have hnode : denoteNode ex.predicates (ex.sources.map view) env scans ⟨id, .vectorFilter pid, deps⟩ = some rel := by
          rw [hread, ← hdep, hinput]
          exact hrel
        rw [hchain] at hout
        rw [Function.comp_apply, executeLoop_denotes hsources ((hspec rel).shorter.trans hlength)
          (h.update (hspec rel).within (fun d hd => hsubset d ((hspec rel).subset d hd))
            (uniform_filterSteps ex.predicates (pid :: pids) huniform hout)
            (fun _ => small_filterSteps ex.predicates (pid :: pids) hsmall hout) (List.cons_ne_nil _ _))
          ((hspec rel).fits (hfits rel hnode).2 _ hrest)]
        simp [outcome]

theorem holds_start (dag : List ExecutionNode) : Holds dag dag (fun _ => none) (fun _ => none) where
  within _ := le_refl _
  agrees _ _ := rfl
  sound _ _ h := by cases h

theorem view_execute (ex : VecExecutor) (dag : List ExecutionNode) : (ex.execute dag).toOption.map view
    = ((ex.executeLoop dag dag.length dag (fun _ => none) 0 none).toOption.map outcome).bind id := by
  rw [VecExecutor.execute, Except.toOption_bind, Option.map_bind, Option.bind_map]
  refine Option.bind_congr fun out _ => ?_
  obtain ⟨results, last⟩ := out
  cases last <;> rfl

def sampleBatch : RecordBatch := ⟨[⟨"n".toList, .uint64, false⟩], [[.uint64 1], [.uint64 5], [.uint64 7]]⟩

/-- `n > 1`, and `n < 7`. -/
def sampleExecutor : VecExecutor :=
  ⟨[[sampleBatch, sampleBatch, sampleBatch, sampleBatch]], [⟨0, .gt, .u64 1⟩, ⟨0, .lt, .u64 7⟩], 3, .empty, fun _ => true⟩

def sampleDag : List ExecutionNode :=
  [⟨0, .columnScan [], []⟩, ⟨1, .vectorFilter 0, [0]⟩, ⟨2, .vectorFilter 1, [1]⟩, ⟨3, .vectorAggregate [0] [0], [2]⟩]

end Analytics
end Heraclitus
