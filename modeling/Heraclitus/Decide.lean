import Heraclitus.TemporalAsOf
import Heraclitus.Query
import Heraclitus.Lib.Run
/-!
# Decide — the graph that acts (`heraclitus-index-graph/src/decision.rs`, `heraclitus-query/src/backend.rs`)

`DECIDE` replays the log up to its `AS OF` bound, lets the policy propose actions on the graph of that window, and appends
an `Action` event for each of them whose `action_id` the window does not hold yet.  The window ends at the bound and at the
cap of a query scan; the event is appended at the head.  Statements of several clients overlap: each reads its window
once, and then appends event after event.
-/
namespace Heraclitus
namespace Decide

open Temporal

/-! ## The policy (`decision.rs`) -/

/-- What the policy takes from its libraries besides the graph's: the z-score of a degree among those of all nodes (`f32`
arithmetic), and `{:.3}` of an `f32`. -/
structure Env extends Temporal.Env where
  zScore : List Nat → Nat → F32
  fmt3 : F32 → Str

/-- `x >= y` on `f32`. -/
def f32Ge (x y : F32) : Bool := !isNan x && !isNan y && decide (placeOf y ≤ placeOf x)

structure DecisionPolicy where
  anomalyThreshold : F32
  fraudBeliefThreshold : F32

/-- `1.5` and `0.7`. -/
def defaultPolicy : DecisionPolicy := { anomalyThreshold := 0x3fc00000, fraudBeliefThreshold := 0x3f333333 }

structure Decision where
  actionId : Str
  rule : Str
  subject : Str
  reason : Str
  deriving DecidableEq

section Policy

variable (env : Env)

/-- `analyze`: the degree of every node that a live edge touches. -/
def degrees (g : TemporalGraph) (asOf : Nat) (minConfidence : F32) : SortedMap Str Nat :=
  let alive := g.edges.entries.filter (fun ke =>
    ke.2.aliveAt asOf && f32Ge (g.beliefAt env.toEnv ke.2.id asOf) minConfidence)
  alive.foldl (fun degree ke =>
    (degree.alter ke.2.from_ (fun d => some (d.getD 0 + 1))).alter ke.2.to_ (fun d => some (d.getD 0 + 1))) .empty

/-- The nodes of `analyze` with their degree and their `anomaly_score`. -/
def metrics (g : TemporalGraph) (asOf : Nat) (minConfidence : F32) : List (Str × Nat × F32) :=
  let degree := (degrees env g asOf minConfidence).entries
  degree.map (fun nd => (nd.1, nd.2, env.zScore (degree.map Prod.snd) nd.2))

def flagAnomaly (policy : DecisionPolicy) (m : Str × Nat × F32) : Option Decision :=
  if f32Ge m.2.2 policy.anomalyThreshold then
    some { actionId := "flag_anomaly:".toList ++ m.1
           rule := "flag_anomaly".toList
           subject := m.1
           reason := "anomaly_score=".toList ++ env.fmt3 m.2.2 ++ " degree=".toList ++ (toString m.2.1).toList }
  else none

def flagFraud (e : EdgeMatch) : Decision where
  actionId := "flag_fraud:".toList ++ e.from_ ++ "->".toList ++ e.to_
  rule := "flag_fraud".toList
  subject := e.from_
  reason := "fraud_partner belief=".toList ++ env.fmt3 e.belief

def byActionId (a b : Decision) : Prop := a.actionId ≤ b.actionId

instance : DecidableRel byActionId := fun a b => inferInstanceAs (Decidable (a.actionId ≤ b.actionId))

/-- `dedup_by` behind a decision that stays. -/
def dedupAfter (last : Decision) : List Decision → List Decision
  | [] => []
  | d :: ds => if d.actionId = last.actionId then dedupAfter last ds else d :: dedupAfter d ds

def dedupById : List Decision → List Decision
  | [] => []
  | d :: ds => d :: dedupAfter d ds

/-- `decision::evaluate`. -/
def evaluate (g : TemporalGraph) (asOf : Nat) (policy : DecisionPolicy) : List Decision :=
  let anomalies := (metrics env g asOf 0).filterMap (flagAnomaly env policy)
  let frauds := (g.matchEdges env.toEnv none (some .fraudPartner) none asOf policy.fraudBeliefThreshold).map (flagFraud env)
  dedupById ((anomalies ++ frauds).insertionSort byActionId)

end Policy

/-! ## `DECIDE` (`backend.rs`) -/

/-- The `action_id` that an `Action` event records. -/
def recordedId (e : Episode) : Option Str := if e.kind = .action then e.attrs.get? "action_id".toList else none

/-- The event of `append(Some("action"), props)`, with its fresh id. -/
def actionEvent (id : Nat) (d : Decision) : Episode :=
  { Episode.new id "gql".toList .action [] with
    attrs := (((SortedMap.empty.insert "action_id".toList d.actionId).insert "rule".toList d.rule).insert
      "subject".toList d.subject).insert "reason".toList d.reason }

/-- An action that a `DECIDE` has appended. -/
structure ActionRecord where
  actionId : Str
  rule : Str
  subject : Str
  reason : Str
  lsn : Nat
  deriving DecidableEq

/-- A `DECIDE`: the ids appended by any before it read its window, what the policy proposed, what it reports as skipped,
and the decisions it still has to append. -/
structure Statement where
  before : List Str
  proposed : List Str
  skipped : List Str
  pending : List Decision

structure State where
  log : List Episode := []
  fired : List ActionRecord := []
  statements : List Statement := []

inductive Action where
  /-- Any other append. -/
  | append (e : Episode)
  /-- The server stops, whatever is under way, and opens the log again. -/
  | restart
  /-- A `DECIDE` reads its window. -/
  | read (asOf : Option Nat)
  /-- The `i`-th `DECIDE` appends its next decision, under a fresh id. -/
  | fire (i : Nat) (id : Nat)
  /-- The `i`-th `DECIDE` ends with an error. -/
  | fail (i : Nat)

section Steps

variable (env : Env) (policy : DecisionPolicy)

/-- `scan_range(0, bound)`. -/
def window (log : List Episode) (asOf : Option Nat) : List (Nat × Episode) :=
  scanCapped log 0 (asOf.getD log.length) Query.queryScanCap

/-- `existing`. -/
def existing (snapshot : List (Nat × Episode)) : List Str := snapshot.filterMap (fun r => recordedId r.2)

def proposals (snapshot : List (Nat × Episode)) : List Decision :=
  evaluate env (TemporalGraph.ofLog env.toEnv snapshot) (2 ^ 64 - 1) policy

/-- `decide` up to its first append. -/
def read (s : State) (asOf : Option Nat) : Statement :=
  let snapshot := window s.log asOf
  let decisions := proposals env policy snapshot
  { before := s.fired.map ActionRecord.actionId
    proposed := decisions.map Decision.actionId
    skipped := (decisions.filter (fun d => decide (d.actionId ∈ existing snapshot))).map Decision.actionId
    pending := decisions.filter (fun d => decide (d.actionId ∉ existing snapshot)) }

def Statement.ended (st : Statement) : Statement := { st with pending := [] }

def step (s : State) : Action → Option State
  | .append e => some { s with log := s.log ++ [e] }
  | .restart => some { s with statements := s.statements.map Statement.ended }
  | .read asOf => some { s with statements := s.statements ++ [read env policy s asOf] }
  | .fire i id =>
    match s.statements[i]? with
    | some ⟨before, proposed, skipped, d :: rest⟩ =>
      some { log := s.log ++ [actionEvent id d]
             fired := s.fired ++ [⟨d.actionId, d.rule, d.subject, d.reason, s.log.length⟩]
             statements := s.statements.set i ⟨before, proposed, skipped, rest⟩ }
    | _ => none
  | .fail i => some { s with statements := s.statements.modify i Statement.ended }

end Steps

def State.firedIds (s : State) : List Str := s.fired.map ActionRecord.actionId

/-- The actions that the statements under way still append. -/
def State.pendingIds (s : State) : List Str := s.statements.flatMap (fun st => st.pending.map Decision.actionId)

/-- **`DECIDE` acts at most once**: no two actions appended have one id, and each statement reports as skipped what it
proposed and an earlier one had appended. -/
structure ActsOnce (s : State) : Prop where
  once : s.firedIds.Nodup
  skips : ∀ st ∈ s.statements, ∀ id ∈ st.before, id ∈ st.proposed → id ∈ st.skipped

/-- The window of a `DECIDE` holds an action event for whatever the policy proposes on it and another `DECIDE` has
appended or, still under way, is about to append. -/
def Covers (env : Env) (policy : DecisionPolicy) (s : State) : Action → Prop
  | .read asOf => ∀ d ∈ proposals env policy (window s.log asOf),
      d.actionId ∈ s.firedIds ∨ d.actionId ∈ s.pendingIds → d.actionId ∈ existing (window s.log asOf)
  | _ => True

instance (env : Env) (policy : DecisionPolicy) (s : State) : ∀ a : Action, Decidable (Covers env policy s a)
  | .read asOf => inferInstanceAs (Decidable (∀ d ∈ proposals env policy (window s.log asOf),
      d.actionId ∈ s.firedIds ∨ d.actionId ∈ s.pendingIds → d.actionId ∈ existing (window s.log asOf)))
  | .append _ | .restart | .fire _ _ | .fail _ => isTrue trivial

/-! ## The proposals -/

theorem dedupAfter_spec (last : Decision) : ∀ (ds : List Decision), ds.Pairwise byActionId → (∀ d ∈ ds, byActionId last d) →
    (dedupAfter last ds).Pairwise (fun a b => a.actionId < b.actionId) ∧
      ∀ d ∈ dedupAfter last ds, last.actionId < d.actionId
  | [], _, _ => ⟨.nil, by simp [dedupAfter]⟩
  | d :: ds, hsorted, hlast => by
    obtain ⟨hd, hds⟩ := List.pairwise_cons.1 hsorted
    rw [dedupAfter]
    split
    · exact dedupAfter_spec last ds hds (fun x hx => hlast x (List.mem_cons_of_mem _ hx))
    · rename_i hne
      have hlt : last.actionId < d.actionId := lt_of_le_of_ne (hlast d List.mem_cons_self) (Ne.symm hne)
      obtain ⟨hpair, hall⟩ := dedupAfter_spec d ds hds hd
      refine ⟨List.pairwise_cons.2 ⟨hall, hpair⟩, ?_⟩
      intro x hx
      cases hx with
      | head => exact hlt
      | tail _ hx => exact hlt.trans (hall x hx)

theorem nodup_dedupById {ds : List Decision} (h : ds.Pairwise byActionId) : ((dedupById ds).map Decision.actionId).Nodup := by
  rw [List.Nodup, List.pairwise_map]
  cases ds with
  | nil => exact .nil
  | cons d ds =>
    obtain ⟨hd, hds⟩ := List.pairwise_cons.1 h
    obtain ⟨hpair, hall⟩ := dedupAfter_spec d ds hds hd
    rw [dedupById]
    exact (List.pairwise_cons.2 ⟨hall, hpair⟩).imp ne_of_lt

/-- **The policy proposes an action once.** -/
theorem nodup_evaluate (env : Env) (g : TemporalGraph) (asOf : Nat) (policy : DecisionPolicy) :
    ((evaluate env g asOf policy).map Decision.actionId).Nodup := by
  apply nodup_dedupById
  have : Std.Total byActionId := ⟨fun a b => le_total a.actionId b.actionId⟩
  have : IsTrans Decision byActionId := ⟨fun _ _ _ => le_trans⟩
  exact List.pairwise_insertionSort byActionId _

/-! ## Runs -/

variable {env : Env} {policy : DecisionPolicy} {s s' : State}

theorem nodup_pending (s : State) (asOf : Option Nat) : ((read env policy s asOf).pending.map Decision.actionId).Nodup :=
  (nodup_evaluate env _ _ policy).sublist (List.filter_sublist.map _)

theorem mem_skipped {asOf : Option Nat} {id : Str} : id ∈ (read env policy s asOf).skipped ↔
    id ∈ (read env policy s asOf).proposed ∧ id ∈ existing (window s.log asOf) := by
  unfold read
  simp only [List.mem_map, List.mem_filter, decide_eq_true_eq]
  constructor
  · rintro ⟨d, ⟨hd, hex⟩, rfl⟩
    exact ⟨⟨d, hd, rfl⟩, hex⟩
  · rintro ⟨⟨d, hd, rfl⟩, hex⟩
    exact ⟨d, ⟨hd, hex⟩, rfl⟩

theorem mem_pending {asOf : Option Nat} {id : Str} : id ∈ (read env policy s asOf).pending.map Decision.actionId ↔
    id ∈ (read env policy s asOf).proposed ∧ id ∉ existing (window s.log asOf) := by
  unfold read
  simp only [List.mem_map, List.mem_filter, decide_eq_true_eq]
  constructor
  · rintro ⟨d, ⟨hd, hex⟩, rfl⟩
    exact ⟨⟨d, hd, rfl⟩, hex⟩
  · rintro ⟨⟨d, hd, rfl⟩, hex⟩
    exact ⟨d, ⟨hd, hex⟩, rfl⟩

/-- What the runs keep: an action is appended, or about to be appended, by one statement only. -/
structure Inv (s : State) : Prop where
  once : (s.firedIds ++ s.pendingIds).Nodup
  skips : ∀ st ∈ s.statements, ∀ id ∈ st.before, id ∈ st.proposed → id ∈ st.skipped

theorem Inv.actsOnce (h : Inv s) : ActsOnce s := ⟨h.once.sublist (List.sublist_append_left _ _), h.skips⟩

/-- Statements that end keep their report and append nothing more. -/
theorem Inv.statements (h : Inv s) {sts : List Statement}
    (hids : (sts.flatMap (fun st => st.pending.map Decision.actionId)).Sublist s.pendingIds)
    (hreports : ∀ st ∈ sts, ∃ st₀ ∈ s.statements, st.before = st₀.before ∧ st.proposed = st₀.proposed ∧
      st.skipped = st₀.skipped) : Inv { s with statements := sts } where
  once := h.once.sublist (hids.append_left _)
  skips := by
    intro st hst id hbefore hproposed
    obtain ⟨st₀, hst₀, hb, hp, hs⟩ := hreports st hst
    rw [hs]
    exact h.skips st₀ hst₀ id (hb ▸ hbefore) (hp ▸ hproposed)

theorem flatMap_pending_set : ∀ {sts : List Statement} {i : Nat} {before proposed skipped : List Str} {d : Decision}
    {rest : List Decision}, sts[i]? = some ⟨before, proposed, skipped, d :: rest⟩ →
    (d.actionId :: (sts.set i ⟨before, proposed, skipped, rest⟩).flatMap
      (fun st => st.pending.map Decision.actionId)).Perm (sts.flatMap (fun st => st.pending.map Decision.actionId))
  | [], i, _, _, _, _, _, h => by simp at h
  | st :: sts, 0, before, proposed, skipped, d, rest, h => by
    cases h
    exact .refl _
  | st :: sts, i + 1, before, proposed, skipped, d, rest, h => by
    rw [List.set_cons_succ, List.flatMap_cons, List.flatMap_cons]
    exact List.perm_middle.symm.trans ((flatMap_pending_set (show sts[i]? = _ from h)).append_left _)

theorem sublist_pending_modify : ∀ (i : Nat) (sts : List Statement),
    ((sts.modify i Statement.ended).flatMap (fun st => st.pending.map Decision.actionId)).Sublist
      (sts.flatMap (fun st => st.pending.map Decision.actionId))
  | i, [] => by simp
  | 0, st :: sts => by
    rw [List.modify_zero_cons, List.flatMap_cons, List.flatMap_cons]
    exact List.sublist_append_right _ _
  | i + 1, st :: sts => by
    rw [List.modify_succ_cons, List.flatMap_cons, List.flatMap_cons]
    exact (sublist_pending_modify i sts).append_left _

theorem reports_modify {i : Nat} {sts : List Statement} {st : Statement} (h : st ∈ sts.modify i Statement.ended) :
    ∃ st₀ ∈ sts, st.before = st₀.before ∧ st.proposed = st₀.proposed ∧ st.skipped = st₀.skipped := by
  obtain ⟨j, hj⟩ := List.getElem?_of_mem h
  rw [List.getElem?_modify] at hj
  cases hget : sts[j]? with
  | none =>
    rw [hget] at hj
    cases hj
  | some st₀ =>
    rw [hget] at hj
    cases hj
    refine ⟨st₀, List.mem_of_getElem? hget, ?_⟩
    by_cases hij : i = j <;> simp [hij, Statement.ended]

theorem inv_fire {i id : Nat} (h : Inv s) (hs : step env policy s (.fire i id) = some s') : Inv s' := by
  simp only [step] at hs
  split at hs
  · rename_i before proposed skipped d rest hget
    cases hs
    have hperm : ((s.firedIds ++ [d.actionId]) ++ (s.statements.set i ⟨before, proposed, skipped, rest⟩).flatMap
        (fun st => st.pending.map Decision.actionId)).Perm (s.firedIds ++ s.pendingIds) := by
      rw [List.append_assoc]
      exact (flatMap_pending_set hget).append_left _
    constructor
    · rw [State.firedIds, List.map_append]
      exact hperm.nodup_iff.2 h.once
    · intro st hst id hbefore hproposed
      rcases List.mem_or_eq_of_mem_set hst with hst | rfl
      · exact h.skips st hst id hbefore hproposed
      · exact h.skips _ (List.mem_of_getElem? hget) id hbefore hproposed
  · cases hs

theorem inv_read {asOf : Option Nat} (h : Inv s) (hcov : Covers env policy s (.read asOf)) :
    Inv { s with statements := s.statements ++ [read env policy s asOf] } := by
  have hcovered : ∀ id ∈ (read env policy s asOf).proposed, id ∈ s.firedIds ∨ id ∈ s.pendingIds →
      id ∈ existing (window s.log asOf) := by
    intro id hid
    obtain ⟨d, hd, rfl⟩ := List.mem_map.1 hid
    exact hcov d hd
  constructor
  · have hids : (s.firedIds ++ s.pendingIds ++ (read env policy s asOf).pending.map Decision.actionId).Nodup := by
      rw [List.nodup_append']
      refine ⟨h.once, nodup_pending s asOf, ?_⟩
      intro id hid hpending
      obtain ⟨hproposed, hnew⟩ := mem_pending.1 hpending
      exact hnew (hcovered id hproposed (List.mem_append.1 hid))
    show (s.firedIds ++ (s.statements ++ [read env policy s asOf]).flatMap
      (fun st => st.pending.map Decision.actionId)).Nodup
    rw [List.flatMap_append, List.flatMap_cons, List.flatMap_nil, List.append_nil, ← List.append_assoc]
    exact hids
  · intro st hst id hbefore hproposed
    rcases List.mem_append.1 hst with hst | hst
    · exact h.skips st hst id hbefore hproposed
    · cases List.mem_singleton.1 hst
      exact mem_skipped.2 ⟨hproposed, hcovered id hproposed (.inl hbefore)⟩

theorem inv_step {a : Action} (h : Inv s) (hcov : Covers env policy s a) (hs : step env policy s a = some s') : Inv s' := by
  cases a with
  | append e =>
    cases hs
    exact ⟨h.once, h.skips⟩
  | restart =>
    cases hs
    apply h.statements
    · rw [List.flatMap_map]
      exact (List.flatMap_eq_nil_iff.2 (fun _ _ => rfl)).symm ▸ List.nil_sublist _
    · intro st hst
      obtain ⟨st₀, hst₀, rfl⟩ := List.mem_map.1 hst
      exact ⟨st₀, hst₀, rfl, rfl, rfl⟩
  | read asOf =>
    cases hs
    exact inv_read h hcov
  | fire i id => exact inv_fire h hs
  | fail i =>
    cases hs
    apply h.statements
    · exact sublist_pending_modify i s.statements
    · intro st hst
      exact reports_modify hst

/-- The nodes score nothing, a fraud is believed at 0.9999. -/
def sampleEnv : Env where
  toEnv := Temporal.sampleEnv
  zScore _ _ := 0
  fmt3 _ := "1.000".toList

/-- `X` is a fraud partner of `Y`. -/
def fraudEvent : Episode :=
  { Episode.new 1 "ag".toList .observation [] with
    attrs := ((SortedMap.empty.insert "edge_from".toList "X".toList).insert "edge_to".toList "Y".toList).insert
      "edge_type".toList "fraud_partner".toList }

/-- `DECIDE ()`, twice. -/
def decideAgain : List Action := [.append fraudEvent, .read none, .fire 0 2, .read none]

/-- `DECIDE ()`, and then `DECIDE () AS OF LSN 1`. -/
def decideInThePast : List Action := [.append fraudEvent, .read none, .fire 0 2, .read (some 1), .fire 1 3]

end Decide
end Heraclitus
