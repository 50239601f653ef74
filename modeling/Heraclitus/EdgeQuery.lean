import Heraclitus.EdgeIdentity
import Heraclitus.QueryReach
import Heraclitus.TemporalAdjacency
/-!
# EdgeQuery — `MATCH (a)-[r]->(b) WHERE …` (`GraphMatch` in `heraclitus-query/src/plan.rs`, `match_edges_of` in `backend.rs`)

The first equality of each variable with a literal is pushed down into the scan of the edges, and every row is checked against
the whole `WHERE` again.  A row is lost where the filter takes the literal for something else than the `WHERE` does.
-/
namespace Heraclitus
namespace Query

open Temporal (TemporalGraph EdgeType Edge)

structure EdgeRow where
  edgeId : Str
  from_ : Str
  to_ : Str
  etype : Str
  belief : F32
  worldValidFrom : Option Nat
  worldValidTo : Option Nat
  deriving DecidableEq

/-- `as_of_point`: a bound excludes itself. -/
def asOfPoint : Option Nat → Option Nat
  | none => some u64Max
  | some 0 => none
  | some (b + 1) => some b

def EdgeRow.ofMatch (m : Temporal.EdgeMatch) : EdgeRow where
  edgeId := m.edgeId
  from_ := m.from_
  to_ := m.to_
  etype := m.etype.key
  belief := m.belief
  worldValidFrom := m.worldValidFrom
  worldValidTo := m.worldValidTo

/-- What the executor takes from its libraries: for conditions, for the graph, and `f32 as f64`. -/
structure EdgeEnv where
  query : Env
  graph : Temporal.Env
  widen : F32 → F64

def matchEdgesOf (env : EdgeEnv) (g : TemporalGraph) (src etype dst : Option Str) (asOf : Option Nat) : List EdgeRow :=
  match asOfPoint asOf with
  | none => []
  | some point => (g.matchEdges env.graph src (etype.map EdgeType.fromAttr) dst point 0).map EdgeRow.ofMatch

/-- The plan, without its projection. -/
structure GraphMatch where
  fromVar : Str
  toVar : Str
  relVar : Str
  relType : Option Str
  conditions : List (BoolOp × Condition)
  validAt : Option Nat
  limit : Option Nat

/-! ## `WHERE` -/

def idField : Str := "id".toList

def typeField : Str := "type".toList

def evalEdgeOperand (env : EdgeEnv) (q : GraphMatch) (r : EdgeRow) : Operand → Option Json
  | .num n => some (.ofF64 n)
  | .str s => some (.str s)
  | .dist _ _ => none
  | .ident v =>
    if v = q.fromVar then some (.str r.from_)
    else if v = q.toVar then some (.str r.to_)
    else if v = q.relVar then some (.str r.edgeId)
    else none
  | .prop v f =>
    if v = q.relVar then
      if f = typeField then some (.str r.etype)
      else if f = "belief".toList then some (.ofF64 (env.widen r.belief))
      else if f = idField then some (.str r.edgeId)
      else none
    else if v = q.fromVar ∧ f = idField then some (.str r.from_)
    else if v = q.toVar ∧ f = idField then some (.str r.to_)
    else none

def edgeHit (env : EdgeEnv) (q : GraphMatch) (r : EdgeRow) (c : Condition) : Bool :=
  match evalEdgeOperand env q r c.lhs, evalEdgeOperand env q r c.rhs with
  | some a, some b => cmpJson env.query a b c.cmp
  | _, _ => false

def edgeMatches (env : EdgeEnv) (q : GraphMatch) (r : EdgeRow) : Bool := evalBool q.conditions (edgeHit env q r)

def worldValidMatches (q : GraphMatch) (r : EdgeRow) : Bool :=
  q.validAt.all (fun t => r.worldValidFrom.all (fun start => decide (start ≤ t)) &&
    r.worldValidTo.all (fun stop => decide (t < stop)))

/-! ## The filters that are pushed down -/

/-- Is the operand the variable, or its field? -/
def isVar (var field : Str) : Operand → Bool
  | .ident v => v == var
  | .prop v f => v == var && f == field
  | _ => false

/-- The variable and the literal beside it. -/
def varLit (a b : Operand) (var field : Str) : Option (Operand × Str) :=
  match isVar var field a, b with
  | true, .str s => some (a, s)
  | _, _ => none

/-- The equality that `eq_filter` finds. -/
def pushedEq (conditions : List (BoolOp × Condition)) (var field : Str) : Option (Operand × Str) :=
  if hasOr conditions then none
  else conditions.findSome? (fun oc =>
    if oc.2.cmp ≠ .eq then none
    else varLit oc.2.lhs oc.2.rhs var field <|> varLit oc.2.rhs oc.2.lhs var field)

def eqFilter (conditions : List (BoolOp × Condition)) (var field : Str) : Option Str :=
  (pushedEq conditions var field).map Prod.snd

namespace GraphMatch

/-- The rows, before `LIMIT`. -/
def rows (env : EdgeEnv) (g : TemporalGraph) (q : GraphMatch) (bound : Option Nat) : List EdgeRow :=
  let src := eqFilter q.conditions q.fromVar idField
  let dst := eqFilter q.conditions q.toVar idField
  let etype := q.relType <|> eqFilter q.conditions q.relVar typeField
  ((matchEdgesOf env g src etype dst bound).filter (worldValidMatches q)).filter (edgeMatches env q)

def execute (env : EdgeEnv) (g : TemporalGraph) (q : GraphMatch) (bound : Option Nat) : List EdgeRow :=
  match q.limit with
  | none => q.rows env g bound
  | some l => (q.rows env g bound).take l

end GraphMatch

/-! ## What is claimed -/

def rowOf (env : EdgeEnv) (g : TemporalGraph) (point : Nat) (e : Edge) : EdgeRow where
  edgeId := e.id
  from_ := e.from_
  to_ := e.to_
  etype := e.etype.key
  belief := g.beliefAt env.graph e.id point
  worldValidFrom := e.worldValidFrom
  worldValidTo := e.worldValidTo

/-- All edges alive as of the bound. -/
def aliveRows (env : EdgeEnv) (g : TemporalGraph) (bound : Option Nat) : List EdgeRow :=
  match asOfPoint bound with
  | none => []
  | some point => (g.edges.entries.filter (fun ke => ke.2.aliveAt point)).map (fun ke => rowOf env g point ke.2)

namespace GraphMatch

/-- `[r:type]`. -/
def labelled (q : GraphMatch) (r : EdgeRow) : Bool := q.relType.all (fun s => r.etype == (EdgeType.fromAttr s).key)

/-- The live edges that the pattern and the whole `WHERE` accept. -/
def enumerated (env : EdgeEnv) (g : TemporalGraph) (q : GraphMatch) (bound : Option Nat) : List EdgeRow :=
  (aliveRows env g bound).filter (fun r => q.labelled r && (worldValidMatches q r && edgeMatches env q r))

end GraphMatch

inductive Column where
  | from_ | to_ | edgeId | etype
  deriving DecidableEq

def EdgeRow.column (r : EdgeRow) : Column → Str
  | .from_ => r.from_
  | .to_ => r.to_
  | .edgeId => r.edgeId
  | .etype => r.etype

/-- The column that the `WHERE` reads for an operand. -/
def GraphMatch.column (q : GraphMatch) : Operand → Option Column
  | .ident v =>
    if v = q.fromVar then some .from_ else if v = q.toVar then some .to_ else if v = q.relVar then some .edgeId else none
  | .prop v f =>
    if v = q.relVar then if f = typeField then some .etype else if f = idField then some .edgeId else none
    else if v = q.fromVar ∧ f = idField then some .from_
    else if v = q.toVar ∧ f = idField then some .to_
    else none
  | _ => none

/-- **The condition** on an edge: what is pushed down as its origin, its target or its type is what the `WHERE` reads there. -/
structure GraphMatch.Agrees (q : GraphMatch) (r : EdgeRow) : Prop where
  src : ∀ o s c, pushedEq q.conditions q.fromVar idField = some (o, s) → q.column o = some c → r.from_ = r.column c
  dst : ∀ o s c, pushedEq q.conditions q.toVar idField = some (o, s) → q.column o = some c → r.to_ = r.column c
  etype : q.relType = none → ∀ o s c, pushedEq q.conditions q.relVar typeField = some (o, s) → q.column o = some c →
    r.etype = (EdgeType.fromAttr (r.column c)).key

variable {env : EdgeEnv} {g : TemporalGraph} {q : GraphMatch} {r : EdgeRow} {o : Operand} {s var field : Str} {bound : Option Nat}

/-! ## The scan -/

/-- What the filters of a scan let through. -/
def scanned (src etype dst : Option Str) (r : EdgeRow) : Bool :=
  src.all (fun s => r.from_ == s) && (etype.all (fun s => r.etype == (EdgeType.fromAttr s).key) && dst.all (fun s => r.to_ == s))

theorem key_beq (t t' : EdgeType) : (t.key == t'.key) = (t == t') := by
  rw [Bool.eq_iff_iff, beq_iff_eq, beq_iff_eq, Temporal.EdgeType.key_injective.eq_iff]

/-- One edge, in a scan of all. -/
theorem consider_row {point : Nat} (hbelief : ∀ id, Temporal.f32Lt (g.beliefAt env.graph id point) 0 = false)
    (src etype dst : Option Str) (e : Edge) :
    (if src.all (fun s => e.from_ == s) then g.consider env.graph (etype.map EdgeType.fromAttr) dst point 0 e else none).map
      EdgeRow.ofMatch
      = if e.aliveAt point && scanned src etype dst (rowOf env g point e) then some (rowOf env g point e) else none := by
  have htype : (etype.map EdgeType.fromAttr).any (fun want => want != e.etype)
      = !etype.all (fun s => (rowOf env g point e).etype == (EdgeType.fromAttr s).key) := by
    cases etype with
    | none => rfl
    | some s =>
      show (EdgeType.fromAttr s != e.etype) = !(e.etype.key == (EdgeType.fromAttr s).key)
      rw [key_beq, bne, Bool.beq_comm]
  have hdst : dst.any (fun d => e.to_ != d) = !dst.all (fun s => (rowOf env g point e).to_ == s) := by
    cases dst <;> rfl
  have hfrom : src.all (fun s => e.from_ == s) = src.all (fun s => (rowOf env g point e).from_ == s) := rfl
  unfold TemporalGraph.consider scanned
  dsimp only
  rw [htype, hdst, hfrom, hbelief]
  cases src.all (fun s => (rowOf env g point e).from_ == s) <;> cases e.aliveAt point <;>
    cases etype.all (fun s => (rowOf env g point e).etype == (EdgeType.fromAttr s).key) <;>
    cases dst.all (fun s => (rowOf env g point e).to_ == s) <;> rfl

/-- **A scan returns the live edges that its filters let through**, each once. -/
theorem matchEdgesOf_perm (h : g.Built) (hbelief : ∀ vs, Temporal.f32Lt (env.graph.aggregate vs) 0 = false)
    (src etype dst : Option Str) (bound : Option Nat) :
    (matchEdgesOf env g src etype dst bound).Perm ((aliveRows env g bound).filter (scanned src etype dst)) := by
  unfold matchEdgesOf aliveRows
  cases asOfPoint bound with
  | none => exact .nil
  | some point =>
    have hbelief' : ∀ id, Temporal.f32Lt (g.beliefAt env.graph id point) 0 = false := fun id => by
      unfold TemporalGraph.beliefAt Temporal.aggregateAsOf
      split
      · decide
      · dsimp only
        split
        · decide
        · exact hbelief _
    refine ((h.sound.matchEdges_perm src (etype.map EdgeType.fromAttr) dst point 0).map EdgeRow.ofMatch).trans (.of_eq ?_)
    dsimp only
    rw [List.map_filterMap, List.filterMap_filter, List.filter_map, List.filter_filter, ← List.filterMap_eq_map,
      List.filterMap_filter]
    refine List.filterMap_congr (fun ke _ => ?_)
    have hone := consider_row hbelief' src etype dst ke.2
    rw [Bool.and_comm] at hone
    simpa [apply_ite] using hone

/-! ## What is pushed down -/

theorem isVar_of_varLit {a b : Operand} (h : varLit a b var field = some (o, s)) :
    isVar var field o = true ∧ o = a ∧ b = .str s := by
  unfold varLit at h
  split at h
  · rename_i hvar
    cases h
    exact ⟨hvar, rfl, rfl⟩
  · cases h

theorem isVar_of_pushedEq (h : pushedEq q.conditions var field = some (o, s)) : isVar var field o = true := by
  unfold pushedEq at h
  split at h
  · cases h
  · obtain ⟨oc, -, hoc⟩ := List.exists_of_findSome?_eq_some h
    split at hoc
    · cases hoc
    · cases hleft : varLit oc.2.lhs oc.2.rhs var field with
      | some p =>
        rw [hleft] at hoc
        cases hoc
        exact (isVar_of_varLit hleft).1
      | none =>
        rw [hleft] at hoc
        exact (isVar_of_varLit hoc).1

/-- A column that is read is a text. -/
theorem eval_of_column {c : Column} (h : q.column o = some c) : evalEdgeOperand env q r o = some (.str (r.column c)) := by
  cases o with
  | ident v =>
    rw [GraphMatch.column] at h
    rw [evalEdgeOperand]
    split_ifs at h ⊢ <;> cases h <;> rfl
  | prop v f =>
    have hbelief : idField ≠ "belief".toList := by decide
    rw [GraphMatch.column] at h
    rw [evalEdgeOperand]
    split_ifs at h ⊢ with hrel htype hbel hid <;> cases h
    · rfl
    · exact absurd (hid.symm.trans hbel) hbelief
    · rfl
    · rfl
    · rfl
  | num n => cases h
  | str s => cases h
  | dist k v => cases h

/-- **An equality that is pushed down holds of every accepted edge**, in the column that the `WHERE` reads. -/
theorem column_of_accepted (hg : Grammatical q.conditions) (h : edgeMatches env q r = true)
    (hpushed : pushedEq q.conditions var field = some (o, s)) {c : Column} (hc : q.column o = some c) : r.column c = s := by
  have htexts : ∀ w, cmpJson env.query (.str w) (.str s) .eq = true → w = s := fun w hw => by
    simpa [cmpJson, Json.asF64, Json.asStr, Cmp.holds] using hw
  have htexts' : ∀ w, cmpJson env.query (.str s) (.str w) .eq = true → w = s := fun w hw => by
    have : s = w := by simpa [cmpJson, Json.asF64, Json.asStr, Cmp.holds] using hw
    exact this.symm
  unfold pushedEq at hpushed
  split at hpushed
  · cases hpushed
  · rename_i hor
    obtain ⟨oc, hmem, hoc⟩ := List.exists_of_findSome?_eq_some hpushed
    have hhit := hit_of_evalBool hg (by simpa using hor) h oc hmem
    split at hoc
    · cases hoc
    · rename_i hcmp
      have hcmp : oc.2.cmp = .eq := not_not.1 hcmp
      unfold edgeHit at hhit
      rw [hcmp] at hhit
      cases hleft : varLit oc.2.lhs oc.2.rhs var field with
      | some p =>
        rw [hleft] at hoc
        cases hoc
        obtain ⟨-, rfl, hrhs⟩ := isVar_of_varLit hleft
        rw [eval_of_column hc, hrhs, evalEdgeOperand] at hhit
        exact htexts _ hhit
      | none =>
        rw [hleft] at hoc
        obtain ⟨-, rfl, hlhs⟩ := isVar_of_varLit hoc
        rw [eval_of_column hc, hlhs, evalEdgeOperand] at hhit
        exact htexts' _ hhit

/-- The variables of the pattern have columns. -/
theorem column_of_isVar (hvar : (var = q.fromVar ∧ field = idField) ∨ (var = q.toVar ∧ field = idField) ∨
    (var = q.relVar ∧ field = typeField)) (h : isVar var field o = true) : ∃ c, q.column o = some c := by
  have hne : idField ≠ typeField := by decide
  cases o with
  | ident v =>
    have hv : v = var := by simpa [isVar] using h
    subst hv
    rw [GraphMatch.column]
    by_cases hfrom : v = q.fromVar
    · exact ⟨_, if_pos hfrom⟩
    · rw [if_neg hfrom]
      by_cases hto : v = q.toVar
      · exact ⟨_, if_pos hto⟩
      · rw [if_neg hto]
        rcases hvar with ⟨h, -⟩ | ⟨h, -⟩ | ⟨h, -⟩
        · exact absurd h hfrom
        · exact absurd h hto
        · exact ⟨_, if_pos h⟩
  | prop v f =>
    obtain ⟨hv, hf⟩ : v = var ∧ f = field := by simpa [isVar] using h
    subst hv
    subst hf
    rw [GraphMatch.column]
    rcases hvar with ⟨rfl, rfl⟩ | ⟨rfl, rfl⟩ | ⟨rfl, rfl⟩
    · by_cases hrel : q.fromVar = q.relVar
      · exact ⟨.edgeId, by simp [hrel, hne]⟩
      · exact ⟨.from_, by simp [hrel]⟩
    · by_cases hrel : q.toVar = q.relVar
      · exact ⟨.edgeId, by simp [hrel, hne]⟩
      · by_cases hfrom : q.toVar = q.fromVar
        · exact ⟨.from_, by rw [if_neg hrel, if_pos ⟨hfrom, rfl⟩]⟩
        · exact ⟨.to_, by simp [hrel, hfrom]⟩
    · exact ⟨.etype, by simp⟩
  | num n => cases h
  | str s => cases h
  | dist k v => cases h

/-- One filter lets an accepted edge through just when it agrees. -/
theorem eqFilter_all_iff (hg : Grammatical q.conditions) (h : edgeMatches env q r = true) (var field : Str) (P : Str → Bool)
    (hvar : (var = q.fromVar ∧ field = idField) ∨ (var = q.toVar ∧ field = idField) ∨ (var = q.relVar ∧ field = typeField)) :
    (eqFilter q.conditions var field).all P = true ↔
      ∀ o s c, pushedEq q.conditions var field = some (o, s) → q.column o = some c → P (r.column c) = true := by
  unfold eqFilter
  cases hpushed : pushedEq q.conditions var field with
  | none => simp
  | some p =>
    obtain ⟨o, s⟩ := p
    obtain ⟨c, hc⟩ := column_of_isVar hvar (isVar_of_pushedEq hpushed)
    have hs := column_of_accepted hg h hpushed hc
    constructor
    · intro hP o' s' c' heq hc'
      cases heq
      cases hc.symm.trans hc'
      rw [hs]
      exact hP
    · intro hall
      have := hall o s c rfl hc
      rwa [hs] at this

theorem scanned_iff_agrees (hg : Grammatical q.conditions) (hlabel : q.labelled r = true) (h : edgeMatches env q r = true) :
    scanned (eqFilter q.conditions q.fromVar idField) (q.relType <|> eqFilter q.conditions q.relVar typeField)
      (eqFilter q.conditions q.toVar idField) r = true ↔ q.Agrees r := by
  have hsrc := eqFilter_all_iff hg h q.fromVar idField (fun s => r.from_ == s) (.inl ⟨rfl, rfl⟩)
  have hdst := eqFilter_all_iff hg h q.toVar idField (fun s => r.to_ == s) (.inr (.inl ⟨rfl, rfl⟩))
  have htype := eqFilter_all_iff hg h q.relVar typeField (fun s => r.etype == (EdgeType.fromAttr s).key)
    (.inr (.inr ⟨rfl, rfl⟩))
  simp only [beq_iff_eq] at hsrc hdst htype
  rw [scanned, Bool.and_eq_true, Bool.and_eq_true, hsrc, hdst]
  unfold GraphMatch.labelled at hlabel
  cases hrel : q.relType with
  | none =>
    show _ ∧ (eqFilter q.conditions q.relVar typeField).all _ = true ∧ _ ↔ _
    rw [htype]
    exact ⟨fun ⟨h₁, h₂, h₃⟩ => ⟨h₁, h₃, fun _ => h₂⟩, fun h => ⟨h.src, h.etype hrel, h.dst⟩⟩
  | some label =>
    rw [hrel] at hlabel
    refine ⟨fun ⟨h₁, _, h₃⟩ => ⟨h₁, h₃, fun hnone => ?_⟩, fun h => ⟨h.src, hlabel, h.dst⟩⟩
    rw [hrel] at hnone
    cases hnone

/-- Of two filters, one inside the other. -/
theorem filter_perm_iff {α : Type} {l : List α} {p p' : α → Bool} (h : ∀ a, p a = true → p' a = true) :
    (l.filter p).Perm (l.filter p') ↔ ∀ a ∈ l.filter p', p a = true := by
  have hsub : l.filter p = (l.filter p').filter p := by
    rw [List.filter_filter]
    refine List.filter_congr (fun a _ => ?_)
    cases hp : p a with
    | false => rfl
    | true => rw [h a hp]; rfl
  rw [hsub, ← List.filter_eq_self]
  exact ⟨fun hperm => List.filter_sublist.eq_of_length hperm.length_eq, fun heq => .of_eq heq⟩

/-- What is pushed down lets the rows through that it scans. -/
theorem rows_perm (h : g.Built) (hbelief : ∀ vs, Temporal.f32Lt (env.graph.aggregate vs) 0 = false) (bound : Option Nat) :
    (q.rows env g bound).Perm ((aliveRows env g bound).filter (fun r => (edgeMatches env q r && worldValidMatches q r) &&
      scanned (eqFilter q.conditions q.fromVar idField) (q.relType <|> eqFilter q.conditions q.relVar typeField)
        (eqFilter q.conditions q.toVar idField) r)) := by
  have hscan := matchEdgesOf_perm h hbelief (eqFilter q.conditions q.fromVar idField)
    (q.relType <|> eqFilter q.conditions q.relVar typeField) (eqFilter q.conditions q.toVar idField) bound
  have hfiltered := (hscan.filter (worldValidMatches q)).filter (edgeMatches env q)
  rw [List.filter_filter (l := (aliveRows env g bound).filter _), List.filter_filter (l := aliveRows env g bound)] at hfiltered
  exact hfiltered

theorem accepted_of_scanned (h : ((edgeMatches env q r && worldValidMatches q r) &&
    scanned (eqFilter q.conditions q.fromVar idField) (q.relType <|> eqFilter q.conditions q.relVar typeField)
      (eqFilter q.conditions q.toVar idField) r) = true) :
    (q.labelled r && (worldValidMatches q r && edgeMatches env q r)) = true := by
  rw [Bool.and_eq_true, Bool.and_eq_true] at h
  obtain ⟨⟨hmatches, hvalid⟩, hscanned⟩ := h
  rw [scanned, Bool.and_eq_true, Bool.and_eq_true] at hscanned
  obtain ⟨-, htype, -⟩ := hscanned
  have hlabel : q.labelled r = true := by
    unfold GraphMatch.labelled
    cases hrel : q.relType with
    | none => rfl
    | some label =>
      rw [hrel] at htype
      exact htype
  rw [hlabel, hvalid, hmatches]
  rfl

/-- **When nothing is lost by the pushdown**: exactly when each accepted live edge agrees. -/
theorem rows_perm_iff (h : g.Built) (hg : Grammatical q.conditions)
    (hbelief : ∀ vs, Temporal.f32Lt (env.graph.aggregate vs) 0 = false) (bound : Option Nat) :
    (q.rows env g bound).Perm (q.enumerated env g bound) ↔ ∀ r ∈ q.enumerated env g bound, q.Agrees r := by
  rw [(rows_perm h hbelief bound).congr_left, GraphMatch.enumerated, filter_perm_iff (fun r => accepted_of_scanned)]
  refine forall₂_congr (fun r hr => ?_)
  obtain ⟨-, hr⟩ := List.mem_filter.1 hr
  rw [Bool.and_eq_true, Bool.and_eq_true] at hr
  obtain ⟨hlabel, hvalid, hmatches⟩ := hr
  rw [← scanned_iff_agrees hg hlabel hmatches, hvalid, hmatches, Bool.true_and, Bool.true_and]

/-- Never a row too many, whatever is pushed down and wherever `LIMIT` cuts. -/
theorem execute_subperm (h : g.Built) (hbelief : ∀ vs, Temporal.f32Lt (env.graph.aggregate vs) 0 = false)
    (bound : Option Nat) : (q.execute env g bound).Subperm (q.enumerated env g bound) := by
  have hrows : (q.rows env g bound).Subperm (q.enumerated env g bound) :=
    (rows_perm h hbelief bound).subperm.trans
      (List.monotone_filter_right _ (fun r => accepted_of_scanned)).subperm
  unfold GraphMatch.execute
  cases q.limit with
  | none => exact hrows
  | some l => exact (List.take_sublist l _).subperm.trans hrows

def rivalEdge : Edge where
  id := Temporal.edgeId "Alfa".toList "Beto".toList (.custom "rival".toList)
  from_ := "Alfa".toList
  to_ := "Beto".toList
  etype := .custom "rival".toList
  validFromLsn := 0
  validToLsn := none
  worldValidFrom := none
  worldValidTo := none
  closedIntervals := []

def rivalGraph : TemporalGraph := TemporalGraph.upsertEdge {} rivalEdge []

def plainEnv : EdgeEnv where
  query := { parseF64 := fun _ => none, ulidText := fun _ => [], utf8Lossy := fun _ => [], evalDist := fun _ _ _ => none }
  graph := { parseF32 := fun _ => none, ulidText := fun _ => [], aggregate := fun _ => Temporal.one, weight := fun b _ _ => b }
  widen := fun _ => ⟨0⟩

/-- `MATCH (a)-[r]->(b) WHERE <lhs> = <s>` -/
def edgesWhere (lhs : Operand) (s : String) : GraphMatch where
  fromVar := "a".toList
  toVar := "b".toList
  relVar := "r".toList
  relType := none
  conditions := [(.first, ⟨lhs, .eq, .str s.toList⟩)]
  validAt := none
  limit := none

theorem rows_perm_iff_sample :
    ((edgesWhere (.prop "r".toList typeField) "pagou").rows plainEnv rivalGraph none).Perm
        ((edgesWhere (.prop "r".toList typeField) "pagou").enumerated plainEnv rivalGraph none) ↔
      ∀ r ∈ (edgesWhere (.prop "r".toList typeField) "pagou").enumerated plainEnv rivalGraph none,
        (edgesWhere (.prop "r".toList typeField) "pagou").Agrees r :=
  rows_perm_iff (q := edgesWhere (.prop "r".toList typeField) "pagou") (.upsertEdge .empty rivalEdge []) (And.intro rfl (fun _ h => absurd h List.not_mem_nil))
    (fun _ => (by decide : Temporal.f32Lt Temporal.one 0 = false)) none

theorem execute_subperm_sample :
    ((edgesWhere (.prop "r".toList typeField) "pagou").execute plainEnv rivalGraph none).Subperm
      ((edgesWhere (.prop "r".toList typeField) "pagou").enumerated plainEnv rivalGraph none) :=
  execute_subperm (.upsertEdge .empty rivalEdge []) (fun _ => (by decide : Temporal.f32Lt Temporal.one 0 = false)) none

/-- **An edge of a custom type is not found by its type**: the filter takes `custom:rival` for the name of a custom type. -/
theorem custom_type_lost :
    (edgesWhere (.prop "r".toList typeField) "custom:rival").rows plainEnv rivalGraph none = [] ∧
    (edgesWhere (.prop "r".toList typeField) "custom:rival").enumerated plainEnv rivalGraph none
      = [rowOf plainEnv rivalGraph u64Max rivalEdge] := by
  decide +kernel

end Query
end Heraclitus
