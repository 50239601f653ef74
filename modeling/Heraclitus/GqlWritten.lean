import Heraclitus.GqlAst
/-!
# GqlWritten — a query as it is written, and what it says

A written query holds the text of each literal at its argument position.  `Reads` finds it in the pairs of the grammar, and
`lower` is what it says: every literal in the field of its own position, or nothing where a number does not fit its field.
-/
namespace Heraclitus
namespace Gql

open Peg
open Heraclitus.Query (BoolOp DistKind Cmp)
open Temporal (SimulateOp)

namespace Written

inductive AsOf where
  | lsn (n : Str)
  | timestamp (n : Str)

structure Dist where
  kind : DistKind
  vector : List Str

inductive Operand where
  | dist (d : Dist)
  | prop (var field : Str)
  | number (n : Str)
  | string (s : Str)
  | ident (name : Str)

structure Condition where
  lhs : Operand
  cmp : Cmp
  rhs : Operand

inductive OrderKey where
  | dist (d : Dist)
  | prop (var field : Str)
  | ident (name : Str)

/-- A node pattern or a relationship. -/
structure Name where
  name : Str
  label : Option Str

structure MatchStmt where
  node : Name
  edge : Option (Name × Name)
  /-- The first condition, and the others with the operators before them. -/
  where_ : Option (Condition × List (BoolOp × Condition))
  validAt : Option Str
  asOf : Option AsOf
  returns : List RetItem
  /-- The key, and whether it ascends, when that is said. -/
  orderBy : Option (OrderKey × Option Bool)
  limit : Option Str

inductive Value where
  | string (s : Str)
  | number (n : Str)

structure CreateStmt where
  node : Name
  props : List (Str × Value)

inductive Stmt where
  | «match» (m : MatchStmt)
  | create (c : CreateStmt)
  | recall (text k : Str) (asOf : Option AsOf)
  | nearest (vector : List Str) (k : Str) (asOf : Option AsOf)
  | provenance (id : Str)
  | neighbors (node : Str) (etype : Option Str) (asOf : Option AsOf)
  | traverse (start maxDepth : Str) (asOf : Option AsOf)
  | fuse (text : Str) (vector : List Str) (node k : Str) (asOf : Option AsOf)
  | resolve (key : Str) (asOf : Option AsOf)
  | cluster (entity : Str) (asOf : Option AsOf)
  | hypotheses (from_ to_ etype : Str) (asOf : Option AsOf)
  | why (target : Str) (maxDepth until_ : Option Str) (asOf : Option AsOf)
  | community (node : Str) (leiden : Bool) (asOf : Option AsOf)
  | metrics (node : Str) (asOf : Option AsOf)
  | decide (asOf : Option AsOf)
  | simulate (op : SimulateOp) (from_ to_ etype : Str) (then_ : Stmt)
  | adapt (asOf : Option AsOf)

structure Query where
  explain : Bool
  requireLsn : Option Str
  stmt : Stmt

/-! ## What it says -/

/-- What is not written fits. -/
def fits {α β : Type} (f : α → Option β) : Option α → Option (Option β)
  | none => some none
  | some a => (f a).map some

def AsOf.lower : AsOf → Option Gql.AsOf
  | .lsn n => (parseU64 n).map .lsn
  | .timestamp n => (parseU64 n).map .timestamp

section

variable (floats : Floats)

def lowerVector (v : List Str) : Option (List F32) := v.mapM floats.parseF32

def Dist.lower (d : Dist) : Option (DistKind × List F32) := (lowerVector floats d.vector).map (fun v => (d.kind, v))

def Operand.lower : Operand → Option Query.Operand
  | .dist d => (d.lower floats).map (fun d => .dist d.1 d.2)
  | .prop var field => some (.prop var field)
  | .number n => (floats.parseF64 n).map .num
  | .string s => some (.str s)
  | .ident name => some (.ident name)

def Condition.lower (c : Condition) : Option Query.Condition := do
  let lhs ← c.lhs.lower floats
  let rhs ← c.rhs.lower floats
  return { lhs, cmp := c.cmp, rhs }

def lowerConditions : List (BoolOp × Condition) → Option (List (BoolOp × Query.Condition))
  | [] => some []
  | (op, c) :: rest => do
    let c ← c.lower floats
    let rest ← lowerConditions rest
    return (op, c) :: rest

def lowerWhere : Option (Condition × List (BoolOp × Condition)) → Option (List (BoolOp × Query.Condition))
  | none => some []
  | some (c, rest) => lowerConditions floats ((.first, c) :: rest)

def OrderKey.lower : OrderKey → Option Gql.OrderKey
  | .dist d => (d.lower floats).map (fun d => .dist d.1 d.2)
  | .prop _ field => some (.field field)
  | .ident name => some (.field name)

/-- Ascending, unless `DESC` is written. -/
def lowerOrderBy (o : OrderKey × Option Bool) : Option (Gql.OrderKey × Bool) :=
  (o.1.lower floats).map (fun key => (key, o.2.getD true))

def lowerEdge (e : Name × Name) : EdgePattern where
  relVar := e.1.name
  relType := e.1.label
  toVar := e.2.name
  toLabel := e.2.label

def MatchStmt.lower (m : MatchStmt) : Option Gql.MatchStmt := do
  let conditions ← lowerWhere floats m.where_
  let validAt ← fits parseU64 m.validAt
  let asOf ← fits AsOf.lower m.asOf
  let orderBy ← fits (lowerOrderBy floats) m.orderBy
  let limit ← fits parseU32 m.limit
  return {
    var := m.node.name, label := m.node.label, edge := m.edge.map lowerEdge, conditions, validAt, asOf, returns := m.returns,
    orderBy, limit }

def Value.lower : Value → Option Gql.Value
  | .string s => some (.str s)
  | .number n => (floats.parseF64 n).map .num

def lowerProp (x : Str × Value) : Option (Str × Gql.Value) := (x.2.lower floats).map (fun value => (x.1, value))

def CreateStmt.lower (c : CreateStmt) : Option Gql.CreateStmt :=
  (c.props.mapM (lowerProp floats)).map (fun props => { var := c.node.name, label := c.node.label, props })

/-- **What a written statement says.** -/
def Stmt.lower : Stmt → Option Gql.Stmt
  | .match m => (m.lower floats).map .match
  | .create c => (c.lower floats).map .create
  | .recall text k asOf => do return .recall text (← parseU32 k) (← fits AsOf.lower asOf)
  | .nearest vector k asOf => do return .nearest (← lowerVector floats vector) (← parseU32 k) (← fits AsOf.lower asOf)
  | .provenance id => some (.provenance id)
  | .neighbors node etype asOf => (fits AsOf.lower asOf).map (.neighbors node etype)
  | .traverse start maxDepth asOf => do return .traverse start (← parseU32 maxDepth) (← fits AsOf.lower asOf)
  | .fuse text vector node k asOf => do
    return .fuse text (← lowerVector floats vector) node (← parseU32 k) (← fits AsOf.lower asOf)
  | .resolve key asOf => (fits AsOf.lower asOf).map (.resolve key)
  | .cluster entity asOf => (fits AsOf.lower asOf).map (.cluster entity)
  | .hypotheses from_ to_ etype asOf => (fits AsOf.lower asOf).map (.hypotheses from_ to_ etype)
  | .why target maxDepth until_ asOf => do
    return .why target (← fits parseU32 maxDepth) until_ (← fits AsOf.lower asOf)
  | .community node leiden asOf => (fits AsOf.lower asOf).map (.community node leiden)
  | .metrics node asOf => (fits AsOf.lower asOf).map (.metrics node)
  | .decide asOf => (fits AsOf.lower asOf).map .decide
  | .simulate op from_ to_ etype then_ => (then_.lower).map (.simulate op from_ to_ etype)
  | .adapt asOf => (fits AsOf.lower asOf).map .adapt

def Query.lower (q : Query) : Option Gql.Query := do
  let requireLsn ← fits parseU64 q.requireLsn
  let stmt ← q.stmt.lower floats
  return { explain := q.explain, requireLsn, stmt }

end

/-- An identifier that the code says it needs is empty. -/
def Stmt.missing : Stmt → Prop
  | .neighbors node _ _ | .traverse node _ _ | .fuse _ _ node _ _ | .resolve node _ | .cluster node _ | .why node _ _ _
  | .community node _ _ | .metrics node _ => node = []
  | .simulate _ _ _ _ then_ => then_.missing
  | _ => False

/-- The lowering answers with every literal in its field, or with an error where a number does not fit or an identifier that
it needs is empty. -/
def Query.Kept (floats : Floats) (q : Query) (r : Except HeraclitusError Gql.Query) : Prop :=
  (∃ a, r = .ok a ∧ q.lower floats = some a) ∨ (∃ e, r = .error e) ∧ (q.lower floats = none ∨ q.stmt.missing)

/-- An empty literal stands in front of one that takes its field: an empty node before an edge type, an empty text before an
anchor. -/
def Stmt.shifted : Stmt → Prop
  | .neighbors node etype _ => node = [] ∧ ∃ e, etype = some e ∧ e ≠ []
  | .fuse text _ node _ _ => text = [] ∧ node ≠ []
  | .simulate _ _ _ _ then_ => then_.shifted
  | _ => False

/-! ## Where it is written -/

/-- A pair without pairs inside that count. -/
def Leaf (r : Rule) (text : Str) (p : Pair Rule) : Prop := p.rule = r ∧ p.text = text

/-- One of the language's words, in any case. -/
def Word (r : Rule) (word : String) (p : Pair Rule) : Prop := p.rule = r ∧ eqIgnoreAsciiCase p.text word.toList = true

def Quoted (s : Str) (p : Pair Rule) : Prop := Leaf .string ('"' :: (s ++ ['"'])) p ∧ '"' ∉ s

def Ident (name : Str) (p : Pair Rule) : Prop := Leaf .ident name p ∧ name ≠ []

def Dotted (var field : Str) (p : Pair Rule) : Prop := Leaf .prop (var ++ '.' :: field) p ∧ '.' ∉ var

def Maybe {α : Type} (R : α → Pair Rule → Prop) : Option α → List (Pair Rule) → Prop
  | none, ps => ps = []
  | some a, ps => ∃ p, ps = [p] ∧ R a p

def AsOf.Reads : AsOf → Pair Rule → Prop
  | .lsn n, p => p.rule = .asOf ∧ ∃ q t, p.inner = [q] ∧ q.rule = .asOfLsn ∧ q.inner = [t] ∧ Leaf .int n t
  | .timestamp n, p => p.rule = .asOf ∧ ∃ q t, p.inner = [q] ∧ q.rule = .asOfTs ∧ q.inner = [t] ∧ Leaf .int n t

def ReadsVector (v : List Str) (p : Pair Rule) : Prop := p.rule = .vector ∧ List.Forall₂ (Leaf .number) v p.inner

def keyword : DistKind → String
  | .hyp => "DIST_HYP"
  | .sph => "DIST_SPH"
  | .euc => "DIST_EUC"
  | .product => "DIST_PRODUCT"

def Dist.Reads (d : Dist) (p : Pair Rule) : Prop :=
  p.rule = .distFn ∧ ∃ k v, p.inner = [k, v] ∧ Word .distKind (keyword d.kind) k ∧ ReadsVector d.vector v ∧ d.vector ≠ []

def Operand.Reads (o : Operand) (p : Pair Rule) : Prop :=
  p.rule = .operand ∧ ∃ q, p.inner = [q] ∧ match o with
    | .dist d => d.Reads q
    | .prop var field => Dotted var field q
    | .number n => Leaf .number n q
    | .string s => Quoted s q
    | .ident name => Ident name q

def symbol : Cmp → String
  | .eq => "="
  | .ne => "!="
  | .gt => ">"
  | .lt => "<"
  | .ge => ">="
  | .le => "<="

def Condition.Reads (c : Condition) (p : Pair Rule) : Prop :=
  p.rule = .condition ∧ ∃ l o r, p.inner = [l, o, r] ∧ c.lhs.Reads l ∧ Leaf .cmp (symbol c.cmp).toList o ∧ c.rhs.Reads r

def ReadsOp : BoolOp → Pair Rule → Prop
  | .and, p => Word .boolOp "AND" p
  | .or, p => Word .boolOp "OR" p
  | .first, _ => False

def ReadsConditions : List (BoolOp × Condition) → List (Pair Rule) → Prop
  | [], ps => ps = []
  | (op, c) :: rest, ps => ∃ o q ps', ps = o :: q :: ps' ∧ ReadsOp op o ∧ c.Reads q ∧ ReadsConditions rest ps'

def ReadsWhere (w : Condition × List (BoolOp × Condition)) (p : Pair Rule) : Prop :=
  p.rule = .whereClause ∧ ∃ q ps, p.inner = q :: ps ∧ w.1.Reads q ∧ ReadsConditions w.2 ps

/-- A number behind words of the language. -/
def Number (r : Rule) (n : Str) (p : Pair Rule) : Prop := p.rule = r ∧ ∃ q, p.inner = [q] ∧ Leaf .int n q

def Name.Reads (r : Rule) (n : Name) (p : Pair Rule) : Prop :=
  p.rule = r ∧ ∃ q ps, p.inner = q :: ps ∧ Ident n.name q ∧ Maybe Ident n.label ps

def ReadsEdge (e : Name × Name) (ps : List (Pair Rule)) : Prop :=
  ∃ r n, ps = [r, n] ∧ e.1.Reads .rel r ∧ e.2.Reads .nodePat n

def ReadsPattern (node : Name) (edge : Option (Name × Name)) (p : Pair Rule) : Prop :=
  p.rule = .pattern ∧ ∃ n ps, p.inner = n :: ps ∧ node.Reads .nodePat n ∧ match edge with
    | none => ps = []
    | some e => ReadsEdge e ps

def ReadsItem (item : RetItem) (p : Pair Rule) : Prop :=
  p.rule = .retItem ∧ ∃ q, p.inner = [q] ∧ match item with
    | .star => q.rule = .star
    | .prop var field => Dotted var field q
    | .ident name => Ident name q

def ReadsReturn (items : List RetItem) (p : Pair Rule) : Prop := p.rule = .returnClause ∧ List.Forall₂ ReadsItem items p.inner

def OrderKey.Reads : OrderKey → Pair Rule → Prop
  | .dist d, p => d.Reads p
  | .prop var field, p => Dotted var field p
  | .ident name, p => Ident name p

def ReadsDirection : Bool → Pair Rule → Prop
  | true, p => Word .direction "ASC" p
  | false, p => Word .direction "DESC" p

def ReadsOrderBy (o : OrderKey × Option Bool) (p : Pair Rule) : Prop :=
  p.rule = .orderBy ∧ ∃ k ps, p.inner = k :: ps ∧ o.1.Reads k ∧ Maybe ReadsDirection o.2 ps

def MatchStmt.Reads (m : MatchStmt) (ps : List (Pair Rule)) : Prop := ∃ pat w v a r o l,
  ps = pat :: (w ++ (v ++ (a ++ r :: (o ++ l)))) ∧ ReadsPattern m.node m.edge pat ∧ Maybe ReadsWhere m.where_ w ∧
  Maybe (Number .validAt) m.validAt v ∧ Maybe AsOf.Reads m.asOf a ∧ ReadsReturn m.returns r ∧
  Maybe ReadsOrderBy m.orderBy o ∧ Maybe (Number .limit) m.limit l

def Value.Reads : Value → Pair Rule → Prop
  | .string s, p => Quoted s p
  | .number n, p => Leaf .number n p

def ReadsProp (x : Str × Value) (p : Pair Rule) : Prop :=
  p.rule = .pair ∧ ∃ k v, p.inner = [k, v] ∧ Ident x.1 k ∧ x.2.Reads v

/-- Braces may be left out. -/
def ReadsProps (props : List (Str × Value)) (ps : List (Pair Rule)) : Prop :=
  ps = [] ∧ props = [] ∨ ∃ p, ps = [p] ∧ p.rule = .props ∧ List.Forall₂ ReadsProp props p.inner

def CreateStmt.Reads (c : CreateStmt) (ps : List (Pair Rule)) : Prop := ∃ n l qs,
  ps = n :: (l ++ qs) ∧ Ident c.node.name n ∧ Maybe Ident c.node.label l ∧ ReadsProps c.props qs

def ReadsSimulateOp : SimulateOp → Pair Rule → Prop
  | .addEdge, p => Word .simulateOp "ADD" p
  | .removeEdge, p => Word .simulateOp "REMOVE" p

/-- **Where a written statement stands**: each of its parts at its place among the pairs of its form. -/
def Stmt.Reads : Stmt → Pair Rule → Prop
  | .match m, p => p.rule = .matchStmt ∧ m.Reads p.inner
  | .create c, p => p.rule = .createStmt ∧ c.Reads p.inner
  | .recall text k asOf, p => p.rule = .recallStmt ∧ ∃ t n a, p.inner = t :: n :: a ∧ Quoted text t ∧ Leaf .int k n ∧
      Maybe AsOf.Reads asOf a
  | .nearest vector k asOf, p => p.rule = .nearestStmt ∧ ∃ v n a, p.inner = v :: n :: a ∧ ReadsVector vector v ∧ Leaf .int k n ∧
      Maybe AsOf.Reads asOf a
  | .provenance id, p => p.rule = .provenanceStmt ∧ ∃ t, p.inner = [t] ∧ Quoted id t
  | .neighbors node etype asOf, p => p.rule = .neighborsStmt ∧ ∃ t e a, p.inner = t :: (e ++ a) ∧ Quoted node t ∧
      Maybe Quoted etype e ∧ Maybe AsOf.Reads asOf a
  | .traverse start maxDepth asOf, p => p.rule = .traverseStmt ∧ ∃ t n a, p.inner = t :: n :: a ∧ Quoted start t ∧
      Leaf .int maxDepth n ∧ Maybe AsOf.Reads asOf a
  | .fuse text vector node k asOf, p => p.rule = .fuseStmt ∧ ∃ t v u n a, p.inner = t :: v :: u :: n :: a ∧ Quoted text t ∧
      ReadsVector vector v ∧ Quoted node u ∧ Leaf .int k n ∧ Maybe AsOf.Reads asOf a
  | .resolve key asOf, p => p.rule = .resolveStmt ∧ ∃ t a, p.inner = t :: a ∧ Quoted key t ∧ Maybe AsOf.Reads asOf a
  | .cluster entity asOf, p => p.rule = .clusterStmt ∧ ∃ t a, p.inner = t :: a ∧ Quoted entity t ∧ Maybe AsOf.Reads asOf a
  | .hypotheses from_ to_ etype asOf, p => p.rule = .hypothesesStmt ∧ ∃ t u v a, p.inner = t :: u :: v :: a ∧ Quoted from_ t ∧
      Quoted to_ u ∧ Quoted etype v ∧ Maybe AsOf.Reads asOf a
  | .why target maxDepth until_ asOf, p => p.rule = .whyStmt ∧ ∃ t n u a, p.inner = t :: (n ++ (u ++ a)) ∧ Quoted target t ∧
      Maybe (Leaf .int) maxDepth n ∧ Maybe Quoted until_ u ∧ Maybe AsOf.Reads asOf a
  | .community node leiden asOf, p => p.rule = .communityStmt ∧ ∃ t l a, p.inner = t :: (l ++ a) ∧ Quoted node t ∧
      (leiden = false ∧ l = [] ∨ leiden = true ∧ ∃ q, l = [q] ∧ q.rule = .leidenKw) ∧ Maybe AsOf.Reads asOf a
  | .metrics node asOf, p => p.rule = .metricsStmt ∧ ∃ t a, p.inner = t :: a ∧ Quoted node t ∧ Maybe AsOf.Reads asOf a
  | .decide asOf, p => p.rule = .decideStmt ∧ Maybe AsOf.Reads asOf p.inner
  | .simulate op from_ to_ etype then_, p => p.rule = .simulateStmt ∧ ∃ o t u v s, p.inner = [o, t, u, v, s] ∧
      ReadsSimulateOp op o ∧ Quoted from_ t ∧ Quoted to_ u ∧ Quoted etype v ∧
      s.rule = .stmt ∧ ∃ q, s.inner = [q] ∧ then_.Reads q
  | .adapt asOf, p => p.rule = .adaptStmt ∧ Maybe AsOf.Reads asOf p.inner

def Query.Reads (q : Query) (p : Pair Rule) : Prop := ∃ e r s i f,
  p.inner = e ++ (r ++ [s, f]) ∧ (q.explain = false ∧ e = [] ∨ q.explain = true ∧ ∃ k, e = [k] ∧ k.rule = .explain) ∧
  Maybe (Number .require) q.requireLsn r ∧ s.rule = .stmt ∧ s.inner = [i] ∧ q.stmt.Reads i ∧ f.rule = .eoi

end Written

end Gql
end Heraclitus
