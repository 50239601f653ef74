import Heraclitus.GqlGrammar
import Heraclitus.Query
import Heraclitus.Simulate
/-!
# GqlAst — from pairs to statements (`heraclitus-query/src/ast.rs`)

Each form of statement walks the pairs inside it and fills the locals that become its fields; which local a pair goes to is
told by its rule and, in some forms, by what the locals hold already.
-/
namespace Heraclitus
namespace Gql

open Peg
open Heraclitus.Query (BoolOp DistKind Operand Cmp Condition)
open Temporal (SimulateOp)

/-! ## Statements -/

inductive AsOf where
  | lsn (n : Nat)
  | timestamp (n : Nat)
  deriving DecidableEq

inductive RetItem where
  | star
  | ident (name : Str)
  | prop (var field : Str)
  deriving DecidableEq

inductive Value where
  | num (n : F64)
  | str (s : Str)
  deriving DecidableEq

/-- The key of an `ORDER BY`: a field of the episode or a distance. -/
inductive OrderKey where
  | field (name : Str)
  | dist (kind : DistKind) (v : List F32)
  deriving DecidableEq

/-- The half of `(a)-[r:type]->(b)` behind its first node. -/
structure EdgePattern where
  relVar : Str
  relType : Option Str
  toVar : Str
  toLabel : Option Str
  deriving DecidableEq

structure MatchStmt where
  var : Str := []
  label : Option Str := none
  edge : Option EdgePattern := none
  conditions : List (BoolOp × Condition) := []
  validAt : Option Nat := none
  asOf : Option AsOf := none
  returns : List RetItem := []
  /-- The key, and whether it ascends. -/
  orderBy : Option (OrderKey × Bool) := none
  limit : Option Nat := none
  deriving DecidableEq

structure CreateStmt where
  var : Str := []
  label : Option Str := none
  props : List (Str × Value) := []
  deriving DecidableEq

inductive Stmt where
  | «match» (m : MatchStmt)
  | create (c : CreateStmt)
  | recall (text : Str) (k : Nat) (asOf : Option AsOf)
  | nearest (vector : List F32) (k : Nat) (asOf : Option AsOf)
  | provenance (id : Str)
  | neighbors (node : Str) (etype : Option Str) (asOf : Option AsOf)
  | traverse (start : Str) (maxDepth : Nat) (asOf : Option AsOf)
  | fuse (text : Str) (vector : List F32) (node : Str) (k : Nat) (asOf : Option AsOf)
  | resolve (key : Str) (asOf : Option AsOf)
  | cluster (entity : Str) (asOf : Option AsOf)
  | hypotheses (from_ to_ etype : Str) (asOf : Option AsOf)
  | why (target : Str) (maxDepth : Option Nat) (until_ : Option Str) (asOf : Option AsOf)
  | community (node : Str) (leiden : Bool) (asOf : Option AsOf)
  | metrics (node : Str) (asOf : Option AsOf)
  | decide (asOf : Option AsOf)
  | simulate (op : SimulateOp) (from_ to_ etype : Str) (then_ : Stmt)
  | adapt (asOf : Option AsOf)
  deriving DecidableEq

structure Query where
  explain : Bool
  requireLsn : Option Nat
  stmt : Stmt
  deriving DecidableEq

/-! ## Lowering -/

/-- `str::parse` of the two float types. -/
structure Floats where
  parseF32 : Str → Option F32
  parseF64 : Str → Option F64

/-- `parse::<u32>`. -/
def parseU32 (s : Str) : Option Nat := (parseU64 s).filter (fun n => decide (n < 2 ^ 32))

def perr (msg : String) : HeraclitusError := .query msg

/-- `.ok_or_else(|| perr(msg))`, and `.map_err(|_| perr(msg))` of a number that does not parse. -/
def okOr {α : Type} (o : Option α) (msg : String) : Except HeraclitusError α :=
  match o with
  | some a => .ok a
  | none => .error (perr msg)

/-- `trim_matches('"')`. -/
def unquote (s : Str) : Str := ((s.dropWhile (· == '"')).reverse.dropWhile (· == '"')).reverse

/-- `eq_ignore_ascii_case`. -/
def eqIgnoreAsciiCase (s t : Str) : Bool := s.map Char.toLower == t.map Char.toLower

/-- The operator that a `bool_op` says. -/
def boolOpOf (s : Str) : BoolOp := if eqIgnoreAsciiCase s "or".toList then .or else .and

/-- Does a `direction` ascend? -/
def ascends (s : Str) : Bool := !eqIgnoreAsciiCase s "desc".toList

/-- Does a `simulate_op` remove? -/
def removes (s : Str) : Bool := eqIgnoreAsciiCase s "remove".toList

/-- The name and the label or type of a `node_pat` or a `rel`. -/
def nodeIdents (pair : Pair Rule) : Str × Option Str :=
  let idents := pair.inner.filter (fun x => x.rule = .ident)
  ((idents.head?.map Pair.text).getD [], idents[1]?.map Pair.text)

/-- `split_once('.')`. -/
def splitProp (s : Str) : Except HeraclitusError (Str × Str) :=
  match s.dropWhile (· != '.') with
  | [] => .error (perr "bad property")
  | _ :: b => .ok (s.takeWhile (· != '.'), b)

def buildAsOf (pair : Pair Rule) : Except HeraclitusError AsOf := do
  let inner ← okOr pair.inner.head? "empty AS OF"
  let n ← okOr inner.inner.head? "AS OF needs a number"
  let n ← okOr (parseU64 n.text) "bad AS OF number"
  return match inner.rule with
  | .asOfLsn => .lsn n
  | _ => .timestamp n

section

variable (floats : Floats)

/-- The numbers of a `vector`, pushed behind those that are there. -/
def pushNumbers (vector : List F32) (pair : Pair Rule) : Except HeraclitusError (List F32) := do
  let mut vector := vector
  for n in pair.inner do
    vector := vector ++ [← okOr (floats.parseF32 n.text) "bad number"]
  return vector

def distKindOf (s : Str) : DistKind :=
  let upper := s.map Char.toUpper
  if upper = "DIST_HYP".toList then .hyp
  else if upper = "DIST_SPH".toList then .sph
  else if upper = "DIST_EUC".toList then .euc
  else .product

def buildDistFn (pair : Pair Rule) : Except HeraclitusError (DistKind × List F32) := do
  let mut kind := DistKind.product
  let mut vector := []
  for p in pair.inner do
    match p.rule with
    | .distKind => kind := distKindOf p.text
    | .vector => vector ← pushNumbers floats vector p
    | _ => pure ()
  if vector = [] then throw (perr "DIST_* needs a non-empty vector")
  return (kind, vector)

def buildOperand (pair : Pair Rule) : Except HeraclitusError Operand := do
  let inner ← okOr pair.inner.head? "empty operand"
  match inner.rule with
  | .prop =>
    let (a, b) ← splitProp inner.text
    return .prop a b
  | .number => return .num (← okOr (floats.parseF64 inner.text) "bad number")
  | .string => return .str (unquote inner.text)
  | .distFn =>
    let (kind, vector) ← buildDistFn floats inner
    return .dist kind vector
  | _ => return .ident inner.text

def cmpOf (s : Str) : Except HeraclitusError Cmp :=
  if s = "=".toList then .ok .eq
  else if s = "!=".toList then .ok .ne
  else if s = ">".toList then .ok .gt
  else if s = "<".toList then .ok .lt
  else if s = ">=".toList then .ok .ge
  else if s = "<=".toList then .ok .le
  else .error (perr ("unknown operator " ++ String.ofList s))

def buildCondition (pair : Pair Rule) : Except HeraclitusError Condition := do
  let lhs ← buildOperand floats (← okOr pair.inner[0]? "missing lhs")
  let cmp ← cmpOf (← okOr pair.inner[1]? "missing op").text
  let rhs ← buildOperand floats (← okOr pair.inner[2]? "missing rhs")
  return { lhs, cmp, rhs }

def buildProps (c : CreateStmt) (pair : Pair Rule) : Except HeraclitusError CreateStmt := do
  let mut c := c
  for pr in pair.inner do
    if pr.rule = .pair then
      let key ← okOr pr.inner[0]? "bad pair"
      let val ← okOr pr.inner[1]? "bad pair"
      let value ← match val.rule with
        | .string => pure (.str (unquote val.text))
        | _ => .num <$> okOr (floats.parseF64 val.text) "bad number"
      c := { c with props := c.props ++ [(key.text, value)] }
  return c

def buildCreate (pair : Pair Rule) : Except HeraclitusError CreateStmt := do
  let mut c : CreateStmt := {}
  for p in pair.inner do
    match p.rule with
    | .ident => if c.var = [] then c := { c with var := p.text } else c := { c with label := some p.text }
    | .props => c ← buildProps floats c p
    | _ => pure ()
  return c

/-! ### `build_match` -/

def buildPattern (m : MatchStmt) (pair : Pair Rule) : MatchStmt := Id.run do
  let mut nodes : List (Str × Option Str) := []
  let mut rel := none
  for inner in pair.inner do
    match inner.rule with
    | .nodePat => nodes := nodes ++ [nodeIdents inner]
    | .rel => rel := some (nodeIdents inner)
    | _ => pure ()
  let (v, l) := nodes.head?.getD ([], none)
  let m := { m with var := v, label := l }
  match rel with
  | none => return m
  | some (relVar, relType) =>
    let (toVar, toLabel) := nodes[1]?.getD ([], none)
    return { m with edge := some { relVar, relType, toVar, toLabel } }

/-- The loop over the pairs of a `WHERE`, with the operator that the next condition gets. -/
def whereLoop (m : MatchStmt) (op : BoolOp) : List (Pair Rule) → Except HeraclitusError MatchStmt
  | [] => .ok m
  | c :: cs =>
    match c.rule with
    | .boolOp => whereLoop m (boolOpOf c.text) cs
    | .condition => do
      let condition ← buildCondition floats c
      whereLoop { m with conditions := m.conditions ++ [(op, condition)] } .and cs
    | _ => whereLoop m op cs

def buildWhere (m : MatchStmt) (pair : Pair Rule) : Except HeraclitusError MatchStmt := whereLoop floats m .first pair.inner

def buildReturn (m : MatchStmt) (pair : Pair Rule) : Except HeraclitusError MatchStmt := do
  let mut m := m
  for r in pair.inner do
    if r.rule = .retItem then
      let item ← okOr r.inner.head? "empty return"
      let ret ← match item.rule with
        | .star => pure .star
        | .prop => (fun (a, b) => .prop a b) <$> splitProp item.text
        | _ => pure (.ident item.text)
      m := { m with returns := m.returns ++ [ret] }
  return m

def buildOrderBy (m : MatchStmt) (pair : Pair Rule) : Except HeraclitusError MatchStmt := do
  let mut key := none
  let mut asc := true
  for o in pair.inner do
    match o.rule with
    | .prop => key := some (OrderKey.field (← splitProp o.text).2)
    | .ident => key := some (.field o.text)
    | .distFn =>
      let (kind, vector) ← buildDistFn floats o
      key := some (.dist kind vector)
    | .direction => asc := ascends o.text
    | _ => pure ()
  match key with
  | some k => return { m with orderBy := some (k, asc) }
  | none => return m

/-- What one pair of a `MATCH` adds. -/
def matchPart (m : MatchStmt) (p : Pair Rule) : Except HeraclitusError MatchStmt := do
  match p.rule with
  | .pattern => return buildPattern m p
  | .whereClause => buildWhere floats m p
  | .validAt =>
    let n ← okOr (p.inner.find? (fun x => x.rule = .int)) "VALID AT needs a number"
    return { m with validAt := some (← okOr (parseU64 n.text) "bad VALID AT number") }
  | .asOf => return { m with asOf := some (← buildAsOf p) }
  | .returnClause => buildReturn m p
  | .orderBy => buildOrderBy floats m p
  | .limit =>
    let n ← okOr p.inner.head? "empty limit"
    return { m with limit := some (← okOr (parseU32 n.text) "bad limit") }
  | _ => return m

def buildMatch (pair : Pair Rule) : Except HeraclitusError MatchStmt := pair.inner.foldlM (matchPart floats) {}

/-! ### `build_stmt` -/

/-- The locals of `build_stmt`; each form has some of them. -/
structure Locals where
  text : Str := []
  node : Str := []
  etype : Option Str := none
  start : Str := []
  strs : List Str := []
  vector : List F32 := []
  k : Nat := 10
  maxDepth : Option Nat := none
  leiden : Bool := false
  asOf : Option AsOf := none

/-- The arm of `as_of`, and of every rule that a form has no arm for. -/
def Locals.others (l : Locals) (p : Pair Rule) : Except HeraclitusError Locals := do
  match p.rule with
  | .asOf => return { l with asOf := some (← buildAsOf p) }
  | _ => return l

def recallPart (l : Locals) (p : Pair Rule) : Except HeraclitusError Locals := do
  match p.rule with
  | .string => return { l with text := unquote p.text }
  | .int => return { l with k := ← okOr (parseU32 p.text) "bad k" }
  | _ => l.others p

def buildRecall (inner : Pair Rule) : Except HeraclitusError Stmt := do
  let l ← inner.inner.foldlM recallPart {}
  return .recall l.text l.k l.asOf

def nearestPart (l : Locals) (p : Pair Rule) : Except HeraclitusError Locals := do
  match p.rule with
  | .vector => return { l with vector := ← pushNumbers floats l.vector p }
  | .int => return { l with k := ← okOr (parseU32 p.text) "bad k" }
  | _ => l.others p

def buildNearest (inner : Pair Rule) : Except HeraclitusError Stmt := do
  let l ← inner.inner.foldlM (nearestPart floats) {}
  return .nearest l.vector l.k l.asOf

def buildProvenance (inner : Pair Rule) : Except HeraclitusError Stmt := do
  let id ← okOr ((inner.inner.find? (fun p => p.rule = .string)).map (fun p => unquote p.text)) "PROVENANCE needs an id"
  return .provenance id

def neighborsPart (l : Locals) (p : Pair Rule) : Except HeraclitusError Locals := do
  match p.rule with
  -- the first string is the node, the second one the edge type
  | .string => return if l.node = [] then { l with node := unquote p.text } else { l with etype := some (unquote p.text) }
  | _ => l.others p

def buildNeighbors (inner : Pair Rule) : Except HeraclitusError Stmt := do
  let l ← inner.inner.foldlM neighborsPart {}
  if l.node = [] then throw (perr "NEIGHBORS needs a node id")
  return .neighbors l.node l.etype l.asOf

def traversePart (l : Locals) (p : Pair Rule) : Except HeraclitusError Locals := do
  match p.rule with
  | .string => return { l with start := unquote p.text }
  | .int => return { l with maxDepth := some (← okOr (parseU32 p.text) "bad depth") }
  | _ => l.others p

/-- One step deep, where no depth is said. -/
def buildTraverse (inner : Pair Rule) : Except HeraclitusError Stmt := do
  let l ← inner.inner.foldlM traversePart {}
  if l.start = [] then throw (perr "TRAVERSE needs a start id")
  return .traverse l.start (l.maxDepth.getD 1) l.asOf

def fusePart (l : Locals) (p : Pair Rule) : Except HeraclitusError Locals := do
  match p.rule with
  -- the first string is the text, the second one the anchor node
  | .string => return if l.text = [] then { l with text := unquote p.text } else { l with node := unquote p.text }
  | .vector => return { l with vector := ← pushNumbers floats l.vector p }
  | .int => return { l with k := ← okOr (parseU32 p.text) "bad k" }
  | _ => l.others p

def buildFuse (inner : Pair Rule) : Except HeraclitusError Stmt := do
  let l ← inner.inner.foldlM (fusePart floats) {}
  if l.node = [] then throw (perr "FUSE needs an anchor node id")
  return .fuse l.text l.vector l.node l.k l.asOf

/-- The forms of one string, which must not be empty. -/
def onePart (l : Locals) (p : Pair Rule) : Except HeraclitusError Locals := do
  match p.rule with
  | .string => return { l with node := unquote p.text }
  | _ => l.others p

def buildOne (missing : String) (make : Str → Option AsOf → Stmt) (inner : Pair Rule) : Except HeraclitusError Stmt := do
  let l ← inner.inner.foldlM onePart {}
  if l.node = [] then throw (perr missing)
  return make l.node l.asOf

def buildResolve (inner : Pair Rule) : Except HeraclitusError Stmt := buildOne "RESOLVE needs a key" .resolve inner

def buildCluster (inner : Pair Rule) : Except HeraclitusError Stmt := buildOne "CLUSTER needs an entity id" .cluster inner

def buildMetrics (inner : Pair Rule) : Except HeraclitusError Stmt := buildOne "METRICS needs a node id" .metrics inner

def hypothesesPart (l : Locals) (p : Pair Rule) : Except HeraclitusError Locals := do
  match p.rule with
  | .string => return { l with strs := l.strs ++ [unquote p.text] }
  | _ => l.others p

def buildHypotheses (inner : Pair Rule) : Except HeraclitusError Stmt := do
  let l ← inner.inner.foldlM hypothesesPart {}
  match l.strs with
  | from_ :: to_ :: etype :: _ => return .hypotheses from_ to_ etype l.asOf
  | _ => throw (perr "HYPOTHESES needs (from, to, edge_type)")

def whyPart (l : Locals) (p : Pair Rule) : Except HeraclitusError Locals := do
  match p.rule with
  | .string => return { l with strs := l.strs ++ [unquote p.text] }
  | .int => return { l with maxDepth := some (← okOr (parseU32 p.text) "bad depth") }
  | _ => l.others p

/-- The first string is the target, the second one the cause. -/
def buildWhy (inner : Pair Rule) : Except HeraclitusError Stmt := do
  let l ← inner.inner.foldlM whyPart {}
  let target := l.strs.head?.getD []
  if target = [] then throw (perr "WHY needs a target id")
  return .why target l.maxDepth l.strs[1]? l.asOf

def communityPart (l : Locals) (p : Pair Rule) : Except HeraclitusError Locals := do
  match p.rule with
  | .string => return { l with node := unquote p.text }
  | .leidenKw => return { l with leiden := true }
  | _ => l.others p

def buildCommunity (inner : Pair Rule) : Except HeraclitusError Stmt := do
  let l ← inner.inner.foldlM communityPart {}
  if l.node = [] then throw (perr "COMMUNITY needs a node id")
  return .community l.node l.leiden l.asOf

/-- `DECIDE` and `ADAPT`. -/
def buildBare (make : Option AsOf → Stmt) (inner : Pair Rule) : Except HeraclitusError Stmt := do
  match inner.inner.find? (fun p => p.rule = .asOf) with
  | some p => return make (some (← buildAsOf p))
  | none => return make none

def buildDecide (inner : Pair Rule) : Except HeraclitusError Stmt := buildBare .decide inner

def buildAdapt (inner : Pair Rule) : Except HeraclitusError Stmt := buildBare .adapt inner

mutual

def buildStmt : Pair Rule → Except HeraclitusError Stmt
  | .mk _ _ [] => .error (perr "empty stmt")
  | .mk _ _ (.mk form text inner :: _) =>
    match form with
    | .matchStmt => .match <$> buildMatch floats (.mk form text inner)
    | .createStmt => .create <$> buildCreate floats (.mk form text inner)
    | .recallStmt => buildRecall (.mk form text inner)
    | .nearestStmt => buildNearest floats (.mk form text inner)
    | .provenanceStmt => buildProvenance (.mk form text inner)
    | .neighborsStmt => buildNeighbors (.mk form text inner)
    | .traverseStmt => buildTraverse (.mk form text inner)
    | .fuseStmt => buildFuse floats (.mk form text inner)
    | .resolveStmt => buildResolve (.mk form text inner)
    | .clusterStmt => buildCluster (.mk form text inner)
    | .hypothesesStmt => buildHypotheses (.mk form text inner)
    | .whyStmt => buildWhy (.mk form text inner)
    | .communityStmt => buildCommunity (.mk form text inner)
    | .metricsStmt => buildMetrics (.mk form text inner)
    | .decideStmt => buildDecide (.mk form text inner)
    | .adaptStmt => buildAdapt (.mk form text inner)
    | .simulateStmt => do
      let (op, strs, then_) ← simulateParts .addEdge [] none inner
      match strs with
      | from_ :: to_ :: etype :: _ =>
        let then_ ← okOr then_ "SIMULATE needs a THEN statement"
        return .simulate op from_ to_ etype then_
      | _ => throw (perr "SIMULATE EDGE needs (from, to, etype)")
    | r => .error (perr ("unexpected stmt " ++ r.debug))

/-- The loop of a `SIMULATE` over the pairs that are left. -/
def simulateParts (op : SimulateOp) (strs : List Str) (then_ : Option Stmt) :
    List (Pair Rule) → Except HeraclitusError (SimulateOp × List Str × Option Stmt)
  | [] => .ok (op, strs, then_)
  | p :: ps =>
    match p.rule with
    | .simulateOp => simulateParts (if removes p.text then .removeEdge else op) strs then_ ps
    | .string => simulateParts op (strs ++ [unquote p.text]) then_ ps
    | .stmt => do
      let s ← buildStmt p
      simulateParts op strs (some s) ps
    | _ => simulateParts op strs then_ ps

end

def buildQuery (pair : Pair Rule) : Except HeraclitusError Query := do
  let mut explain := false
  let mut requireLsn := none
  let mut stmt := none
  for p in pair.inner do
    match p.rule with
    | .explain => explain := true
    | .require =>
      let n ← okOr (p.inner.find? (fun x => x.rule = .int)) "REQUIRE needs an LSN"
      requireLsn := some (← okOr (parseU64 n.text) "bad REQUIRE LSN")
    | .stmt => stmt := some (← buildStmt floats p)
    | .eoi => pure ()
    | r => throw (perr ("unexpected rule " ++ r.debug))
  return { explain, requireLsn, stmt := ← okOr stmt "missing statement" }

end

end Gql
end Heraclitus
