import Heraclitus.AttrRange
import Heraclitus.LogSpec
/-!
# Query — `MATCH (n) WHERE …` over the engine (`heraclitus-query/src/plan.rs`, `heraclitus-server/src/engine.rs`)

A `ScanFilter` plan takes candidates from the attribute index or from a window of the log and keeps those that its label,
its `VALID AT` and its `WHERE` accept; `ORDER BY`, `LIMIT` and `RETURN` only see these rows.
-/
namespace Heraclitus
namespace Query

/-! ## The plan (`ast.rs`) -/

inductive BoolOp where
  | first | and | or
  deriving DecidableEq

inductive DistKind where
  | hyp | sph | euc | product
  deriving DecidableEq

inductive Operand where
  | prop (var field : Str)
  | ident (field : Str)
  | num (n : F64)
  | str (s : Str)
  | dist (kind : DistKind) (v : List F32)
  deriving DecidableEq

inductive Cmp where
  | eq | ne | gt | lt | ge | le
  deriving DecidableEq

/-- Does a comparison hold of an order?  Without one only `!=` does. -/
def Cmp.holds : Cmp → Option Ordering → Bool
  | .eq, some o => o == .eq
  | .ne, some o => o != .eq
  | .gt, some o => o == .gt
  | .lt, some o => o == .lt
  | .ge, some o => o != .lt
  | .le, some o => o != .gt
  | .ne, none => true
  | _, none => false

structure Condition where
  lhs : Operand
  cmp : Cmp
  rhs : Operand
  deriving DecidableEq

structure ScanFilter where
  label : Option Str
  conditions : List (BoolOp × Condition)
  validAt : Option Nat

/-- What the planner takes from its libraries: `str::parse::<f64>`, the text of a ULID, `String::from_utf8_lossy`, and the
distances of the product manifold. -/
structure Env where
  parseF64 : Str → Option F64
  ulidText : Nat → Str
  utf8Lossy : Bytes → Str
  evalDist : DistKind → List F32 → Episode → Option F64

/-! ## `WHERE` -/

/-- The JSON values that operands take. -/
inductive Json where
  | num (n : F64)
  | str (s : Str)
  | null
  deriving DecidableEq

/-- `json!` of an `f64`: JSON has no infinities and no NaN. -/
def Json.ofF64 (n : F64) : Json := if n.isFinite then .num n else .null

def Json.asF64 : Json → Option F64
  | .num n => some n
  | _ => none

def Json.asStr : Json → Option Str
  | .str s => some s
  | _ => none

section Eval

variable (env : Env)

def fieldOf (lsn : Nat) (e : Episode) (field : Str) : Option Json :=
  if field = "lsn".toList then some (.num (.ofU64 lsn))
  else if field = "id".toList then some (.str (env.ulidText e.id))
  else if field = "agent_id".toList then some (.str e.agentId)
  else if field = "session_id".toList then some (.str e.sessionId)
  else if field = "kind".toList ∨ field = "tipo".toList then some (.str e.kind.label)
  else if field = "content".toList then some (.str (env.utf8Lossy e.content))
  else if field = "ts_hlc".toList then some (.num (.ofU64 e.tsHlc))
  else (e.attrs.get? field).map .str

def evalOperand (lsn : Nat) (e : Episode) : Operand → Option Json
  | .prop _ field | .ident field => fieldOf env lsn e field
  | .num n => some (.ofF64 n)
  | .str s => some (.str s)
  | .dist kind v => (env.evalDist kind v e).map .ofF64

/-- `str::cmp`. -/
def cmpText (x y : Str) : Ordering := if x < y then .lt else if x = y then .eq else .gt

/-- A number, or a text that reads as one. -/
def coerce (j : Json) : Option F64 := j.asF64 <|> j.asStr.bind (fun s => env.parseF64 (trim s))

/-- Numbers compare as numbers, also with a text that reads as one; two texts compare as texts. -/
def cmpJson (a b : Json) (c : Cmp) : Bool :=
  let ord : Option Ordering :=
    match a.asF64, b.asF64 with
    | some x, some y => x.partialCmp y
    | none, none => a.asStr.bind (fun x => b.asStr.map (cmpText x))
    | _, _ => (coerce env a).bind (fun x => (coerce env b).bind (fun y => x.partialCmp y))
  c.holds ord

/-- `valid_from ≤ t < valid_to`, from the native fields or the attributes of the same name; an absent bound is open. -/
def validAtMatches (e : Episode) (t : Nat) : Bool :=
  let num := fun (k : String) => (e.attrs.get? k.toList).bind (fun v => env.parseF64 (trim v))
  let start := e.validFrom.map F64.ofU64 <|> num "valid_from"
  let stop := e.validTo.map F64.ofU64 <|> num "valid_to"
  start.all (fun s => s.le (.ofU64 t)) && stop.all (fun s => (F64.ofU64 t).lt s)

/-- The closed `AND` groups, and the current one. -/
def boolStep (hit : Condition → Bool) (s : Bool × Bool) (oc : BoolOp × Condition) : Bool × Bool :=
  match oc.1 with
  | .first => (s.1, hit oc.2)
  | .and => (s.1, s.2 && hit oc.2)
  | .or => (s.1 || s.2, hit oc.2)

/-- `AND` binds tighter than `OR`. -/
def evalBool (conditions : List (BoolOp × Condition)) (hit : Condition → Bool) : Bool :=
  if conditions.isEmpty then true
  else
    let final := conditions.foldl (boolStep hit) (false, true)
    final.1 || final.2

def hit (lsn : Nat) (e : Episode) (c : Condition) : Bool :=
  match evalOperand env lsn e c.lhs, evalOperand env lsn e c.rhs with
  | some a, some b => cmpJson env a b c.cmp
  | _, _ => false

def matchesWhere (conditions : List (BoolOp × Condition)) (lsn : Nat) (e : Episode) : Bool :=
  evalBool conditions (hit env lsn e)

end Eval

/-! ## The hints -/

def hasOr (conditions : List (BoolOp × Condition)) : Bool := conditions.any (fun oc => oc.1 == .or)

def flipCmp : Cmp → Cmp
  | .gt => .lt
  | .lt => .gt
  | .ge => .le
  | .le => .ge
  | other => other

def isBuiltinField (f : Str) : Bool :=
  (["lsn", "id", "agent_id", "session_id", "kind", "tipo", "content"].map String.toList).contains f

/-- A bound and whether it is inclusive. -/
abbrev NumBound := Option (F64 × Bool)

def tighterMin (cur : NumBound) (cand : F64 × Bool) : NumBound :=
  match cur with
  | some (v, b) => if cand.1.le v then some (v, b) else some cand
  | none => some cand

def tighterMax (cur : NumBound) (cand : F64 × Bool) : NumBound :=
  match cur with
  | some (v, b) => if v.le cand.1 then some (v, b) else some cand
  | none => some cand

/-- `n.<field> <cmp> <number>`, either way round. -/
def numericCondition (c : Condition) : Option (Str × Cmp × F64) :=
  match c.lhs, c.rhs with
  | .prop _ f, .num n => some (f, c.cmp, n)
  | .num n, .prop _ f => some (f, flipCmp c.cmp, n)
  | _, _ => none

structure RangeHint where
  field : Option Str := none
  min : NumBound := none
  max : NumBound := none
  deriving DecidableEq

/-- The first field with a numeric condition wins. -/
def RangeHint.step (s : RangeHint) (c : Condition) : RangeHint :=
  match numericCondition c with
  | none => s
  | some (f, op, n) =>
    if isBuiltinField f then s
    else if s.field.any (fun existing => existing != f) then s
    else
      let s := { s with field := some f }
      match op with
      | .gt => { s with min := tighterMin s.min (n, false) }
      | .ge => { s with min := tighterMin s.min (n, true) }
      | .lt => { s with max := tighterMax s.max (n, false) }
      | .le => { s with max := tighterMax s.max (n, true) }
      | _ => s

def attrRangeHint (conditions : List (BoolOp × Condition)) : Option (Str × NumBound × NumBound) :=
  if hasOr conditions then none
  else
    let s := conditions.foldl (fun s oc => RangeHint.step s oc.2) {}
    s.field.bind (fun field => if s.min.isNone && s.max.isNone then none else some (field, s.min, s.max))

/-- `n.<field> = "text"`, either way round. -/
def textEquality (c : Condition) : Option (Str × Str) :=
  if c.cmp ≠ .eq then none
  else match c.lhs, c.rhs with
    | .prop _ f, .str v | .str v, .prop _ f => some (f, v)
    | _, _ => none

/-- `kind` and `tipo` are indexed under a reserved name. -/
def pseudoAtributoDe (campo : Str) : Option Str :=
  if campo = "kind".toList ∨ campo = "tipo".toList then some AttrIndex.kindField else none

def attrEqHint (conditions : List (BoolOp × Condition)) : Option (Str × Str) :=
  if hasOr conditions then none
  else conditions.findSome? (fun oc => (textEquality oc.2).bind (fun (f, v) =>
    match pseudoAtributoDe f with
    | some chave => some (chave, v)
    | none => if isBuiltinField f then none else some (f, v)))

def builtinSkipHint (conditions : List (BoolOp × Condition)) : Option (Str × Str) :=
  if hasOr conditions then none
  else conditions.findSome? (fun oc => (textEquality oc.2).bind (fun (f, v) =>
    if f = "agent_id".toList ∨ f = "session_id".toList then some (f, v) else none))

def isLsnOperand : Operand → Bool
  | .prop _ f | .ident f => f == "lsn".toList
  | _ => false

/-- `lsn <cmp> <number>`, either way round. -/
def lsnCondition (c : Condition) : Option (Cmp × F64) :=
  if isLsnOperand c.lhs then
    match c.rhs with
    | .num n => some (c.cmp, n)
    | _ => none
  else if isLsnOperand c.rhs then
    match c.lhs with
    | .num n => some (flipCmp c.cmp, n)
    | _ => none
  else none

/-- One bound on the window; a negative number counts as 0. -/
def narrow (w : Nat × Nat) (op : Cmp) (n : F64) : Nat × Nat :=
  let n := if n.lt ⟨0⟩ then 0 else n.toU64
  match op with
  | .ge => (max w.1 n, w.2)
  | .gt => (max w.1 (satAdd64 n 1), w.2)
  | .le => (w.1, min w.2 (satAdd64 n 1))
  | .lt => (w.1, min w.2 n)
  | .eq => (max w.1 n, min w.2 (satAdd64 n 1))
  | .ne => w

def narrowBy (w : Nat × Nat) (c : Condition) : Nat × Nat :=
  match lsnCondition c with
  | some (op, n) => narrow w op n
  | none => w

def lsnWindow (conditions : List (BoolOp × Condition)) (bound : Option Nat) : Nat × Nat :=
  let full := (0, bound.getD u64Max)
  if hasOr conditions then full
  else
    let w := conditions.foldl (fun w oc => narrowBy w oc.2) full
    if w.2 ≤ w.1 then (w.1, w.1) else w

/-! ## The engine as a backend -/

def queryScanCap : Nat := 250000

/-- The engine at rest: what it has logged, and the attribute index of it. -/
structure Engine where
  log : List Episode
  attr : AttrIndex

section Backend

variable (env : Env)

/-- The number under which the index files a text. -/
def numKey (v : Str) : Option Nat := (env.parseF64 v).bind (fun n => if n.isFinite then some (encodeF64 n) else none)

/-- `index_applied`, as far as it concerns the attribute index. -/
def indexApplied (idx : AttrIndex) (record : Nat × Episode) : AttrIndex :=
  if isHvm record.2 then idx else idx.apply (numKey env) record.1 record.2

/-- The engine once every event of the log has been indexed. -/
def Engine.ofLog (events : List Episode) : Engine :=
  { log := events, attr := (number 0 events).foldl (indexApplied env) .new }

/-- The loop that reads the events of a lookup and stops at the cap. -/
def hydrate (log : List Episode) (cap : Nat) : List Nat → List (Nat × Episode) → List (Nat × Episode)
  | [], out => out
  | l :: lsns, out =>
    let out := match log[l]? with
      | some e => out ++ [(l, e)]
      | none => out
    if cap ≤ out.length then out else hydrate log cap lsns out

def retainBelow (bound : Option Nat) (lsns : List Nat) : List Nat :=
  match bound with
  | some b => lsns.filter (fun l => decide (l < b))
  | none => lsns

def Engine.attrLookup (eng : Engine) (field value : Str) (asOf : Option Nat) : Option (List (Nat × Episode)) :=
  some (hydrate eng.log queryScanCap ((retainBelow asOf (eng.attr.lookup field value)).insertionSort (· ≤ ·)) [])

def toBound : NumBound → Bound F64
  | none => .unbounded
  | some (v, true) => .included v
  | some (v, false) => .excluded v

def Engine.attrRangeLookup (eng : Engine) (field : Str) (min max : NumBound) (asOf : Option Nat) :
    Option (List (Nat × Episode)) :=
  some (hydrate eng.log queryScanCap (retainBelow asOf (eng.attr.lookupRange field (toBound min) (toBound max))) [])

/-- The engine has no zone maps: the default of the trait. -/
def Engine.scanBuiltinEq (_eng : Engine) (_field _value : Str) (_asOf : Option Nat) : Option (List (Nat × Episode)) := none

def Engine.scanRange (eng : Engine) (lo hi : Nat) : List (Nat × Episode) := scanCapped eng.log lo hi queryScanCap

/-- The candidates of a `ScanFilter`: an equality, else a range, else a skip scan, else the window. -/
def Engine.candidates (eng : Engine) (conditions : List (BoolOp × Condition)) (bound : Option Nat) :
    List (Nat × Episode) :=
  let indexed := match attrEqHint conditions with
    | some (field, value) => eng.attrLookup field value bound
    | none => match attrRangeHint conditions with
      | some (field, min, max) => eng.attrRangeLookup field min max bound
      | none => match builtinSkipHint conditions with
        | some (field, value) => eng.scanBuiltinEq field value bound
        | none => none
  match indexed with
  | some found => found
  | none =>
    let w := lsnWindow conditions bound
    eng.scanRange w.1 w.2

def labelAccepts (q : ScanFilter) (e : Episode) : Bool :=
  q.label.all (fun l => toAsciiLowercase e.kind.label == toAsciiLowercase l)

/-- The rows that a list of candidates leaves. -/
def ScanFilter.keep (q : ScanFilter) (candidates : List (Nat × Episode)) : List (Nat × Episode) :=
  ((candidates.filter (fun r => labelAccepts q r.2)).filter (fun r => q.validAt.all (validAtMatches env r.2))).filter
    (fun r => matchesWhere env q.conditions r.1 r.2)

/-- `execute` of a `ScanFilter` up to its rows. -/
def Engine.execute (eng : Engine) (q : ScanFilter) (bound : Option Nat) : List (Nat × Episode) :=
  q.keep env (eng.candidates q.conditions bound)

end Backend

/-- The events of `[0, bound)`. -/
def scanBelow (events : List Episode) (bound : Option Nat) : List (Nat × Episode) :=
  (number 0 events).filter (fun r => bound.all (fun b => decide (r.1 < b)))

end Query
end Heraclitus
