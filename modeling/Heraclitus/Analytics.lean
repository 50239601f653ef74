import Heraclitus.Episode
import Heraclitus.Selection
import Heraclitus.Lib.Sift
/-!
# Analytics — columns, and the operators on them (`heraclitus-analytics/src/vectorized.rs`)

Events become batches of columns, and a plan is a list of nodes that scan, filter, group and join batches.  A filter runs one
predicate at a time or, over a chain of filters, all of them at once with the rows gathered at the end; and batches are filtered
in one thread or in chunks.  Arrow's own kernels are taken as they are documented.
-/
namespace Heraclitus
namespace Analytics

inductive DataType where
  | uint64 | utf8
  deriving DecidableEq

structure Field where
  name : Str
  dataType : DataType
  nullable : Bool
  deriving DecidableEq

/-- A value of an array; none is null. -/
inductive Cell where
  | uint64 (n : Nat)
  | utf8 (s : Str)
  deriving DecidableEq

abbrev Row := List Cell

inductive CmpOp where
  | eq | gt | lt
  deriving DecidableEq

inductive Literal where
  | u64 (v : Nat)
  | str (v : Str)
  deriving DecidableEq

structure Predicate where
  column : Nat
  op : CmpOp
  value : Literal
  deriving DecidableEq

/-- The errors, by what they name; `panic` is a column that is not there. -/
inductive AnalyticsError where
  | mismatch (lit : Literal) (dataType : DataType)
  | notRegistered (pid : Nat)
  | noSource (scan : Nat)
  | noInput
  | noColumns
  | emptyDag
  | panic
  deriving DecidableEq

namespace Cell

/-- `array_cell_string`. -/
def text : Cell → Str
  | uint64 n => Nat.toDigits 10 n
  | utf8 s => s

/-- What a sum adds of a cell. -/
def addend : Cell → Option Nat
  | uint64 n => some n
  | utf8 _ => none

end Cell

def u64At (row : Row) (k : Nat) : Nat := ((row[k]?).bind Cell.addend).getD 0

def textAt (row : Row) (k : Nat) : Str := ((row[k]?).map Cell.text).getD []

/-- Arrow holds a batch by columns, of the types and of one length that the code gives them; here are its rows. -/
structure RecordBatch where
  schema : List Field
  rows : List Row
  deriving DecidableEq

namespace RecordBatch

def row (b : RecordBatch) (i : Nat) : Row := b.rows.getD i []

def numRows (b : RecordBatch) : Nat := b.rows.length

/-- `try_new` and the kernels that end in it refuse a batch without columns. -/
def tryNew (schema : List Field) (rows : List Row) : Except AnalyticsError RecordBatch :=
  if schema = [] then .error .noColumns else .ok ⟨schema, rows⟩

def columnType (b : RecordBatch) (k : Nat) : Except AnalyticsError DataType :=
  match b.schema[k]? with
  | some f => .ok f.dataType
  | none => .error .panic

/-- `filter_record_batch`. -/
def filterRecordBatch (b : RecordBatch) (mask : List Bool) : Except AnalyticsError RecordBatch :=
  tryNew b.schema (((b.rows.zip mask).filter Prod.snd).map Prod.fst)

/-- `take`, of rows that are there. -/
def take (b : RecordBatch) (idx : List Nat) : List Row := idx.map b.row

/-- `concat_batches`, of batches of one schema. -/
def concatBatches (schema : List Field) (bs : List RecordBatch) : Except AnalyticsError RecordBatch :=
  tryNew schema (bs.flatMap rows)

end RecordBatch

/-! ## The source -/

def batchSchema : List Field :=
  [⟨"lsn".toList, .uint64, false⟩, ⟨"agent_id".toList, .utf8, false⟩, ⟨"kind".toList, .utf8, false⟩,
    ⟨"ts_hlc".toList, .uint64, false⟩, ⟨"content_len".toList, .uint64, false⟩]

def eventRow (e : Nat × Episode) : Row :=
  [.uint64 e.1, .utf8 e.2.agentId, .utf8 e.2.kind.label, .uint64 e.2.tsHlc, .uint64 e.2.content.length]

def episodesToBatchesSized (events : List (Nat × Episode)) (rowsPerBatch : Nat) : Except AnalyticsError (List RecordBatch) :=
  (chunks (max rowsPerBatch 1) events).mapM (fun chunk => RecordBatch.tryNew batchSchema (chunk.map eventRow))

/-! ## Predicates -/

def CmpOp.holds {α : Type} [LinearOrder α] : CmpOp → α → α → Bool
  | .eq, a, v => decide (a = v)
  | .gt, a, v => decide (v < a)
  | .lt, a, v => decide (a < v)

def evalPredicate (b : RecordBatch) (p : Predicate) : Except AnalyticsError (List Bool) := do
  match p.value, ← b.columnType p.column with
  | .u64 v, .uint64 => .ok (b.rows.map (fun row => p.op.holds (u64At row p.column) v))
  | .str v, .utf8 => .ok (b.rows.map (fun row => p.op.holds (textAt row p.column) v))
  | lit, dataType => .error (.mismatch lit dataType)

def predicateMatcher (b : RecordBatch) (p : Predicate) : Except AnalyticsError (Nat → Bool) := do
  match p.value, ← b.columnType p.column with
  | .u64 v, .uint64 => .ok (fun i => p.op.holds (u64At (b.row i) p.column) v)
  | .str v, .utf8 => .ok (fun i => p.op.holds (textAt (b.row i) p.column) v)
  | lit, dataType => .error (.mismatch lit dataType)

/-! ## The operators -/

def filterOne (p : Predicate) (b : RecordBatch) : Except AnalyticsError RecordBatch := do
  let mask ← evalPredicate b p
  b.filterRecordBatch mask

/-- The predicates after the first see only the rows that are left, and none if no row is. -/
def retainAll (b : RecordBatch) : List Predicate → List UInt32 → Except AnalyticsError (List UInt32)
  | [], survivors => .ok survivors
  | p :: rest, survivors =>
    if survivors.isEmpty then .ok survivors
    else do
      let m ← predicateMatcher b p
      retainAll b rest (survivors.filter (fun i => m i.toNat))

def fusedFilterOne (preds : List Predicate) (b : RecordBatch) : Except AnalyticsError RecordBatch := do
  let survivors ← match preds with
    | p :: rest => do
      let m ← predicateMatcher b p
      retainAll b rest (((List.range b.numRows).filter m).map UInt32.ofNat)
    | [] => .ok ((List.range (b.numRows % 2 ^ 32)).map UInt32.ofNat)
  match Selection.SelectionVector.fromSortedIndices b.numRows survivors with
  | some sel => RecordBatch.tryNew b.schema (b.take (sel.toIndices.map UInt32.toNat))
  | none => .error .panic

/-- One batch of a filter; a batch without rows is left out. -/
def keptBy (one : RecordBatch → Except AnalyticsError RecordBatch) (b : RecordBatch) : Except AnalyticsError (Option RecordBatch) := do
  let fb ← one b
  .ok (if 0 < fb.numRows then some fb else none)

/-- `u64` addition, which wraps. -/
def wrap64 (a b : Nat) : Nat := (a + b) % 2 ^ 64

abbrev Groups := SortedMap (List Str) (Nat × List Nat)

/-- A count and sums, with a row more. -/
def addEntry (aggs : List Nat) (old : Option (Nat × List Nat)) (row : Row) : Nat × List Nat :=
  let entry := old.getD (0, aggs.map (fun _ => 0))
  (wrap64 entry.1 1, List.zipWith (fun sum a => ((row[a]?).bind Cell.addend).elim sum (wrap64 sum)) entry.2 aggs)

/-- One row of an aggregation. -/
def addRow (keys aggs : List Nat) (b : RecordBatch) (groups : Groups) (row : Row) : Except AnalyticsError Groups := do
  forM (keys ++ aggs) (fun k => b.columnType k >>= fun _ => .ok ())
  .ok (groups.alter (keys.map (textAt row)) (fun old => some (addEntry aggs old row)))

def aggregateSchema (keys aggs : List Nat) : List Field :=
  (List.range keys.length).map (fun i => ⟨"key".toList ++ Nat.toDigits 10 i, .utf8, false⟩) ++ [⟨"count".toList, .uint64, false⟩]
    ++ (List.range aggs.length).map (fun i => ⟨"sum".toList ++ Nat.toDigits 10 i, .uint64, false⟩)

def groupRow (entry : List Str × Nat × List Nat) : Row :=
  entry.1.map .utf8 ++ [.uint64 entry.2.1] ++ entry.2.2.map .uint64

/-- The groups come out in the order of their keys. -/
def runAggregate (input : List RecordBatch) (keys aggs : List Nat) : Except AnalyticsError (List RecordBatch) := do
  let groups ← input.foldlM (fun groups b => b.rows.foldlM (addRow keys aggs b) groups) (.empty : Groups)
  let batch ← RecordBatch.tryNew (aggregateSchema keys aggs) (groups.entries.map groupRow)
  .ok [batch]

def joinedSchema (left right : List Field) : List Field :=
  left ++ right.map (fun f => ⟨f.name ++ "_r".toList, f.dataType, true⟩)

/-- The places of the left side under each key. -/
def buildTable (lall : RecordBatch) (lk : Nat) : Except AnalyticsError (SortedMap Str (List Nat)) :=
  (List.range lall.numRows).foldlM (fun table row => lall.columnType lk >>= fun _ =>
    .ok (table.alter (textAt (lall.row row) lk) (fun old => some (old.getD [] ++ [row])))) .empty

def probe (table : SortedMap Str (List Nat)) (rall : RecordBatch) (rk : Nat) : Except AnalyticsError (List (Nat × Nat)) :=
  (List.range rall.numRows).foldlM (fun pairs rrow => rall.columnType rk >>= fun _ =>
    .ok (pairs ++ ((table.get? (textAt (rall.row rrow) rk)).getD []).map (·, rrow))) []

def runHashJoin (left right : List RecordBatch) (lk rk : Nat) : Except AnalyticsError (List RecordBatch) :=
  match left, right with
  | l :: ls, r :: rs => do
    let lall ← RecordBatch.concatBatches l.schema (l :: ls)
    let table ← buildTable lall lk
    let rall ← RecordBatch.concatBatches r.schema (r :: rs)
    let pairs ← probe table rall rk
    let batch ← RecordBatch.tryNew (joinedSchema l.schema r.schema)
      (List.zipWith (· ++ ·) (lall.take (pairs.map Prod.fst)) (rall.take (pairs.map Prod.snd)))
    .ok [batch]
  | _, _ => .ok []

/-! ## The executor -/

/-- `0.5`. -/
def half : F64 := ⟨0x3FE0000000000000⟩

inductive PhysicalIr where
  | columnScan (projection : List Nat)
  | vectorFilter (predicateId : Nat)
  | hashJoin (leftKey rightKey : Nat)
  | vectorAggregate (keys aggregations : List Nat)
  deriving DecidableEq

structure ExecutionNode where
  nodeId : Nat
  operation : PhysicalIr
  dependencies : List Nat
  deriving DecidableEq

/-- `logicalCpus` is what the host has, and `fuses` whether the product of estimates is below the threshold. -/
structure VecExecutor where
  sources : List (List RecordBatch)
  predicates : List Predicate
  logicalCpus : Nat
  selectivities : SortedMap Nat F64
  fuses : List F64 → Bool

namespace VecExecutor

/-- The batches one after the other or, with more than one processor and enough batches, chunk by chunk. -/
def filterBatches (ex : VecExecutor) (one : RecordBatch → Except AnalyticsError RecordBatch) (input : List RecordBatch) :
    Except AnalyticsError (List RecordBatch) :=
  let cpus := max ex.logicalCpus 1
  if 1 < cpus ∧ 4 ≤ input.length then do
    let parts ← (chunks ((input.length + cpus - 1) / cpus) input).mapM (sift (keptBy one))
    .ok parts.flatten
  else sift (keptBy one) input

def predicate (ex : VecExecutor) (pid : Nat) : Except AnalyticsError Predicate :=
  match ex.predicates[pid]? with
  | some p => .ok p
  | none => .error (.notRegistered pid)

def runFilter (ex : VecExecutor) (input : List RecordBatch) (pid : Nat) : Except AnalyticsError (List RecordBatch) := do
  let p ← ex.predicate pid
  ex.filterBatches (filterOne p) input

def runFusedFilters (ex : VecExecutor) (input : List RecordBatch) (pids : List Nat) :
    Except AnalyticsError (List RecordBatch) := do
  let preds ← pids.mapM ex.predicate
  ex.filterBatches (fusedFilterOne preds) input

def estimate (selectivities : SortedMap Nat F64) (pid : Nat) : F64 := (selectivities.get? pid).getD half

/-- How often a node is read. -/
def consumers (dag : List ExecutionNode) (id : Nat) : Nat := (dag.flatMap ExecutionNode.dependencies).count id

/-- The filters that directly follow a node, each the only reader of the one before; then the last of them, and what is left. -/
def filterChain (dag : List ExecutionNode) : Nat → List ExecutionNode → List Nat × Nat × List ExecutionNode
  | cur, ⟨id, .vectorFilter pid, deps⟩ :: rest =>
    if deps = [cur] ∧ consumers dag cur = 1 then
      let (pids, last, rest') := filterChain dag id rest
      (pid :: pids, last, rest')
    else ([], cur, ⟨id, .vectorFilter pid, deps⟩ :: rest)
  | cur, rest => ([], cur, rest)

abbrev Results := Nat → Option (List RecordBatch)

def dependency (results : Results) (node : ExecutionNode) (i : Nat) : Except AnalyticsError (List RecordBatch) :=
  match node.dependencies[i]? with
  | none => .error .panic
  | some d =>
    match results d with
    | some input => .ok input
    | none => .error .noInput

def runChain (ex : VecExecutor) (input : List RecordBatch) (pid : Nat) (pids : List Nat) :
    Except AnalyticsError (List RecordBatch) :=
  if 2 ≤ (pid :: pids).length ∧ ex.fuses ((pid :: pids).map (estimate ex.selectivities)) = true then
    ex.runFusedFilters input (pid :: pids)
  else do
    let cur ← ex.runFilter input pid
    pids.foldlM ex.runFilter cur

/-- The loop of `execute`; a turn takes at least one node. -/
def executeLoop (ex : VecExecutor) (dag : List ExecutionNode) : Nat → List ExecutionNode → Results → Nat → Option Nat →
    Except AnalyticsError (Results × Option Nat)
  | 0, _, results, _, last => .ok (results, last)
  | _ + 1, [], results, _, last => .ok (results, last)
  | turns + 1, node :: rest, results, scansSeen, _ =>
    match node.operation with
    | .columnScan _ =>
      match ex.sources[scansSeen]? with
      | none => .error (.noSource scansSeen)
      | some src => ex.executeLoop dag turns rest (Function.update results node.nodeId (some src)) (scansSeen + 1) (some node.nodeId)
    | .vectorFilter pid => do
      let chain := filterChain dag node.nodeId rest
      let input ← dependency results node 0
      let out ← ex.runChain input pid chain.1
      ex.executeLoop dag turns chain.2.2 (Function.update results chain.2.1 (some out)) scansSeen (some chain.2.1)
    | .vectorAggregate keys aggs => do
      let input ← dependency results node 0
      let out ← runAggregate input keys aggs
      ex.executeLoop dag turns rest (Function.update results node.nodeId (some out)) scansSeen (some node.nodeId)
    | .hashJoin lk rk => do
      let l ← dependency results node 0
      let r ← dependency results node 1
      let out ← runHashJoin l r lk rk
      ex.executeLoop dag turns rest (Function.update results node.nodeId (some out)) scansSeen (some node.nodeId)

def execute (ex : VecExecutor) (dag : List ExecutionNode) : Except AnalyticsError (List RecordBatch) := do
  let (results, last) ← ex.executeLoop dag dag.length dag (fun _ => none) 0 none
  match last with
  | none => .error .emptyDag
  | some id => .ok ((results id).getD [])

end VecExecutor
end Analytics
end Heraclitus
