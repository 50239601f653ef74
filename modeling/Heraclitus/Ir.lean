import Mathlib.Algebra.Ring.Nat
import Heraclitus.Lib.Fallible
import Heraclitus.Lib.Straightline
/-!
# Ir — scalar functions over columns, their verifier and their interpreter (`hume-ir/src/lib.rs`)

A function is a straight line of instructions, each of which defines the value of its number.  The numbers are 32 bits wide, and
so is the number of an instruction that the verifier compares with: behind the first 2³² instructions the numbers begin again.
What `f64` does is left open, as functions of the bits.
-/
namespace Heraclitus
namespace Ir

open Straightline

/-! ## The model -/

abbrev ValueId := UInt32

inductive Ty where
  | i64
  | f64
  | bool
  deriving DecidableEq

/-- A literal; an `f64` by its bits. -/
inductive Const where
  | i64 (v : Int64)
  | f64 (v : UInt64)
  | bool (v : Bool)
  deriving DecidableEq

inductive Op where
  | const (c : Const)
  | column (idx : Nat) (ty : Ty)
  | add (a b : ValueId)
  | sub (a b : ValueId)
  | mul (a b : ValueId)
  | cmpGt (a b : ValueId)
  | cmpLt (a b : ValueId)
  | cmpEq (a b : ValueId)
  | and (a b : ValueId)
  | or (a b : ValueId)
  | not (a : ValueId)
  deriving DecidableEq

structure Inst where
  result : ValueId
  op : Op
  deriving DecidableEq

structure Function where
  nColumns : Nat
  insts : List Inst
  ret : ValueId
  deriving DecidableEq

inductive IrError where
  | badNumbering (index : Nat) (result : ValueId)
  | useBeforeDef (pos used : ValueId)
  | typeMismatch (pos : ValueId) (detail : String)
  | columnOob (pos : ValueId) (idx nColumns : Nat)
  | retOob (ret : ValueId) (nValues : Nat)
  deriving DecidableEq

inductive Val where
  | i64 (v : Int64)
  | f64 (v : UInt64)
  | bool (v : Bool)
  deriving DecidableEq

def Const.ty : Const → Ty
  | .i64 _ => .i64
  | .f64 _ => .f64
  | .bool _ => .bool

def Const.toVal : Const → Val
  | .i64 v => .i64 v
  | .f64 v => .f64 v
  | .bool v => .bool v

def Val.asBool : Val → Bool
  | .bool b => b
  | _ => false

/-! ## The verifier -/

/-- An operand is defined before. -/
def operandTy (types : List Ty) (i v : ValueId) : Except IrError Ty :=
  if i ≤ v then .error (.useBeforeDef i v) else .ok (types.getD v.toNat .bool)

/-- The type of an instruction with two operands, if `ok` holds of theirs. -/
def binaryTy (types : List Ty) (i a b : ValueId) (ok : Ty → Ty → Bool) (result : Ty → Ty) (detail : String) :
    Except IrError Ty := do
  let ta ← operandTy types i a
  let tb ← operandTy types i b
  if ok ta tb then pure (result ta) else throw (.typeMismatch i detail)

def sameNumeric (ta tb : Ty) : Bool := decide (ta = tb) && decide (ta ≠ .bool)

def bothBool (ta tb : Ty) : Bool := decide (ta = .bool) && decide (tb = .bool)

def arithTy (types : List Ty) (i a b : ValueId) : Except IrError Ty :=
  binaryTy types i a b sameNumeric id "aritmética exige numéricos do mesmo tipo"

def compareTy (types : List Ty) (i a b : ValueId) : Except IrError Ty :=
  binaryTy types i a b sameNumeric (fun _ => .bool) "comparação exige numéricos do mesmo tipo"

def logicTy (types : List Ty) (i a b : ValueId) : Except IrError Ty :=
  binaryTy types i a b bothBool (fun _ => .bool) "lógica exige Bool"

def opTy (nColumns : Nat) (types : List Ty) (i : ValueId) : Op → Except IrError Ty
  | .const c => .ok c.ty
  | .column idx ty => if nColumns ≤ idx then .error (.columnOob i idx nColumns) else .ok ty
  | .add a b => arithTy types i a b
  | .sub a b => arithTy types i a b
  | .mul a b => arithTy types i a b
  | .cmpGt a b => compareTy types i a b
  | .cmpLt a b => compareTy types i a b
  | .cmpEq a b => compareTy types i a b
  | .and a b => logicTy types i a b
  | .or a b => logicTy types i a b
  | .not a => do
    let ta ← operandTy types i a
    if ta ≠ .bool then throw (.typeMismatch i "Not exige Bool") else pure .bool

/-- The loop of `verify`, with the types so far. -/
def verifyFrom (nColumns : Nat) : List Ty → List Inst → Except IrError (List Ty)
  | types, [] => .ok types
  | types, inst :: rest =>
    let i := UInt32.ofNat types.length
    if inst.result ≠ i then .error (.badNumbering i.toNat inst.result)
    else match opTy nColumns types i inst.op with
      | .error e => .error e
      | .ok ty => verifyFrom nColumns (types ++ [ty]) rest

def verify (f : Function) : Except IrError (List Ty) :=
  match verifyFrom f.nColumns [] f.insts with
  | .error e => .error e
  | .ok types => if types.length ≤ f.ret.toNat then .error (.retOob f.ret types.length) else .ok types

/-! ## The interpreter -/

/-- What `f64` computes and compares, on the bits. -/
structure F64Ops where
  add : UInt64 → UInt64 → UInt64
  sub : UInt64 → UInt64 → UInt64
  mul : UInt64 → UInt64 → UInt64
  gt : UInt64 → UInt64 → Bool
  lt : UInt64 → UInt64 → Bool
  eq : UInt64 → UInt64 → Bool

inductive ColumnData where
  | i64 (s : List Int64)
  | f64 (s : List UInt64)

def ColumnData.length : ColumnData → Nat
  | .i64 s => s.length
  | .f64 s => s.length

/-- `get`; nothing where the slice panics. -/
def ColumnData.get (row : Nat) : ColumnData → Option Val
  | .i64 s => s[row]?.map .i64
  | .f64 s => s[row]?.map .f64

def arith (fi : Int64 → Int64 → Int64) (ff : UInt64 → UInt64 → UInt64) : Val → Val → Val
  | .i64 x, .i64 y => .i64 (fi x y)
  | .f64 x, .f64 y => .f64 (ff x y)
  | _, _ => .bool false

def compare (fi : Int64 → Int64 → Bool) (ff : UInt64 → UInt64 → Bool) : Val → Val → Val
  | .i64 x, .i64 y => .bool (fi x y)
  | .f64 x, .f64 y => .bool (ff x y)
  | _, _ => .bool false

/-- Two values of the environment. -/
def both {α : Type} (env : Nat → Option Val) (a b : ValueId) (f : Val → Val → α) : Option α :=
  (env a.toNat).bind (fun x => (env b.toNat).map (f x))

variable (F : F64Ops)

/-- The value of an instruction in a row; nothing where an index panics. -/
def evalOp (cols : List ColumnData) (row : Nat) (env : Nat → Option Val) : Op → Option Val
  | .const c => some c.toVal
  | .column idx _ => cols[idx]?.bind (ColumnData.get row)
  | .add a b => both env a b (arith (fun x y => x + y) F.add)
  | .sub a b => both env a b (arith (fun x y => x - y) F.sub)
  | .mul a b => both env a b (arith (fun x y => x * y) F.mul)
  | .cmpGt a b => both env a b (compare (fun x y => decide (y < x)) F.gt)
  | .cmpLt a b => both env a b (compare (fun x y => decide (x < y)) F.lt)
  | .cmpEq a b => both env a b (compare (fun x y => decide (x = y)) F.eq)
  | .and a b => both env a b (fun x y => .bool (x.asBool && y.asBool))
  | .or a b => both env a b (fun x y => .bool (x.asBool || y.asBool))
  | .not a => (env a.toNat).map (fun x => .bool (!x.asBool))

/-- One row; the environment keeps what the row before left in it. -/
def interpretRow (cols : List ColumnData) (row : Nat) : List Inst → List Val → Option (List Val)
  | [], env => some env
  | inst :: rest, env =>
    (evalOp F cols row (fun a => env[a]?) inst.op).bind (fun v =>
      if inst.result.toNat < env.length then interpretRow cols row rest (env.set inst.result.toNat v) else none)

/-- The rows from `row` on. -/
def interpretRows (f : Function) (cols : List ColumnData) : Nat → Nat → List Val → Option (List Val)
  | _, 0, _ => some []
  | row, n + 1, env =>
    (interpretRow F cols row f.insts env).bind (fun env =>
      env[f.ret.toNat]?.bind (fun v => (interpretRows f cols (row + 1) n env).map (v :: ·)))

/-- `interpret`; `ok none` is a panic. -/
def interpret (f : Function) (cols : List ColumnData) (n : Nat) : Except IrError (Option (List Val)) :=
  match verify f with
  | .error e => .error e
  | .ok _ => .ok (interpretRows F f cols 0 n (List.replicate f.insts.length (.bool false)))

/-! ## Lines -/

/-- The operands of an operation. -/
def operands : Op → List ValueId
  | .const _ => []
  | .column _ _ => []
  | .not a => [a]
  | .add a b => [a, b]
  | .sub a b => [a, b]
  | .mul a b => [a, b]
  | .cmpGt a b => [a, b]
  | .cmpLt a b => [a, b]
  | .cmpEq a b => [a, b]
  | .and a b => [a, b]
  | .or a b => [a, b]

/-- The lines that an operation reads. -/
def linesRead (op : Op) : List Nat := (operands op).map UInt32.toNat

def Function.ops (f : Function) : List Op := f.insts.map Inst.op

/-- Operations in the order of their numbers. -/
def numbered (ops : List Op) : List Inst := ops.mapIdx (fun k op => { result := UInt32.ofNat k, op := op })

/-- The type of a line, if the verifier gives it one. -/
def typeOp (nColumns : Nat) (env : Nat → Option Ty) : Op → Option Ty
  | .const c => some c.ty
  | .column idx ty => if nColumns ≤ idx then none else some ty
  | .not a => (env a.toNat).bind (fun ta => if ta ≠ .bool then none else some .bool)
  | .add a b => binary env a b sameNumeric id
  | .sub a b => binary env a b sameNumeric id
  | .mul a b => binary env a b sameNumeric id
  | .cmpGt a b => binary env a b sameNumeric (fun _ => .bool)
  | .cmpLt a b => binary env a b sameNumeric (fun _ => .bool)
  | .cmpEq a b => binary env a b sameNumeric (fun _ => .bool)
  | .and a b => binary env a b bothBool (fun _ => .bool)
  | .or a b => binary env a b bothBool (fun _ => .bool)
where
  binary (env : Nat → Option Ty) (a b : ValueId) (ok : Ty → Ty → Bool) (result : Ty → Ty) : Option Ty :=
    (env a.toNat).bind (fun ta => (env b.toNat).bind (fun tb => if ok ta tb then some (result ta) else none))

theorem typeOp_reads (nColumns : Nat) (env env' : Nat → Option Ty) (op : Op) (h : ∀ a ∈ linesRead op, env a = env' a) :
    typeOp nColumns env op = typeOp nColumns env' op := by
  cases op with
  | const c => rfl
  | column idx ty => rfl
  | not a => rw [typeOp, typeOp, h a.toNat List.mem_cons_self]
  | add a b | sub a b | mul a b | cmpGt a b | cmpLt a b | cmpEq a b | and a b | or a b =>
    rw [typeOp, typeOp, typeOp.binary, typeOp.binary, h a.toNat List.mem_cons_self,
      h b.toNat (List.mem_cons_of_mem _ List.mem_cons_self)]

theorem evalOp_reads (cols : List ColumnData) (row : Nat) (env env' : Nat → Option Val) (op : Op)
    (h : ∀ a ∈ linesRead op, env a = env' a) : evalOp F cols row env op = evalOp F cols row env' op := by
  cases op with
  | const c => rfl
  | column idx ty => rfl
  | not a => rw [evalOp, evalOp, h a.toNat List.mem_cons_self]
  | add a b | sub a b | mul a b | cmpGt a b | cmpLt a b | cmpEq a b | and a b | or a b =>
    rw [evalOp, evalOp, both, both, h a.toNat List.mem_cons_self, h b.toNat (List.mem_cons_of_mem _ List.mem_cons_self)]

/-- The types of the lines. -/
def typing (nColumns : Nat) : Semantics linesRead Ty := ⟨typeOp nColumns, typeOp_reads nColumns⟩

/-- The values of the lines in a row. -/
def evaluation (cols : List ColumnData) (row : Nat) : Semantics linesRead Val := ⟨evalOp F cols row, evalOp_reads F cols row⟩

/-! ## What the verifier accepts -/

/-- Instructions in order of their numbers, each of which reads what is defined before it, and their types. -/
structure Verified (f : Function) (types : List Ty) : Prop where
  insts : f.insts = numbered f.ops
  defined : ∀ (k : Nat) (op : Op), f.ops[k]? = some op → ∀ a ∈ operands op, a < UInt32.ofNat k
  typed : Solves (typing f.nColumns) f.ops types
  ret : f.ret.toNat < f.insts.length

theorem toNat_lt_of_lt_ofNat {a : UInt32} {k : Nat} (h : a < UInt32.ofNat k) : a.toNat < k := by
  have hlt := UInt32.lt_iff_toNat_lt.1 h
  rw [UInt32.toNat_ofNat'] at hlt
  exact Nat.lt_of_lt_of_le hlt (Nat.mod_le k _)

theorem operandTy_eq_ok {types : List Ty} {i v : ValueId} {t : Ty} (hi : i.toNat ≤ types.length) :
    operandTy types i v = .ok t ↔ v < i ∧ types[v.toNat]? = some t := by
  unfold operandTy
  by_cases hle : i ≤ v
  · rw [if_pos hle]
    exact iff_of_false (fun h => nomatch h) (fun h => absurd h.1 (UInt32.not_lt.2 hle))
  · have hlt := UInt32.not_le.1 hle
    have hnat := UInt32.lt_iff_toNat_lt.1 hlt
    rw [if_neg hle, List.getD_eq_getElem?_getD, List.getElem?_eq_getElem (by omega), Option.getD_some]
    exact ⟨fun h => ⟨hlt, congrArg some (Except.ok.inj h)⟩, fun h => congrArg Except.ok (Option.some.inj h.2)⟩

theorem binaryTy_eq_ok {types : List Ty} {i a b : ValueId} {ok : Ty → Ty → Bool} {result : Ty → Ty} {detail : String} {ty : Ty}
    (hi : i.toNat ≤ types.length) : binaryTy types i a b ok result detail = .ok ty ↔
      (∀ v ∈ [a, b], v < i) ∧ typeOp.binary (fun k => types[k]?) a b ok result = some ty := by
  have hpair : (∀ v ∈ [a, b], v < i) ↔ a < i ∧ b < i := by
    rw [List.forall_mem_cons, List.forall_mem_singleton]
  rw [hpair]
  constructor
  · intro h
    obtain ⟨ta, hta, h⟩ := ok_of_bind h
    obtain ⟨tb, htb, h⟩ := ok_of_bind h
    obtain ⟨ha, hta⟩ := (operandTy_eq_ok hi).1 hta
    obtain ⟨hb, htb⟩ := (operandTy_eq_ok hi).1 htb
    refine ⟨⟨ha, hb⟩, ?_⟩
    rw [typeOp.binary, hta, Option.bind_some, htb, Option.bind_some]
    split at h
    · rename_i hok
      rw [if_pos hok, Except.ok.inj h]
    · cases h
  · rintro ⟨⟨ha, hb⟩, h⟩
    obtain ⟨ta, hta, h⟩ := Option.bind_eq_some_iff.1 h
    obtain ⟨tb, htb, h⟩ := Option.bind_eq_some_iff.1 h
    split at h
    · rename_i hok
      unfold binaryTy
      rw [(operandTy_eq_ok hi).2 ⟨ha, hta⟩, (operandTy_eq_ok hi).2 ⟨hb, htb⟩]
      show (if ok ta tb = true then pure (result ta) else throw _) = Except.ok ty
      rw [if_pos hok, ← Option.some.inj h]
      rfl
    · cases h

/-- **What is asked of an instruction**: its operands are defined, and it has a type. -/
theorem opTy_eq_ok {nColumns : Nat} {types : List Ty} {i : ValueId} {op : Op} {ty : Ty} (hi : i.toNat ≤ types.length) :
    opTy nColumns types i op = .ok ty ↔
      (∀ v ∈ operands op, v < i) ∧ typeOp nColumns (fun k => types[k]?) op = some ty := by
  cases op with
  | const c =>
    exact ⟨fun h => ⟨fun v hv => absurd hv List.not_mem_nil, congrArg some (Except.ok.inj h)⟩,
      fun h => congrArg Except.ok (Option.some.inj h.2)⟩
  | column idx t =>
    show (if nColumns ≤ idx then Except.error _ else Except.ok t) = Except.ok ty ↔
      _ ∧ (if nColumns ≤ idx then none else some t) = some ty
    by_cases hidx : nColumns ≤ idx
    · rw [if_pos hidx, if_pos hidx]
      exact iff_of_false (fun h => nomatch h) (fun h => nomatch h.2)
    · rw [if_neg hidx, if_neg hidx]
      exact ⟨fun h => ⟨fun v hv => absurd hv List.not_mem_nil, congrArg some (Except.ok.inj h)⟩,
        fun h => congrArg Except.ok (Option.some.inj h.2)⟩
  | not a =>
    have hone : (∀ v ∈ operands (.not a), v < i) ↔ a < i := List.forall_mem_singleton
    rw [hone]
    constructor
    · intro h
      obtain ⟨ta, hta, h⟩ := ok_of_bind h
      obtain ⟨ha, hta⟩ := (operandTy_eq_ok hi).1 hta
      refine ⟨ha, ?_⟩
      rw [typeOp, hta, Option.bind_some]
      split at h
      · cases h
      · rename_i hbool
        rw [if_neg hbool, ← Except.ok.inj h]
    · rintro ⟨ha, h⟩
      obtain ⟨ta, hta, h⟩ := Option.bind_eq_some_iff.1 h
      split at h
      · cases h
      · rename_i hbool
        rw [opTy, (operandTy_eq_ok hi).2 ⟨ha, hta⟩]
        show (if ta ≠ .bool then throw _ else pure Ty.bool) = Except.ok ty
        rw [if_neg hbool, ← Option.some.inj h]
        rfl
  | add a b | sub a b | mul a b | cmpGt a b | cmpLt a b | cmpEq a b | and a b | or a b => exact binaryTy_eq_ok hi

theorem getElem?_numbered {ops : List Op} {k : Nat} :
    (numbered ops)[k]? = ops[k]?.map (fun op => { result := UInt32.ofNat k, op := op }) := List.getElem?_mapIdx

theorem length_numbered (ops : List Op) : (numbered ops).length = ops.length := List.length_mapIdx

theorem map_op_numbered (ops : List Op) : (numbered ops).map Inst.op = ops := by
  refine List.ext_getElem? (fun k => ?_)
  rw [List.getElem?_map, getElem?_numbered, Option.map_map]
  exact congrFun Option.map_id _

theorem getElem?_ops {f : Function} {k : Nat} : f.ops[k]? = f.insts[k]?.map Inst.op := List.getElem?_map

/-- **What the loop of the verifier accepts**, behind the lines that have the types so far. -/
theorem verifyFrom_eq_ok {nColumns : Nat} : ∀ {rest : List Inst} {types types' : List Ty},
    verifyFrom nColumns types rest = .ok types' ↔ types <+: types' ∧ types'.length = types.length + rest.length ∧
      ∀ (j : Nat) (inst : Inst), rest[j]? = some inst → inst.result = UInt32.ofNat (types.length + j) ∧
        (∀ v ∈ operands inst.op, v < UInt32.ofNat (types.length + j)) ∧
          typeOp nColumns (fun a => types'[a]?) inst.op = types'[types.length + j]?
  | [], types, types' => by
    rw [verifyFrom]
    constructor
    · intro h
      cases h
      exact ⟨List.prefix_rfl, rfl, fun j inst h => nomatch h⟩
    · rintro ⟨hpre, hlength, -⟩
      rw [hpre.eq_of_length hlength.symm]
  | inst :: rest, types, types' => by
    have hi : (UInt32.ofNat types.length).toNat ≤ types.length := by
      rw [UInt32.toNat_ofNat']
      exact Nat.mod_le _ _
    -- the operands of the first instruction have their types already
    have hsame : ∀ {ty : Ty}, types ++ [ty] <+: types' → (∀ v ∈ operands inst.op, v < UInt32.ofNat types.length) →
        typeOp nColumns (fun a => types'[a]?) inst.op = typeOp nColumns (fun a => types[a]?) inst.op := by
      intro ty hpre hdefined
      refine typeOp_reads _ _ _ _ (fun a ha => ?_)
      obtain ⟨v, hv, rfl⟩ := List.mem_map.1 ha
      have hlt := toNat_lt_of_lt_ofNat (hdefined v hv)
      obtain ⟨more, rfl⟩ := hpre
      rw [List.append_assoc, List.getElem?_append_left hlt]
    have hnext : ∀ {ty : Ty}, types ++ [ty] <+: types' → types'[types.length]? = some ty := by
      rintro ty ⟨more, rfl⟩
      rw [List.append_assoc, List.getElem?_append_right (Nat.le_refl _), Nat.sub_self]
      rfl
    rw [verifyFrom]
    constructor
    · intro h
      split at h
      · cases h
      · rename_i hresult
        split at h
        · cases h
        · rename_i ty hty
          obtain ⟨hpre, hlength, hrest⟩ := verifyFrom_eq_ok.1 h
          obtain ⟨hdefined, htype⟩ := (opTy_eq_ok hi).1 hty
          rw [List.length_append, List.length_singleton] at hlength hrest
          refine ⟨(List.prefix_append _ _).trans hpre, by rw [hlength, List.length_cons]; omega, fun j inst' hinst' => ?_⟩
          cases j with
          | zero =>
            cases hinst'
            exact ⟨not_not.1 hresult, hdefined, by rw [hsame hpre hdefined, htype, Nat.add_zero, hnext hpre]⟩
          | succ j =>
            rw [show types.length + (j + 1) = types.length + 1 + j by omega]
            exact hrest j inst' hinst'
    · rintro ⟨hpre, hlength, hall⟩
      obtain ⟨hresult, hdefined, htype⟩ := hall 0 inst rfl
      rw [Nat.add_zero] at hresult hdefined htype
      have hlt : types.length < types'.length := by
        rw [hlength, List.length_cons]
        omega
      have hpre' : types ++ [types'[types.length]] <+: types' := by
        obtain ⟨more, rfl⟩ := hpre
        cases more with
        | nil => rw [List.append_nil] at hlt; exact absurd hlt (Nat.lt_irrefl _)
        | cons ty more =>
          refine ⟨more, ?_⟩
          rw [List.getElem_append_right (Nat.le_refl _), List.append_assoc]
          simp only [Nat.sub_self, List.getElem_cons_zero]
          rfl
      rw [if_neg (not_not.2 hresult), (opTy_eq_ok hi).2 ⟨hdefined, by
        rw [← hsame hpre' hdefined, htype, List.getElem?_eq_getElem hlt]⟩]
      refine verifyFrom_eq_ok.2 ⟨hpre', by
        rw [hlength, List.length_append, List.length_cons, List.length_singleton]
        omega, fun j inst' hinst' => ?_⟩
      have := hall (j + 1) inst' hinst'
      rw [show types.length + (j + 1) = types.length + 1 + j by omega] at this
      rw [List.length_append, List.length_singleton]
      exact this

/-- **What the verifier accepts.** -/
theorem verify_eq_ok {f : Function} {types : List Ty} : verify f = .ok types ↔ Verified f types := by
  have hloop : verifyFrom f.nColumns [] f.insts = .ok types ↔ f.insts = numbered f.ops ∧
      (∀ (k : Nat) (op : Op), f.ops[k]? = some op → ∀ a ∈ operands op, a < UInt32.ofNat k) ∧
        Solves (typing f.nColumns) f.ops types := by
    rw [verifyFrom_eq_ok]
    constructor
    · rintro ⟨-, hlength, hall⟩
      rw [List.length_nil, Nat.zero_add] at hlength
      simp only [List.length_nil, Nat.zero_add] at hall
      refine ⟨List.ext_getElem? (fun k => ?_), fun k op hop => ?_, hlength.trans (List.length_map _).symm, fun k op hop => ?_⟩
      · rw [getElem?_numbered, getElem?_ops, Option.map_map]
        cases hinst : f.insts[k]? with
        | none => rfl
        | some inst => exact congrArg some (congrArg (fun r => Inst.mk r inst.op) (hall k inst hinst).1)
      · rw [getElem?_ops] at hop
        obtain ⟨inst, hinst, rfl⟩ := Option.map_eq_some_iff.1 hop
        exact (hall k inst hinst).2.1
      · rw [getElem?_ops] at hop
        obtain ⟨inst, hinst, rfl⟩ := Option.map_eq_some_iff.1 hop
        exact (hall k inst hinst).2.2
    · rintro ⟨hinsts, hdefined, hlength, hsolves⟩
      refine ⟨List.nil_prefix, ?_, fun j inst hinst => ?_⟩
      · rw [hlength, List.length_nil, Nat.zero_add]
        exact List.length_map _
      · have hop : f.ops[j]? = some inst.op := by rw [getElem?_ops, hinst, Option.map_some]
        rw [hinsts, getElem?_numbered, hop, Option.map_some] at hinst
        rw [List.length_nil, Nat.zero_add]
        exact ⟨(congrArg Inst.result (Option.some.inj hinst)).symm, hdefined j inst.op hop, hsolves j inst.op hop⟩
  have hlength : ∀ {types'}, verifyFrom f.nColumns [] f.insts = .ok types' → types'.length = f.insts.length := fun h => by
    rw [(verifyFrom_eq_ok.1 h).2.1, List.length_nil, Nat.zero_add]
  unfold verify
  constructor
  · intro h
    split at h
    · cases h
    · rename_i types' htypes
      split at h
      · cases h
      · rename_i hret
        cases h
        obtain ⟨hinsts, hdefined, hsolves⟩ := hloop.1 htypes
        exact ⟨hinsts, hdefined, hsolves, hlength htypes ▸ Nat.not_le.1 hret⟩
  · rintro ⟨hinsts, hdefined, hsolves, hret⟩
    have htypes := hloop.2 ⟨hinsts, hdefined, hsolves⟩
    rw [htypes]
    exact if_neg (by rw [hlength htypes]; exact Nat.not_le.2 hret)

/-! ## What the interpreter computes -/

theorem interpretRow_append (cols : List ColumnData) (row : Nat) : ∀ (l m : List Inst) (env : List Val),
    interpretRow F cols row (l ++ m) env = (interpretRow F cols row l env).bind (interpretRow F cols row m)
  | [], _, _ => rfl
  | inst :: l, m, env => by
    rw [List.cons_append, interpretRow, interpretRow, Option.bind_assoc]
    refine Option.bind_congr (fun v _ => ?_)
    split
    · exact interpretRow_append cols row l m _
    · rfl

variable {F} {f : Function} {types : List Ty} {cols : List ColumnData} {row : Nat}

def ColumnData.ty : ColumnData → Ty
  | .i64 _ => .i64
  | .f64 _ => .f64

/-- Each column that the function loads is there, has the declared type and `n` rows. -/
def Fits (f : Function) (cols : List ColumnData) (n : Nat) : Prop :=
  ∀ idx ty, .column idx ty ∈ f.ops → ∃ c : ColumnData, cols[idx]? = some c ∧ c.ty = ty ∧ n ≤ c.length

theorem Verified.backward (h : Verified f types) : Backward linesRead f.ops := by
  intro k op hop a ha
  obtain ⟨v, hv, rfl⟩ := List.mem_map.1 ha
  exact toNat_lt_of_lt_ofNat (h.defined k op hop v hv)

theorem ColumnData.isSome_get {c : ColumnData} (h : row < c.length) : (c.get row).isSome = true := by
  cases c with
  | i64 s | f64 s => rw [ColumnData.get, Option.isSome_map, List.getElem?_eq_getElem h, Option.isSome_some]

/-- What reads values that are there has a value. -/
theorem isSome_evalOp {op : Op} {env : Nat → Option Val} (hreads : ∀ a ∈ linesRead op, (env a).isSome = true)
    (hcolumn : ∀ idx ty, op = .column idx ty → (cols[idx]?.bind (ColumnData.get row)).isSome = true) :
    (evalOp F cols row env op).isSome = true := by
  cases op with
  | const c => rfl
  | column idx ty => exact hcolumn idx ty rfl
  | not a => rw [evalOp, Option.isSome_map, hreads a.toNat List.mem_cons_self]
  | add a b | sub a b | mul a b | cmpGt a b | cmpLt a b | cmpEq a b | and a b | or a b =>
    obtain ⟨x, hx⟩ := Option.isSome_iff_exists.1 (hreads a.toNat List.mem_cons_self)
    obtain ⟨y, hy⟩ := Option.isSome_iff_exists.1 (hreads b.toNat (List.mem_cons_of_mem _ List.mem_cons_self))
    rw [evalOp, both, hx, Option.bind_some, hy, Option.map_some, Option.isSome_some]

/-- **A verified function has a value in every row that its columns have.** -/
theorem Verified.exists_solution (h : Verified f types) {n : Nat} (hfits : Fits f cols n) (hrow : row < n) :
    ∃ vals, Solves (evaluation F cols row) f.ops vals := by
  refine exists_solves h.backward (fun k op hop env hreads => isSome_evalOp hreads (fun idx ty heq => ?_))
  obtain ⟨c, hc, -, hlength⟩ := hfits idx ty (heq ▸ List.mem_of_getElem? hop)
  rw [hc, Option.bind_some]
  exact ColumnData.isSome_get (Nat.lt_of_lt_of_le hrow hlength)

theorem Verified.result_eq (h : Verified f types) {k : Nat} {inst : Inst} (hinst : f.insts[k]? = some inst) :
    inst.result = UInt32.ofNat k := by
  rw [h.insts, getElem?_numbered] at hinst
  obtain ⟨op, -, rfl⟩ := Option.map_eq_some_iff.1 hinst
  rfl

theorem Verified.exists_solutions (h : Verified f types) {n : Nat} (hfits : Fits f cols n) :
    ∃ vals : Nat → List Val, ∀ r < n, Solves (evaluation F cols r) f.ops (vals r) := by
  have hsome : ∀ r, ∃ vals, r < n → Solves (evaluation F cols r) f.ops vals := fun r => by
    by_cases hr : r < n
    · obtain ⟨vals, hvals⟩ := h.exists_solution (F := F) hfits hr
      exact ⟨vals, fun _ => hvals⟩
    · exact ⟨[], fun hlt => absurd hlt hr⟩
  exact Classical.skolem.1 hsome

/-- **One row, up to any of the first 2³² lines**, whatever the row before left behind. -/
theorem Verified.interpretRow_take (h : Verified f types) {vals : List Val} (hsolves : Solves (evaluation F cols row) f.ops vals)
    {env : List Val} (henv : f.insts.length ≤ env.length) : ∀ {k : Nat}, k ≤ f.insts.length → k ≤ 2 ^ 32 →
    interpretRow F cols row (f.insts.take k) env = some (vals.take k ++ env.drop k)
  | 0, _, _ => rfl
  | k + 1, hk, hsmall => by
    have hlength : vals.length = f.insts.length := hsolves.1.trans (List.length_map _)
    have hop : f.ops[k]? = some (f.insts[k].op) := by rw [getElem?_ops, List.getElem?_eq_getElem hk, Option.map_some]
    have hresult : f.insts[k].result.toNat = k := by
      rw [h.result_eq (List.getElem?_eq_getElem hk), UInt32.toNat_ofNat', Nat.mod_eq_of_lt (by omega)]
    have hvalue : evalOp F cols row (fun a => (vals.take k ++ env.drop k)[a]?) f.insts[k].op = some vals[k] := by
      rw [evalOp_reads F cols row _ (fun a => vals[a]?)]
      · exact (hsolves.2 k _ hop).trans (List.getElem?_eq_getElem (by omega))
      · intro a ha
        have hlt := h.backward k _ hop a ha
        rw [List.getElem?_append_left (by rw [List.length_take]; omega), List.getElem?_take_of_lt hlt]
    have hstep : interpretRow F cols row [f.insts[k]] (vals.take k ++ env.drop k) =
        some (vals.take (k + 1) ++ env.drop (k + 1)) := by
      have hroom : k < (vals.take k ++ env.drop k).length := by
        rw [List.length_append, List.length_take, List.length_drop]
        omega
      have hset : (vals.take k ++ env.drop k).set k vals[k] = vals.take (k + 1) ++ env.drop (k + 1) := by
        rw [List.set_append_right _ _ (by rw [List.length_take]; omega), List.length_take, Nat.min_eq_left (by omega),
          Nat.sub_self, List.drop_eq_getElem_cons (by omega), List.set_cons_zero, List.take_succ_eq_append_getElem (by omega),
          List.append_assoc]
        rfl
      rw [interpretRow, hvalue, Option.bind_some, hresult, if_pos hroom, hset, interpretRow]
    rw [List.take_succ_eq_append_getElem (by omega), interpretRow_append,
      Verified.interpretRow_take h hsolves henv (by omega) (by omega), Option.bind_some, hstep]

/-- Lines that have a value whatever the environment holds leave alone the numbers that none of them defines. -/
theorem exists_interpretRow (cols : List ColumnData) (row : Nat) {size : Nat} : ∀ (l : List Inst) (env : List Val),
    env.length = size →
    (∀ inst ∈ l, inst.result.toNat < size ∧
      ∀ env : List Val, env.length = size → (evalOp F cols row (fun a => env[a]?) inst.op).isSome = true) →
    ∃ env', interpretRow F cols row l env = some env' ∧ env'.length = size ∧
      ∀ a, (∀ inst ∈ l, inst.result.toNat ≠ a) → env'[a]? = env[a]?
  | [], env, henv, _ => ⟨env, rfl, henv, fun _ _ => rfl⟩
  | inst :: l, env, henv, h => by
    obtain ⟨hresult, hvalue⟩ := h inst List.mem_cons_self
    obtain ⟨v, hv⟩ := Option.isSome_iff_exists.1 (hvalue env henv)
    obtain ⟨env', hrow, hlength, hkept⟩ := exists_interpretRow cols row l (env.set inst.result.toNat v)
      (by rw [List.length_set, henv]) (fun inst' hinst' => h inst' (List.mem_cons_of_mem _ hinst'))
    refine ⟨env', ?_, hlength, fun a ha => ?_⟩
    · rw [interpretRow, hv, Option.bind_some, if_pos (henv ▸ hresult), hrow]
    · rw [hkept a (fun inst' hinst' => ha inst' (List.mem_cons_of_mem _ hinst')),
        List.getElem?_set_ne (ha inst List.mem_cons_self)]

/-- **A row leaves the returned value**, unless a line behind the first 2³² defines its number again. -/
theorem Verified.interpretRow_ret (h : Verified f types) (hlate : f.insts.length ≤ 2 ^ 32 + f.ret.toNat) {vals : List Val}
    (hsolves : Solves (evaluation F cols row) f.ops vals) {env : List Val} (henv : env.length = f.insts.length) :
    ∃ env', interpretRow F cols row f.insts env = some env' ∧ env'.length = f.insts.length ∧
      env'[f.ret.toNat]? = vals[f.ret.toNat]? := by
  have hlength : vals.length = f.insts.length := hsolves.1.trans (List.length_map _)
  have hret := h.ret
  have hret32 := f.ret.toNat_lt
  obtain ⟨k, hk⟩ : ∃ k, k = min (2 ^ 32) f.insts.length := ⟨_, rfl⟩
  have hfirst := h.interpretRow_take hsolves (Nat.le_of_eq henv.symm) (k := k) (by omega) (by omega)
  obtain ⟨env', hrow, hlength', hkept⟩ := exists_interpretRow (F := F) cols row (f.insts.drop k) (vals.take k ++ env.drop k)
    (show (vals.take k ++ env.drop k).length = f.insts.length by rw [List.length_append, List.length_take, List.length_drop]; omega) (fun inst hinst => by
      obtain ⟨j, hj⟩ := List.mem_iff_getElem?.1 hinst
      rw [List.getElem?_drop] at hj
      have hop : f.ops[k + j]? = some inst.op := by rw [getElem?_ops, hj, Option.map_some]
      have hlt := (List.getElem?_eq_some_iff.1 hj).1
      refine ⟨?_, fun env henv => isSome_evalOp (fun a ha => ?_) (fun idx ty hcolumn => ?_)⟩
      · rw [h.result_eq hj, UInt32.toNat_ofNat']
        exact Nat.lt_of_le_of_lt (Nat.mod_le _ _) hlt
      · have := h.backward (k + j) inst.op hop a ha
        rw [List.getElem?_eq_getElem (by omega), Option.isSome_some]
      · have hvalue := hsolves.2 (k + j) inst.op hop
        rw [List.getElem?_eq_getElem (by omega), hcolumn] at hvalue
        exact Option.isSome_iff_exists.2 ⟨_, hvalue⟩)
  refine ⟨env', ?_, hlength', ?_⟩
  · have hparts := interpretRow_append F cols row (f.insts.take k) (f.insts.drop k) env
    rwa [List.take_append_drop, hfirst, Option.bind_some, hrow] at hparts
  · rw [hkept, List.getElem?_append_left (by rw [List.length_take]; omega), List.getElem?_take_of_lt (by omega)]
    intro inst hinst heq
    obtain ⟨j, hj⟩ := List.mem_iff_getElem?.1 hinst
    rw [List.getElem?_drop] at hj
    have hlt := (List.getElem?_eq_some_iff.1 hj).1
    rw [h.result_eq hj, UInt32.toNat_ofNat'] at heq
    omega

/-- The value that the lines give the function in a row. -/
def returned (f : Function) (vals : List Val) : Val := vals.getD f.ret.toNat (.bool false)

theorem Verified.interpretRows_eq (h : Verified f types) (hlate : f.insts.length ≤ 2 ^ 32 + f.ret.toNat) {vals : Nat → List Val}
    {n : Nat} (hsolves : ∀ r < n, Solves (evaluation F cols r) f.ops (vals r)) : ∀ {m row : Nat} {env : List Val}, row + m ≤ n →
    env.length = f.insts.length →
    interpretRows F f cols row m env = some ((List.range' row m).map (fun r => returned f (vals r)))
  | 0, _, _, _, _ => rfl
  | m + 1, row, env, hrows, henv => by
    have hvals := hsolves row (by omega)
    have hlength : (vals row).length = f.insts.length := hvals.1.trans (List.length_map _)
    have hret : (vals row)[f.ret.toNat]? = some (returned f (vals row)) := by
      rw [returned, List.getD_eq_getElem?_getD, List.getElem?_eq_getElem (hlength ▸ h.ret), Option.getD_some]
    obtain ⟨env', hrow, henv', hvalue⟩ := h.interpretRow_ret hlate hvals henv
    rw [interpretRows, hrow, Option.bind_some, hvalue, hret, Option.bind_some,
      Verified.interpretRows_eq h hlate hsolves (by omega) henv', Option.map_some]
    rfl

/-- **What the interpreter answers**: the values of the rows. -/
theorem Verified.interpret_eq (h : Verified f types) (hlate : f.insts.length ≤ 2 ^ 32 + f.ret.toNat) {vals : Nat → List Val}
    {n : Nat} (hsolves : ∀ r < n, Solves (evaluation F cols r) f.ops (vals r)) :
    interpret F f cols n = .ok (some ((List.range' 0 n).map (fun r => returned f (vals r)))) := by
  rw [interpret, verify_eq_ok.2 h]
  exact congrArg Except.ok (h.interpretRows_eq hlate hsolves (by omega) List.length_replicate)

end Ir
end Heraclitus
