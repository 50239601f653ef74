import Heraclitus.IrPasses
import Mathlib
/-!
# Jit — filters compiled to native code (`hume-ir/src/jit.rs`)

The body of a loop over rows is emitted instruction by instruction as Cranelift code, with a Bool as 0 or 1 in 64 bits; each turn
stores one byte.  Pointers are offsets into the table of columns, a column or the output, so that a load or a store is defined
only where the memory is.  The bytes that are not zero are the rows for which the interpreter answers true.
-/
namespace Heraclitus
namespace Ir

open Straightline

/-! ## The code generator's language -/

/-- What a pointer points into. -/
inductive Block where
  | table
  | column (idx : Nat)
  | out
  deriving DecidableEq

inductive ClifVal where
  | int (v : Int64)
  | float (bits : UInt64)
  | byte (v : UInt8)
  | pointer (block : Block) (offset : Int64)
  deriving DecidableEq

inductive IntCC where
  | signedGreaterThan
  | signedLessThan
  | equal

inductive FloatCC where
  | greaterThan
  | lessThan
  | equal

inductive ClifTy where
  | i64
  | f64

/-- Instructions that define a value, each with the number that follows. -/
inductive Clif where
  | iconst (v : Int64)
  | f64const (bits : UInt64)
  | iadd (x y : Nat)
  | isub (x y : Nat)
  | imul (x y : Nat)
  | fadd (x y : Nat)
  | fsub (x y : Nat)
  | fmul (x y : Nat)
  | icmp (cc : IntCC) (x y : Nat)
  | fcmp (cc : FloatCC) (x y : Nat)
  | uextend (x : Nat)
  | ireduce (x : Nat)
  | band (x y : Nat)
  | bor (x y : Nat)
  | bxor (x y : Nat)
  | load (ty : ClifTy) (addr : Nat)

/-- The element of 8 bytes at an offset. -/
def element (offset : Int64) : Option Nat :=
  if 0 ≤ offset.toInt ∧ offset.toInt % 8 = 0 then some (offset.toInt / 8).toNat else none

/-- 8 bytes of a column as a value of 64 bits. -/
def loadElement : ClifTy → Val → Option ClifVal
  | .i64, .i64 v => some (.int v)
  | .i64, .f64 bits => some (.int bits.toInt64)
  | .f64, .i64 v => some (.float v.toUInt64)
  | .f64, .f64 bits => some (.float bits)
  | _, .bool _ => none

/-- What is loaded through a pointer into the table, the address of a column, or into a column. -/
def load (cols : List ColumnData) (ty : ClifTy) : ClifVal → Option ClifVal
  | .pointer .table offset => (element offset).bind fun idx =>
    match ty with
    | .i64 => cols[idx]?.map (fun _ => .pointer (.column idx) 0)
    | .f64 => none
  | .pointer (.column idx) offset => (element offset).bind fun row =>
    (cols[idx]?.bind (ColumnData.get row)).bind (loadElement ty)
  | _ => none

def onInts (f : Int64 → Int64 → ClifVal) : ClifVal → ClifVal → Option ClifVal
  | .int x, .int y => some (f x y)
  | _, _ => none

def onFloats (f : UInt64 → UInt64 → ClifVal) : ClifVal → ClifVal → Option ClifVal
  | .float x, .float y => some (f x y)
  | _, _ => none

/-- `iadd`, also of a pointer and an offset. -/
def addInts : ClifVal → ClifVal → Option ClifVal
  | .int x, .int y => some (.int (x + y))
  | .pointer b o, .int y => some (.pointer b (o + y))
  | _, _ => none

def extend : ClifVal → Option ClifVal
  | .byte v => some (.int (Int64.ofNat v.toNat))
  | _ => none

def reduce : ClifVal → Option ClifVal
  | .int v => some (.byte v.toUInt64.toUInt8)
  | _ => none

def flag (b : Bool) : ClifVal := .byte (if b then 1 else 0)

def intCompare : IntCC → Int64 → Int64 → Bool
  | .signedGreaterThan, x, y => decide (y < x)
  | .signedLessThan, x, y => decide (x < y)
  | .equal, x, y => decide (x = y)

def floatCompare (G : F64Ops) : FloatCC → UInt64 → UInt64 → Bool
  | .greaterThan => G.gt
  | .lessThan => G.lt
  | .equal => G.eq

/-- The value of an instruction; nothing where it has none. -/
def evalClif (G : F64Ops) (cols : List ColumnData) (env : Nat → Option ClifVal) : Clif → Option ClifVal
  | .iconst v => some (.int v)
  | .f64const bits => some (.float bits)
  | .iadd x y => binary x y addInts
  | .isub x y => binary x y (onInts (fun a b => .int (a - b)))
  | .imul x y => binary x y (onInts (fun a b => .int (a * b)))
  | .fadd x y => binary x y (onFloats (fun a b => .float (G.add a b)))
  | .fsub x y => binary x y (onFloats (fun a b => .float (G.sub a b)))
  | .fmul x y => binary x y (onFloats (fun a b => .float (G.mul a b)))
  | .icmp cc x y => binary x y (onInts (fun a b => flag (intCompare cc a b)))
  | .fcmp cc x y => binary x y (onFloats (fun a b => flag (floatCompare G cc a b)))
  | .uextend x => (env x).bind extend
  | .ireduce x => (env x).bind reduce
  | .band x y => binary x y (onInts (fun a b => .int (a &&& b)))
  | .bor x y => binary x y (onInts (fun a b => .int (a ||| b)))
  | .bxor x y => binary x y (onInts (fun a b => .int (a ^^^ b)))
  | .load ty addr => (env addr).bind (load cols ty)
where
  binary (x y : Nat) (f : ClifVal → ClifVal → Option ClifVal) : Option ClifVal :=
    (env x).bind fun a => (env y).bind fun b => f a b

/-! ## The compiler -/

/-- `{:?}`. -/
def IrError.debug : IrError → String
  | .badNumbering index result =>
    "BadNumbering \x7b index: " ++ toString index ++ ", result: " ++ toString result.toNat ++ " \x7d"
  | .useBeforeDef pos used => "UseBeforeDef \x7b at: " ++ toString pos.toNat ++ ", used: " ++ toString used.toNat ++ " \x7d"
  | .typeMismatch pos detail => "TypeMismatch \x7b at: " ++ toString pos.toNat ++ ", detail: \"" ++ detail ++ "\" \x7d"
  | .columnOob pos idx nColumns =>
    "ColumnOob \x7b at: " ++ toString pos.toNat ++ ", idx: " ++ toString idx ++ ", n_columns: " ++ toString nColumns ++ " \x7d"
  | .retOob ret nValues => "RetOob \x7b ret: " ++ toString ret.toNat ++ ", n_values: " ++ toString nValues ++ " \x7d"

/-- The values that stand before the body's: `n`, `cols`, `out` and the row. -/
def colsVal : Nat := 1
def outVal : Nat := 2
def rowVal : Nat := 3
def firstVal : Nat := 4

def emitArith (ty : Ty) (x y : Nat) (int float : Nat → Nat → Clif) : Clif :=
  match ty with
  | .f64 => float x y
  | _ => int x y

def emitCmp (ty : Ty) (x y next : Nat) (int : IntCC) (float : FloatCC) : List Clif × Nat :=
  ([match ty with
    | .f64 => .fcmp float x y
    | _ => .icmp int x y, .uextend next], next + 1)

/-- `col_ptr = *(cols + idx * 8)`, and `col_ptr + row * 8`. -/
def columnAddr (next idx : Nat) : List Clif :=
  [.iconst (Int64.ofNat idx * 8), .iadd colsVal next, .load .i64 (next + 1),
    .iconst 8, .imul rowVal (next + 3), .iadd (next + 2) (next + 4)]

/-- The code of an instruction and the number of its value, where `next` is the next number. -/
def emitOp (typesOf : List Ty) (vals : List Nat) (next i : Nat) (op : Op) : List Clif × Nat :=
  let val (x : ValueId) := vals.getD x.toNat 0
  let ty (x : Nat) := typesOf.getD x .bool
  match op with
  | .const (.i64 c) => ([.iconst c], next)
  | .const (.f64 c) => ([.f64const c], next)
  | .const (.bool c) => ([.iconst (if c then 1 else 0)], next)
  | .column idx ty =>
    (columnAddr next idx ++ [match ty with
      | .i64 => .load .i64 (next + 5)
      | .f64 => .load .f64 (next + 5)
      | .bool => .iconst 0], next + 6)
  | .add x y => ([emitArith (ty i) (val x) (val y) .iadd .fadd], next)
  | .sub x y => ([emitArith (ty i) (val x) (val y) .isub .fsub], next)
  | .mul x y => ([emitArith (ty i) (val x) (val y) .imul .fmul], next)
  | .cmpGt x y => emitCmp (ty x.toNat) (val x) (val y) next .signedGreaterThan .greaterThan
  | .cmpLt x y => emitCmp (ty x.toNat) (val x) (val y) next .signedLessThan .lessThan
  | .cmpEq x y => emitCmp (ty x.toNat) (val x) (val y) next .equal .equal
  | .and x y => ([.band (val x) (val y)], next)
  | .or x y => ([.bor (val x) (val y)], next)
  | .not x => ([.iconst 1, .bxor (val x) next], next + 1)

/-- The code so far and the numbers of the values. -/
def emitStep (typesOf : List Ty) (s : List Clif × List Nat) (op : Op) : List Clif × List Nat :=
  let r := emitOp typesOf s.2 (firstVal + s.1.length) s.2.length op
  (s.1 ++ r.1, s.2 ++ [r.2])

def emitExpr (f : Function) (typesOf : List Ty) : List Clif × List Nat := f.ops.foldl (emitStep typesOf) ([], [])

/-- The body of the loop: `out[row] = res8` is stored at `addr`, and `next` is the row of the next turn. -/
structure Body where
  code : List Clif
  res8 : Nat
  addr : Nat
  next : Nat

def emitBody (f : Function) (typesOf : List Ty) : Body :=
  let expr := emitExpr f typesOf
  let v := firstVal + expr.1.length
  { code := expr.1 ++ [.ireduce (expr.2.getD f.ret.toNat 0), .iadd outVal rowVal, .iconst 1, .iadd rowVal (v + 2)]
    res8 := v, addr := v + 1, next := v + 3 }

/-- `JitFilter::compile`; `cranelift` is its answer to the code, a panic being no success. -/
def compile (cranelift : Body → Except String Unit) (f : Function) : Except String Body :=
  match verify f with
  | .error e => .error ("IR inválida: " ++ e.debug)
  | .ok typesOf =>
    if typesOf.getD f.ret.toNat .bool ≠ .bool then .error "a função do filtro tem de devolver Bool"
    else (cranelift (emitBody f typesOf)).map (fun _ => emitBody f typesOf)

/-! ## Running -/

/-- The rows whose value is wanted, as 32 bits. -/
def selectRows {α : Type} (wanted : α → Bool) (values : List α) : List UInt32 :=
  values.zipIdx.filterMap fun r => if wanted r.1 then some (UInt32.ofNat r.2) else none

def interpretMask (F : F64Ops) (f : Function) (cols : List ColumnData) (n : Nat) : Except IrError (Option (List UInt32)) :=
  (interpret F f cols n).map (fun vals => vals.map (selectRows Val.asBool))

variable (G : F64Ops) (cols : List ColumnData)

/-- `n`, `cols`, `out` and the row. -/
def firstVals (n row : Int64) : List ClifVal := [.int n, .pointer .table 0, .pointer .out 0, .int row]

/-- What the turn for a row stores, where, and the row of the next turn. -/
def turn (body : Body) (n row : Int64) : Option (UInt8 × Int64 × Int64) :=
  (exec (evalClif G cols) (firstVals n row) body.code).bind fun env =>
    match env[body.res8]?, env[body.addr]?, env[body.next]? with
    | some (.byte x), some (.pointer .out offset), some (.int next) => some (x, offset, next)
    | _, _, _ => none

/-- The turns from a row on, with the turns that are left; nothing if they do not suffice. -/
def loop (body : Body) (n : Int64) : Nat → Int64 → List UInt8 → Option (List UInt8)
  | 0, _, _ => none
  | turns + 1, row, out =>
    if row < n then
      (turn G cols body n row).bind fun r =>
        if 0 ≤ r.2.1.toInt ∧ r.2.1.toInt < out.length then loop body n turns r.2.2 (out.set r.2.1.toInt.toNat r.1) else none
    else some out

def isizeMax : Nat := 2 ^ 63 - 1

/-- `JitFilter::run`; no vector of more than `isize::MAX` bytes is allocated. -/
def Body.run (body : Body) (n : Nat) : Option (List UInt32) :=
  if isizeMax < n then none
  else (loop G cols body (Int64.ofNat n) (n + 1) 0 (List.replicate n 0)).map (selectRows (fun x => x ≠ 0))

theorem getElem?_extended {α : Type} {l m : List α} (h : l <+: m) {k : Nat} {x : α} (hx : l[k]? = some x) : m[k]? = some x := by
  obtain ⟨more, rfl⟩ := h
  rwa [List.getElem?_append_left (List.getElem?_eq_some_iff.1 hx).1]

/-! ## Emitted code computes the values -/

/-- Two readings of `f64`, up to what is no different to a comparison. -/
structure Agrees (F G : F64Ops) (same : UInt64 → UInt64 → Prop) : Prop where
  refl : ∀ x, same x x
  add : ∀ {x x' y y'}, same x x' → same y y' → same (F.add x y) (G.add x' y')
  sub : ∀ {x x' y y'}, same x x' → same y y' → same (F.sub x y) (G.sub x' y')
  mul : ∀ {x x' y y'}, same x x' → same y y' → same (F.mul x y) (G.mul x' y')
  gt : ∀ {x x' y y'}, same x x' → same y y' → F.gt x y = G.gt x' y'
  lt : ∀ {x x' y y'}, same x x' → same y y' → F.lt x y = G.lt x' y'
  eq : ∀ {x x' y y'}, same x x' → same y y' → F.eq x y = G.eq x' y'

/-- What stands for a value of a type; a Bool is 0 or 1. -/
def Rel (same : UInt64 → UInt64 → Prop) : Ty → Val → ClifVal → Prop
  | .i64, .i64 v, .int w => w = v
  | .f64, .f64 x, .float y => same x y
  | .bool, .bool b, .int w => w = if b then 1 else 0
  | _, _, _ => False

variable {F G : F64Ops} {cols : List ColumnData} {same : UInt64 → UInt64 → Prop} {v : Val} {c : ClifVal}

theorem Rel.int (h : Rel same .i64 v c) : ∃ x, v = .i64 x ∧ c = .int x := by
  cases v <;> cases c <;> simp_all [Rel]

theorem Rel.float (h : Rel same .f64 v c) : ∃ x y, v = .f64 x ∧ c = .float y ∧ same x y := by
  cases v <;> cases c <;> simp_all [Rel]

theorem Rel.bool (h : Rel same .bool v c) : ∃ b, v = .bool b ∧ c = .int (if b then 1 else 0) := by
  cases v <;> cases c <;> simp_all [Rel]

section Step

variable {typesOf : List Ty} {values : List Val} {ids : List Nat} {env : List ClifVal} {row nColumns : Nat} {ty : Ty}

/-- The values of the first instructions have their counterparts among those of the code. -/
def Ready (same : UInt64 → UInt64 → Prop) (typesOf : List Ty) (values : List Val) (ids : List Nat) (env : List ClifVal) : Prop :=
  ∀ j < ids.length, ∃ ty v c, typesOf[j]? = some ty ∧ values[j]? = some v ∧ env[ids.getD j 0]? = some c ∧ Rel same ty v c

/-- Code that adds values behind those there are, the one numbered `id` standing for `v`. -/
def Computes (same : UInt64 → UInt64 → Prop) (G : F64Ops) (cols : List ColumnData) (env : List ClifVal) (ty : Ty) (v : Val)
    (r : List Clif × Nat) : Prop :=
  ∃ env' c, exec (evalClif G cols) env r.1 = some env' ∧ env <+: env' ∧ env'[r.2]? = some c ∧ Rel same ty v c

theorem binary_eq {env : Nat → Option ClifVal} {x y : Nat} {p q : ClifVal} (f : ClifVal → ClifVal → Option ClifVal)
    (hp : env x = some p) (hq : env y = some q) : evalClif.binary env x y f = f p q := by
  rw [evalClif.binary, hp, Option.bind_some, hq, Option.bind_some]

theorem computes_one {i : Clif} (hi : evalClif G cols (fun a => env[a]?) i = some c) (hrel : Rel same ty v c) :
    Computes same G cols env ty v ([i], env.length) := by
  refine ⟨env ++ [c], c, ?_, List.prefix_append _ _, List.getElem?_concat_length, hrel⟩
  rw [exec, hi]
  rfl

variable (hready : Ready same typesOf values ids env) {a b : ValueId} (ha : a.toNat < ids.length) (hb : b.toNat < ids.length)

include hready ha hb

theorem arith_computes {fi : Int64 → Int64 → Int64} {ff gf : UInt64 → UInt64 → UInt64} {int float : Nat → Nat → Clif}
    (hint : ∀ (env : Nat → Option ClifVal) (x y : Nat) (a b : Int64), env x = some (.int a) → env y = some (.int b) →
      evalClif G cols env (int x y) = some (.int (fi a b)))
    (hfloat : ∀ (env : Nat → Option ClifVal) (x y : Nat) (a b : UInt64), env x = some (.float a) → env y = some (.float b) →
      evalClif G cols env (float x y) = some (.float (gf a b)))
    (hsame : ∀ {x x' y y'}, same x x' → same y y' → same (ff x y) (gf x' y'))
    (hty : typesOf[ids.length]? = some ty) (htype : typeOp.binary (fun a => typesOf[a]?) a b sameNumeric id = some ty)
    (hval : both (fun a => values[a]?) a b (arith fi ff) = some v) :
    Computes same G cols env ty v
      ([emitArith (typesOf.getD ids.length .bool) (ids.getD a.toNat 0) (ids.getD b.toNat 0) int float], env.length) := by
  obtain ⟨ta, x, cx, hta, hx, hcx, hrx⟩ := hready a.toNat ha
  obtain ⟨tb, y, cy, htb, hy, hcy, hry⟩ := hready b.toNat hb
  rw [typeOp.binary, hta, Option.bind_some, htb, Option.bind_some] at htype
  rw [both, hx, Option.bind_some, hy, Option.map_some, Option.some.injEq] at hval
  rw [List.getD_eq_getElem?_getD, hty, Option.getD_some]
  by_cases hok : sameNumeric ta tb = true
  · rw [if_pos hok, Option.some.injEq, id] at htype
    subst htype
    rw [sameNumeric, Bool.and_eq_true, decide_eq_true_eq, decide_eq_true_eq] at hok
    obtain ⟨rfl, hnum⟩ := hok
    cases ta with
    | bool => exact absurd rfl hnum
    | i64 =>
      obtain ⟨p, rfl, rfl⟩ := hrx.int
      obtain ⟨q, rfl, rfl⟩ := hry.int
      exact computes_one (hint _ _ _ p q hcx hcy) (hval ▸ rfl)
    | f64 =>
      obtain ⟨p, p', rfl, rfl, hp⟩ := hrx.float
      obtain ⟨q, q', rfl, rfl, hq⟩ := hry.float
      exact computes_one (hfloat _ _ _ p' q' hcx hcy) (hval ▸ hsame hp hq)
  · rw [if_neg hok] at htype
    cases htype

theorem compare_computes {fi : Int64 → Int64 → Bool} {ff gf : UInt64 → UInt64 → Bool} {int : IntCC} {float : FloatCC}
    (hint : intCompare int = fi) (hfloat : floatCompare G float = gf)
    (hsame : ∀ {x x' y y'}, same x x' → same y y' → ff x y = gf x' y')
    (htype : typeOp.binary (fun a => typesOf[a]?) a b sameNumeric (fun _ => .bool) = some ty)
    (hval : both (fun a => values[a]?) a b (compare fi ff) = some v) :
    Computes same G cols env ty v
      (emitCmp (typesOf.getD a.toNat .bool) (ids.getD a.toNat 0) (ids.getD b.toNat 0) env.length int float) := by
  obtain ⟨ta, x, cx, hta, hx, hcx, hrx⟩ := hready a.toNat ha
  obtain ⟨tb, y, cy, htb, hy, hcy, hry⟩ := hready b.toNat hb
  rw [typeOp.binary, hta, Option.bind_some, htb, Option.bind_some] at htype
  rw [both, hx, Option.bind_some, hy, Option.map_some, Option.some.injEq] at hval
  rw [List.getD_eq_getElem?_getD, hta, Option.getD_some]
  -- a flag, widened to 64 bits
  have hflag : ∀ {i : Clif} {t : Bool}, evalClif G cols (fun a => env[a]?) i = some (flag t) → v = .bool t → ty = .bool →
      Computes same G cols env ty v ([i, .uextend env.length], env.length + 1) := by
    rintro i t hi rfl rfl
    have hrel : Rel same .bool (.bool t) (.int (if t then 1 else 0)) := rfl
    refine ⟨env ++ [flag t] ++ [.int (if t then 1 else 0)], _, ?_, (List.prefix_append _ _).trans (List.prefix_append _ _), ?_, hrel⟩
    · rw [exec, hi, Option.bind_some, exec, evalClif, List.getElem?_concat_length]
      cases t <;> rfl
    · rw [List.getElem?_append_right (by simp), List.length_append, List.length_singleton, Nat.sub_self]
      rfl
  by_cases hok : sameNumeric ta tb = true
  · rw [if_pos hok, Option.some.injEq] at htype
    rw [sameNumeric, Bool.and_eq_true, decide_eq_true_eq, decide_eq_true_eq] at hok
    obtain ⟨rfl, hnum⟩ := hok
    cases ta with
    | bool => exact absurd rfl hnum
    | i64 =>
      obtain ⟨p, rfl, rfl⟩ := hrx.int
      obtain ⟨q, rfl, rfl⟩ := hry.int
      refine hflag (t := fi p q) ?_ hval.symm htype.symm
      simp only [evalClif, evalClif.binary, hcx, hcy, Option.bind_some, onInts, hint]
    | f64 =>
      obtain ⟨p, p', rfl, rfl, hp⟩ := hrx.float
      obtain ⟨q, q', rfl, rfl, hq⟩ := hry.float
      refine hflag (t := ff p q) ?_ hval.symm htype.symm
      simp only [evalClif, evalClif.binary, hcx, hcy, Option.bind_some, onFloats, hfloat, hsame hp hq]
  · rw [if_neg hok] at htype
    cases htype

theorem logic_computes {f : Bool → Bool → Bool} {g : Int64 → Int64 → Int64} {i : Clif}
    (hi : ∀ p q, env[ids.getD a.toNat 0]? = some (.int p) → env[ids.getD b.toNat 0]? = some (.int q) →
      evalClif G cols (fun a => env[a]?) i = some (.int (g p q)))
    (hg : ∀ p q : Bool, g (if p then 1 else 0) (if q then 1 else 0) = if f p q then 1 else 0)
    (htype : typeOp.binary (fun a => typesOf[a]?) a b bothBool (fun _ => .bool) = some ty)
    (hval : both (fun a => values[a]?) a b (fun x y => .bool (f x.asBool y.asBool)) = some v) :
    Computes same G cols env ty v ([i], env.length) := by
  obtain ⟨ta, x, cx, hta, hx, hcx, hrx⟩ := hready a.toNat ha
  obtain ⟨tb, y, cy, htb, hy, hcy, hry⟩ := hready b.toNat hb
  rw [typeOp.binary, hta, Option.bind_some, htb, Option.bind_some] at htype
  rw [both, hx, Option.bind_some, hy, Option.map_some, Option.some.injEq] at hval
  by_cases hok : bothBool ta tb = true
  · rw [if_pos hok, Option.some.injEq] at htype
    rw [bothBool, Bool.and_eq_true, decide_eq_true_eq, decide_eq_true_eq] at hok
    obtain ⟨rfl, rfl⟩ := hok
    obtain ⟨p, rfl, rfl⟩ := hrx.bool
    obtain ⟨q, rfl, rfl⟩ := hry.bool
    subst htype hval
    exact computes_one (hi _ _ hcx hcy) (hg p q)
  · rw [if_neg hok] at htype
    cases htype

omit hb in
theorem not_computes (htype : typeOp nColumns (fun a => typesOf[a]?) (.not a) = some ty)
    (hval : evalOp F cols row (fun a => values[a]?) (.not a) = some v) :
    Computes same G cols env ty v ([.iconst 1, .bxor (ids.getD a.toNat 0) env.length], env.length + 1) := by
  obtain ⟨ta, x, cx, hta, hx, hcx, hrx⟩ := hready a.toNat ha
  rw [typeOp, hta, Option.bind_some] at htype
  rw [evalOp, hx, Option.map_some, Option.some.injEq] at hval
  by_cases hbool : ta = .bool
  · subst hbool
    rw [if_neg (fun h => h rfl), Option.some.injEq] at htype
    obtain ⟨p, rfl, rfl⟩ := hrx.bool
    subst htype hval
    have hrel : Rel same .bool (.bool !p) (.int ((if p then 1 else 0) ^^^ 1)) := by cases p <;> rfl
    have hlt : ids.getD a.toNat 0 < env.length := (List.getElem?_eq_some_iff.1 hcx).1
    refine ⟨env ++ [.int 1] ++ [.int ((if p then 1 else 0) ^^^ 1)], _, ?_,
      (List.prefix_append _ _).trans (List.prefix_append _ _), ?_, hrel⟩
    · rw [exec, evalClif, Option.bind_some, exec, evalClif, evalClif.binary, List.getElem?_append_left hlt, hcx,
        List.getElem?_concat_length]
      rfl
    · rw [List.getElem?_append_right (by simp), List.length_append, List.length_singleton, Nat.sub_self]
      rfl
  · rw [if_pos hbool] at htype
    cases htype

omit hready ha hb

theorem ofNat_mul_eight (k : Nat) : (0 : Int64) + Int64.ofNat k * 8 = Int64.ofNat (8 * k) := by
  rw [Int64.zero_add, Nat.mul_comm, Int64.ofNat_mul]
  rfl

theorem element_ofNat {k : Nat} (h : 8 * k < 2 ^ 63) : element (0 + Int64.ofNat k * 8) = some k := by
  rw [ofNat_mul_eight, element, Int64.toInt_ofNat_of_lt h, if_pos (by omega)]
  congr 1
  omega

/-- The values of the address. -/
def addrVals (idx row : Nat) : List ClifVal :=
  [.int (Int64.ofNat idx * 8), .pointer .table (0 + Int64.ofNat idx * 8), .pointer (.column idx) 0, .int 8,
    .int (Int64.ofNat row * 8), .pointer (.column idx) (0 + Int64.ofNat row * 8)]

theorem exec_columnAddr {idx : Nat} {d : ColumnData} (hd : cols[idx]? = some d) (hidx : 8 * idx < 2 ^ 63)
    (htable : env[colsVal]? = some (.pointer .table 0)) (hrowVal : env[rowVal]? = some (.int (Int64.ofNat row))) :
    exec (evalClif G cols) env (columnAddr env.length idx) = some (env ++ addrVals idx row) := by
  have hold : ∀ (k : Nat) (l : List ClifVal), k < env.length → (env ++ l)[k]? = env[k]? := fun k l h =>
    List.getElem?_append_left h
  have hnew : ∀ (k : Nat) (l : List ClifVal), (env ++ l)[env.length + k]? = l[k]? := fun k l => by
    rw [List.getElem?_append_right (Nat.le_add_right _ _), Nat.add_sub_cancel_left]
  have hnew₀ : ∀ l : List ClifVal, (env ++ l)[env.length]? = l[0]? := fun l => hnew 0 l
  have hlt₁ := (List.getElem?_eq_some_iff.1 htable).1
  have hlt₂ := (List.getElem?_eq_some_iff.1 hrowVal).1
  simp only [columnAddr, exec, evalClif, evalClif.binary, List.append_assoc, List.cons_append, List.nil_append, Option.bind_some,
    hold _ _ hlt₁, hold _ _ hlt₂, htable, hrowVal, hnew, hnew₀, List.getElem?_cons_zero, List.getElem?_cons_succ, addInts, load,
    element_ofNat hidx, hd, Option.map_some, onInts]
  rfl

/-- **A column's element is loaded through the table.** -/
theorem column_computes {idx : Nat} {d : ColumnData} (hd : cols[idx]? = some d) (hidx : 8 * idx < 2 ^ 63)
    (hrow : 8 * row < 2 ^ 63) (htable : env[colsVal]? = some (.pointer .table 0))
    (hrowVal : env[rowVal]? = some (.int (Int64.ofNat row))) (hsame : ∀ x, same x x)
    (hval : cols[idx]?.bind (ColumnData.get row) = some v) (vals : List Nat) (i : Nat) :
    Computes same G cols env d.ty v (emitOp typesOf vals env.length i (.column idx d.ty)) := by
  have hlast : ∀ ty : ClifTy, evalClif G cols (fun a => (env ++ addrVals idx row)[a]?) (.load ty (env.length + 5))
      = loadElement ty v := fun ty => by
    rw [evalClif, List.getElem?_append_right (Nat.le_add_right _ _), Nat.add_sub_cancel_left]
    show load cols ty (.pointer (.column idx) (0 + Int64.ofNat row * 8)) = _
    rw [load, element_ofNat hrow, Option.bind_some, hval, Option.bind_some]
  have hend : ∀ {ty : ClifTy} {c : ClifVal}, loadElement ty v = some c → Rel same d.ty v c →
      Computes same G cols env d.ty v (columnAddr env.length idx ++ [.load ty (env.length + 5)], env.length + 6) := by
    intro ty c hc hrel
    refine ⟨env ++ addrVals idx row ++ [c], c, ?_, (List.prefix_append _ _).trans (List.prefix_append _ _), ?_, hrel⟩
    · rw [exec_append, exec_columnAddr hd hidx htable hrowVal, Option.bind_some, exec, hlast, hc]
      rfl
    · rw [List.getElem?_append_right (by simp [addrVals]), List.length_append]
      simp [addrVals]
  rw [hd, Option.bind_some] at hval
  cases d with
  | i64 l =>
    obtain ⟨x, -, rfl⟩ := Option.map_eq_some_iff.1 hval
    exact @hend .i64 _ rfl rfl
  | f64 l =>
    obtain ⟨x, -, rfl⟩ := Option.map_eq_some_iff.1 hval
    exact @hend .f64 _ rfl (hsame x)

/-- **The code of an instruction computes its value.** -/
theorem emitOp_computes (hops : Agrees F G same) (hready : Ready same typesOf values ids env)
    (htable : env[colsVal]? = some (.pointer .table 0)) (hrowVal : env[rowVal]? = some (.int (Int64.ofNat row)))
    {op : Op} (hreads : ∀ a ∈ operands op, a.toNat < ids.length) (hty : typesOf[ids.length]? = some ty)
    (htype : typeOp nColumns (fun a => typesOf[a]?) op = some ty)
    (hval : evalOp F cols row (fun a => values[a]?) op = some v)
    (hcolumn : ∀ idx t, op = .column idx t → 8 * idx < 2 ^ 63 ∧ 8 * row < 2 ^ 63 ∧ ∃ d : ColumnData, cols[idx]? = some d ∧ d.ty = t) :
    Computes same G cols env ty v (emitOp typesOf ids env.length ids.length op) := by
  have hpair : ∀ {a b : ValueId}, (∀ x ∈ [a, b], x.toNat < ids.length) → a.toNat < ids.length ∧ b.toNat < ids.length := fun h =>
    ⟨h _ List.mem_cons_self, h _ (List.mem_cons_of_mem _ List.mem_cons_self)⟩
  cases op with
  | const k =>
    rw [typeOp, Option.some.injEq] at htype
    rw [evalOp, Option.some.injEq] at hval
    subst htype hval
    cases k with
    | i64 x => exact computes_one rfl (show Rel same .i64 (.i64 x) (.int x) from rfl)
    | f64 x => exact computes_one rfl (show Rel same .f64 (.f64 x) (.float x) from hops.refl x)
    | bool x => exact computes_one rfl (show Rel same .bool (.bool x) (.int (if x then 1 else 0)) from rfl)
  | column idx t =>
    obtain ⟨hidx, hrow, d, hd, rfl⟩ := hcolumn idx t rfl
    have : d.ty = ty := by
      rw [typeOp] at htype
      by_cases hn : nColumns ≤ idx
      · rw [if_pos hn] at htype
        cases htype
      · rw [if_neg hn] at htype
        exact Option.some.inj htype
    subst this
    exact column_computes hd hidx hrow htable hrowVal hops.refl hval ids ids.length
  | not a => exact not_computes hready (hreads a List.mem_cons_self) htype hval
  | add a b =>
    obtain ⟨ha, hb⟩ := hpair hreads
    exact arith_computes hready ha hb (fun _ _ _ _ _ hp hq => binary_eq _ hp hq) (fun _ _ _ _ _ hp hq => binary_eq _ hp hq)
      hops.add hty htype hval
  | sub a b =>
    obtain ⟨ha, hb⟩ := hpair hreads
    exact arith_computes hready ha hb (fun _ _ _ _ _ hp hq => binary_eq _ hp hq) (fun _ _ _ _ _ hp hq => binary_eq _ hp hq)
      hops.sub hty htype hval
  | mul a b =>
    obtain ⟨ha, hb⟩ := hpair hreads
    exact arith_computes hready ha hb (fun _ _ _ _ _ hp hq => binary_eq _ hp hq) (fun _ _ _ _ _ hp hq => binary_eq _ hp hq)
      hops.mul hty htype hval
  | cmpGt a b =>
    obtain ⟨ha, hb⟩ := hpair hreads
    exact compare_computes hready ha hb rfl rfl hops.gt htype hval
  | cmpLt a b =>
    obtain ⟨ha, hb⟩ := hpair hreads
    exact compare_computes hready ha hb rfl rfl hops.lt htype hval
  | cmpEq a b =>
    obtain ⟨ha, hb⟩ := hpair hreads
    exact compare_computes hready ha hb rfl rfl hops.eq htype hval
  | and a b =>
    obtain ⟨ha, hb⟩ := hpair hreads
    refine logic_computes hready ha hb (f := Bool.and) (g := (· &&& ·)) (fun _ _ hp hq => binary_eq _ hp hq) (fun p q => ?_)
      htype hval
    cases p <;> cases q <;> rfl
  | or a b =>
    obtain ⟨ha, hb⟩ := hpair hreads
    refine logic_computes hready ha hb (f := Bool.or) (g := (· ||| ·)) (fun _ _ hp hq => binary_eq _ hp hq) (fun p q => ?_)
      htype hval
    cases p <;> cases q <;> rfl

end Step

/-! ## The loop over the rows -/

/-- Slices as they can be: a slice takes at most `isize::MAX` bytes. -/
structure Allocated (cols : List ColumnData) : Prop where
  table : 8 * cols.length ≤ isizeMax
  column : ∀ c ∈ cols, 8 * c.length ≤ isizeMax

section Rows

variable {f : Function} {typesOf : List Ty} (hops : Agrees F G same) (h : Verified f typesOf) (halloc : Allocated cols)
  {n row : Nat} (hfits : Fits f cols n) (hrow : row < n) {values : List Val} (hsolves : Solves (evaluation F cols row) f.ops values)

include hops h halloc hfits hrow hsolves

/-- **The code of the first instructions has the counterparts of their values.** -/
theorem emit_ready (m : Int64) : ∀ {k : Nat}, k ≤ f.ops.length →
    ((f.ops.take k).foldl (emitStep typesOf) ([], [])).2.length = k ∧
      ∃ env, exec (evalClif G cols) (firstVals m (Int64.ofNat row)) ((f.ops.take k).foldl (emitStep typesOf) ([], [])).1 = some env ∧
        firstVals m (Int64.ofNat row) <+: env ∧ Ready same typesOf values ((f.ops.take k).foldl (emitStep typesOf) ([], [])).2 env
  | 0, _ => ⟨rfl, _, rfl, List.prefix_refl _, fun j hj => absurd hj (Nat.not_lt_zero j)⟩
  | k + 1, hk => by
    obtain ⟨hlen, env, hexec, hpre, hready⟩ := emit_ready m (Nat.le_of_succ_le hk)
    have hop : f.ops[k]? = some f.ops[k] := List.getElem?_eq_getElem hk
    have htypes : k < typesOf.length := by
      rw [h.typed.1]
      exact hk
    have hvalues : k < values.length := by
      rw [hsolves.1]
      exact hk
    rw [List.take_succ_eq_append_getElem hk, List.foldl_append, List.foldl_cons, List.foldl_nil]
    generalize (f.ops.take k).foldl (emitStep typesOf) ([], []) = s at *
    have henv : env.length = firstVal + s.1.length := exec_length hexec
    have hcomputes : Computes same G cols env typesOf[k] values[k] (emitOp typesOf s.2 env.length s.2.length f.ops[k]) := by
      have hlt := fun a ha => hlen.symm ▸ toNat_lt_of_lt_ofNat (h.defined k _ hop a ha)
      refine emitOp_computes hops hready (getElem?_extended hpre rfl) (getElem?_extended hpre rfl) hlt ?_
        ((h.typed.2 k _ hop).trans (List.getElem?_eq_getElem htypes)) ((hsolves.2 k _ hop).trans (List.getElem?_eq_getElem hvalues))
        (fun idx t heq => ?_)
      · rw [hlen]
        exact List.getElem?_eq_getElem htypes
      · obtain ⟨d, hd, hty, hn⟩ := hfits idx t (heq ▸ List.mem_of_getElem? hop)
        have htable := halloc.table
        have hcolumn := halloc.column d (List.mem_of_getElem? hd)
        have hidx := (List.getElem?_eq_some_iff.1 hd).1
        rw [isizeMax] at htable hcolumn
        exact ⟨by omega, by omega, d, hd, hty⟩
    obtain ⟨env', c, hexec', hpre', hc, hrel⟩ := hcomputes
    rw [henv] at hexec' hc
    refine ⟨?_, env', ?_, hpre.trans hpre', ?_⟩
    · rw [emitStep, List.length_append, hlen]
      rfl
    · rw [emitStep, exec_append, hexec, Option.bind_some, hexec']
    · intro j hj
      rw [emitStep, List.length_append, List.length_singleton] at hj
      rw [emitStep]
      by_cases hold : j < s.2.length
      · obtain ⟨ty, v, c, hty, hv, hc, hrel⟩ := hready j hold
        rw [List.getD_append _ _ _ _ hold]
        exact ⟨ty, v, c, hty, hv, getElem?_extended hpre' hc, hrel⟩
      · obtain rfl : j = s.2.length := by omega
        rw [List.getD_append_right _ _ _ _ (Nat.le_refl _), Nat.sub_self]
        refine ⟨typesOf[k], values[k], c, ?_, ?_, hc, hrel⟩
        · rw [hlen]
          exact List.getElem?_eq_getElem htypes
        · rw [hlen]
          exact List.getElem?_eq_getElem hvalues

/-- **A turn stores whether the row is selected.** -/
theorem turn_eq (hret : typesOf[f.ret.toNat]? = some .bool) (m : Int64) :
    turn G cols (emitBody f typesOf) m (Int64.ofNat row)
      = some (if (returned f values).asBool then 1 else 0, 0 + Int64.ofNat row, Int64.ofNat row + 1) := by
  obtain ⟨hlen, env, hexec, hpre, hready⟩ := emit_ready hops h halloc hfits hrow hsolves m (Nat.le_refl f.ops.length)
  rw [List.take_length] at hlen hexec hready
  have hretlt : f.ret.toNat < f.ops.length := by
    have := h.ret
    rwa [Function.ops, List.length_map]
  obtain ⟨ty, v, c, hty, hv, hc, hrel⟩ := hready f.ret.toNat (by rw [hlen]; exact hretlt)
  obtain rfl : Ty.bool = ty := Option.some.inj (hret.symm.trans hty)
  obtain ⟨b, rfl, rfl⟩ := hrel.bool
  have hreturned : returned f values = .bool b := by rw [returned, List.getD_eq_getElem?_getD, hv, Option.getD_some]
  have henv : env.length = firstVal + (emitExpr f typesOf).1.length := exec_length hexec
  have hout : env[outVal]? = some (.pointer .out 0) := getElem?_extended hpre rfl
  have hrowVal : env[rowVal]? = some (.int (Int64.ofNat row)) := getElem?_extended hpre rfl
  have hlt := (List.getElem?_eq_some_iff.1 hc).1
  have hlt₁ := (List.getElem?_eq_some_iff.1 hout).1
  have hlt₂ := (List.getElem?_eq_some_iff.1 hrowVal).1
  have hold : ∀ (k : Nat) (l : List ClifVal), k < env.length → (env ++ l)[k]? = env[k]? := fun k l h => List.getElem?_append_left h
  have hnew : ∀ (k : Nat) (l : List ClifVal), (env ++ l)[env.length + k]? = l[k]? := fun k l => by
    rw [List.getElem?_append_right (Nat.le_add_right _ _), Nat.add_sub_cancel_left]
  have hnew₀ : ∀ l : List ClifVal, (env ++ l)[env.length]? = l[0]? := fun l => hnew 0 l
  have hreduce : reduce (.int (if b then 1 else 0)) = some (.byte (if b then 1 else 0)) := by cases b <;> rfl
  have hexpr : (f.ops.foldl (emitStep typesOf) ([], [])) = emitExpr f typesOf := rfl
  rw [hexpr] at hexec hc hlt
  have hcode : exec (evalClif G cols) (firstVals m (Int64.ofNat row)) (emitBody f typesOf).code
      = some (env ++ [.byte (if b then 1 else 0), .pointer .out (0 + Int64.ofNat row), .int 1, .int (Int64.ofNat row + 1)]) := by
    rw [emitBody, exec_append, hexec, Option.bind_some, ← henv]
    simp only [exec, evalClif, evalClif.binary, List.append_assoc, List.cons_append, List.nil_append, Option.bind_some,
      hold _ _ hlt₁, hold _ _ hlt₂, hc, hout, hrowVal, hnew, List.getElem?_cons_zero, List.getElem?_cons_succ,
      addInts, hreduce]
  rw [turn, hcode, Option.bind_some, emitBody]
  simp only [← henv, hnew, hnew₀, List.getElem?_cons_zero, List.getElem?_cons_succ, hreturned, Val.asBool]

end Rows

section Agreement

variable {f : Function} {typesOf : List Ty} (hops : Agrees F G same) (h : Verified f typesOf) (halloc : Allocated cols)
  {n : Nat} (hfits : Fits f cols n)

include hops h halloc hfits in
/-- **The loop fills the output with the answers of the rows**, and ends. -/
theorem loop_eq (hret : typesOf[f.ret.toNat]? = some .bool) (hn : n < 2 ^ 63) {vals : Nat → List Val}
    (hsolves : ∀ r < n, Solves (evaluation F cols r) f.ops (vals r)) : ∀ {m row : Nat} {out : List UInt8}, row + m = n →
    out.length = n → loop G cols (emitBody f typesOf) (Int64.ofNat n) (m + 1) (Int64.ofNat row) out
      = some (out.take row ++ (List.range' row m).map (fun r => if (returned f (vals r)).asBool then 1 else 0))
  | 0, row, out, hrow, hout => by
    obtain rfl : row = n := hrow
    rw [loop, if_neg (fun hlt => absurd (Int64.lt_iff_toInt_lt.1 hlt) (Int.lt_irrefl _)), List.take_of_length_le (by omega)]
    simp
  | m + 1, row, out, hrow, hout => by
    have hint : (Int64.ofNat row).toInt = row := Int64.toInt_ofNat_of_lt (by omega)
    have hlt : Int64.ofNat row < Int64.ofNat n := by
      rw [Int64.lt_iff_toInt_lt, hint, Int64.toInt_ofNat_of_lt hn]
      omega
    have hnext : Int64.ofNat row + 1 = Int64.ofNat (row + 1) := (Int64.ofNat_add row 1).symm
    have hroom : 0 ≤ (row : Int) ∧ (row : Int) < out.length := by omega
    rw [loop, if_pos hlt, turn_eq hops h halloc hfits (by omega) (hsolves row (by omega)) hret, Option.bind_some]
    dsimp only
    rw [Int64.zero_add, hint, if_pos hroom, hnext, Int.toNat_natCast,
      loop_eq hret hn hsolves (by omega) (by rw [List.length_set, hout]), List.range'_succ, List.map_cons,
      List.take_succ_eq_append_getElem (by rw [List.length_set]; omega), List.getElem_set_self, List.take_set_of_le (Nat.le_refl row),
      List.append_assoc]
    rfl

theorem selectRows_map {α β : Type} (wanted : β → Bool) (g : α → β) (l : List α) :
    selectRows wanted (l.map g) = selectRows (fun x => wanted (g x)) l := by
  rw [selectRows, selectRows, List.zipIdx_map, List.filterMap_map]
  rfl

/-- There are at least as many instructions of code as of the function. -/
theorem length_le_emit (f : Function) (typesOf : List Ty) : f.insts.length ≤ (emitBody f typesOf).code.length := by
  have hpos : ∀ (vals : List Nat) (next i : Nat) (op : Op), 0 < (emitOp typesOf vals next i op).1.length := by
    intro vals next i op
    cases op with
    | const k => cases k <;> exact Nat.one_pos
    | column _ _ | add _ _ | sub _ _ | mul _ _ | cmpGt _ _ | cmpLt _ _ | cmpEq _ _ | and _ _ | or _ _ | not _ => exact Nat.succ_pos _
  have hfold : ∀ (ops : List Op) (s : List Clif × List Nat), s.1.length + ops.length ≤ (ops.foldl (emitStep typesOf) s).1.length := by
    intro ops
    induction ops with
    | nil => exact fun s => Nat.le_refl _
    | cons op ops ih =>
      intro s
      have := ih (emitStep typesOf s op)
      have := hpos s.2 (firstVal + s.1.length) s.2.length op
      rw [List.foldl_cons, List.length_cons]
      rw [emitStep, List.length_append] at *
      omega
  have := hfold f.ops ([], [])
  rw [Function.ops, List.length_map, List.length_nil, Nat.zero_add] at this
  rw [emitBody, List.length_append]
  exact Nat.le_add_right_of_le this

theorem compile_eq_ok {cranelift : Body → Except String Unit} {body : Body} (h : compile cranelift f = .ok body) :
    ∃ typesOf, Verified f typesOf ∧ typesOf[f.ret.toNat]? = some .bool ∧ body = emitBody f typesOf ∧ cranelift body = .ok () := by
  unfold compile at h
  cases hverify : verify f with
  | error e =>
    rw [hverify] at h
    cases h
  | ok typesOf =>
    rw [hverify] at h
    dsimp only at h
    have hverified := verify_eq_ok.1 hverify
    have hlt : f.ret.toNat < typesOf.length := by
      rw [hverified.typed.1, Function.ops, List.length_map]
      exact hverified.ret
    by_cases hbool : typesOf.getD f.ret.toNat .bool ≠ .bool
    · rw [if_pos hbool] at h
      cases h
    · rw [if_neg hbool] at h
      cases hcode : cranelift (emitBody f typesOf) with
      | error e =>
        rw [hcode] at h
        cases h
      | ok u =>
        rw [hcode] at h
        obtain rfl : emitBody f typesOf = body := Except.ok.inj h
        refine ⟨typesOf, hverified, ?_, rfl, hcode⟩
        rw [List.getD_eq_getElem _ _ hlt, not_not] at hbool
        rw [List.getElem?_eq_getElem hlt, hbool]

include hops halloc hfits in
omit h in
/-- **The compiled filter selects the rows that the interpreter selects**, for every function that compiles: Cranelift takes fewer
than 2³¹ instructions, and what it makes of `f64` may differ where no comparison shows it. -/
theorem jit_agrees {cranelift : Body → Except String Unit} (hlimit : ∀ body, cranelift body = .ok () → body.code.length < 2 ^ 31)
    {body : Body} (hcompile : compile cranelift f = .ok body) (hn : n ≤ isizeMax) :
    ∃ rows, body.run G cols n = some rows ∧ interpretMask F f cols n = .ok (some rows) := by
  obtain ⟨typesOf, h, hret, rfl, hcode⟩ := compile_eq_ok hcompile
  obtain ⟨vals, hsolves⟩ := h.exists_solutions (F := F) hfits
  have hsmall := Nat.lt_of_le_of_lt (length_le_emit f typesOf) (hlimit _ hcode)
  have hn63 : n < 2 ^ 63 := by
    rw [isizeMax] at hn
    omega
  have hloop := loop_eq hops h halloc hfits hret hn63 hsolves (m := n) (Nat.zero_add n) (List.length_replicate (a := 0))
  have hbyte : ∀ r, decide ((if (returned f (vals r)).asBool then 1 else 0 : UInt8) ≠ 0) = (returned f (vals r)).asBool := by
    intro r
    cases (returned f (vals r)).asBool <;> rfl
  refine ⟨selectRows (fun r => (returned f (vals r)).asBool) (List.range' 0 n), ?_, ?_⟩
  · rw [Body.run, if_neg (Nat.not_lt.2 hn)]
    refine (congrArg (Option.map _) hloop).trans ?_
    rw [List.take_zero, List.nil_append, Option.map_some, selectRows_map]
    simp only [hbyte]
  · rw [interpretMask, h.interpret_eq (by omega) hsolves]
    show Except.ok (some _) = _
    rw [selectRows_map]

end Agreement

theorem onBits_agree : Agrees onBits onBits (· = ·) := by
  constructor
  · exact fun _ => rfl
  all_goals
    rintro x _ y _ rfl rfl
    rfl

/-- Rows whose first column is above three. -/
def aboveThree : Function :=
  { nColumns := 1, insts := [⟨0, .column 0 .i64⟩, ⟨1, .const (.i64 3)⟩, ⟨2, .cmpGt 0 1⟩], ret := 2 }

def takesSmall (body : Body) : Except String Unit := if body.code.length < 2 ^ 31 then .ok () else .error "define: code too large"

theorem aboveThree_agrees : (emitBody aboveThree [.i64, .i64, .bool]).run onBits [.i64 [5, 2, 7]] 3 = some [0, 2] ∧
    interpretMask onBits aboveThree [.i64 [5, 2, 7]] 3 = .ok (some [0, 2]) := by
  have hmask : interpretMask onBits aboveThree [.i64 [5, 2, 7]] 3 = .ok (some [0, 2]) := rfl
  have hfits : Fits aboveThree [.i64 [5, 2, 7]] 3 := by
    intro idx ty hop
    have : idx = 0 ∧ ty = .i64 := by simpa [aboveThree, Function.ops] using hop
    obtain ⟨rfl, rfl⟩ := this
    exact ⟨_, rfl, rfl, by decide⟩
  have halloc : Allocated [.i64 [5, 2, 7]] := ⟨by decide, by simp [ColumnData.length, isizeMax]⟩
  obtain ⟨rows, hrun, hrows⟩ := jit_agrees onBits_agree halloc hfits
    (fun body h => Classical.byContradiction fun hbig => by
      rw [takesSmall, if_neg hbig] at h
      cases h)
    (show compile takesSmall aboveThree = .ok _ from rfl) (show 3 ≤ isizeMax by decide)
  rw [hmask, Except.ok.injEq, Option.some.injEq] at hrows
  exact ⟨hrows ▸ hrun, hmask⟩

end Ir
end Heraclitus
