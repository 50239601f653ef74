import Heraclitus.Ir
/-!
# IrPasses — folding constants and dropping dead code (`hume-ir/src/passes.rs`)

Folding replaces what two literals make by a literal; the elimination marks what the returned value depends on, from the last
instruction to the first, and numbers it anew.  The marks reach the first 2³² instructions only.  What stays returns what these
return; the whole function returns the same unless a later instruction defines a number a second time.
-/
namespace Heraclitus
namespace Ir

open Straightline

/-! ## The passes -/

def constTy : Const → Ty
  | .i64 _ => .i64
  | .f64 _ => .f64
  | .bool _ => .bool

variable (F : F64Ops)

def foldBinop (op : Op) (a b : Const) : Option Const :=
  let folded : Option Const := match op, a, b with
    | .add _ _, .i64 x, .i64 y => some (.i64 (x + y))
    | .add _ _, .f64 x, .f64 y => some (.f64 (F.add x y))
    | .sub _ _, .i64 x, .i64 y => some (.i64 (x - y))
    | .sub _ _, .f64 x, .f64 y => some (.f64 (F.sub x y))
    | .mul _ _, .i64 x, .i64 y => some (.i64 (x * y))
    | .mul _ _, .f64 x, .f64 y => some (.f64 (F.mul x y))
    | .cmpGt _ _, .i64 x, .i64 y => some (.bool (decide (y < x)))
    | .cmpGt _ _, .f64 x, .f64 y => some (.bool (F.gt x y))
    | .cmpLt _ _, .i64 x, .i64 y => some (.bool (decide (x < y)))
    | .cmpLt _ _, .f64 x, .f64 y => some (.bool (F.lt x y))
    | .cmpEq _ _, .i64 x, .i64 y => some (.bool (decide (x = y)))
    | .cmpEq _ _, .f64 x, .f64 y => some (.bool (F.eq x y))
    | .and _ _, .bool x, .bool y => some (.bool (x && y))
    | .or _ _, .bool x, .bool y => some (.bool (x || y))
    | _, _, _ => none
  folded.filter (fun _ => decide (constTy a = constTy b))

/-- The literal that an operation is known to make; `known` ends with the line before. -/
def foldOp (known : List (Option Const)) (op : Op) : Option Const :=
  match op with
  | .const c => some c
  | .column _ _ => none
  | .not a =>
    match known.getD a.toNat none with
    | some (.bool x) => some (.bool (!x))
    | _ => none
  | .add a b | .sub a b | .mul a b | .cmpGt a b | .cmpLt a b | .cmpEq a b | .and a b | .or a b =>
    match known.getD a.toNat none, known.getD b.toNat none with
    | some x, some y => foldBinop F op x y
    | _, _ => none

/-- The loop of `constant_fold`. -/
def foldFrom : List (Option Const) → List Inst → List Inst
  | _, [] => []
  | known, inst :: rest =>
    let folded := foldOp F known inst.op
    { result := UInt32.ofNat known.length, op := folded.elim inst.op .const } :: foldFrom (known ++ [folded]) rest

def constantFold (f : Function) : Function := { f with insts := foldFrom F [] f.insts }

def remapOp (op : Op) (remap : List ValueId) : Op :=
  let m (v : ValueId) : ValueId := remap.getD v.toNat 0
  match op with
  | .const c => .const c
  | .column i t => .column i t
  | .not a => .not (m a)
  | .add a b => .add (m a) (m b)
  | .sub a b => .sub (m a) (m b)
  | .mul a b => .mul (m a) (m b)
  | .cmpGt a b => .cmpGt (m a) (m b)
  | .cmpLt a b => .cmpLt (m a) (m b)
  | .cmpEq a b => .cmpEq (m a) (m b)
  | .and a b => .and (m a) (m b)
  | .or a b => .or (m a) (m b)

/-- The marks of the first loop. -/
def liveLines (f : Function) : List Bool :=
  mark linesRead 0 f.ops ((List.replicate f.insts.length false).set f.ret.toNat true)

/-- The new numbers. -/
def remapFrom : ValueId → List Bool → List ValueId
  | _, [] => []
  | next, true :: live => next :: remapFrom (next + 1) live
  | next, false :: live => 0 :: remapFrom next live

def deadCodeElimination (f : Function) : Function :=
  let live := liveLines f
  let remap := remapFrom 0 live
  { nColumns := f.nColumns
    insts := (f.insts.zip (live.zip remap)).filterMap (fun x =>
      if x.2.1 then some { result := x.2.2, op := remapOp x.1.op remap } else none)
    ret := remap.getD f.ret.toNat 0 }

/-- `constant_fold`, then `dead_code_elimination`. -/
def optimize (f : Function) : Function := deadCodeElimination (constantFold F f)

variable {F} {f : Function} {types : List Ty} {V : Type}

/-! ## Folding -/

/-- A meaning of the lines that knows what a literal means, and lets operations of literals be folded. -/
structure Folds (F : F64Ops) (S : Semantics linesRead V) (lit : Const → V) : Prop where
  const : ∀ env c, S.value env (.const c) = some (lit c)
  fold : ∀ env known op c, foldOp F known op = some c →
    (∀ (a : Nat) (k : Const), known.getD a none = some k → env a = some (lit k)) → S.value env op = some (lit c)

/-- What of two literals is folded. -/
theorem exists_of_foldOp {known : List (Option Const)} {op : Op} {c : Const} {a b : ValueId} (hop : operands op = [a, b])
    (h : foldOp F known op = some c) :
    ∃ x y, known.getD a.toNat none = some x ∧ known.getD b.toNat none = some y ∧ foldBinop F op x y = some c := by
  cases op with
  | const c => cases hop
  | column idx ty => cases hop
  | not v => cases hop
  | add a' b' | sub a' b' | mul a' b' | cmpGt a' b' | cmpLt a' b' | cmpEq a' b' | and a' b' | or a' b' =>
    cases hop
    rw [foldOp] at h
    split at h
    · rename_i x y hx hy
      exact ⟨x, y, hx, hy, h⟩
    · cases h

theorem exists_of_foldOp_not {known : List (Option Const)} {a : ValueId} {c : Const} (h : foldOp F known (.not a) = some c) :
    ∃ x, known.getD a.toNat none = some (.bool x) ∧ c = .bool (!x) := by
  rw [foldOp] at h
  split at h
  · rename_i x hx
    cases h
    exact ⟨x, hx, rfl⟩
  · cases h

/-- **Folding computes what the interpreter does.** -/
theorem evalOp_of_foldBinop (cols : List ColumnData) (row : Nat) {env : Nat → Option Val} {op : Op} {a b : ValueId}
    {x y c : Const} (hop : operands op = [a, b]) (ha : env a.toNat = some x.toVal) (hb : env b.toNat = some y.toVal)
    (h : foldBinop F op x y = some c) : evalOp F cols row env op = some c.toVal := by
  obtain ⟨h, -⟩ := Option.filter_eq_some_iff.1 h
  cases op with
  | const c => cases hop
  | column idx ty => cases hop
  | not v => cases hop
  | add a' b' | sub a' b' | mul a' b' | cmpGt a' b' | cmpLt a' b' | cmpEq a' b' | and a' b' | or a' b' =>
    cases hop
    rw [evalOp, both, ha, Option.bind_some, hb, Option.map_some]
    cases x <;> cases y <;> cases h <;> rfl

/-- **A folded literal has the type of the operation.** -/
theorem typeOp_of_foldBinop (nColumns : Nat) {env : Nat → Option Ty} {op : Op} {a b : ValueId} {x y c : Const}
    (hop : operands op = [a, b]) (ha : env a.toNat = some x.ty) (hb : env b.toNat = some y.ty)
    (h : foldBinop F op x y = some c) : typeOp nColumns env op = some c.ty := by
  obtain ⟨h, -⟩ := Option.filter_eq_some_iff.1 h
  cases op with
  | const c => cases hop
  | column idx ty => cases hop
  | not v => cases hop
  | add a' b' | sub a' b' | mul a' b' | cmpGt a' b' | cmpLt a' b' | cmpEq a' b' | and a' b' | or a' b' =>
    cases hop
    rw [typeOp, typeOp.binary, ha, Option.bind_some, hb, Option.bind_some]
    cases x <;> cases y <;> cases h <;> rfl

theorem folds_evaluation (cols : List ColumnData) (row : Nat) : Folds F (evaluation F cols row) Const.toVal where
  const _ _ := rfl
  fold env known op c h hknown := by
    cases op with
    | const c' =>
      cases h
      rfl
    | column idx ty => cases h
    | not a =>
      obtain ⟨x, hx, rfl⟩ := exists_of_foldOp_not h
      show (env a.toNat).map _ = _
      rw [hknown _ _ hx]
      rfl
    | add a b | sub a b | mul a b | cmpGt a b | cmpLt a b | cmpEq a b | and a b | or a b =>
      obtain ⟨x, y, hx, hy, h⟩ := exists_of_foldOp rfl h
      exact evalOp_of_foldBinop cols row rfl (hknown _ _ hx) (hknown _ _ hy) h

theorem folds_typing (nColumns : Nat) : Folds F (typing nColumns) Const.ty where
  const _ _ := rfl
  fold env known op c h hknown := by
    cases op with
    | const c' =>
      cases h
      rfl
    | column idx ty => cases h
    | not a =>
      obtain ⟨x, hx, rfl⟩ := exists_of_foldOp_not h
      show (env a.toNat).bind _ = _
      rw [hknown _ _ hx]
      rfl
    | add a b | sub a b | mul a b | cmpGt a b | cmpLt a b | cmpEq a b | and a b | or a b =>
      obtain ⟨x, y, hx, hy, h⟩ := exists_of_foldOp rfl h
      exact typeOp_of_foldBinop nColumns rfl (hknown _ _ hx) (hknown _ _ hy) h

/-- The operations behind the lines that are known. -/
def foldOps (F : F64Ops) : List (Option Const) → List Op → List Op
  | _, [] => []
  | known, op :: rest =>
    (foldOp F known op).elim op .const :: foldOps F (known ++ [foldOp F known op]) rest

theorem foldFrom_eq : ∀ (known : List (Option Const)) (insts : List Inst), foldFrom F known insts =
    (foldOps F known (insts.map Inst.op)).mapIdx (fun k op => { result := UInt32.ofNat (known.length + k), op := op })
  | _, [] => rfl
  | known, inst :: rest => by
    rw [foldFrom, List.map_cons, foldOps, List.mapIdx_cons, foldFrom_eq, List.length_append, List.length_singleton]
    simp only [Nat.add_assoc, Nat.add_comm 1]
    rfl

theorem insts_constantFold (f : Function) : (constantFold F f).insts = numbered (foldOps F [] f.ops) := by
  show foldFrom F [] f.insts = _
  rw [foldFrom_eq]
  simp only [List.length_nil, Nat.zero_add]
  rfl

theorem ops_constantFold (f : Function) : (constantFold F f).ops = foldOps F [] f.ops := by
  rw [Function.ops, insts_constantFold, map_op_numbered]

/-- A line is folded to a literal or stays as it is. -/
theorem exists_of_getElem?_foldOps : ∀ {known : List (Option Const)} {rest : List Op} {j : Nat} {op' : Op},
    (foldOps F known rest)[j]? = some op' → ∃ op, rest[j]? = some op ∧ (op' = op ∨ ∃ c, op' = .const c)
  | known, op :: rest, 0, op', h => by
    refine ⟨op, rfl, ?_⟩
    rw [foldOps] at h
    cases hfold : foldOp F known op with
    | none =>
      rw [hfold] at h
      exact .inl (Option.some.inj h).symm
    | some c =>
      rw [hfold] at h
      exact .inr ⟨c, (Option.some.inj h).symm⟩
  | known, op :: rest, j + 1, op', h => exists_of_getElem?_foldOps (j := j) h

theorem length_foldOps : ∀ (known : List (Option Const)) (rest : List Op), (foldOps F known rest).length = rest.length
  | _, [] => rfl
  | _, _ :: rest => congrArg (· + 1) (length_foldOps _ rest)

/-- What is known of the lines so far is what they mean. -/
theorem Folds.solves_from {S : Semantics linesRead V} {lit : Const → V} (hS : Folds F S lit) (vals : List V) :
    ∀ (known : List (Option Const)) (rest : List Op),
    (∀ (a : Nat) (c : Const), known.getD a none = some c → vals[a]? = some (lit c)) →
    (∀ (j : Nat) (op : Op), rest[j]? = some op → S.value (fun a => vals[a]?) op = vals[known.length + j]?) →
    ∀ (j : Nat) (op : Op), (foldOps F known rest)[j]? = some op → S.value (fun a => vals[a]?) op = vals[known.length + j]?
  | known, op :: rest, hknown, hvals, j, op', hop' => by
    have hhere := hvals 0 op rfl
    have hfolded : ∀ c, foldOp F known op = some c → vals[known.length]? = some (lit c) := fun c hc => by
      rw [← Nat.add_zero known.length, ← hhere]
      exact hS.fold _ known op c hc hknown
    cases j with
    | zero =>
      rw [foldOps] at hop'
      cases hfold : foldOp F known op with
      | none =>
        rw [hfold] at hop'
        cases hop'
        exact hhere
      | some c =>
        rw [hfold] at hop'
        cases hop'
        rw [Option.elim_some, hS.const, Nat.add_zero, hfolded c hfold]
    | succ j =>
      have hlength : (known ++ [foldOp F known op]).length = known.length + 1 := by
        rw [List.length_append, List.length_singleton]
      have hknown' : ∀ (a : Nat) (c : Const), (known ++ [foldOp F known op]).getD a none = some c →
          vals[a]? = some (lit c) := by
        intro a c hc
        rw [List.getD_eq_getElem?_getD] at hc
        rcases Nat.lt_trichotomy a known.length with hlt | rfl | hgt
        · rw [List.getElem?_append_left hlt] at hc
          exact hknown a c (by rw [List.getD_eq_getElem?_getD, hc])
        · rw [List.getElem?_concat_length] at hc
          exact hfolded c hc
        · rw [List.getElem?_eq_none (by omega)] at hc
          cases hc
      rw [show known.length + (j + 1) = (known ++ [foldOp F known op]).length + j by omega]
      refine Folds.solves_from hS vals _ rest hknown' (fun j op hop => ?_) j op' hop'
      rw [hlength, show known.length + 1 + j = known.length + (j + 1) by omega]
      exact hvals (j + 1) op hop

/-- **Folding keeps what the lines mean.** -/
theorem Folds.solves {S : Semantics linesRead V} {lit : Const → V} (hS : Folds F S lit) {prog : List Op} {vals : List V}
    (h : Solves S prog vals) : Solves S (foldOps F [] prog) vals := by
  refine ⟨h.1.trans (length_foldOps [] prog).symm, fun k op hop => ?_⟩
  have hk := hS.solves_from vals [] prog (fun a c hc => ?_) (fun j op hop => ?_) k op hop
  · rwa [List.length_nil, Nat.zero_add] at hk
  · rw [List.getD_nil] at hc
    cases hc
  · rw [List.length_nil, Nat.zero_add]
    exact h.2 j op hop

/-- **What was accepted is accepted after folding**, with the same types. -/
theorem Verified.constantFold (h : Verified f types) : Verified (constantFold F f) types where
  insts := by rw [ops_constantFold, insts_constantFold]
  defined k op hop v hv := by
    rw [ops_constantFold] at hop
    obtain ⟨op', hop', rfl | ⟨c, rfl⟩⟩ := exists_of_getElem?_foldOps hop
    · exact h.defined k op hop' v hv
    · exact absurd hv List.not_mem_nil
  typed := by
    rw [ops_constantFold]
    exact (folds_typing f.nColumns).solves h.typed
  ret := by
    rw [insts_constantFold, length_numbered, length_foldOps, Function.ops, List.length_map]
    exact h.ret

/-! ## Dead code -/

theorem getElem?_remapFrom : ∀ {live : List Bool} (next : ValueId) {k : Nat}, live[k]? = some true →
    (remapFrom next live)[k]? = some (next + UInt32.ofNat (place live k))
  | true :: live, next, 0, _ => congrArg some (UInt32.add_zero next).symm
  | true :: live, next, k + 1, h => by
    have hlive : live[k]? = some true := h
    have hrest := getElem?_remapFrom (next + 1) hlive
    rw [place_succ, if_pos rfl, Nat.add_comm (place live k) 1, UInt32.ofNat_add, ← UInt32.add_assoc]
    exact hrest
  | false :: live, next, k + 1, h => by
    have hlive : live[k]? = some true := h
    have hrest := getElem?_remapFrom next hlive
    rw [place_succ, if_neg Bool.false_ne_true, Nat.add_zero]
    exact hrest

/-- The new number of a marked line is its place among them. -/
theorem toNat_remap {live : List Bool} {k : Nat} (hlive : live[k]? = some true) (hk : k < 2 ^ 32) :
    ((remapFrom 0 live).getD k 0).toNat = place live k := by
  have hplace := place_le live k
  rw [List.getD_eq_getElem?_getD, getElem?_remapFrom 0 hlive, Option.getD_some, UInt32.zero_add, UInt32.toNat_ofNat',
    Nat.mod_eq_of_lt (by omega)]

theorem operands_remapOp (op : Op) (remap : List ValueId) :
    operands (remapOp op remap) = (operands op).map (fun v => remap.getD v.toNat 0) := by
  cases op <;> rfl

section Remap

variable {op : Op} {remap : List ValueId} {ρ : Nat → Nat} (h : ∀ v ∈ operands op, (remap.getD v.toNat 0).toNat = ρ v.toNat)
include h

theorem linesRead_remapOp : linesRead (remapOp op remap) = (linesRead op).map ρ := by
  rw [linesRead, operands_remapOp, linesRead, List.map_map, List.map_map]
  exact List.map_congr_left h

theorem evalOp_remapOp (cols : List ColumnData) (row : Nat) (env : Nat → Option Val) :
    evalOp F cols row env (remapOp op remap) = evalOp F cols row (fun a => env (ρ a)) op := by
  cases op with
  | const c => rfl
  | column idx ty => rfl
  | not a => rw [remapOp, evalOp, evalOp, h a List.mem_cons_self]
  | add a b | sub a b | mul a b | cmpGt a b | cmpLt a b | cmpEq a b | and a b | or a b =>
    rw [remapOp, evalOp, evalOp, both, both, h a List.mem_cons_self, h b (List.mem_cons_of_mem _ List.mem_cons_self)]

theorem typeOp_remapOp (nColumns : Nat) (env : Nat → Option Ty) :
    typeOp nColumns env (remapOp op remap) = typeOp nColumns (fun a => env (ρ a)) op := by
  cases op with
  | const c => rfl
  | column idx ty => rfl
  | not a => rw [remapOp, typeOp, typeOp, h a List.mem_cons_self]
  | add a b | sub a b | mul a b | cmpGt a b | cmpLt a b | cmpEq a b | and a b | or a b =>
    rw [remapOp, typeOp, typeOp, typeOp.binary, typeOp.binary, h a List.mem_cons_self,
      h b (List.mem_cons_of_mem _ List.mem_cons_self)]

end Remap

theorem filterMap_live (remap : List ValueId) : ∀ (insts : List Inst) (live : List Bool) (next : ValueId),
    (insts.zip (live.zip (remapFrom next live))).filterMap (fun x =>
      if x.2.1 then some (Inst.mk x.2.2 (remapOp x.1.op remap)) else none) =
    ((select live (insts.map Inst.op)).map (fun op => remapOp op remap)).mapIdx (fun k op =>
      Inst.mk (next + UInt32.ofNat k) op)
  | [], live, next => by
    cases live with
    | nil => rfl
    | cons b live => cases b <;> rfl
  | inst :: insts, [], next => rfl
  | inst :: insts, true :: live, next => by
    have hrest := filterMap_live remap insts live (next + 1)
    have hnumbers : ∀ k : Nat, next + UInt32.ofNat (k + 1) = next + 1 + UInt32.ofNat k := fun k => by
      rw [Nat.add_comm, UInt32.ofNat_add, ← UInt32.add_assoc]
      rfl
    show Inst.mk next (remapOp inst.op remap) :: List.filterMap _ (insts.zip (live.zip (remapFrom (next + 1) live))) = _
    rw [hrest, List.map_cons, select, List.map_cons, List.mapIdx_cons]
    simp only [hnumbers]
    exact congrArg (fun r => Inst.mk r (remapOp inst.op remap) :: _) (UInt32.add_zero next).symm
  | inst :: insts, false :: live, next => filterMap_live remap insts live next

theorem insts_deadCodeElimination (f : Function) : (deadCodeElimination f).insts =
    numbered ((select (liveLines f) f.ops).map (fun op => remapOp op (remapFrom 0 (liveLines f)))) := by
  show List.filterMap _ _ = _
  rw [filterMap_live]
  simp only [UInt32.zero_add]
  rfl

theorem ops_deadCodeElimination (f : Function) : (deadCodeElimination f).ops =
    (select (liveLines f) f.ops).map (fun op => remapOp op (remapFrom 0 (liveLines f))) := by
  rw [Function.ops, insts_deadCodeElimination, map_op_numbered]

theorem dependsOn_of_live {k : Nat} (hk : (liveLines f)[k]? = some true) :
    DependsOn linesRead f.ops f.ret.toNat k := by
  refine mark_sound (P := DependsOn linesRead f.ops f.ret.toNat) (fun a ha => ?_) (fun j op hop hj a ha => ?_) k hk
  · rw [List.getElem?_set] at ha
    split at ha
    · rename_i heq
      exact heq ▸ .ret
    · rw [List.getElem?_replicate] at ha
      split at ha
      · cases ha
      · cases ha
  · rw [Nat.zero_add] at hj
    exact hj.operand hop ha

/-- Only the first 2³² lines are ever marked. -/
theorem lt_of_live {k : Nat} (hk : (liveLines f)[k]? = some true) : k < 2 ^ 32 := by
  cases dependsOn_of_live hk with
  | ret => exact f.ret.toNat_lt
  | operand _ _ ha =>
    obtain ⟨v, -, rfl⟩ := List.mem_map.1 ha
    exact v.toNat_lt

section Live

variable (h : Verified f types)
include h

theorem Verified.live_ret : (liveLines f)[f.ret.toNat]? = some true := by
  refine mark_keeps ?_
  rw [List.getElem?_set_self]
  rw [List.length_replicate]
  exact h.ret

theorem Verified.live_closed : Closed linesRead (liveLines f) f.ops := by
  intro k op hop hk a ha
  refine mark_closed ?_ (fun j op hop a ha => ?_) k op hop (by rwa [Nat.zero_add]) a ha
  · rw [List.length_set, List.length_replicate, Nat.zero_add]
    exact Nat.le_of_eq (List.length_map _)
  · rw [Nat.zero_add]
    exact h.backward j op hop a ha

theorem Verified.remap_live {k : Nat} {op : Op} (hop : f.ops[k]? = some op) (hk : (liveLines f)[k]? = some true) :
    ∀ v ∈ operands op, ((remapFrom 0 (liveLines f)).getD v.toNat 0).toNat = place (liveLines f) v.toNat := by
  intro v hv
  have hlive := h.live_closed k op hop hk v.toNat (List.mem_map_of_mem hv)
  exact toNat_remap hlive (lt_of_live hlive)

theorem Verified.toNat_ret : (deadCodeElimination f).ret.toNat = place (liveLines f) f.ret.toNat :=
  toNat_remap h.live_ret (lt_of_live h.live_ret)

/-- **The values of the lines that stay.** -/
theorem Verified.solves_live {cols : List ColumnData} {row : Nat} {vals : List Val}
    (hsolves : Solves (evaluation F cols row) f.ops vals) :
    Solves (evaluation F cols row) (deadCodeElimination f).ops (select (liveLines f) vals) := by
  rw [ops_deadCodeElimination]
  exact hsolves.select h.live_closed (fun k op hop hk env => evalOp_remapOp (h.remap_live hop hk) cols row env)

/-- **What was accepted is accepted without its dead code.** -/
theorem Verified.deadCodeElimination : Verified (deadCodeElimination f) (select (liveLines f) types) where
  insts := by rw [ops_deadCodeElimination, insts_deadCodeElimination]
  defined m op hop v hv := by
    rw [ops_deadCodeElimination, List.getElem?_map] at hop
    obtain ⟨old, hstays, rfl⟩ := Option.map_eq_some_iff.1 hop
    obtain ⟨k, hk, rfl, hline⟩ := exists_of_getElem?_select hstays
    rw [operands_remapOp] at hv
    obtain ⟨u, hu, rfl⟩ := List.mem_map.1 hv
    have hread : u.toNat ∈ linesRead old := List.mem_map_of_mem hu
    have hlt := place_lt (h.live_closed k old hline hk u.toNat hread) (h.backward k old hline u.toNat hread)
    have hsmall := lt_of_live hk
    have hplace := place_le (liveLines f) k
    rw [UInt32.lt_iff_toNat_lt, h.remap_live hline hk u hu, UInt32.toNat_ofNat', Nat.mod_eq_of_lt (by omega)]
    exact hlt
  typed := by
    rw [ops_deadCodeElimination]
    exact h.typed.select h.live_closed (fun k op hop hk env => typeOp_remapOp (h.remap_live hop hk) f.nColumns env)
  ret := by
    have hret : f.ret.toNat < f.ops.length := by
      rw [Function.ops, List.length_map]
      exact h.ret
    have hplace : (select (liveLines f) f.ops)[place (liveLines f) f.ret.toNat]? = some f.ops[f.ret.toNat] := by
      rw [getElem?_select_place h.live_ret, List.getElem?_eq_getElem hret]
    rw [h.toNat_ret, insts_deadCodeElimination, length_numbered, List.length_map]
    exact (List.getElem?_eq_some_iff.1 hplace).1

end Live

/-! ## The optimiser -/

/-- The function up to where the numbers begin again. -/
def Function.firstLines (f : Function) : Function := { f with insts := f.insts.take (2 ^ 32) }

/-- What an optimised function owes to the function: it is accepted with the same return type, it returns the same in every row
of every set of columns that fit, and it returns nothing that does without one of its instructions. -/
structure Preserves (F : F64Ops) (f : Function) : Prop where
  accepted : ∃ types types', verify f = .ok types ∧ verify (optimize F f) = .ok types' ∧
    types'[(optimize F f).ret.toNat]? = types[f.ret.toNat]?
  values : ∀ cols n, Fits f cols n → interpret F (optimize F f) cols n = interpret F f cols n
  needed : ∀ k < (optimize F f).insts.length, DependsOn linesRead (optimize F f).ops (optimize F f).ret.toNat k

theorem length_select_le {α : Type} {live : List Bool} {l : List α} {n : Nat} (h : ∀ k : Nat, live[k]? = some true → k < n) :
    (select live l).length ≤ n := by
  by_contra hlong
  obtain ⟨k, hk, hplace, -⟩ := exists_of_getElem?_select (List.getElem?_eq_getElem (Nat.not_le.1 hlong))
  have := h k hk
  have := place_le live k
  omega

theorem Verified.firstLines (h : Verified f types) : Verified f.firstLines (types.take (2 ^ 32)) := by
  have hops : f.firstLines.ops = f.ops.take (2 ^ 32) := List.map_take
  refine ⟨?_, fun k op hop => ?_, ?_, ?_⟩
  · rw [hops]
    refine List.ext_getElem? (fun k => ?_)
    show (f.insts.take (2 ^ 32))[k]? = _
    rw [getElem?_numbered, List.getElem?_take, List.getElem?_take, h.insts, getElem?_numbered]
    split <;> rfl
  · rw [hops, List.getElem?_take] at hop
    split at hop
    · exact h.defined k op hop
    · cases hop
  · rw [hops]
    exact h.typed.take h.backward _
  · show f.ret.toNat < (f.insts.take (2 ^ 32)).length
    rw [List.length_take]
    have := h.ret
    have := f.ret.toNat_lt
    omega

theorem length_optimize (F : F64Ops) (f : Function) : (optimize F f).insts.length ≤ 2 ^ 32 := by
  show (deadCodeElimination (constantFold F f)).insts.length ≤ _
  rw [insts_deadCodeElimination, length_numbered, List.length_map]
  exact length_select_le (fun k hk => lt_of_live hk)

section Optimize

variable (h : Verified f types) {cols : List ColumnData} {n : Nat} {vals : Nat → List Val}
include h

theorem Verified.optimize : Verified (optimize F f) (select (liveLines (Ir.constantFold F f)) types) :=
  h.constantFold.deadCodeElimination

/-- **The optimised function returns the values of the lines.** -/
theorem Verified.interpret_optimize (hsolves : ∀ r < n, Solves (evaluation F cols r) f.ops (vals r)) :
    interpret F (Ir.optimize F f) cols n = .ok (some ((List.range' 0 n).map (fun r => returned f (vals r)))) := by
  have hfold := h.constantFold (F := F)
  have hfolded : ∀ r < n, Solves (evaluation F cols r) (Ir.constantFold F f).ops (vals r) := fun r hr => by
    rw [ops_constantFold]
    exact (folds_evaluation cols r).solves (hsolves r hr)
  rw [h.optimize.interpret_eq (Nat.le_trans (length_optimize F f) (Nat.le_add_right _ _)) (fun r hr => hfold.solves_live (hfolded r hr))]
  refine congrArg (fun l => Except.ok (some l)) (List.map_congr_left (fun r hr => ?_))
  rw [returned, returned, List.getD_eq_getElem?_getD, List.getD_eq_getElem?_getD]
  show ((select _ (vals r))[(Ir.deadCodeElimination (Ir.constantFold F f)).ret.toNat]?).getD _ = _
  rw [hfold.toNat_ret, getElem?_select_place hfold.live_ret]
  rfl

/-- **And so do the first lines.** -/
theorem Verified.interpret_firstLines (hsolves : ∀ r < n, Solves (evaluation F cols r) f.ops (vals r)) :
    interpret F f.firstLines cols n = .ok (some ((List.range' 0 n).map (fun r => returned f (vals r)))) := by
  have hsmall : f.firstLines.insts.length ≤ 2 ^ 32 := List.length_take_le _ _
  have hops : f.firstLines.ops = f.ops.take (2 ^ 32) := List.map_take
  have hfirst : ∀ r < n, Solves (evaluation F cols r) f.firstLines.ops ((vals r).take (2 ^ 32)) := fun r hr => by
    rw [hops]
    exact (hsolves r hr).take h.backward _
  rw [h.firstLines.interpret_eq (Nat.le_trans hsmall (Nat.le_add_right _ _)) hfirst]
  refine congrArg (fun l => Except.ok (some l)) (List.map_congr_left (fun r _ => ?_))
  rw [returned, returned, List.getD_eq_getElem?_getD, List.getD_eq_getElem?_getD]
  show (((vals r).take (2 ^ 32))[f.ret.toNat]?).getD _ = _
  rw [List.getElem?_take_of_lt f.ret.toNat_lt]

theorem Verified.optimize_eq_firstLines (hfits : Fits f cols n) :
    interpret F (Ir.optimize F f) cols n = interpret F f.firstLines cols n := by
  obtain ⟨vals, hvals⟩ := h.exists_solutions (F := F) hfits
  rw [h.interpret_optimize hvals, h.interpret_firstLines hvals]

theorem Verified.optimize_eq_of_early (hearly : f.insts.length ≤ 2 ^ 32 + f.ret.toNat) (hfits : Fits f cols n) :
    interpret F (Ir.optimize F f) cols n = interpret F f cols n := by
  obtain ⟨vals, hvals⟩ := h.exists_solutions (F := F) hfits
  rw [h.interpret_optimize hvals, h.interpret_eq hearly hvals]

theorem Verified.needed {k : Nat} (hk : k < (Ir.optimize F f).insts.length) :
    DependsOn linesRead (Ir.optimize F f).ops (Ir.optimize F f).ret.toNat k := by
  have hfold := h.constantFold (F := F)
  have hops := ops_deadCodeElimination (Ir.constantFold F f)
  have hlength : (Ir.optimize F f).insts.length = (Ir.optimize F f).ops.length := (List.length_map _).symm
  rw [hlength] at hk
  show DependsOn linesRead (Ir.deadCodeElimination (Ir.constantFold F f)).ops
    (Ir.deadCodeElimination (Ir.constantFold F f)).ret.toNat k
  change k < (Ir.deadCodeElimination (Ir.constantFold F f)).ops.length at hk
  rw [hops] at hk ⊢
  rw [hfold.toNat_ret]
  exact dependsOn_select (fun k hk => dependsOn_of_live hk) hfold.live_closed hfold.live_ret
    (fun k op hop hk => linesRead_remapOp (hfold.remap_live hop hk)) hk

theorem Verified.same_type : (select (liveLines (Ir.constantFold F f)) types)[(Ir.optimize F f).ret.toNat]? =
    types[f.ret.toNat]? := by
  have hfold := h.constantFold (F := F)
  show (select _ types)[(Ir.deadCodeElimination (Ir.constantFold F f)).ret.toNat]? = _
  rw [hfold.toNat_ret, getElem?_select_place hfold.live_ret]
  rfl

end Optimize

/-- **When the optimiser preserves a function**: always, if no instruction behind the first 2³² defines the returned number
again; and otherwise exactly if what stands there changes nothing. -/
theorem optimize_preserves_iff (h : verify f = .ok types) : Preserves F f ↔ (2 ^ 32 + f.ret.toNat < f.insts.length →
    ∀ cols n, Fits f cols n → interpret F f.firstLines cols n = interpret F f cols n) := by
  have hverified := verify_eq_ok.1 h
  constructor
  · intro hpreserves _ cols n hfits
    rw [← hpreserves.values cols n hfits, hverified.optimize_eq_firstLines hfits]
  · intro hfirst
    refine ⟨⟨types, _, h, verify_eq_ok.2 hverified.optimize, hverified.same_type⟩, fun cols n hfits => ?_,
      fun k hk => hverified.needed hk⟩
    rcases Nat.lt_or_ge (2 ^ 32 + f.ret.toNat) f.insts.length with hlate | hearly
    · rw [hverified.optimize_eq_firstLines hfits, hfirst hlate cols n hfits]
    · exact hverified.optimize_eq_of_early hearly hfits

/-- Operations on the bits as whole numbers. -/
def onBits : F64Ops where
  add x y := x + y
  sub x y := x - y
  mul x y := x * y
  gt x y := decide (y < x)
  lt x y := decide (x < y)
  eq x y := decide (x = y)

/-- `((10 - 4) < col0) AND NOT(false)`. -/
def sixBelow : Function where
  nColumns := 1
  insts := numbered [.const (.i64 10), .const (.i64 4), .sub 0 1, .column 0 .i64, .cmpLt 2 3, .const (.bool false), .not 5, .and 4 6]
  ret := 7

theorem sixBelow_preserved : Preserves onBits sixBelow := by
  have h : verify sixBelow = .ok [.i64, .i64, .i64, .i64, .bool, .bool, .bool, .bool] := by decide
  exact (optimize_preserves_iff h).2 (fun hlate => absurd hlate (by decide))

example : (optimize onBits sixBelow).insts =
    numbered [.const (.i64 6), .column 0 .i64, .cmpLt 0 1, .const (.bool true), .and 2 3] := by decide

/-- `n` times `false`, and then `true`. -/
def overrun (n : Nat) : Function where
  nColumns := 0
  insts := numbered (List.replicate n (.const (.bool false)) ++ [.const (.bool true)])
  ret := 0

theorem ops_overrun (n : Nat) : (overrun n).ops = List.replicate n (.const (.bool false)) ++ [.const (.bool true)] :=
  map_op_numbered _

/-- A line of `overrun` is a literal. -/
theorem overrun_line {n k : Nat} {op : Op} (hop : (overrun n).ops[k]? = some op) : ∃ b, op = .const (.bool b) ∧
    (List.replicate n false ++ [true])[k]? = some b := by
  have hmap : (overrun n).ops = (List.replicate n false ++ [true]).map (fun b => Op.const (.bool b)) := by
    rw [ops_overrun, List.map_append, List.map_replicate]
    rfl
  rw [hmap, List.getElem?_map] at hop
  obtain ⟨b, hb, rfl⟩ := Option.map_eq_some_iff.1 hop
  exact ⟨b, rfl, hb⟩

theorem length_insts_overrun (n : Nat) : (overrun n).insts.length = n + 1 := by
  show (numbered _).length = n + 1
  rw [length_numbered, List.length_append, List.length_replicate, List.length_singleton]

theorem verified_overrun (n : Nat) : Verified (overrun n) (List.replicate (n + 1) .bool) where
  insts := by
    rw [ops_overrun]
    rfl
  defined k op hop v hv := by
    obtain ⟨b, rfl, -⟩ := overrun_line hop
    exact absurd hv List.not_mem_nil
  typed := by
    refine ⟨?_, fun k op hop => ?_⟩
    · rw [ops_overrun, List.length_append, List.length_replicate, List.length_replicate, List.length_singleton]
    · obtain ⟨b, rfl, hb⟩ := overrun_line hop
      have hlt := (List.getElem?_eq_some_iff.1 hb).1
      rw [List.length_append, List.length_replicate, List.length_singleton] at hlt
      rw [List.getElem?_replicate_of_lt hlt]
      rfl
  ret := by
    rw [length_insts_overrun]
    exact Nat.succ_pos n

theorem solves_overrun (n : Nat) (cols : List ColumnData) (row : Nat) : Solves (evaluation F cols row) (overrun n).ops
    ((List.replicate n false ++ [true]).map Val.bool) := by
  refine ⟨?_, fun k op hop => ?_⟩
  · rw [ops_overrun, List.length_map, List.length_append, List.length_append, List.length_replicate, List.length_replicate,
      List.length_singleton, List.length_singleton]
  · obtain ⟨b, rfl, hb⟩ := overrun_line hop
    rw [List.getElem?_map, hb]
    rfl

/-- The last line defines number 0 again. -/
theorem interpret_overrun : interpret F (overrun (2 ^ 32)) [] 1 = .ok (some [.bool true]) := by
  obtain ⟨n, hn⟩ : ∃ n : Nat, n = 2 ^ 32 := ⟨_, rfl⟩
  rw [← hn]
  have hsplit : (overrun n).insts = numbered (List.replicate n (.const (.bool false))) ++ [⟨0, .const (.bool true)⟩] := by
    show numbered (_ ++ [_]) = _
    rw [numbered, List.mapIdx_append, List.length_replicate, hn]
    rfl
  obtain ⟨env, hrow, hlength, -⟩ := exists_interpretRow (F := F) [] 0
    (numbered (List.replicate n (.const (.bool false)))) (List.replicate (n + 1) (.bool false)) List.length_replicate (fun inst hinst => by
      obtain ⟨k, hk⟩ := List.mem_iff_getElem?.1 hinst
      rw [getElem?_numbered, List.getElem?_replicate] at hk
      split at hk
      · rename_i hlt
        cases hk
        refine ⟨?_, fun _ _ => rfl⟩
        rw [UInt32.toNat_ofNat']
        exact Nat.lt_of_le_of_lt (Nat.mod_le _ _) (by omega)
      · cases hk)
  have hfirst : (env.set 0 (.bool true))[(overrun n).ret.toNat]? = some (.bool true) :=
    List.getElem?_set_self (by omega)
  rw [interpret, verify_eq_ok.2 (verified_overrun n), length_insts_overrun]
  refine congrArg Except.ok ?_
  rw [interpretRows, hsplit, interpretRow_append, hrow, Option.bind_some, interpretRow, evalOp, Option.bind_some,
    if_pos (by rw [hlength]; exact Nat.succ_pos n), interpretRow, Option.bind_some]
  show (env.set 0 (.bool true))[(overrun n).ret.toNat]?.bind _ = _
  rw [hfirst]
  rfl

/-- **The optimiser forgets the last of 2³² + 1 literals**: of 2³² times `false` and a `true`, the interpreter returns `true` and
`false` once it is optimised. -/
theorem last_literal_forgotten : (∃ types, verify (overrun (2 ^ 32)) = .ok types) ∧ Fits (overrun (2 ^ 32)) [] 1 ∧
    interpret onBits (overrun (2 ^ 32)) [] 1 = .ok (some [.bool true]) ∧
    interpret onBits (optimize onBits (overrun (2 ^ 32))) [] 1 = .ok (some [.bool false]) := by
  refine ⟨⟨_, verify_eq_ok.2 (verified_overrun _)⟩, fun idx ty hcolumn => ?_, interpret_overrun, ?_⟩
  · obtain ⟨k, hk⟩ := List.mem_iff_getElem?.1 hcolumn
    obtain ⟨b, hb, -⟩ := overrun_line hk
    cases hb
  · obtain ⟨n, hn⟩ : ∃ n : Nat, n + 1 = 2 ^ 32 := ⟨2 ^ 32 - 1, rfl⟩
    rw [← hn, (verified_overrun (n + 1)).interpret_optimize (fun r _ => solves_overrun (n + 1) [] r)]
    rfl

end Ir
end Heraclitus
