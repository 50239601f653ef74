import Heraclitus.GqlReads
/-!
# GqlLowering — where the literals of a query end up

On every written query the lowering is compared with what the query says.  In two forms it tells the arguments apart by which
field is still empty, and an empty literal in front moves the next one into its field.
-/
namespace Heraclitus
namespace Gql
namespace Written

open Peg
open Heraclitus.Query (BoolOp DistKind Cmp)
open Temporal (SimulateOp)

@[simp] theorem toOption_okOr {α : Type} (o : Option α) (msg : String) : (okOr o msg).toOption = o := by
  cases o <;> rfl

variable {p q : Pair Rule} {floats : Floats}

/-! ## Literals -/

theorem dropWhile_quote {s : Str} (h : '"' ∉ s) : s.dropWhile (· == '"') = s := by
  cases s with
  | nil => rfl
  | cons c s =>
    have hc : c ≠ '"' := fun hc => h (hc ▸ List.mem_cons_self)
    rw [List.dropWhile_cons_of_neg (by simpa using hc)]

theorem Quoted.unquote {s : Str} (h : Quoted s p) : unquote p.text = s := by
  obtain ⟨⟨-, htext⟩, hs⟩ := h
  have hreverse : '"' ∉ s.reverse := fun h => hs (List.mem_reverse.1 h)
  rw [htext, Gql.unquote, List.dropWhile_cons_of_pos (by rfl)]
  cases s with
  | nil => rfl
  | cons c s =>
    have hc : c ≠ '"' := fun hc => hs (hc ▸ List.mem_cons_self)
    rw [List.cons_append, List.dropWhile_cons_of_neg (by simpa using hc), ← List.cons_append, List.reverse_append]
    rw [List.reverse_singleton, List.singleton_append, List.dropWhile_cons_of_pos (by rfl), dropWhile_quote hreverse,
      List.reverse_reverse]

theorem Quoted.rule {s : Str} (h : Quoted s p) : p.rule = .string := h.1.1

theorem Dotted.split {var field : Str} (h : Dotted var field p) : splitProp p.text = .ok (var, field) := by
  obtain ⟨⟨-, htext⟩, hdot⟩ := h
  have hall : ∀ c ∈ var, (c != '.') = true := fun c hc => bne_iff_ne.2 (fun h => hdot (h ▸ hc))
  rw [htext, splitProp, List.dropWhile_append_of_pos hall, List.takeWhile_append_of_pos hall]
  simp

theorem Word.lower_eq {r : Rule} {word : String} (h : Word r word p) :
    p.text.map Char.toLower = word.toList.map Char.toLower := beq_iff_eq.1 h.2

theorem toUpper_toLower (c : Char) : c.toLower.toUpper = c.toUpper := by
  have hall : ∀ n < 26, (Char.ofNat (65 + n)).toLower.toUpper = (Char.ofNat (65 + n)).toUpper := by decide
  by_cases hc : c.val ≥ 'A'.val ∧ c.val ≤ 'Z'.val
  · have h₁ : 65 ≤ c.toNat := UInt32.le_iff_toNat_le.1 hc.1
    have h₂ : c.toNat ≤ 90 := UInt32.le_iff_toNat_le.1 hc.2
    have h := hall (c.toNat - 65) (by omega)
    rwa [Nat.add_sub_cancel' h₁, Char.ofNat_toNat] at h
  · delta Char.toLower
    rw [dif_neg hc]

theorem Word.upper_eq {r : Rule} {word : String} (h : Word r word p) :
    p.text.map Char.toUpper = word.toList.map Char.toUpper := by
  have hcase : ∀ s : Str, s.map Char.toUpper = (s.map Char.toLower).map Char.toUpper := fun s => by
    simp only [List.map_map, Function.comp_def, toUpper_toLower]
  rw [hcase, h.lower_eq, ← hcase]

theorem AsOf.Reads.rule {a : AsOf} (h : a.Reads p) : p.rule = .asOf := by
  cases a with
  | lsn n => exact h.1
  | timestamp n => exact h.1

/-- `build_as_of` reads what is written. -/
theorem AsOf.Reads.build {a : AsOf} (h : a.Reads p) : (buildAsOf p).toOption = a.lower := by
  cases a with
  | lsn n =>
    obtain ⟨-, q, t, hp, hq, hn, -, rfl⟩ := h
    simp [buildAsOf, hp, hq, hn, AsOf.lower]
  | timestamp n =>
    obtain ⟨-, q, t, hp, hq, hn, -, rfl⟩ := h
    simp [buildAsOf, hp, hq, hn, AsOf.lower]

theorem foldl_push {α : Type} (acc as : List α) : as.foldl (fun acc a => acc ++ [a]) acc = acc ++ as := by
  induction as generalizing acc with
  | nil => simp
  | cons a as ih => simp [ih]

theorem ReadsVector.push {v : List Str} (acc : List F32) (h : ReadsVector v p) :
    (pushNumbers floats acc p).toOption = (lowerVector floats v).map (acc ++ ·) := by
  rw [pushNumbers, Except.toOption_bind, Except.toOption_forIn (f := floats.parseF32) (g := fun acc a => acc ++ [a]) ?_ h.2]
  · simp only [foldl_push]
    simp [lowerVector]
  · rintro a b ⟨-, rfl⟩ s
    simp

theorem lowerVector_ne_nil {v : List Str} {w : List F32} (hv : v ≠ []) (h : lowerVector floats v = some w) : w ≠ [] := by
  rintro rfl
  cases v with
  | nil => exact hv rfl
  | cons a v => simp [lowerVector, Option.bind_eq_some_iff] at h

theorem distKindOf_keyword {kind : DistKind} (h : Word .distKind (keyword kind) p) : distKindOf p.text = kind := by
  rw [distKindOf, h.upper_eq]
  cases kind <;> decide

theorem Dist.Reads.build {d : Dist} (h : d.Reads p) : (buildDistFn floats p).toOption = d.lower floats := by
  obtain ⟨-, k, v, hp, hk, hv, hne⟩ := h
  have hvector : ∀ w, lowerVector floats d.vector = some w → w ≠ [] := fun _ => lowerVector_ne_nil hne
  simp only [buildDistFn, hp, List.forIn_cons, hk.1, hv.1, distKindOf_keyword hk]
  simp [hv.push, Dist.lower]
  cases h : lowerVector floats d.vector with
  | none => rfl
  | some w => simp [hvector w h]

theorem Operand.Reads.build {o : Operand} (h : o.Reads p) : (buildOperand floats p).toOption = o.lower floats := by
  obtain ⟨-, q, hp, h⟩ := h
  cases o with
  | dist d => simp [buildOperand, hp, h.1, h.build, Operand.lower, Option.map_eq_bind]
  | prop var field => simp [buildOperand, hp, h.1.1, h.split, Operand.lower]
  | number n =>
    obtain ⟨hrule, rfl⟩ := h
    simp [buildOperand, hp, hrule, Operand.lower]
  | string s => simp [buildOperand, hp, h.rule, h.unquote, Operand.lower]
  | ident name => simp [buildOperand, hp, h.1.1, h.1.2, Operand.lower]

theorem cmpOf_symbol (c : Cmp) : cmpOf (symbol c).toList = .ok c := by
  cases c <;> decide

theorem Condition.Reads.build {c : Condition} (h : c.Reads p) : (buildCondition floats p).toOption = c.lower floats := by
  obtain ⟨-, l, o, r, hp, hl, ho, hr⟩ := h
  simp [buildCondition, hp, hl.build, hr.build, ho.2, cmpOf_symbol, Condition.lower, Option.map_eq_bind]

/-! ## `CREATE` -/

theorem ReadsProps.build {x : List (Str × Value)} (c : Gql.CreateStmt) (h : List.Forall₂ ReadsProp x p.inner) :
    (buildProps floats c p).toOption = (x.mapM (lowerProp floats)).map (fun props => { c with props := c.props ++ props }) := by
  have hpush : ∀ (props : List (Str × Gql.Value)) (c : Gql.CreateStmt),
      props.foldl (fun c y => { c with props := c.props ++ [y] }) c = { c with props := c.props ++ props } := fun props => by
    induction props with
    | nil => simp
    | cons y props ih => simp [ih]
  rw [buildProps, Except.toOption_bind,
    Except.toOption_forIn (f := lowerProp floats) (g := fun c y => { c with props := c.props ++ [y] }) ?_ h]
  · simp [hpush, Option.map_eq_bind]
  · rintro ⟨key, value⟩ b ⟨hrule, k, v, hb, hk, hv⟩ s
    cases value with
    | string t => simp [hrule, hb, hv.rule, hv.unquote, hk.1.2, lowerProp, Value.lower]
    | number n =>
      obtain ⟨hnumber, rfl⟩ := hv
      simp [hrule, hb, hnumber, hk.1.2, lowerProp, Value.lower, Function.comp_def]

theorem CreateStmt.Reads.build {c : CreateStmt} (h : c.Reads p.inner) : (buildCreate floats p).toOption = c.lower floats := by
  obtain ⟨n, l, qs, hp, ⟨⟨hn, hname⟩, hne⟩, hl, hprops⟩ := h
  obtain ⟨⟨name, label⟩, props⟩ := c
  rcases hprops with ⟨rfl, rfl⟩ | ⟨q, rfl, hq, hprops⟩
  · cases label with
    | none =>
      obtain rfl := hl
      simp [buildCreate, hp, hn, hname, CreateStmt.lower]
    | some label =>
      obtain ⟨m, rfl, ⟨hm, hlabel⟩, -⟩ := hl
      simp [buildCreate, hp, hn, hname, CreateStmt.lower, hm, hlabel, hne]
  · cases label with
    | none =>
      obtain rfl := hl
      simp [buildCreate, hp, hn, hname, CreateStmt.lower, hq, ReadsProps.build _ hprops]
    | some label =>
      obtain ⟨m, rfl, ⟨hm, hlabel⟩, -⟩ := hl
      simp [buildCreate, hp, hn, hname, CreateStmt.lower, hm, hlabel, hne, hq, ReadsProps.build _ hprops]

/-! ## `MATCH` -/

theorem Name.Reads.idents {r : Rule} {n : Name} (h : n.Reads r p) : nodeIdents p = (n.name, n.label) := by
  obtain ⟨-, q, ps, hp, ⟨⟨hq, hname⟩, -⟩, hlabel⟩ := h
  obtain ⟨name, label⟩ := n
  cases label with
  | none =>
    obtain rfl := hlabel
    simp [nodeIdents, hp, hq, hname]
  | some label =>
    obtain ⟨m, rfl, ⟨hm, hlabel⟩, -⟩ := hlabel
    simp [nodeIdents, hp, hq, hname, hm, hlabel]

theorem ReadsPattern.build {node : Name} {edge : Option (Name × Name)} (m : Gql.MatchStmt) (h : ReadsPattern node edge p)
    (hedge : m.edge = none) :
    buildPattern m p = { m with var := node.name, label := node.label, edge := edge.map lowerEdge } := by
  obtain ⟨-, n, ps, hp, hn, hps⟩ := h
  cases edge with
  | none =>
    obtain rfl := hps
    simp [buildPattern, hp, hn.1, hn.idents, hedge]
  | some e =>
    obtain ⟨r, t, rfl, hr, ht⟩ := hps
    simp [buildPattern, hp, hn.1, hn.idents, hr.1, hr.idents, ht.1, ht.idents, lowerEdge]

theorem ReadsOp.said {op : BoolOp} (h : ReadsOp op p) : p.rule = .boolOp ∧ boolOpOf p.text = op := by
  cases op with
  | first => exact h.elim
  | and =>
    have h : Word .boolOp "AND" p := h
    exact ⟨h.1, by rw [boolOpOf, eqIgnoreAsciiCase, h.lower_eq]; rfl⟩
  | or =>
    have h : Word .boolOp "OR" p := h
    exact ⟨h.1, by rw [boolOpOf, eqIgnoreAsciiCase, h.lower_eq]; rfl⟩

theorem ReadsConditions.loop : ∀ {rest : List (BoolOp × Condition)} {ps : List (Pair Rule)} (m : Gql.MatchStmt) (op : BoolOp),
    ReadsConditions rest ps → (whereLoop floats m op ps).toOption =
      (lowerConditions floats rest).map (fun conditions => { m with conditions := m.conditions ++ conditions })
  | [], _, m, op, h => by
    obtain rfl := h
    simp [whereLoop, lowerConditions]
  | (op', c) :: rest, _, m, op, h => by
    obtain ⟨o, q, ps, rfl, ho, hc, hrest⟩ := h
    obtain ⟨hrule, hsaid⟩ := ho.said
    simp [whereLoop, hrule, hsaid, hc.1, hc.build, ReadsConditions.loop _ _ hrest, lowerConditions, Option.map_eq_bind,
      Option.bind_assoc]

theorem ReadsWhere.build {w : Condition × List (BoolOp × Condition)} (m : Gql.MatchStmt) (h : ReadsWhere w p) :
    (buildWhere floats m p).toOption =
      (lowerWhere floats (some w)).map (fun conditions => { m with conditions := m.conditions ++ conditions }) := by
  obtain ⟨-, q, ps, hp, hq, hps⟩ := h
  obtain ⟨c, rest⟩ := w
  simp [buildWhere, hp, whereLoop, hq.1, hq.build, ReadsConditions.loop _ _ hps, lowerWhere, lowerConditions,
    Option.map_eq_bind, Option.bind_assoc]

theorem ReadsReturn.build {items : List RetItem} (m : Gql.MatchStmt) (h : ReadsReturn items p) :
    (buildReturn m p).toOption = some { m with returns := m.returns ++ items } := by
  have hpush : ∀ (items : List RetItem) (m : Gql.MatchStmt),
      items.foldl (fun m y => { m with returns := m.returns ++ [y] }) m = { m with returns := m.returns ++ items } := by
    intro items
    induction items with
    | nil => simp
    | cons y items ih => simp [ih]
  rw [buildReturn, Except.toOption_bind,
    Except.toOption_forIn (f := some) (g := fun m y => { m with returns := m.returns ++ [y] }) ?_ h.2]
  · have hsome : items.mapM some = some items := by
      simpa using List.mapM_pure (m := Option) (f := id) (l := items)
    simp [hpush, hsome]
  · rintro item b ⟨hrule, q, hb, hq⟩ s
    cases item with
    | star =>
      have hq : q.rule = .star := hq
      simp [hrule, hb, hq]
    | prop var field => simp [hrule, hb, hq.1.1, hq.split]
    | ident name => simp [hrule, hb, hq.1.1, hq.1.2]

theorem ReadsDirection.said {asc : Bool} (h : ReadsDirection asc p) : p.rule = .direction ∧ ascends p.text = asc := by
  cases asc with
  | true =>
    have h : Word .direction "ASC" p := h
    exact ⟨h.1, by rw [ascends, eqIgnoreAsciiCase, h.lower_eq]; rfl⟩
  | false =>
    have h : Word .direction "DESC" p := h
    exact ⟨h.1, by rw [ascends, eqIgnoreAsciiCase, h.lower_eq]; rfl⟩

theorem ReadsOrderBy.build {o : OrderKey × Option Bool} (m : Gql.MatchStmt) (h : ReadsOrderBy o p) :
    (buildOrderBy floats m p).toOption = (lowerOrderBy floats o).map (fun o => { m with orderBy := some o }) := by
  obtain ⟨-, k, ps, hp, hk, hps⟩ := h
  obtain ⟨key, direction⟩ := o
  rw [buildOrderBy, hp]
  cases direction with
  | none =>
    obtain rfl := hps
    cases key with
    | dist d => simp [hk.1, hk.build, lowerOrderBy, OrderKey.lower, Function.comp_def]
    | prop var field => simp [hk.1.1, hk.split, lowerOrderBy, OrderKey.lower]
    | ident name => simp [hk.1.1, hk.1.2, lowerOrderBy, OrderKey.lower]
  | some asc =>
    obtain ⟨d, rfl, hd⟩ := hps
    obtain ⟨hrule, hasc⟩ := hd.said
    cases key with
    | dist d => simp [hk.1, hk.build, hrule, hasc, lowerOrderBy, OrderKey.lower, Function.comp_def]
    | prop var field => simp [hk.1.1, hk.split, hrule, hasc, lowerOrderBy, OrderKey.lower]
    | ident name => simp [hk.1.1, hk.1.2, hrule, hasc, lowerOrderBy, OrderKey.lower]

/-- A part that may be left out adds what is written. -/
theorem Maybe.add {α β σ : Type} {R : α → Pair Rule → Prop} {o : Option α} {ps : List (Pair Rule)} {f : α → Option β}
    {g : σ → Option β → σ} {k : σ → Pair Rule → Except HeraclitusError σ} (hnone : ∀ s, g s none = s)
    (hsome : ∀ a p, R a p → ∀ s, (k s p).toOption = (f a).map (fun b => g s (some b))) (h : Maybe R o ps) (s : σ) :
    (ps.foldlM k s).toOption = (fits f o).map (g s) := by
  cases o with
  | none =>
    obtain rfl := h
    simp [fits, hnone]
  | some a =>
    obtain ⟨p, rfl, hp⟩ := h
    simp [fits, hsome a p hp, Function.comp_def]

theorem Maybe.where_ {w : Option (Condition × List (BoolOp × Condition))} {ps : List (Pair Rule)} (h : Maybe ReadsWhere w ps)
    (m : Gql.MatchStmt) : (ps.foldlM (matchPart floats) m).toOption =
      (lowerWhere floats w).map (fun conditions => { m with conditions := m.conditions ++ conditions }) := by
  cases w with
  | none =>
    obtain rfl := h
    simp [lowerWhere]
  | some w =>
    obtain ⟨p, rfl, hp⟩ := h
    simp [matchPart, hp.1, hp.build]

theorem MatchStmt.Reads.build {m : MatchStmt} (h : m.Reads p.inner) : (buildMatch floats p).toOption = m.lower floats := by
  obtain ⟨pat, w, v, a, r, o, l, hp, hpat, hw, hv, ha, hr, ho, hl⟩ := h
  have hvalid := Maybe.add (k := matchPart floats) (g := fun m n => { m with validAt := n.or m.validAt }) (f := parseU64)
    (fun _ => rfl) (fun n p hn m => by
      obtain ⟨hrule, q, hinner, hq, rfl⟩ := hn
      simp [matchPart, hrule, hinner, hq]) hv
  have hasOf := Maybe.add (k := matchPart floats) (g := fun m n => { m with asOf := n.or m.asOf }) (f := AsOf.lower)
    (fun _ => rfl) (fun n p hn m => by simp [matchPart, hn.rule, hn.build]) ha
  have horder := Maybe.add (k := matchPart floats) (g := fun m n => { m with orderBy := n.or m.orderBy })
    (f := lowerOrderBy floats) (fun _ => rfl) (fun n p hn m => by simp [matchPart, hn.1, hn.build]) ho
  have hlimit := Maybe.add (k := matchPart floats) (g := fun m n => { m with limit := n.or m.limit }) (f := parseU32)
    (fun _ => rfl) (fun n p hn m => by
      obtain ⟨hrule, q, hinner, hq, rfl⟩ := hn
      simp [matchPart, hrule, hinner]) hl
  have hpattern : (matchPart floats {} pat).toOption =
      some { var := m.node.name, label := m.node.label, edge := m.edge.map lowerEdge } := by
    rw [matchPart, hpat.1]
    exact congrArg some (hpat.build {} rfl)
  have hreturn : ∀ m, matchPart floats m r = buildReturn m r := fun m => by
    rw [matchPart, hr.1]
  simp only [buildMatch, hp, List.foldlM_cons, List.foldlM_append, hpattern, hreturn, Except.toOption_bind, hw.where_, hvalid,
    hasOf, horder, hlimit, hr.build]
  simp [MatchStmt.lower, Option.map_eq_bind, Option.bind_assoc]

/-! ## The other forms -/

/-- **What the code makes of a written statement.** -/
def Stmt.built (floats : Floats) : Stmt → Option Gql.Stmt
  | .neighbors node etype asOf =>
    if node = [] then etype.bind (fun e => if e = [] then none else (fits AsOf.lower asOf).map (.neighbors e none))
    else (fits AsOf.lower asOf).map (.neighbors node etype)
  | .fuse text vector node k asOf => if text = [] ∨ node = [] then none else (Stmt.fuse text vector node k asOf).lower floats
  | .traverse start maxDepth asOf => if start = [] then none else (Stmt.traverse start maxDepth asOf).lower floats
  | .resolve key asOf => if key = [] then none else (Stmt.resolve key asOf).lower floats
  | .cluster entity asOf => if entity = [] then none else (Stmt.cluster entity asOf).lower floats
  | .why target maxDepth until_ asOf => if target = [] then none else (Stmt.why target maxDepth until_ asOf).lower floats
  | .community node leiden asOf => if node = [] then none else (Stmt.community node leiden asOf).lower floats
  | .metrics node asOf => if node = [] then none else (Stmt.metrics node asOf).lower floats
  | .simulate op from_ to_ etype then_ => (then_.built floats).map (.simulate op from_ to_ etype)
  | w => w.lower floats

section Forms

variable {asOf : Option AsOf}

theorem AsOf.Reads.others {x : AsOf} (h : x.Reads p) (l : Locals) :
    (l.others p).toOption = x.lower.map (fun a => { l with asOf := some a }) := by
  simp [Locals.others, h.rule, h.build]

/-- The `AS OF` behind a form. -/
theorem Maybe.addAsOf {a : List (Pair Rule)} {k : Locals → Pair Rule → Except HeraclitusError Locals}
    (hk : ∀ l p, p.rule = .asOf → k l p = l.others p) (h : Maybe AsOf.Reads asOf a) (l : Locals) :
    (a.foldlM k l).toOption = (fits AsOf.lower asOf).map (fun x => { l with asOf := x.or l.asOf }) :=
  h.add (g := fun l x => { l with asOf := x.or l.asOf }) (fun _ => rfl) (fun x p hp l => by
    rw [hk l p hp.rule, hp.others]
    rfl) l

theorem recall_build {text k : Str} (h : (Stmt.recall text k asOf).Reads q) :
    (buildRecall q).toOption = (Stmt.recall text k asOf).lower floats := by
  obtain ⟨-, t, n, a, hq, ht, ⟨hn, rfl⟩, ha⟩ := h
  have hasOf := ha.addAsOf (k := recallPart) (fun l p hp => by simp [recallPart, hp])
  simp [buildRecall, hq, recallPart, ht.rule, ht.unquote, hn, hasOf, Stmt.lower, Option.map_eq_bind, Option.bind_assoc]

theorem nearest_build {vector : List Str} {k : Str} (h : (Stmt.nearest vector k asOf).Reads q) :
    (buildNearest floats q).toOption = (Stmt.nearest vector k asOf).lower floats := by
  obtain ⟨-, v, n, a, hq, hv, ⟨hn, rfl⟩, ha⟩ := h
  have hasOf := ha.addAsOf (k := nearestPart floats) (fun l p hp => by simp [nearestPart, hp])
  simp [buildNearest, hq, nearestPart, hv.1, hv.push, hn, hasOf, Stmt.lower, Option.map_eq_bind, Option.bind_assoc]

theorem provenance_build {id : Str} (h : (Stmt.provenance id).Reads q) :
    (buildProvenance q).toOption = (Stmt.provenance id).lower floats := by
  obtain ⟨-, t, hq, ht⟩ := h
  simp [buildProvenance, hq, ht.rule, ht.unquote, Stmt.lower]

/-- As long as the node is empty, a string is the node. -/
theorem neighbors_build {node : Str} {etype : Option Str} (h : (Stmt.neighbors node etype asOf).Reads q) :
    (buildNeighbors q).toOption = (Stmt.neighbors node etype asOf).built floats := by
  obtain ⟨-, t, e, a, hq, ht, he, ha⟩ := h
  have hasOf := ha.addAsOf (k := neighborsPart) (fun l p hp => by simp [neighborsPart, hp])
  by_cases hnode : node = []
  · cases etype with
    | none =>
      obtain rfl := he
      simp [buildNeighbors, hq, neighborsPart, ht.rule, ht.unquote, hasOf, hnode, Stmt.built]
    | some e =>
      obtain ⟨u, rfl, hu⟩ := he
      by_cases he : e = []
      · simp [buildNeighbors, hq, neighborsPart, ht.rule, ht.unquote, hu.rule, hu.unquote, hasOf, hnode, he, Stmt.built]
      · simp [buildNeighbors, hq, neighborsPart, ht.rule, ht.unquote, hu.rule, hu.unquote, hasOf, hnode, he, Stmt.built,
          Option.map_eq_bind, Option.bind_assoc]
  · cases etype with
    | none =>
      obtain rfl := he
      simp [buildNeighbors, hq, neighborsPart, ht.rule, ht.unquote, hasOf, hnode, Stmt.built, Option.map_eq_bind,
        Option.bind_assoc]
    | some e =>
      obtain ⟨u, rfl, hu⟩ := he
      simp [buildNeighbors, hq, neighborsPart, ht.rule, ht.unquote, hu.rule, hu.unquote, hasOf, hnode, Stmt.built,
        Option.map_eq_bind, Option.bind_assoc]

theorem traverse_build {start maxDepth : Str} (h : (Stmt.traverse start maxDepth asOf).Reads q) :
    (buildTraverse q).toOption = (Stmt.traverse start maxDepth asOf).built floats := by
  obtain ⟨-, t, n, a, hq, ht, ⟨hn, rfl⟩, ha⟩ := h
  have hasOf := ha.addAsOf (k := traversePart) (fun l p hp => by simp [traversePart, hp])
  by_cases hstart : start = []
  · simp [buildTraverse, hq, traversePart, ht.rule, ht.unquote, hn, hasOf, hstart, Stmt.built]
  · simp [buildTraverse, hq, traversePart, ht.rule, ht.unquote, hn, hasOf, hstart, Stmt.built, Stmt.lower, Option.map_eq_bind,
      Option.bind_assoc]

/-- As long as the text is empty, a string is the text. -/
theorem fuse_build {text : Str} {vector : List Str} {node k : Str} (h : (Stmt.fuse text vector node k asOf).Reads q) :
    (buildFuse floats q).toOption = (Stmt.fuse text vector node k asOf).built floats := by
  obtain ⟨-, t, v, u, n, a, hq, ht, hv, hu, ⟨hn, rfl⟩, ha⟩ := h
  have hasOf := ha.addAsOf (k := fusePart floats) (fun l p hp => by simp [fusePart, hp])
  by_cases htext : text = []
  · simp [buildFuse, hq, fusePart, ht.rule, ht.unquote, hv.1, hv.push, hu.rule, hu.unquote, hn, hasOf, htext, Stmt.built]
  by_cases hnode : node = []
  · simp [buildFuse, hq, fusePart, ht.rule, ht.unquote, hv.1, hv.push, hu.rule, hu.unquote, hn, hasOf, htext, hnode, Stmt.built]
  · simp [buildFuse, hq, fusePart, ht.rule, ht.unquote, hv.1, hv.push, hu.rule, hu.unquote, hn, hasOf, htext, hnode, Stmt.built,
      Stmt.lower, Option.map_eq_bind, Option.bind_assoc]

theorem one_build {missing : String} {make : Str → Option Gql.AsOf → Gql.Stmt} {id : Str} {t : Pair Rule} {a : List (Pair Rule)}
    (hq : q.inner = t :: a) (ht : Quoted id t) (ha : Maybe AsOf.Reads asOf a) :
    (buildOne missing make q).toOption = if id = [] then none else (fits AsOf.lower asOf).map (make id) := by
  have hasOf := ha.addAsOf (k := onePart) (fun l p hp => by simp [onePart, hp])
  by_cases hid : id = []
  · simp [buildOne, hq, onePart, ht.rule, ht.unquote, hasOf, hid]
  · simp [buildOne, hq, onePart, ht.rule, ht.unquote, hasOf, hid, Option.map_eq_bind, Option.bind_assoc]

theorem hypotheses_build {from_ to_ etype : Str} (h : (Stmt.hypotheses from_ to_ etype asOf).Reads q) :
    (buildHypotheses q).toOption = (Stmt.hypotheses from_ to_ etype asOf).lower floats := by
  obtain ⟨-, t, u, v, a, hq, ht, hu, hv, ha⟩ := h
  have hasOf := ha.addAsOf (k := hypothesesPart) (fun l p hp => by simp [hypothesesPart, hp])
  simp [buildHypotheses, hq, hypothesesPart, ht.rule, ht.unquote, hu.rule, hu.unquote, hv.rule, hv.unquote, hasOf, Stmt.lower,
    Option.map_eq_bind, Option.bind_assoc]

theorem why_build {target : Str} {maxDepth until_ : Option Str} (h : (Stmt.why target maxDepth until_ asOf).Reads q) :
    (buildWhy q).toOption = (Stmt.why target maxDepth until_ asOf).built floats := by
  obtain ⟨-, t, n, u, a, hq, ht, hn, hu, ha⟩ := h
  have hdepth := hn.add (k := whyPart) (g := fun l d => { l with maxDepth := d.or l.maxDepth }) (f := parseU32) (fun _ => rfl)
    (fun d p hd l => by
      obtain ⟨hrule, rfl⟩ := hd
      simp [whyPart, hrule])
  have huntil := hu.add (k := whyPart) (g := fun l s => { l with strs := l.strs ++ s.toList }) (f := some)
    (fun l => by simp) (fun s p hs l => by simp [whyPart, hs.rule, hs.unquote])
  have hasOf := ha.addAsOf (k := whyPart) (fun l p hp => by simp [whyPart, hp])
  have hfits : fits some until_ = some until_ := by
    cases until_ <;> rfl
  have hsecond : until_.toList[0]? = until_ := by
    cases until_ <;> rfl
  by_cases htarget : target = []
  · simp [buildWhy, hq, whyPart, ht.rule, ht.unquote, hdepth, huntil, hfits, hasOf, htarget, Stmt.built]
  · simp [buildWhy, hq, whyPart, ht.rule, ht.unquote, hdepth, huntil, hfits, hsecond, hasOf, htarget, Stmt.built,
      Stmt.lower, Option.map_eq_bind, Option.bind_assoc]

theorem community_build {node : Str} {leiden : Bool} (h : (Stmt.community node leiden asOf).Reads q) :
    (buildCommunity q).toOption = (Stmt.community node leiden asOf).built floats := by
  obtain ⟨-, t, l, a, hq, ht, hl, ha⟩ := h
  have hleiden : ∀ s : Locals, s.leiden = false → (l.foldlM communityPart s).toOption = some { s with leiden } := fun s hs => by
    rcases hl with ⟨rfl, rfl⟩ | ⟨rfl, k, rfl, hk⟩
    · simp [← hs]
    · simp [communityPart, hk]
  have hasOf := ha.addAsOf (k := communityPart) (fun l p hp => by simp [communityPart, hp])
  by_cases hnode : node = []
  · simp [buildCommunity, hq, communityPart, ht.rule, ht.unquote, hleiden, hasOf, hnode, Stmt.built]
  · simp [buildCommunity, hq, communityPart, ht.rule, ht.unquote, hleiden, hasOf, hnode, Stmt.built, Stmt.lower,
      Option.map_eq_bind, Option.bind_assoc]

theorem bare_build {make : Option Gql.AsOf → Gql.Stmt} (ha : Maybe AsOf.Reads asOf q.inner) :
    (buildBare make q).toOption = (fits AsOf.lower asOf).map make := by
  cases asOf with
  | none =>
    have hq : q.inner = [] := ha
    simp [buildBare, hq, fits]
  | some x =>
    obtain ⟨p, hq, hp⟩ := ha
    simp [buildBare, hq, hp.rule, hp.build, fits, Option.map_eq_bind, Option.bind_assoc]

end Forms

/-! ## Statements and queries -/

theorem ReadsSimulateOp.said {op : SimulateOp} (h : ReadsSimulateOp op p) :
    p.rule = .simulateOp ∧ (if removes p.text then SimulateOp.removeEdge else .addEdge) = op := by
  cases op with
  | addEdge =>
    have h : Word .simulateOp "ADD" p := h
    exact ⟨h.1, by rw [removes, eqIgnoreAsciiCase, h.lower_eq]; rfl⟩
  | removeEdge =>
    have h : Word .simulateOp "REMOVE" p := h
    exact ⟨h.1, by rw [removes, eqIgnoreAsciiCase, h.lower_eq]; rfl⟩

theorem buildStmt_inner {i : Pair Rule} (h : p.inner = [i]) : buildStmt floats p = buildStmt floats (.mk .stmt [] [i]) := by
  obtain ⟨r, t, inner⟩ := p
  obtain ⟨form, text, parts⟩ := i
  obtain rfl : inner = _ := h
  rfl

/-- **What `build_stmt` makes of a statement**, whatever it is nested in. -/
theorem Stmt.Reads.build {w : Stmt} : ∀ {i : Pair Rule}, w.Reads i →
    (buildStmt floats (.mk .stmt [] [i])).toOption = w.built floats := by
  induction w with
  | simulate op from_ to_ etype then_ ih =>
    rintro ⟨form, text, parts⟩ ⟨rfl, o, t, u, v, s, rfl, ho, ht, hu, hv, hs, x, hx, hthen⟩
    obtain ⟨hrule, hsaid⟩ := ho.said
    have hbuilt : (buildStmt floats s).toOption = then_.built floats := by
      rw [buildStmt_inner hx]
      exact ih hthen
    have hparts : (simulateParts floats .addEdge [] none [o, t, u, v, s]).toOption =
        (then_.built floats).map (fun b => (op, [from_, to_, etype], some b)) := by
      simp [simulateParts, hrule, hsaid, ht.rule, ht.unquote, hu.rule, hu.unquote, hv.rule, hv.unquote, hs, hbuilt,
        Option.map_eq_bind]
    rw [buildStmt, Except.toOption_bind, hparts]
    cases h : then_.built floats with
    | none => simp [Stmt.built, h]
    | some b => simp [Stmt.built, h]
  | «match» m =>
    rintro ⟨form, text, parts⟩ ⟨rfl, hm⟩
    rw [buildStmt, Except.toOption_map, hm.build]
    rfl
  | create c =>
    rintro ⟨form, text, parts⟩ ⟨rfl, hc⟩
    rw [buildStmt, Except.toOption_map, hc.build]
    rfl
  | «recall» text k asOf =>
    rintro ⟨form, t, parts⟩ h
    obtain rfl := h.1
    rw [buildStmt]
    exact recall_build h
  | nearest vector k asOf =>
    rintro ⟨form, t, parts⟩ h
    obtain rfl := h.1
    rw [buildStmt]
    exact nearest_build h
  | provenance id =>
    rintro ⟨form, t, parts⟩ h
    obtain rfl := h.1
    rw [buildStmt]
    exact provenance_build h
  | neighbors node etype asOf =>
    rintro ⟨form, t, parts⟩ h
    obtain rfl := h.1
    rw [buildStmt]
    exact neighbors_build h
  | traverse start maxDepth asOf =>
    rintro ⟨form, t, parts⟩ h
    obtain rfl := h.1
    rw [buildStmt]
    exact traverse_build h
  | fuse text vector node k asOf =>
    rintro ⟨form, t, parts⟩ h
    obtain rfl := h.1
    rw [buildStmt]
    exact fuse_build h
  | hypotheses from_ to_ etype asOf =>
    rintro ⟨form, t, parts⟩ h
    obtain rfl := h.1
    rw [buildStmt]
    exact hypotheses_build h
  | why target maxDepth until_ asOf =>
    rintro ⟨form, t, parts⟩ h
    obtain rfl := h.1
    rw [buildStmt]
    exact why_build h
  | community node leiden asOf =>
    rintro ⟨form, t, parts⟩ h
    obtain rfl := h.1
    rw [buildStmt]
    exact community_build h
  | resolve key asOf =>
    rintro ⟨form, text, parts⟩ ⟨rfl, t, a, hq, ht, ha⟩
    rw [buildStmt, buildResolve]
    exact one_build hq ht ha
  | cluster entity asOf =>
    rintro ⟨form, text, parts⟩ ⟨rfl, t, a, hq, ht, ha⟩
    rw [buildStmt, buildCluster]
    exact one_build hq ht ha
  | metrics node asOf =>
    rintro ⟨form, text, parts⟩ ⟨rfl, t, a, hq, ht, ha⟩
    rw [buildStmt, buildMetrics]
    exact one_build hq ht ha
  | decide asOf =>
    rintro ⟨form, text, parts⟩ ⟨rfl, ha⟩
    rw [buildStmt, buildDecide]
    exact bare_build ha
  | adapt asOf =>
    rintro ⟨form, text, parts⟩ ⟨rfl, ha⟩
    rw [buildStmt, buildAdapt]
    exact bare_build ha

def Query.built (floats : Floats) (q : Query) : Option Gql.Query := do
  let requireLsn ← fits parseU64 q.requireLsn
  let stmt ← q.stmt.built floats
  return { explain := q.explain, requireLsn, stmt }

theorem Query.Reads.build {w : Query} (h : w.Reads p) : (buildQuery floats p).toOption = w.built floats := by
  obtain ⟨e, r, s, i, f, hp, he, hr, hs, hi, hstmt, hf⟩ := h
  have hbuilt : (buildStmt floats s).toOption = w.stmt.built floats := by
    rw [buildStmt_inner hi]
    exact hstmt.build
  obtain ⟨explain, requireLsn, stmt⟩ := w
  cases requireLsn with
  | none =>
    obtain rfl := hr
    rcases he with ⟨rfl, rfl⟩ | ⟨rfl, k, rfl, hk⟩
    · simp [buildQuery, hp, hs, hf, hbuilt, Query.built, fits]
    · simp [buildQuery, hp, hk, hs, hf, hbuilt, Query.built, fits]
  | some n =>
    obtain ⟨m, rfl, hm, x, hx, hint, rfl⟩ := hr
    rcases he with ⟨rfl, rfl⟩ | ⟨rfl, k, rfl, hk⟩
    · simp [buildQuery, hp, hm, hx, hint, hs, hf, hbuilt, Query.built, fits, Option.map_eq_bind, Option.bind_assoc]
    · simp [buildQuery, hp, hk, hm, hx, hint, hs, hf, hbuilt, Query.built, fits, Option.map_eq_bind, Option.bind_assoc]

/-! ## What is kept -/

section Kept

variable (floats)

/-- What the code makes of a statement is what it says, or a refusal of an empty identifier. -/
def Stmt.Kept (w : Stmt) : Prop := w.built floats = w.lower floats ∨ w.built floats = none ∧ w.missing

theorem Stmt.Kept.of_guard {w : Stmt} {id : Str} (hmissing : w.missing ↔ id = [])
    (hbuilt : w.built floats = if id = [] then none else w.lower floats) : w.Kept floats := by
  by_cases h : id = []
  · exact Or.inr ⟨by rw [hbuilt, if_pos h], hmissing.2 h⟩
  · exact Or.inl (by rw [hbuilt, if_neg h])

theorem neighbors_kept_iff (node : Str) (etype : Option Str) (asOf : Option AsOf) :
    (Stmt.neighbors node etype asOf).Kept floats ↔
      ((Stmt.neighbors node etype asOf).lower floats ≠ none → ¬ (Stmt.neighbors node etype asOf).shifted) := by
  by_cases hshifted : (Stmt.neighbors node etype asOf).shifted
  · obtain ⟨rfl, e, rfl, he⟩ := hshifted
    have hbuilt : (Stmt.neighbors [] (some e) asOf).built floats = (fits AsOf.lower asOf).map (.neighbors e none) := by
      rw [Stmt.built, if_pos rfl]
      exact if_neg he
    rw [Stmt.Kept, hbuilt, Stmt.lower]
    cases fits AsOf.lower asOf with
    | none => exact ⟨fun _ h => (h rfl).elim, fun _ => Or.inl rfl⟩
    | some x =>
      -- the edge type stands in the node's field
      refine ⟨fun h => ?_, fun h => (h nofun ⟨rfl, e, rfl, he⟩).elim⟩
      rcases h with h | ⟨h, -⟩
      · injection h with h
        injection h with _ hetype _
        cases hetype
      · cases h
  · refine ⟨fun _ _ => hshifted, fun _ => ?_⟩
    by_cases hnode : node = []
    · refine Or.inr ⟨?_, hnode⟩
      cases etype with
      | none => rw [Stmt.built, if_pos hnode, Option.bind_none]
      | some e =>
        have he : e = [] := by
          by_contra he
          exact hshifted ⟨hnode, e, rfl, he⟩
        rw [Stmt.built, if_pos hnode]
        exact if_pos he
    · exact Or.inl (by rw [Stmt.built, if_neg hnode, Stmt.lower])

theorem fuse_kept_iff (text : Str) (vector : List Str) (node k : Str) (asOf : Option AsOf) :
    (Stmt.fuse text vector node k asOf).Kept floats ↔
      ((Stmt.fuse text vector node k asOf).lower floats ≠ none → ¬ (Stmt.fuse text vector node k asOf).shifted) := by
  by_cases hshifted : (Stmt.fuse text vector node k asOf).shifted
  · -- the anchor stands in the text's field, and is missed
    have hbuilt : (Stmt.fuse text vector node k asOf).built floats = none := by
      rw [Stmt.built, if_pos (Or.inl hshifted.1)]
    have hpresent : ¬ (Stmt.fuse text vector node k asOf).missing := hshifted.2
    rw [Stmt.Kept, hbuilt]
    refine ⟨fun h hlower => ?_, fun h => Or.inl ?_⟩
    · rcases h with h | ⟨-, h⟩
      · exact (hlower h.symm).elim
      · exact (hpresent h).elim
    · by_contra hlower
      exact h (Ne.symm hlower) hshifted
  · refine ⟨fun _ _ => hshifted, fun _ => ?_⟩
    by_cases hempty : text = [] ∨ node = []
    · refine Or.inr ⟨by rw [Stmt.built, if_pos hempty], ?_⟩
      rcases hempty with htext | hnode
      · by_contra hnode
        exact hshifted ⟨htext, hnode⟩
      · exact hnode
    · exact Or.inl (by rw [Stmt.built, if_neg hempty])

/-- **Which statements keep their literals**: those without an empty literal in front of one that takes its field. -/
theorem Stmt.kept_iff (w : Stmt) : w.Kept floats ↔ (w.lower floats ≠ none → ¬ w.shifted) := by
  have hguard : ∀ {w : Stmt}, ¬ w.shifted → w.Kept floats → (w.Kept floats ↔ (w.lower floats ≠ none → ¬ w.shifted)) :=
    fun hshifted h => ⟨fun _ _ => hshifted, fun _ => h⟩
  induction w with
  | neighbors node etype asOf => exact neighbors_kept_iff floats node etype asOf
  | fuse text vector node k asOf => exact fuse_kept_iff floats text vector node k asOf
  | simulate op from_ to_ etype then_ ih =>
    have hinj : Function.Injective (Option.map (Gql.Stmt.simulate op from_ to_ etype)) :=
      Option.map_injective (fun _ _ h => (Gql.Stmt.simulate.inj h).2.2.2.2)
    have hkept : (Stmt.simulate op from_ to_ etype then_).Kept floats ↔ then_.Kept floats :=
      or_congr hinj.eq_iff (and_congr_left' Option.map_eq_none_iff)
    have hlower : (Stmt.simulate op from_ to_ etype then_).lower floats ≠ none ↔ then_.lower floats ≠ none :=
      not_congr Option.map_eq_none_iff
    exact (hkept.trans ih).trans (imp_congr hlower.symm Iff.rfl)
  | traverse start maxDepth asOf => exact hguard id (.of_guard floats Iff.rfl rfl)
  | resolve key asOf => exact hguard id (.of_guard floats Iff.rfl rfl)
  | cluster entity asOf => exact hguard id (.of_guard floats Iff.rfl rfl)
  | why target maxDepth until_ asOf => exact hguard id (.of_guard floats Iff.rfl rfl)
  | community node leiden asOf => exact hguard id (.of_guard floats Iff.rfl rfl)
  | metrics node asOf => exact hguard id (.of_guard floats Iff.rfl rfl)
  | _ => exact hguard id (Or.inl rfl)

theorem Stmt.built_none (w : Stmt) (h : w.lower floats = none) : w.built floats = none := by
  rcases (w.kept_iff floats).2 (fun hlower => (hlower h).elim) with hbuilt | ⟨hbuilt, -⟩
  · rw [hbuilt, h]
  · exact hbuilt

theorem Query.kept_iff {w : Query} (h : w.Reads p) :
    w.Kept floats (buildQuery floats p) ↔ (w.lower floats ≠ none → ¬ w.stmt.shifted) := by
  obtain ⟨explain, requireLsn, stmt⟩ := w
  have hbuilt : (buildQuery floats p).toOption = Query.built floats ⟨explain, requireLsn, stmt⟩ := h.build
  -- what does not fit is refused
  have hrefused : Query.built floats ⟨explain, requireLsn, stmt⟩ = none → Query.lower floats ⟨explain, requireLsn, stmt⟩ = none →
      (Query.Kept floats ⟨explain, requireLsn, stmt⟩ (buildQuery floats p) ↔
        (Query.lower floats ⟨explain, requireLsn, stmt⟩ ≠ none → ¬ stmt.shifted)) := fun hnone hlower => by
    rw [hnone] at hbuilt
    exact ⟨fun _ h => (h hlower).elim, fun _ => Or.inr ⟨Except.toOption_eq_none.1 hbuilt, Or.inl hlower⟩⟩
  cases hlsn : fits parseU64 requireLsn with
  | none => exact hrefused (by rw [Query.built, hlsn]; rfl) (by rw [Query.lower, hlsn]; rfl)
  | some n =>
    have hmade : Query.built floats ⟨explain, requireLsn, stmt⟩ = (stmt.built floats).map (fun s => ⟨explain, n, s⟩) := by
      simp [Query.built, hlsn, Option.map_eq_bind]
    have hwritten : Query.lower floats ⟨explain, requireLsn, stmt⟩ = (stmt.lower floats).map (fun s => ⟨explain, n, s⟩) := by
      simp [Query.lower, hlsn, Option.map_eq_bind]
    cases hlower : stmt.lower floats with
    | none =>
      have hnone : stmt.built floats = none := stmt.built_none floats hlower
      exact hrefused (by rw [hmade, hnone]; rfl) (by rw [hwritten, hlower]; rfl)
    | some s =>
      have hiff := stmt.kept_iff floats
      rw [Stmt.Kept, hlower] at hiff
      have hkept : Query.Kept floats ⟨explain, requireLsn, stmt⟩ (buildQuery floats p) ↔
          stmt.built floats = some s ∨ stmt.built floats = none ∧ stmt.missing := by
        rw [Query.Kept, hwritten, hlower]
        rw [hmade] at hbuilt
        cases hb : stmt.built floats with
        | none =>
          rw [hb] at hbuilt
          obtain ⟨e, he⟩ := Except.toOption_eq_none.1 hbuilt
          simp [he]
        | some b =>
          rw [hb] at hbuilt
          simp [Except.toOption_eq_some hbuilt, eq_comm]
      rw [hkept, hiff, hwritten, hlower]
      simp

end Kept

/-- **Literals keep their argument positions**: of every accepted text, and of every way to read it, the lowering keeps each
literal in the field of its position, or refuses a number that does not fit or an empty identifier, exactly when no empty literal
stands in front of one that takes its field. -/
theorem literals_kept_iff (floats : Floats) {text : List Char} (h : Accepts text p) : (∃ q : Query, q.Reads p) ∧
    ∀ q : Query, q.Reads p → (q.Kept floats (buildQuery floats p) ↔ (q.lower floats ≠ none → ¬ q.stmt.shifted)) :=
  ⟨Query.of_accepts h, fun _ hq => Query.kept_iff floats hq⟩

/-! ## An empty node before an edge type -/

/-- `NEIGHBORS("node", "etype")`, and its pairs. -/
def neighborsText (node etype : Str) : Str := "NEIGHBORS(\"".toList ++ (node ++ ("\", \"".toList ++ (etype ++ "\")".toList)))

def literal (s : Str) : Pair Rule := .mk .string ('"' :: (s ++ ['"'])) []

def neighborsPair (node etype : Str) : Pair Rule :=
  .mk .query (neighborsText node etype) [
    .mk .stmt (neighborsText node etype) [.mk .neighborsStmt (neighborsText node etype) [literal node, literal etype]],
    .mk .eoi [] []]

def neighborsQuery (node etype : Str) : Query where
  explain := false
  requireLsn := none
  stmt := .neighbors node (some etype) none

theorem neighborsQuery_reads {node etype : Str} (hnode : '"' ∉ node) (hetype : '"' ∉ etype) :
    (neighborsQuery node etype).Reads (neighborsPair node etype) :=
  ⟨[], [], _, _, _, rfl, Or.inl ⟨rfl, rfl⟩, rfl, rfl, rfl,
    ⟨rfl, _, [literal etype], [], rfl, ⟨⟨rfl, rfl⟩, hnode⟩, ⟨_, rfl, ⟨rfl, rfl⟩, hetype⟩, rfl⟩, rfl⟩

/-- No number is read. -/
def noFloats : Floats := { parseF32 := fun _ => none, parseF64 := fun _ => none }

/-- The edge type of `NEIGHBORS("", "x")` becomes its node. -/
theorem empty_node_shifts : ¬ ∀ (floats : Floats) (text : List Char) (p : Pair Rule), Accepts text p → ∀ q : Query, q.Reads p →
    q.Kept floats (buildQuery floats p) := by
  intro h
  have haccepts : Accepts (neighborsText [] ['x']) (neighborsPair [] ['x']) := ⟨[], 60, rfl⟩
  have hbuilt : buildQuery noFloats (neighborsPair [] ['x']) =
      .ok { explain := false, requireLsn := none, stmt := .neighbors ['x'] none none } := by
    decide +kernel
  rcases h noFloats _ _ haccepts _ (neighborsQuery_reads (by decide) (by decide)) with ⟨a, ha, hlower⟩ | ⟨⟨e, he⟩, -⟩
  · rw [hbuilt] at ha
    cases ha
    cases hlower
  · rw [hbuilt] at he
    cases he

/-- `NEIGHBORS("n", "x")` keeps both. -/
theorem named_node_kept : (neighborsQuery ['n'] ['x']).Kept noFloats (buildQuery noFloats (neighborsPair ['n'] ['x'])) :=
  have haccepts : Accepts (neighborsText ['n'] ['x']) (neighborsPair ['n'] ['x']) := ⟨[], 60, rfl⟩
  ((literals_kept_iff noFloats haccepts).2 _ (neighborsQuery_reads (by decide) (by decide))).2 (fun _ h => absurd h.1 (by decide))

end Written
end Gql
end Heraclitus
