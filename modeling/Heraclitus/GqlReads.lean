import Heraclitus.GqlWritten
/-!
# GqlReads — what the grammar accepts is a written query

A text between quotes has no quote, a name is not empty and has no dot; from rule to rule the shape of the pairs gives the
parts of a written query.
-/
namespace Heraclitus
namespace Gql
namespace Written

open Peg
open Heraclitus.Query (BoolOp DistKind Cmp)
open Temporal (SimulateOp)

variable {size : Nat} {p : Pair Rule} {s rest : List Char} {ps : List (Pair Rule)}

/-! ## Terminals -/

theorem Quoted.of_tree (h : Tree gql size .string p) : ∃ s, Quoted s p := by
  obtain ⟨s, rest, h, hs, hrule⟩ := h
  obtain ⟨_, r₁, _, hopen, h, -⟩ := h.seq
  obtain ⟨_, r₂, _, hbody, hclose, -⟩ := h.seq
  rw [Grammar.skip_of_ne (by decide)] at hbody hclose
  obtain ⟨m, rfl, hm⟩ : ∃ m, r₁ = m ++ r₂ ∧ '"' ∉ m := by
    refine hbody.star_free (by decide) (fun s p rest hone => ?_)
    obtain ⟨_, _, _, hno, hchar, -⟩ := hone.seq
    obtain ⟨hquote, rfl, -⟩ := hno.no_str
    rw [Grammar.skip_of_ne (by decide)] at hchar
    obtain ⟨c, rfl, -⟩ := hchar.char
    refine ⟨[c], rfl, fun hmem => ?_⟩
    obtain rfl := List.mem_singleton.1 hmem
    exact hquote (List.prefix_append ['"'] _)
  obtain ⟨rfl, -⟩ := hclose.str
  have htext : p.text ++ rest = '"' :: (m ++ ['"']) ++ rest := by
    rw [← hs, hopen.str.1]
    simp
  exact ⟨m, ⟨hrule, List.append_cancel_right htext⟩, hm⟩

theorem inside_ident (ctx : Context) : (gql.kind .ident).inside ctx = .silent := rfl

theorem ident_text {ctx : Context} (h : Parses gql size ctx (.rule .ident) s ps rest) :
    ∃ w, s = w ++ rest ∧ w ≠ [] ∧ '.' ∉ w := by
  obtain ⟨_, h, -⟩ := h.rule
  rw [inside_ident] at h
  obtain ⟨_, r₁, _, hfirst, hrest, -⟩ := h.seq
  rw [Grammar.skip_of_ne (by decide)] at hrest
  obtain ⟨c, rfl, hc, -⟩ := hfirst.char
  obtain ⟨m, rfl, hm⟩ : ∃ m, r₁ = m ++ rest ∧ '.' ∉ m := by
    refine hrest.star_free (by decide) (fun s p rest hone => ?_)
    rcases hone.alt with hone | hone
    · obtain ⟨d, rfl, hd, -⟩ := hone.char
      refine ⟨[d], rfl, fun hmem => ?_⟩
      obtain rfl := List.mem_singleton.1 hmem
      exact absurd hd (by decide)
    · exact ⟨['_'], hone.str.1, by decide⟩
  refine ⟨c :: m, rfl, List.cons_ne_nil _ _, fun hmem => ?_⟩
  rcases List.mem_cons.1 hmem with rfl | hmem
  · exact absurd hc (by decide)
  · exact hm hmem

theorem Ident.of_tree (h : Tree gql size .ident p) : ∃ name, Ident name p := by
  obtain ⟨s, rest, ⟨fuel, h⟩, hs, hrule⟩ := h
  have hparses : Parses gql size .spaced (.rule .ident) s (emit .spaced .ident (s.take (s.length - rest.length)) p.inner) rest :=
    ⟨fuel + 1, by rw [run, h]⟩
  obtain ⟨w, hw, hne, -⟩ := ident_text hparses
  exact ⟨w, ⟨hrule, List.append_cancel_right (hs.symm.trans hw)⟩, hne⟩

theorem Dotted.of_tree (h : Tree gql size .prop p) : ∃ var field, Dotted var field p := by
  obtain ⟨s, rest, h, hs, hrule⟩ := h
  obtain ⟨_, r₁, _, hvar, h, -⟩ := h.seq
  rw [Grammar.skip_of_ne (by decide)] at h
  obtain ⟨_, r₂, _, hdot, hfield, -⟩ := h.seq
  rw [Grammar.skip_of_ne (by decide)] at hfield
  obtain ⟨var, rfl, -, hnodot⟩ := ident_text hvar
  obtain ⟨rfl, -⟩ := hdot.str
  obtain ⟨field, rfl, -, -⟩ := ident_text hfield
  have htext : p.text ++ rest = var ++ '.' :: field ++ rest := by
    rw [← hs]
    simp
  exact ⟨var, field, ⟨hrule, List.append_cancel_right htext⟩, hnodot⟩

theorem Leaf.of_tree {r : Rule} (h : Tree gql size r p) : ∃ text, Leaf r text p :=
  ⟨p.text, h.rule_eq, rfl⟩

theorem Word.of_tree {r : Rule} (words : List String) (hbody : gql.body r = .any (words.map kw)) (h : Tree gql size r p) :
    ∃ word ∈ words, Word r word p := by
  obtain ⟨s, rest, h, rfl, hrule⟩ := h
  rw [hbody] at h
  obtain ⟨e, he, h⟩ := h.any
  obtain ⟨word, hword, rfl⟩ := List.mem_map.1 he
  obtain ⟨m, hm, hcase, -⟩ := h.insens
  have htext : p.text = m := List.append_cancel_right hm
  refine ⟨word, hword, hrule, ?_⟩
  rw [eqIgnoreAsciiCase, htext, hcase]
  exact beq_self_eq_true _

theorem cmp_of_tree (h : Tree gql size .cmp p) : ∃ c, Leaf .cmp (symbol c).toList p := by
  obtain ⟨s, rest, h, rfl, hrule⟩ := h
  have hany : ∃ c, Parses gql size .spaced (lit (symbol c)) (p.text ++ rest) p.inner rest := by
    rcases h.alt with h | h
    · exact ⟨.ne, h⟩
    rcases h.alt with h | h
    · exact ⟨.ge, h⟩
    rcases h.alt with h | h
    · exact ⟨.le, h⟩
    rcases h.alt with h | h
    · exact ⟨.eq, h⟩
    rcases h.alt with h | h
    · exact ⟨.gt, h⟩
    · exact ⟨.lt, h⟩
  obtain ⟨c, h⟩ := hany
  exact ⟨c, hrule, List.append_cancel_right h.str.1⟩

theorem readsOp_of_tree (h : Tree gql size .boolOp p) : ∃ op, ReadsOp op p := by
  obtain ⟨word, hmem, hword⟩ := Word.of_tree ["AND", "OR"] rfl h
  rcases List.mem_pair.1 hmem with rfl | rfl
  · exact ⟨.and, hword⟩
  · exact ⟨.or, hword⟩

theorem readsDirection_of_tree (h : Tree gql size .direction p) : ∃ asc, ReadsDirection asc p := by
  obtain ⟨word, hmem, hword⟩ := Word.of_tree ["ASC", "DESC"] rfl h
  rcases List.mem_pair.1 hmem with rfl | rfl
  · exact ⟨true, hword⟩
  · exact ⟨false, hword⟩

theorem readsSimulateOp_of_tree (h : Tree gql size .simulateOp p) : ∃ op, ReadsSimulateOp op p := by
  obtain ⟨word, hmem, hword⟩ := Word.of_tree ["ADD", "REMOVE"] rfl h
  rcases List.mem_pair.1 hmem with rfl | rfl
  · exact ⟨.addEdge, hword⟩
  · exact ⟨.removeEdge, hword⟩

theorem keyword_of_tree (h : Tree gql size .distKind p) : ∃ kind, Word .distKind (keyword kind) p := by
  obtain ⟨word, hmem, hword⟩ := Word.of_tree ["DIST_PRODUCT", "DIST_HYP", "DIST_SPH", "DIST_EUC"] rfl h
  simp only [List.mem_cons, List.not_mem_nil, or_false] at hmem
  rcases hmem with rfl | rfl | rfl | rfl
  · exact ⟨.product, hword⟩
  · exact ⟨.hyp, hword⟩
  · exact ⟨.sph, hword⟩
  · exact ⟨.euc, hword⟩

/-! ## Parts that may be left out, and parts that repeat -/

section

variable {α : Type} {R : α → Pair Rule → Prop} {r : Rule}

theorem Maybe.of_opt (hR : ∀ {p}, Tree gql size r p → ∃ a, R a p) (h : Shape (Tree gql size) (.opt (.rule r)) ps) :
    ∃ o, Maybe R o ps := by
  rcases h with rfl | ⟨p, rfl, hp⟩
  · exact ⟨none, rfl⟩
  · obtain ⟨a, ha⟩ := hR hp
    exact ⟨some a, p, rfl, ha⟩

theorem Maybe.of_marked (mark : Peg Rule) (hmark : ∀ ps, Shape (Tree gql size) mark ps → ps = [])
    (hR : ∀ {p}, Tree gql size r p → ∃ a, R a p) (h : Shape (Tree gql size) (.opt (.all [mark, .rule r])) ps) : ∃ o, Maybe R o ps := by
  rcases h with rfl | ⟨q, _, rfl, hq, p, rfl, hp⟩
  · exact ⟨none, rfl⟩
  · obtain rfl := hmark q hq
    obtain ⟨a, ha⟩ := hR hp
    exact ⟨some a, p, rfl, ha⟩

theorem exists_forall₂ : ∀ {ps : List (Pair Rule)}, (∀ p ∈ ps, ∃ a, R a p) → ∃ as, List.Forall₂ R as ps
  | [], _ => ⟨[], .nil⟩
  | p :: ps, h => by
    obtain ⟨a, ha⟩ := h p List.mem_cons_self
    obtain ⟨as, has⟩ := exists_forall₂ (fun q hq => h q (List.mem_cons_of_mem p hq))
    exact ⟨a :: as, .cons ha has⟩

/-- A list with commas. -/
theorem exists_commas (hR : ∀ {p}, Tree gql size r p → ∃ a, R a p) {ps : List (Pair Rule)} (hp : Tree gql size r p)
    (h : Shape (Tree gql size) (.star (.all [lit ",", .rule r])) ps) : ∃ a as, List.Forall₂ R (a :: as) (p :: ps) := by
  obtain ⟨pss, rfl, hall⟩ := h
  obtain ⟨a, ha⟩ := hR hp
  have hread : ∀ q ∈ pss.flatten, ∃ a, R a q := fun q hq => by
    obtain ⟨l, hl, hq⟩ := List.mem_flatten.1 hq
    obtain ⟨_, _, rfl, rfl, q', rfl, hq'⟩ := hall l hl
    obtain rfl := List.mem_singleton.1 hq
    exact hR hq'
  obtain ⟨as, has⟩ := exists_forall₂ hread
  exact ⟨a, as, .cons ha has⟩

end

/-! ## The parts -/

theorem AsOf.of_tree (h : Tree gql size .asOf p) : ∃ a : AsOf, a.Reads p := by
  obtain ⟨_, _, hp, rfl, _, _, rfl, rfl, ⟨q, rfl, hq⟩ | ⟨q, rfl, hq⟩⟩ := h.shape rfl
  · obtain ⟨_, _, hinner, rfl, n, rfl, hn⟩ := hq.shape rfl
    exact ⟨.lsn n.text, h.rule_eq, q, n, hp, hq.rule_eq, hinner, hn.rule_eq, rfl⟩
  · obtain ⟨_, _, hinner, rfl, n, rfl, hn⟩ := hq.shape rfl
    exact ⟨.timestamp n.text, h.rule_eq, q, n, hp, hq.rule_eq, hinner, hn.rule_eq, rfl⟩

theorem readsVector_of_tree (h : Tree gql size .vector p) : ∃ v, ReadsVector v p ∧ v ≠ [] := by
  obtain ⟨_, _, hp, rfl, _, _, rfl, ⟨n, rfl, hn⟩, _, _, rfl, hcommas, rfl⟩ := h.shape rfl
  obtain ⟨a, as, has⟩ := exists_commas Leaf.of_tree hn hcommas
  refine ⟨a :: as, ⟨h.rule_eq, ?_⟩, List.cons_ne_nil _ _⟩
  rw [hp, List.append_nil]
  exact has

theorem Dist.of_tree (h : Tree gql size .distFn p) : ∃ d : Dist, d.Reads p := by
  obtain ⟨_, _, hp, ⟨k, rfl, hk⟩, _, _, rfl, rfl, _, _, rfl, ⟨v, rfl, hv⟩, rfl⟩ := h.shape rfl
  obtain ⟨kind, hkind⟩ := keyword_of_tree hk
  obtain ⟨vector, hvector, hne⟩ := readsVector_of_tree hv
  exact ⟨⟨kind, vector⟩, h.rule_eq, k, v, hp, hkind, hvector, hne⟩

theorem Operand.of_tree (h : Tree gql size .operand p) : ∃ o : Operand, o.Reads p := by
  rcases h.shape rfl with ⟨q, hp, hq⟩ | ⟨q, hp, hq⟩ | ⟨q, hp, hq⟩ | ⟨q, hp, hq⟩ | ⟨q, hp, hq⟩
  · obtain ⟨d, hd⟩ := Dist.of_tree hq
    exact ⟨.dist d, h.rule_eq, q, hp, hd⟩
  · obtain ⟨var, field, hprop⟩ := Dotted.of_tree hq
    exact ⟨.prop var field, h.rule_eq, q, hp, hprop⟩
  · exact ⟨.number q.text, h.rule_eq, q, hp, hq.rule_eq, rfl⟩
  · obtain ⟨s, hs⟩ := Quoted.of_tree hq
    exact ⟨.string s, h.rule_eq, q, hp, hs⟩
  · obtain ⟨name, hname⟩ := Ident.of_tree hq
    exact ⟨.ident name, h.rule_eq, q, hp, hname⟩

theorem Condition.of_tree (h : Tree gql size .condition p) : ∃ c : Condition, c.Reads p := by
  obtain ⟨_, _, hp, ⟨l, rfl, hl⟩, _, _, rfl, ⟨o, rfl, ho⟩, r, rfl, hr⟩ := h.shape rfl
  obtain ⟨lhs, hlhs⟩ := Operand.of_tree hl
  obtain ⟨cmp, hcmp⟩ := cmp_of_tree ho
  obtain ⟨rhs, hrhs⟩ := Operand.of_tree hr
  exact ⟨⟨lhs, cmp, rhs⟩, h.rule_eq, l, o, r, hp, hlhs, hcmp, hrhs⟩

theorem readsWhere_of_tree (h : Tree gql size .whereClause p) : ∃ w, ReadsWhere w p := by
  obtain ⟨_, _, hp, rfl, _, _, rfl, ⟨q, rfl, hq⟩, pss, rfl, hall⟩ := h.shape rfl
  obtain ⟨c, hc⟩ := Condition.of_tree hq
  have hrest : ∃ rest, ReadsConditions rest pss.flatten := by
    clear hp
    induction pss with
    | nil => exact ⟨[], rfl⟩
    | cons l pss ih =>
      obtain ⟨rest, hrest⟩ := ih (fun l hl => hall l (List.mem_cons_of_mem _ hl))
      obtain ⟨_, _, rfl, ⟨o, rfl, ho⟩, q, rfl, hq⟩ := hall l List.mem_cons_self
      obtain ⟨op, hop⟩ := readsOp_of_tree ho
      obtain ⟨c, hc⟩ := Condition.of_tree hq
      exact ⟨(op, c) :: rest, o, q, pss.flatten, rfl, hop, hc, hrest⟩
  obtain ⟨rest, hrest⟩ := hrest
  exact ⟨(c, rest), h.rule_eq, q, pss.flatten, hp, hc, hrest⟩

theorem Name.of_tree {r : Rule} {opening closing : String} (hkind : gql.kind r = .normal)
    (hbody : gql.body r = .all [lit opening, .rule .ident, .opt (.all [lit ":", .rule .ident]), lit closing])
    (h : Tree gql size r p) : ∃ n : Name, n.Reads r p := by
  have hshape := h.shape hkind
  rw [hbody] at hshape
  obtain ⟨_, _, hp, rfl, _, _, rfl, ⟨q, rfl, hq⟩, _, _, rfl, hlabel, rfl⟩ := hshape
  obtain ⟨name, hname⟩ := Ident.of_tree hq
  obtain ⟨label, hlabel⟩ := Maybe.of_marked (lit ":") (fun _ h => h) Ident.of_tree hlabel
  refine ⟨⟨name, label⟩, h.rule_eq, q, _, hp, hname, ?_⟩
  rw [List.append_nil]
  exact hlabel

theorem readsPattern_of_tree (h : Tree gql size .pattern p) : ∃ node edge, ReadsPattern node edge p := by
  obtain ⟨_, _, hp, ⟨n, rfl, hn⟩, rfl | ⟨_, _, rfl, ⟨r, rfl, hr⟩, m, rfl, hm⟩⟩ := h.shape rfl
  · obtain ⟨node, hnode⟩ := Name.of_tree rfl rfl hn
    exact ⟨node, none, h.rule_eq, n, _, hp, hnode, rfl⟩
  · obtain ⟨node, hnode⟩ := Name.of_tree rfl rfl hn
    obtain ⟨rel, hrel⟩ := Name.of_tree rfl rfl hr
    obtain ⟨target, htarget⟩ := Name.of_tree rfl rfl hm
    exact ⟨node, some (rel, target), h.rule_eq, n, _, hp, hnode, r, m, rfl, hrel, htarget⟩

theorem readsItem_of_tree (h : Tree gql size .retItem p) : ∃ item, ReadsItem item p := by
  rcases h.shape rfl with ⟨q, hp, hq⟩ | ⟨q, hp, hq⟩ | ⟨q, hp, hq⟩
  · exact ⟨.star, h.rule_eq, q, hp, hq.rule_eq⟩
  · obtain ⟨var, field, hprop⟩ := Dotted.of_tree hq
    exact ⟨.prop var field, h.rule_eq, q, hp, hprop⟩
  · obtain ⟨name, hname⟩ := Ident.of_tree hq
    exact ⟨.ident name, h.rule_eq, q, hp, hname⟩

theorem readsReturn_of_tree (h : Tree gql size .returnClause p) : ∃ items, ReadsReturn items p := by
  obtain ⟨_, _, hp, rfl, _, _, rfl, ⟨q, rfl, hq⟩, hcommas⟩ := h.shape rfl
  obtain ⟨a, as, has⟩ := exists_commas readsItem_of_tree hq hcommas
  exact ⟨a :: as, h.rule_eq, hp ▸ has⟩

theorem readsOrderBy_of_tree (h : Tree gql size .orderBy p) : ∃ o, ReadsOrderBy o p := by
  obtain ⟨_, _, hp, rfl, _, _, rfl, rfl, _, _, rfl, hkey, hdirection⟩ := h.shape rfl
  obtain ⟨asc, hasc⟩ := Maybe.of_opt readsDirection_of_tree hdirection
  rcases hkey with ⟨q, rfl, hq⟩ | ⟨q, rfl, hq⟩ | ⟨q, rfl, hq⟩
  · obtain ⟨d, hd⟩ := Dist.of_tree hq
    exact ⟨(.dist d, asc), h.rule_eq, q, _, hp, hd, hasc⟩
  · obtain ⟨var, field, hprop⟩ := Dotted.of_tree hq
    exact ⟨(.prop var field, asc), h.rule_eq, q, _, hp, hprop, hasc⟩
  · obtain ⟨name, hname⟩ := Ident.of_tree hq
    exact ⟨(.ident name, asc), h.rule_eq, q, _, hp, hname, hasc⟩

theorem validAt_of_tree (h : Tree gql size .validAt p) : ∃ n, Number .validAt n p := by
  obtain ⟨_, _, hp, rfl, _, _, rfl, rfl, n, rfl, hn⟩ := h.shape rfl
  exact ⟨n.text, h.rule_eq, n, hp, hn.rule_eq, rfl⟩

theorem limit_of_tree (h : Tree gql size .limit p) : ∃ n, Number .limit n p := by
  obtain ⟨_, _, hp, rfl, n, rfl, hn⟩ := h.shape rfl
  exact ⟨n.text, h.rule_eq, n, hp, hn.rule_eq, rfl⟩

theorem require_of_tree (h : Tree gql size .require p) : ∃ n, Number .require n p := by
  obtain ⟨_, _, hp, rfl, _, _, rfl, rfl, _, _, rfl, rfl, n, rfl, hn⟩ := h.shape rfl
  exact ⟨n.text, h.rule_eq, n, hp, hn.rule_eq, rfl⟩

theorem MatchStmt.of_tree (h : Tree gql size .matchStmt p) : ∃ m : MatchStmt, m.Reads p.inner := by
  obtain ⟨_, _, hp, rfl, _, _, rfl, ⟨pat, rfl, hpat⟩, w, _, rfl, hw, v, _, rfl, hv, a, _, rfl, ha, _, _, rfl, ⟨r, rfl, hr⟩,
    o, l, rfl, ho, hl⟩ := h.shape rfl
  obtain ⟨node, edge, hpattern⟩ := readsPattern_of_tree hpat
  obtain ⟨where_, hwhere⟩ := Maybe.of_opt readsWhere_of_tree hw
  obtain ⟨validAt, hvalid⟩ := Maybe.of_opt validAt_of_tree hv
  obtain ⟨asOf, hasOf⟩ := Maybe.of_opt AsOf.of_tree ha
  obtain ⟨returns, hreturns⟩ := readsReturn_of_tree hr
  obtain ⟨orderBy, horder⟩ := Maybe.of_opt readsOrderBy_of_tree ho
  obtain ⟨limit, hlimit⟩ := Maybe.of_opt limit_of_tree hl
  exact ⟨⟨node, edge, where_, validAt, asOf, returns, orderBy, limit⟩, pat, w, v, a, r, o, l, hp, hpattern, hwhere, hvalid,
    hasOf, hreturns, horder, hlimit⟩

theorem readsDottedof_tree (h : Tree gql size .pair p) : ∃ x, ReadsProp x p := by
  obtain ⟨_, _, hp, ⟨k, rfl, hk⟩, _, _, rfl, rfl, ⟨v, rfl, hv⟩ | ⟨v, rfl, hv⟩⟩ := h.shape rfl
  · obtain ⟨key, hkey⟩ := Ident.of_tree hk
    obtain ⟨s, hs⟩ := Quoted.of_tree hv
    exact ⟨(key, .string s), h.rule_eq, k, v, hp, hkey, hs⟩
  · obtain ⟨key, hkey⟩ := Ident.of_tree hk
    exact ⟨(key, .number v.text), h.rule_eq, k, v, hp, hkey, hv.rule_eq, rfl⟩

theorem CreateStmt.of_tree (h : Tree gql size .createStmt p) : ∃ c : CreateStmt, c.Reads p.inner := by
  obtain ⟨_, _, hp, rfl, _, _, rfl, rfl, _, _, rfl, ⟨n, rfl, hn⟩, l, _, rfl, hl, qs, _, rfl, hprops, rfl⟩ := h.shape rfl
  obtain ⟨name, hname⟩ := Ident.of_tree hn
  obtain ⟨label, hlabel⟩ := Maybe.of_marked (lit ":") (fun _ h => h) Ident.of_tree hl
  have hread : ∃ props, ReadsProps props qs := by
    rcases hprops with rfl | ⟨q, rfl, hq⟩
    · exact ⟨[], Or.inl ⟨rfl, rfl⟩⟩
    · obtain ⟨_, _, hinner, rfl, _, _, rfl, ⟨x, rfl, hx⟩, _, _, rfl, hcommas, rfl⟩ := hq.shape rfl
      obtain ⟨a, as, has⟩ := exists_commas readsDottedof_tree hx hcommas
      refine ⟨a :: as, Or.inr ⟨q, rfl, hq.rule_eq, ?_⟩⟩
      rw [hinner, List.append_nil]
      exact has
  obtain ⟨props, hprops⟩ := hread
  refine ⟨⟨⟨name, label⟩, props⟩, n, l, qs, ?_, hname, hlabel, hprops⟩
  rw [hp, List.append_nil]
  rfl

/-! ## The forms -/

section

variable {q : Pair Rule}

theorem recall_of_tree (h : Tree gql size .recallStmt q) : ∃ w : Stmt, w.Reads q := by
  obtain ⟨_, _, hq, rfl, _, _, rfl, rfl, _, _, rfl, ⟨t, rfl, ht⟩, _, _, rfl, rfl, _, _, rfl, ⟨n, rfl, hn⟩, _, a, rfl, rfl,
    ha⟩ := h.shape rfl
  obtain ⟨text, htext⟩ := Quoted.of_tree ht
  obtain ⟨asOf, hasOf⟩ := Maybe.of_opt AsOf.of_tree ha
  exact ⟨.recall text n.text asOf, h.rule_eq, t, n, a, hq, htext, ⟨hn.rule_eq, rfl⟩, hasOf⟩

theorem nearest_of_tree (h : Tree gql size .nearestStmt q) : ∃ w : Stmt, w.Reads q := by
  obtain ⟨_, _, hq, rfl, _, _, rfl, rfl, _, _, rfl, ⟨v, rfl, hv⟩, _, _, rfl, rfl, _, _, rfl, ⟨n, rfl, hn⟩, _, a, rfl, rfl,
    ha⟩ := h.shape rfl
  obtain ⟨vector, hvector, -⟩ := readsVector_of_tree hv
  obtain ⟨asOf, hasOf⟩ := Maybe.of_opt AsOf.of_tree ha
  exact ⟨.nearest vector n.text asOf, h.rule_eq, v, n, a, hq, hvector, ⟨hn.rule_eq, rfl⟩, hasOf⟩

theorem provenance_of_tree (h : Tree gql size .provenanceStmt q) : ∃ w : Stmt, w.Reads q := by
  obtain ⟨_, _, hq, rfl, _, _, rfl, rfl, _, _, rfl, ⟨t, rfl, ht⟩, rfl⟩ := h.shape rfl
  obtain ⟨id, hid⟩ := Quoted.of_tree ht
  exact ⟨.provenance id, h.rule_eq, t, hq, hid⟩

theorem neighbors_of_tree (h : Tree gql size .neighborsStmt q) : ∃ w : Stmt, w.Reads q := by
  obtain ⟨_, _, hq, rfl, _, _, rfl, rfl, _, _, rfl, ⟨t, rfl, ht⟩, e, _, rfl, he, _, a, rfl, rfl, ha⟩ := h.shape rfl
  obtain ⟨node, hnode⟩ := Quoted.of_tree ht
  obtain ⟨etype, hetype⟩ := Maybe.of_marked (lit ",") (fun _ h => h) Quoted.of_tree he
  obtain ⟨asOf, hasOf⟩ := Maybe.of_opt AsOf.of_tree ha
  exact ⟨.neighbors node etype asOf, h.rule_eq, t, e, a, hq, hnode, hetype, hasOf⟩

theorem traverse_of_tree (h : Tree gql size .traverseStmt q) : ∃ w : Stmt, w.Reads q := by
  obtain ⟨_, _, hq, rfl, _, _, rfl, rfl, _, _, rfl, ⟨t, rfl, ht⟩, _, _, rfl, rfl, _, _, rfl, ⟨n, rfl, hn⟩, _, a, rfl, rfl,
    ha⟩ := h.shape rfl
  obtain ⟨start, hstart⟩ := Quoted.of_tree ht
  obtain ⟨asOf, hasOf⟩ := Maybe.of_opt AsOf.of_tree ha
  exact ⟨.traverse start n.text asOf, h.rule_eq, t, n, a, hq, hstart, ⟨hn.rule_eq, rfl⟩, hasOf⟩

theorem fuse_of_tree (h : Tree gql size .fuseStmt q) : ∃ w : Stmt, w.Reads q := by
  obtain ⟨_, _, hq, rfl, _, _, rfl, rfl, _, _, rfl, ⟨t, rfl, ht⟩, _, _, rfl, rfl, _, _, rfl, ⟨v, rfl, hv⟩, _, _, rfl, rfl, _, _,
    rfl, ⟨u, rfl, hu⟩, _, _, rfl, rfl, _, _, rfl, ⟨n, rfl, hn⟩, _, a, rfl, rfl, ha⟩ := h.shape rfl
  obtain ⟨text, htext⟩ := Quoted.of_tree ht
  obtain ⟨vector, hvector, -⟩ := readsVector_of_tree hv
  obtain ⟨node, hnode⟩ := Quoted.of_tree hu
  obtain ⟨asOf, hasOf⟩ := Maybe.of_opt AsOf.of_tree ha
  exact ⟨.fuse text vector node n.text asOf, h.rule_eq, t, v, u, n, a, hq, htext, hvector, hnode, ⟨hn.rule_eq, rfl⟩, hasOf⟩

/-- The forms of one string. -/
theorem one_of_tree {r : Rule} {word : String} (hkind : gql.kind r = .normal)
    (hbody : gql.body r = .all [kw word, lit "(", .rule .string, lit ")", .opt (.rule .asOf)]) (h : Tree gql size r q) :
    ∃ id asOf, q.rule = r ∧ ∃ t a, q.inner = t :: a ∧ Quoted id t ∧ Maybe AsOf.Reads asOf a := by
  have hshape := h.shape hkind
  rw [hbody] at hshape
  obtain ⟨_, _, hq, rfl, _, _, rfl, rfl, _, _, rfl, ⟨t, rfl, ht⟩, _, a, rfl, rfl, ha⟩ := hshape
  obtain ⟨id, hid⟩ := Quoted.of_tree ht
  obtain ⟨asOf, hasOf⟩ := Maybe.of_opt AsOf.of_tree ha
  exact ⟨id, asOf, h.rule_eq, t, a, hq, hid, hasOf⟩

theorem hypotheses_of_tree (h : Tree gql size .hypothesesStmt q) : ∃ w : Stmt, w.Reads q := by
  obtain ⟨_, _, hq, rfl, _, _, rfl, rfl, _, _, rfl, ⟨t, rfl, ht⟩, _, _, rfl, rfl, _, _, rfl, ⟨u, rfl, hu⟩, _, _, rfl, rfl, _, _,
    rfl, ⟨v, rfl, hv⟩, _, a, rfl, rfl, ha⟩ := h.shape rfl
  obtain ⟨from_, hfrom⟩ := Quoted.of_tree ht
  obtain ⟨to_, hto⟩ := Quoted.of_tree hu
  obtain ⟨etype, hetype⟩ := Quoted.of_tree hv
  obtain ⟨asOf, hasOf⟩ := Maybe.of_opt AsOf.of_tree ha
  exact ⟨.hypotheses from_ to_ etype asOf, h.rule_eq, t, u, v, a, hq, hfrom, hto, hetype, hasOf⟩

theorem why_of_tree (h : Tree gql size .whyStmt q) : ∃ w : Stmt, w.Reads q := by
  obtain ⟨_, _, hq, rfl, _, _, rfl, rfl, _, _, rfl, ⟨t, rfl, ht⟩, n, _, rfl, hn, _, _, rfl, rfl, u, a, rfl, hu, ha⟩ := h.shape rfl
  obtain ⟨target, htarget⟩ := Quoted.of_tree ht
  obtain ⟨maxDepth, hdepth⟩ := Maybe.of_marked (lit ",") (fun _ h => h) Leaf.of_tree hn
  obtain ⟨until_, huntil⟩ := Maybe.of_marked (kw "UNTIL") (fun _ h => h) Quoted.of_tree hu
  obtain ⟨asOf, hasOf⟩ := Maybe.of_opt AsOf.of_tree ha
  exact ⟨.why target maxDepth until_ asOf, h.rule_eq, t, n, u, a, hq, htarget, hdepth, huntil, hasOf⟩

theorem community_of_tree (h : Tree gql size .communityStmt q) : ∃ w : Stmt, w.Reads q := by
  obtain ⟨_, _, hq, rfl, _, _, rfl, rfl, _, _, rfl, ⟨t, rfl, ht⟩, l, _, rfl, hl, _, a, rfl, rfl, ha⟩ := h.shape rfl
  obtain ⟨node, hnode⟩ := Quoted.of_tree ht
  obtain ⟨asOf, hasOf⟩ := Maybe.of_opt AsOf.of_tree ha
  rcases hl with rfl | ⟨_, _, rfl, rfl, k, rfl, hk⟩
  · exact ⟨.community node false asOf, h.rule_eq, t, [], a, hq, hnode, Or.inl ⟨rfl, rfl⟩, hasOf⟩
  · exact ⟨.community node true asOf, h.rule_eq, t, [k], a, hq, hnode, Or.inr ⟨rfl, k, rfl, hk.rule_eq⟩, hasOf⟩

theorem bare_of_tree {r : Rule} {word : String} (hkind : gql.kind r = .normal)
    (hbody : gql.body r = .all [kw word, lit "(", lit ")", .opt (.rule .asOf)]) (h : Tree gql size r q) :
    ∃ asOf, q.rule = r ∧ Maybe AsOf.Reads asOf q.inner := by
  have hshape := h.shape hkind
  rw [hbody] at hshape
  obtain ⟨_, _, hq, rfl, _, _, rfl, rfl, _, a, rfl, rfl, ha⟩ := hshape
  obtain ⟨asOf, hasOf⟩ := Maybe.of_opt AsOf.of_tree ha
  exact ⟨asOf, h.rule_eq, hq ▸ hasOf⟩

end

theorem sizeOf_inner {q : Pair Rule} (h : q ∈ p.inner) : sizeOf q < sizeOf p := by
  cases p with
  | mk r text inner =>
    have := List.sizeOf_lt_of_mem h
    simp only [Pair.mk.sizeOf_spec, Pair.inner] at this ⊢
    omega

/-- **Every statement that the grammar makes is a written statement**, also one behind a `THEN`. -/
theorem Stmt.of_tree {p : Pair Rule} (h : Tree gql size .stmt p) : ∃ q, p.inner = [q] ∧ ∃ w : Stmt, w.Reads q := by
  rcases h.shape rfl with ⟨q, hp, h⟩ | ⟨q, hp, h⟩ | ⟨q, hp, h⟩ | ⟨q, hp, h⟩ | ⟨q, hp, h⟩ | ⟨q, hp, h⟩ | ⟨q, hp, h⟩ | ⟨q, hp, h⟩ |
    ⟨q, hp, h⟩ | ⟨q, hp, h⟩ | ⟨q, hp, h⟩ | ⟨q, hp, h⟩ | ⟨q, hp, h⟩ | ⟨q, hp, h⟩ | ⟨q, hp, h⟩ | ⟨q, hp, h⟩ | ⟨q, hp, h⟩
  · obtain ⟨_, _, hq, rfl, _, _, rfl, ⟨o, rfl, ho⟩, _, _, rfl, rfl, _, _, rfl, rfl, _, _, rfl, ⟨t, rfl, ht⟩, _, _, rfl, rfl, _, _,
      rfl, ⟨u, rfl, hu⟩, _, _, rfl, rfl, _, _, rfl, ⟨v, rfl, hv⟩, _, _, rfl, rfl, _, _, rfl, rfl, s, rfl, hs⟩ := h.shape rfl
    have hless : sizeOf s < sizeOf p := by
      have hsq : sizeOf s < sizeOf q := sizeOf_inner (by rw [hq]; simp)
      have hqp : sizeOf q < sizeOf p := sizeOf_inner (by rw [hp]; simp)
      omega
    obtain ⟨op, hop⟩ := readsSimulateOp_of_tree ho
    obtain ⟨from_, hfrom⟩ := Quoted.of_tree ht
    obtain ⟨to_, hto⟩ := Quoted.of_tree hu
    obtain ⟨etype, hetype⟩ := Quoted.of_tree hv
    obtain ⟨x, hx, then_, hthen⟩ := Stmt.of_tree hs
    exact ⟨q, hp, .simulate op from_ to_ etype then_, h.rule_eq, o, t, u, v, s, hq, hop, hfrom, hto, hetype, hs.rule_eq, x, hx,
      hthen⟩
  · obtain ⟨m, hm⟩ := MatchStmt.of_tree h
    exact ⟨q, hp, .match m, h.rule_eq, hm⟩
  · obtain ⟨c, hc⟩ := CreateStmt.of_tree h
    exact ⟨q, hp, .create c, h.rule_eq, hc⟩
  · exact ⟨q, hp, recall_of_tree h⟩
  · exact ⟨q, hp, nearest_of_tree h⟩
  · exact ⟨q, hp, provenance_of_tree h⟩
  · exact ⟨q, hp, neighbors_of_tree h⟩
  · exact ⟨q, hp, traverse_of_tree h⟩
  · exact ⟨q, hp, fuse_of_tree h⟩
  · obtain ⟨key, asOf, hq⟩ := one_of_tree rfl rfl h
    exact ⟨q, hp, .resolve key asOf, hq⟩
  · obtain ⟨entity, asOf, hq⟩ := one_of_tree rfl rfl h
    exact ⟨q, hp, .cluster entity asOf, hq⟩
  · exact ⟨q, hp, hypotheses_of_tree h⟩
  · exact ⟨q, hp, why_of_tree h⟩
  · exact ⟨q, hp, community_of_tree h⟩
  · obtain ⟨node, asOf, hq⟩ := one_of_tree rfl rfl h
    exact ⟨q, hp, .metrics node asOf, hq⟩
  · obtain ⟨asOf, hq⟩ := bare_of_tree rfl rfl h
    exact ⟨q, hp, .decide asOf, hq⟩
  · obtain ⟨asOf, hq⟩ := bare_of_tree rfl rfl h
    exact ⟨q, hp, .adapt asOf, hq⟩
termination_by sizeOf p

/-- **Every text that the grammar accepts is a written query.** -/
theorem Query.of_accepts {text : List Char} (h : Accepts text p) : ∃ w : Query, w.Reads p := by
  obtain ⟨rest, h⟩ := h
  obtain ⟨q, hq, h⟩ := h.shape
  obtain rfl := List.singleton_inj.1 hq
  obtain ⟨_, _, hp, rfl, e, _, rfl, he, r, _, rfl, hr, _, _, rfl, ⟨s, rfl, hs⟩, f, rfl, hf⟩ := h.shape rfl
  obtain ⟨requireLsn, hrequire⟩ := Maybe.of_opt require_of_tree hr
  obtain ⟨i, hi, stmt, hstmt⟩ := Stmt.of_tree hs
  rcases he with rfl | ⟨k, rfl, hk⟩
  · exact ⟨⟨false, requireLsn, stmt⟩, [], r, s, i, f, hp, Or.inl ⟨rfl, rfl⟩, hrequire, hs.rule_eq, hi, hstmt, hf.rule_eq⟩
  · exact ⟨⟨true, requireLsn, stmt⟩, [k], r, s, i, f, hp, Or.inr ⟨rfl, k, rfl, hk.rule_eq⟩, hrequire, hs.rule_eq, hi, hstmt,
      hf.rule_eq⟩

end Written
end Gql
end Heraclitus
