import Heraclitus.QueryAccess
/-!
# QueryReach — which of the events that a `WHERE` accepts its shortcut sees

A condition that the planner turns into a hint holds of every accepted event, so the event has the value that is looked up
(`sees_lookup_of_plain`), or a number within the range (`sees_range_iff`), unless the index leaves the value out.
-/
namespace Heraclitus
namespace Query

/-- The shape of a parsed `WHERE`: only its first condition has no operator. -/
def Grammatical : List (BoolOp × Condition) → Prop
  | [] => True
  | oc :: rest => oc.1 = .first ∧ ∀ oc ∈ rest, oc.1 ≠ .first

variable {env : Env} {conditions : List (BoolOp × Condition)}

theorem foldl_boolStep_and {hit : Condition → Bool} : ∀ (rest : List (BoolOp × Condition)) (s : Bool × Bool),
    (∀ oc ∈ rest, oc.1 = .and) → rest.foldl (boolStep hit) s = (s.1, s.2 && rest.all (fun oc => hit oc.2))
  | [], s, _ => by simp
  | oc :: rest, s, h => by
    have hand : oc.1 = .and := h oc List.mem_cons_self
    rw [List.foldl_cons, foldl_boolStep_and rest _ (fun oc hoc => h oc (List.mem_cons_of_mem _ hoc)), List.all_cons, boolStep,
      hand, Bool.and_assoc]

/-- **Without an `OR`, every condition holds of an accepted event.** -/
theorem hit_of_evalBool {hit : Condition → Bool} (hg : Grammatical conditions) (hor : hasOr conditions = false)
    (h : evalBool conditions hit = true) : ∀ oc ∈ conditions, hit oc.2 = true := by
  cases conditions with
  | nil => exact fun oc hoc => absurd hoc List.not_mem_nil
  | cons oc rest =>
    have hnor : ∀ oc' ∈ oc :: rest, oc'.1 ≠ .or := fun oc' hoc' => by
      have := List.any_eq_false.1 hor oc' hoc'
      simpa using this
    have hand : ∀ oc' ∈ rest, oc'.1 = .and := fun oc' hoc' => by
      have h₁ := hg.2 oc' hoc'
      have h₂ := hnor oc' (List.mem_cons_of_mem _ hoc')
      cases hop : oc'.1 with
      | first => exact absurd hop h₁
      | and => rfl
      | or => exact absurd hop h₂
    rw [evalBool, List.foldl_cons, foldl_boolStep_and rest _ hand, boolStep, hg.1] at h
    simp only [List.isEmpty_cons, Bool.false_eq_true, if_false, Bool.false_or, Bool.and_eq_true, List.all_eq_true] at h
    intro oc' hoc'
    rcases List.mem_cons.1 hoc' with rfl | hoc'
    · exact h.1
    · exact h.2 oc' hoc'

/-! ## Lookups -/

@[simp] theorem cmpText_eq_eq {x y : Str} : cmpText x y = .eq ↔ x = y := by
  unfold cmpText
  split
  · rename_i h
    simp only [reduceCtorEq, false_iff]
    rintro rfl
    exact List.lt_irrefl x h
  · split
    · rename_i h
      simp [h]
    · rename_i h
      simp [h]

theorem fieldOf_attr {l : Nat} {e : Episode} {f : Str} (hf : isBuiltinField f = false) (hts : f ≠ "ts_hlc".toList) :
    fieldOf env l e f = (e.attrs.get? f).map .str := by
  simp only [isBuiltinField, List.map_cons, List.map_nil, List.contains_eq_mem, List.mem_cons, List.not_mem_nil, or_false,
    decide_eq_false_iff_not, not_or] at hf
  obtain ⟨h₁, h₂, h₃, h₄, h₅, h₆, h₇⟩ := hf
  rw [fieldOf, if_neg h₁, if_neg h₂, if_neg h₃, if_neg h₄, if_neg (not_or.2 ⟨h₅, h₆⟩), if_neg h₇, if_neg hts]

/-- A text that a `=` compares a field with is the field's text. -/
theorem eq_of_textEquality {l : Nat} {e : Episode} {c : Condition} {f v : Str} {o : Option Str}
    (hc : textEquality c = some (f, v)) (ho : fieldOf env l e f = o.map .str) (h : hit env l e c = true) : o = some v := by
  unfold textEquality at hc
  split at hc
  · cases hc
  · rename_i hcmp
    have hcmp : c.cmp = .eq := not_not.1 hcmp
    have htexts : ∀ w, cmpJson env (.str w) (.str v) .eq = true → w = v := fun w hw => by
      simpa [cmpJson, Json.asF64, Json.asStr, Cmp.holds] using hw
    have htexts' : ∀ w, cmpJson env (.str v) (.str w) .eq = true → w = v := fun w hw => by
      have : v = w := by simpa [cmpJson, Json.asF64, Json.asStr, Cmp.holds] using hw
      exact this.symm
    unfold hit at h
    split at hc
    · rename_i hl hr
      cases hc
      rw [hl, hr, hcmp, evalOperand, ho, evalOperand] at h
      cases o with
      | none => cases h
      | some w => exact congrArg some (htexts w h)
    · rename_i hl hr
      cases hc
      rw [hl, hr, hcmp, evalOperand, evalOperand, ho] at h
      cases o with
      | none => cases h
      | some w => exact congrArg some (htexts' w h)
    · cases hc

theorem hit_of_accepts {q : ScanFilter} {r : Nat × Episode} (hg : Grammatical q.conditions)
    (hor : hasOr q.conditions = false) (h : q.accepts env r = true) : ∀ oc ∈ q.conditions, hit env r.1 r.2 oc.2 = true := by
  rw [ScanFilter.accepts, Bool.and_eq_true] at h
  exact hit_of_evalBool hg hor h.2

/-- A value that the index files as it stands. -/
def Plain (value : Str) : Prop := trim value = value ∧ skipped value = false

/-- **A lookup of a plain value sees every accepted event**, H-VM frames apart, unless the field is `ts_hlc`. -/
theorem sees_lookup_of_plain {q : ScanFilter} {bound : Option Nat} {r : Nat × Episode} {field value : Str}
    (hg : Grammatical q.conditions) (hpath : accessPath q.conditions = .lookup field value)
    (hfield : field ≠ "ts_hlc".toList) (hplain : Plain value) (hhvm : isHvm r.2 = false)
    (h : q.accepts env r = true) : sees env q.conditions bound r = true := by
  obtain ⟨htrim, hskipped⟩ := hplain
  have hhint : attrEqHint q.conditions = some (field, value) := by
    unfold accessPath at hpath
    split at hpath
    · rename_i heq
      cases hpath
      exact heq
    · split at hpath <;> cases hpath
  unfold attrEqHint at hhint
  split at hhint
  · cases hhint
  · rename_i hor
    have hhits := hit_of_accepts hg (by simpa using hor) h
    obtain ⟨oc, hoc, hbind⟩ := List.exists_of_findSome?_eq_some hhint
    obtain ⟨⟨f, v⟩, htext, hcase⟩ := Option.bind_eq_some_iff.1 hbind
    have hfiles : Files r.2 (ikey field value) := by
      dsimp only at hcase
      split at hcase
      · rename_i chave hpseudo
        cases hcase
        unfold pseudoAtributoDe at hpseudo
        split at hpseudo
        · rename_i hkind
          cases hpseudo
          have hfieldOf : fieldOf env r.1 r.2 f = (some r.2.kind.label).map .str := by
            rcases hkind with rfl | rfl <;> rfl
          have hlabel : r.2.kind.label = value := Option.some.inj (eq_of_textEquality htext hfieldOf (hhits oc hoc))
          unfold skipped at hskipped
          rw [Bool.or_eq_false_iff, decide_eq_false_iff_not, Nat.not_lt] at hskipped
          have hne : value ≠ [] := fun h0 => by
            rw [h0] at hskipped
            exact absurd hskipped.2 (by decide)
          exact .inr (.inl ⟨by rwa [hlabel, htrim], by rw [hlabel, htrim]; exact hskipped.1, by rw [hlabel, htrim]⟩)
        · cases hpseudo
      · split at hcase
        · cases hcase
        · rename_i hbuiltin
          cases hcase
          have hget := eq_of_textEquality htext (fieldOf_attr (by simpa using hbuiltin) hfield) (hhits oc hoc)
          exact .inr (.inr ⟨(field, value), SortedMap.get?_eq_some.1 hget, by rwa [htrim], by rw [htrim]⟩)
    unfold sees
    rw [hpath]
    simp [hhvm, hfiles]

/-- No number is read and no text is made of anything. -/
def bareEnv : Env := ⟨fun _ => none, fun _ => [], fun _ => [], fun _ _ _ => none⟩

def attrEvent (key value : String) : Nat × Episode :=
  (7, { Episode.new 1 "ag".toList .observation [] with attrs := SortedMap.empty.insert key.toList value.toList })

/-- `WHERE n.setor = "rh"`. -/
theorem sees_lookup_of_plain_sample :
    sees bareEnv [(.first, ⟨.prop "n".toList "setor".toList, .eq, .str "rh".toList⟩)] none (attrEvent "setor" "rh") = true := by
  let q : ScanFilter := ⟨none, [(.first, ⟨.prop "n".toList "setor".toList, .eq, .str "rh".toList⟩)], none⟩
  have hpath : accessPath q.conditions = .lookup "setor".toList "rh".toList := by
    have hhint : attrEqHint q.conditions = some ("setor".toList, "rh".toList) := by decide +kernel
    rw [accessPath, hhint]
  have hg : Grammatical q.conditions := ⟨rfl, fun _ h => absurd h List.not_mem_nil⟩
  have hplain : Plain "rh".toList := ⟨by decide +kernel, by decide +kernel⟩
  have haccepts : q.accepts bareEnv (attrEvent "setor" "rh") = true := by decide +kernel
  exact sees_lookup_of_plain hg hpath (by decide) hplain (by decide +kernel) haccepts

/-! ## Ranges -/

theorem holds_flipCmp (op : Cmp) (o : Option Ordering) : (flipCmp op).holds (o.map Ordering.swap) = op.holds o := by
  cases op <;> rcases o with - | (- | - | -) <;> rfl

/-- A value that reads as a number is compared as that number. -/
theorem holds_of_cmpJson_num {a : Json} {op : Cmp} {n x : F64} (hop : op ≠ .ne) (hx : coerce env a = some x)
    (h : cmpJson env a (.ofF64 n) op = true) : op.holds (x.partialCmp n) = true := by
  cases hfin : n.isFinite with
  | true =>
    have hn : Json.ofF64 n = .num n := if_pos hfin
    rw [hn] at h
    cases a <;> simp [cmpJson, Json.asF64, Json.asStr, coerce] at h hx <;> simpa [hx] using h
  | false =>
    have hn : Json.ofF64 n = .null := if_neg (by simp [hfin])
    rw [hn] at h
    cases a <;> cases op <;> simp [cmpJson, Json.asF64, Json.asStr, coerce, Cmp.holds] at h hop

theorem holds_of_num_cmpJson {a : Json} {op : Cmp} {n x : F64} (hop : op ≠ .ne) (hx : coerce env a = some x)
    (h : cmpJson env (.ofF64 n) a op = true) : op.holds (n.partialCmp x) = true := by
  cases hfin : n.isFinite with
  | true =>
    have hn : Json.ofF64 n = .num n := if_pos hfin
    rw [hn] at h
    cases a <;> simp [cmpJson, Json.asF64, Json.asStr, coerce] at h hx <;> simpa [hx] using h
  | false =>
    have hn : Json.ofF64 n = .null := if_neg (by simp [hfin])
    rw [hn] at h
    cases a <;> cases op <;> simp [cmpJson, Json.asF64, Json.asStr, coerce, Cmp.holds] at h hop

/-- The field's number stands to the number it is compared with as the condition says. -/
theorem holds_of_numericCondition {l : Nat} {e : Episode} {c : Condition} {f w : Str} {op : Cmp} {n x : F64}
    (hc : numericCondition c = some (f, op, n)) (hop : op ≠ .ne) (hf : fieldOf env l e f = some (.str w))
    (hx : env.parseF64 (trim w) = some x) (h : hit env l e c = true) : op.holds (x.partialCmp n) = true := by
  have hx : coerce env (.str w) = some x := by simp [coerce, Json.asF64, Json.asStr, hx]
  unfold numericCondition at hc
  unfold hit at h
  split at hc
  · rename_i hl hr
    cases hc
    rw [hl, hr, evalOperand, hf, evalOperand] at h
    exact holds_of_cmpJson_num hop hx h
  · rename_i hl hr
    cases hc
    rw [hl, hr, evalOperand, evalOperand, hf] at h
    rw [F64.partialCmp_swap, holds_flipCmp]
    exact holds_of_num_cmpJson (fun heq => hop (by rw [heq]; rfl)) hx h
  · cases hc

/-- What a comparison says of the places of two numbers. -/
def Cmp.ofPlaces : Cmp → Int → Int → Prop
  | .eq, i, j => i = j
  | .ne, i, j => i ≠ j
  | .gt, i, j => j < i
  | .lt, i, j => i < j
  | .ge, i, j => j ≤ i
  | .le, i, j => i ≤ j

/-- A comparison other than `!=` that holds of two numbers holds of their places, and no number is a NaN. -/
theorem ofPlaces_of_holds {op : Cmp} {x n : F64} (hop : op ≠ .ne) (h : op.holds (x.partialCmp n) = true) :
    n.isNan = false ∧ op.ofPlaces x.place n.place := by
  unfold F64.partialCmp at h
  split at h
  · cases op <;> simp [Cmp.holds] at h hop
  · rename_i hnan
    refine ⟨by simp_all, ?_⟩
    rcases lt_trichotomy x.place n.place with hlt | heq | hgt
    · rw [if_pos hlt] at h
      cases op <;> simp [Cmp.holds, Cmp.ofPlaces] at h ⊢ <;> omega
    · rw [if_neg (by omega), if_pos heq] at h
      cases op <;> simp [Cmp.holds, Cmp.ofPlaces] at h ⊢ <;> omega
    · rw [if_neg (by omega), if_neg (by omega)] at h
      cases op <;> simp [Cmp.holds, Cmp.ofPlaces] at h ⊢ <;> omega

/-- A number over a lower bound has a key over the bound's key. -/
theorem above_of_holds {x : F64} {nb : F64 × Bool} (hx : x.isNan = false)
    (h : (if nb.2 then Cmp.ge else .gt).holds (x.partialCmp nb.1) = true) :
    ((toBound (some nb)).map encodeF64).above (encodeF64 x) = true := by
  obtain ⟨n, b⟩ := nb
  obtain ⟨hn, hplaces⟩ := ofPlaces_of_holds (by cases b <;> simp) h
  cases b with
  | true =>
    have hlt := encodeF64_lt_iff hx hn
    exact decide_eq_true (Nat.not_lt.1 (fun h' => Int.not_lt.2 hplaces (hlt.1 h')))
  | false => exact decide_eq_true ((encodeF64_lt_iff hn hx).2 hplaces)

theorem below_of_holds {x : F64} {nb : F64 × Bool} (hx : x.isNan = false)
    (h : (if nb.2 then Cmp.le else .lt).holds (x.partialCmp nb.1) = true) :
    ((toBound (some nb)).map encodeF64).below (encodeF64 x) = true := by
  obtain ⟨n, b⟩ := nb
  obtain ⟨hn, hplaces⟩ := ofPlaces_of_holds (by cases b <;> simp) h
  cases b with
  | true =>
    have hlt := encodeF64_lt_iff hn hx
    exact decide_eq_true (Nat.not_lt.1 (fun h' => Int.not_lt.2 hplaces (hlt.1 h')))
  | false => exact decide_eq_true ((encodeF64_lt_iff hx hn).2 hplaces)

/-- Every bound of a range hint comes from a condition on its field. -/
structure RangeHint.From (conditions : List (BoolOp × Condition)) (s : RangeHint) : Prop where
  field : ∀ f, s.field = some f → isBuiltinField f = false
  min : ∀ n b, s.min = some (n, b) → ∃ f, s.field = some f ∧
    ∃ oc ∈ conditions, numericCondition oc.2 = some (f, if b then .ge else .gt, n)
  max : ∀ n b, s.max = some (n, b) → ∃ f, s.field = some f ∧
    ∃ oc ∈ conditions, numericCondition oc.2 = some (f, if b then .le else .lt, n)

theorem tighterMin_cases (cur : NumBound) (cand : F64 × Bool) : tighterMin cur cand = cur ∨ tighterMin cur cand = some cand := by
  unfold tighterMin
  split
  · split
    · exact .inl rfl
    · exact .inr rfl
  · exact .inr rfl

theorem tighterMax_cases (cur : NumBound) (cand : F64 × Bool) : tighterMax cur cand = cur ∨ tighterMax cur cand = some cand := by
  unfold tighterMax
  split
  · split
    · exact .inl rfl
    · exact .inr rfl
  · exact .inr rfl

theorem RangeHint.From.step {s : RangeHint} (h : s.From conditions) {oc : BoolOp × Condition} (hoc : oc ∈ conditions) :
    (s.step oc.2).From conditions := by
  unfold RangeHint.step
  split
  · exact h
  · rename_i f op n hc
    split
    · exact h
    · rename_i hbuiltin
      split
      · exact h
      · rename_i hother
        have hfield : ∀ g, s.field = some g → g = f := fun g hg => by simpa [hg] using hother
        have hkeep : ({ s with field := some f } : RangeHint).From conditions := by
          refine ⟨fun g hg => Option.some.inj hg ▸ by simpa using hbuiltin, fun n b hn => ?_, fun n b hn => ?_⟩
          · obtain ⟨g, hg, hoc'⟩ := h.min n b hn
            exact ⟨f, rfl, hfield g hg ▸ hoc'⟩
          · obtain ⟨g, hg, hoc'⟩ := h.max n b hn
            exact ⟨f, rfl, hfield g hg ▸ hoc'⟩
        have hmin : ∀ b, op = (if b then .ge else .gt) →
            ({ s with field := some f, min := tighterMin s.min (n, b) } : RangeHint).From conditions := fun b hop => by
          refine ⟨hkeep.field, fun m c hm => ?_, hkeep.max⟩
          rcases tighterMin_cases s.min (n, b) with heq | heq
          · exact hkeep.min m c (heq ▸ hm)
          · cases Option.some.inj (heq.symm.trans hm)
            exact ⟨f, rfl, oc, hoc, hop ▸ hc⟩
        have hmax : ∀ b, op = (if b then .le else .lt) →
            ({ s with field := some f, max := tighterMax s.max (n, b) } : RangeHint).From conditions := fun b hop => by
          refine ⟨hkeep.field, hkeep.min, fun m c hm => ?_⟩
          rcases tighterMax_cases s.max (n, b) with heq | heq
          · exact hkeep.max m c (heq ▸ hm)
          · cases Option.some.inj (heq.symm.trans hm)
            exact ⟨f, rfl, oc, hoc, hop ▸ hc⟩
        dsimp only
        split
        · exact hmin false rfl
        · exact hmin true rfl
        · exact hmax false rfl
        · exact hmax true rfl
        · exact hkeep

theorem RangeHint.From.foldl : ∀ (l : List (BoolOp × Condition)) {s : RangeHint}, (∀ oc ∈ l, oc ∈ conditions) →
    s.From conditions → (l.foldl (fun s oc => RangeHint.step s oc.2) s).From conditions
  | [], _, _, h => h
  | oc :: l, _, hl, h =>
    RangeHint.From.foldl l (fun oc' hoc' => hl oc' (List.mem_cons_of_mem oc hoc')) (h.step (hl oc List.mem_cons_self))

/-- **A range sees exactly the accepted events whose value the ordered index holds**: a finite number in a text that the
index does not leave out.  H-VM frames and the field `ts_hlc` are apart. -/
theorem sees_range_iff {q : ScanFilter} {bound : Option Nat} {r : Nat × Episode} {field : Str} {min max : NumBound}
    (hg : Grammatical q.conditions) (hpath : accessPath q.conditions = .range field min max)
    (hfield : field ≠ "ts_hlc".toList) (hhvm : isHvm r.2 = false) (h : q.accepts env r = true) :
    sees env q.conditions bound r = true ↔ ∃ w x, r.2.attrs.get? field = some w ∧ skipped (trim w) = false ∧
      env.parseF64 (trim w) = some x ∧ x.isFinite = true := by
  have hhint : attrRangeHint q.conditions = some (field, min, max) := by
    unfold accessPath at hpath
    split at hpath
    · cases hpath
    · split at hpath
      · rename_i heq
        cases hpath
        exact heq
      · cases hpath
  have hsees : sees env q.conditions bound r = true ↔ ∃ w, r.2.attrs.get? field = some w ∧ skipped (trim w) = false ∧
      ∃ x, env.parseF64 (trim w) = some x ∧ x.isFinite = true ∧ within min max (encodeF64 x) = true := by
    unfold sees
    rw [hpath]
    simp only [hhvm, Bool.not_false, Bool.true_and, Option.any_eq_true, Bool.and_eq_true, Bool.not_eq_true', numKey,
      Option.bind_eq_some_iff, Option.ite_none_right_eq_some, Option.some.injEq]
    constructor
    · rintro ⟨w, hw, hs, n, ⟨x, hx, hfin, rfl⟩, hin⟩
      exact ⟨w, hw, hs, x, hx, hfin, hin⟩
    · rintro ⟨w, hw, hs, x, hx, hfin, hin⟩
      exact ⟨w, hw, hs, _, ⟨x, hx, hfin, rfl⟩, hin⟩
  rw [hsees]
  constructor
  · rintro ⟨w, hw, hs, x, hx, hfin, -⟩
    exact ⟨w, x, hw, hs, hx, hfin⟩
  · rintro ⟨w, x, hw, hs, hx, hfin⟩
    refine ⟨w, hw, hs, x, hx, hfin, ?_⟩
    unfold attrRangeHint at hhint
    split at hhint
    · cases hhint
    · rename_i hor
      have hhits := hit_of_accepts hg (by simpa using hor) h
      have hfrom : (q.conditions.foldl (fun s oc => RangeHint.step s oc.2) {}).From q.conditions :=
        RangeHint.From.foldl q.conditions (fun _ hoc => hoc) ⟨nofun, nofun, nofun⟩
      obtain ⟨f, hf, hcase⟩ := Option.bind_eq_some_iff.1 hhint
      split at hcase
      · cases hcase
      · cases hcase
        have hfieldOf : fieldOf env r.1 r.2 field = some (.str w) := by
          rw [fieldOf_attr (hfrom.field field hf) hfield, hw]
          rfl
        have hnan := F64.not_nan_of_finite hfin
        have hholds : ∀ op n, op ≠ .ne → (∃ f, (q.conditions.foldl (fun s oc => RangeHint.step s oc.2) {}).field = some f ∧
            ∃ oc ∈ q.conditions, numericCondition oc.2 = some (f, op, n)) → op.holds (x.partialCmp n) = true := by
          rintro op n hop ⟨f', hf', oc, hoc, hc⟩
          cases hf.symm.trans hf'
          exact holds_of_numericCondition hc hop hfieldOf hx (hhits oc hoc)
        rw [within, Bool.and_eq_true]
        constructor
        · cases hmin : (q.conditions.foldl (fun s oc => RangeHint.step s oc.2) {}).min with
          | none => rfl
          | some nb => exact above_of_holds hnan (hholds _ nb.1 (by cases nb.2 <;> simp) (hfrom.min nb.1 nb.2 hmin))
        · cases hmax : (q.conditions.foldl (fun s oc => RangeHint.step s oc.2) {}).max with
          | none => rfl
          | some nb => exact below_of_holds hnan (hholds _ nb.1 (by cases nb.2 <;> simp) (hfrom.max nb.1 nb.2 hmax))

/-- Reads `3`. -/
def threeEnv : Env := { bareEnv with parseF64 := fun s => if s = ['3'] then some (.ofU64 3) else none }

/-- `WHERE n.valor > 2`. -/
theorem sees_range_iff_sample :
    sees threeEnv [(.first, ⟨.prop "n".toList "valor".toList, .gt, .num (.ofU64 2)⟩)] none (attrEvent "valor" "3") = true := by
  let q : ScanFilter := ⟨none, [(.first, ⟨.prop "n".toList "valor".toList, .gt, .num (.ofU64 2)⟩)], none⟩
  have hpath : accessPath q.conditions = .range "valor".toList (some (.ofU64 2, false)) none := by
    have heq : attrEqHint q.conditions = none := by decide +kernel
    have hrange : attrRangeHint q.conditions = some ("valor".toList, some (.ofU64 2, false), none) := by decide +kernel
    rw [accessPath, heq, hrange]
  have hg : Grammatical q.conditions := ⟨rfl, fun _ h => absurd h List.not_mem_nil⟩
  exact (sees_range_iff hg hpath (by decide) (by decide +kernel) (by decide +kernel)).2
    ⟨_, .ofU64 3, rfl, by decide +kernel, by decide +kernel, by decide +kernel⟩

/-! ## Windows -/

theorem lt_zero_iff {n : F64} (h : n.isNan = false) : n.lt ⟨0⟩ = true ↔ n.place < 0 := by
  have hzero : (⟨0⟩ : F64).place = 0 := by decide
  rw [F64.lt, F64.partialCmp_of_not_nan h (by decide), hzero]
  rcases lt_trichotomy n.place 0 with hlt | heq | hgt
  · simp [hlt]
  · simp [heq]
  · simp [Int.not_lt.2 (Int.le_of_lt hgt), Int.ne_of_gt hgt]

/-- The LSN stands to the number it is compared with as the condition says. -/
theorem holds_of_lsnCondition {l : Nat} {e : Episode} {c : Condition} {op : Cmp} {n : F64}
    (hc : lsnCondition c = some (op, n)) (hop : op ≠ .ne) (h : hit env l e c = true) :
    op.holds ((F64.ofU64 l).partialCmp n) = true := by
  have hlsn : ∀ o, isLsnOperand o = true → evalOperand env l e o = some (.num (.ofU64 l)) := fun o ho => by
    cases o <;> simp [isLsnOperand] at ho
    all_goals
      subst ho
      rfl
  unfold lsnCondition at hc
  unfold hit at h
  split at hc
  · rename_i hl'
    rw [hlsn _ hl'] at h
    split at hc
    · rename_i hr
      cases hc
      rw [hr, evalOperand] at h
      exact holds_of_cmpJson_num hop rfl h
    · cases hc
  · split at hc
    · rename_i hr'
      rw [hlsn _ hr'] at h
      split at hc
      · rename_i hr
        cases hc
        rw [hr, evalOperand] at h
        rw [F64.partialCmp_swap, holds_flipCmp]
        exact holds_of_num_cmpJson (fun heq => hop (by rw [heq]; rfl)) rfl h
      · cases hc
    · cases hc

end Query
end Heraclitus
