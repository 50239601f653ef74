import Heraclitus.Analytics
/-!
# AnalyticsExact — what a plan means, row by row

A list of batches is read as a relation: its schema, if there is a batch, and its rows.  Every operator of the executor, in one
thread or in many, one predicate at a time or fused, is the operator on relations of which it is the columnar form.
-/
namespace Heraclitus
namespace Analytics

structure Relation where
  schema : Option (List Field)
  rows : List Row
  deriving DecidableEq

def view (bs : List RecordBatch) : Relation := ⟨bs.head?.map RecordBatch.schema, bs.flatMap RecordBatch.rows⟩

/-- Batches of one schema, with a column at least. -/
def Uniform (bs : List RecordBatch) : Prop := ∃ schema, schema ≠ [] ∧ ∀ b ∈ bs, b.schema = schema

variable {b : RecordBatch} {bs : List RecordBatch} {p : Predicate} {schema : List Field} {preds : List Predicate}

/-! ## One filter -/

theorem map_row_range (b : RecordBatch) : (List.range b.numRows).map b.row = b.rows := by
  apply List.ext_getElem?
  intro i
  by_cases hi : i < b.rows.length
  · simp [RecordBatch.numRows, RecordBatch.row, hi]
  · simp [RecordBatch.numRows, Nat.le_of_not_lt hi]

namespace Predicate

/-- Whether the column of the predicate has the type of its literal. -/
def fits (p : Predicate) (schema : List Field) : Bool :=
  match p.value, (schema[p.column]?).map Field.dataType with
  | .u64 _, some .uint64 => true
  | .str _, some .utf8 => true
  | _, _ => false

def holds (p : Predicate) (row : Row) : Bool :=
  match p.value with
  | .u64 v => p.op.holds (u64At row p.column) v
  | .str v => p.op.holds (textAt row p.column) v

end Predicate

theorem predicateMatcher_eq (b : RecordBatch) (p : Predicate) : (predicateMatcher b p).toOption =
    if p.fits b.schema = true then some (fun i => p.holds (b.row i)) else none := by
  unfold predicateMatcher Predicate.fits Predicate.holds RecordBatch.columnType
  cases b.schema[p.column]? with
  | none => cases p.value <;> rfl
  | some f =>
    obtain ⟨name, dataType, nullable⟩ := f
    cases p.value <;> cases dataType <;> rfl

theorem evalPredicate_eq (b : RecordBatch) (p : Predicate) : (evalPredicate b p).toOption =
    if p.fits b.schema = true then some (b.rows.map p.holds) else none := by
  unfold evalPredicate Predicate.fits Predicate.holds RecordBatch.columnType
  cases b.schema[p.column]? with
  | none => cases p.value <;> rfl
  | some f =>
    obtain ⟨name, dataType, nullable⟩ := f
    cases hv : p.value <;> cases dataType <;> simp [bind, Except.bind]

theorem tryNew_eq (h : schema ≠ []) (rows : List Row) : RecordBatch.tryNew schema rows = .ok ⟨schema, rows⟩ := if_neg h

theorem filterOne_eq (h : b.schema ≠ []) : (filterOne p b).toOption =
    if p.fits b.schema = true then some ⟨b.schema, b.rows.filter p.holds⟩ else none := by
  rw [filterOne, Except.toOption_bind, evalPredicate_eq]
  split
  · have hzip : b.rows.zip (b.rows.map p.holds) = b.rows.map (fun row => (row, p.holds row)) := by
      conv_lhs => rw [← List.map_id b.rows, List.map_map]
      exact List.zip_map'
    rw [Option.bind_some, RecordBatch.filterRecordBatch, hzip, List.filter_map, List.map_map, tryNew_eq h]
    simp [Function.comp_def]
  · rfl

/-- The batch unless it is empty. -/
def nonempty (b : RecordBatch) : Option RecordBatch := if b.rows = [] then none else some b

theorem toOption_keptBy (one : RecordBatch → Except AnalyticsError RecordBatch) (b : RecordBatch) :
    (keptBy one b).toOption = (one b).toOption.map nonempty := by
  rw [keptBy, Except.toOption_bind]
  cases (one b).toOption with
  | none => rfl
  | some fb => simp [nonempty, RecordBatch.numRows, List.length_pos_iff, ite_not]

/-- One predicate on one batch. -/
def keep (p : Predicate) (b : RecordBatch) : Option (Option RecordBatch) :=
  if p.fits b.schema = true then some (nonempty ⟨b.schema, b.rows.filter p.holds⟩) else none

theorem keptBy_filterOne (h : b.schema ≠ []) : (keptBy (filterOne p) b).toOption = keep p b := by
  rw [toOption_keptBy, filterOne_eq h, keep]
  split <;> rfl

/-- Predicates one after the other on one batch. -/
def keepAll : List Predicate → RecordBatch → Option (Option RecordBatch)
  | [], b => some (some b)
  | p :: rest, b => (keep p b).bind fun kept => kept.elim (some none) (keepAll rest)

/-- The rows that are left of some, by their places. -/
def left (b : RecordBatch) : List Predicate → List Nat → Option (List Nat)
  | [], s => some s
  | p :: rest, s =>
    if s = [] then some []
    else if p.fits b.schema = true then left b rest (s.filter (fun i => p.holds (b.row i)))
    else none

theorem keepAll_left (b : RecordBatch) : ∀ (preds : List Predicate) (s : List Nat), s ≠ [] →
    keepAll preds ⟨b.schema, s.map b.row⟩ = (left b preds s).map (fun s => nonempty ⟨b.schema, s.map b.row⟩)
  | [], s, hs => by simp [keepAll, left, nonempty, hs]
  | p :: rest, s, hs => by
    have hfilter : (s.map b.row).filter p.holds = (s.filter (fun i => p.holds (b.row i))).map b.row := List.filter_map
    rw [keepAll, left, if_neg hs, keep]
    dsimp only
    rw [hfilter]
    split
    · by_cases hleft : s.filter (fun i => p.holds (b.row i)) = []
      · rw [hleft]
        cases rest <;> rfl
      · rw [Option.bind_some, nonempty, if_neg (by simpa using hleft)]
        exact keepAll_left b rest _ hleft
    · rfl

theorem left_nil (b : RecordBatch) : ∀ preds : List Predicate, left b preds [] = some []
  | [] => rfl
  | _ :: _ => rfl

theorem left_subset : ∀ {preds : List Predicate} {s s' : List Nat}, left b preds s = some s' → s'.Sublist s
  | [], _, _, h => by
    cases h
    exact List.Sublist.refl _
  | p :: rest, s, s', h => by
    rw [left] at h
    split at h
    · cases h
      exact List.nil_sublist s
    split at h
    · exact (left_subset h).trans List.filter_sublist
    · cases h

theorem toNat_ofNat_of_le {i : Nat} (h : i < b.numRows) (hsmall : b.numRows ≤ 2 ^ 32) : (UInt32.ofNat i).toNat = i := by
  simp
  omega

theorem toOption_retainAll (hsmall : b.numRows ≤ 2 ^ 32) : ∀ (preds : List Predicate) {s : List Nat}, (∀ i ∈ s, i < b.numRows) →
    (retainAll b preds (s.map UInt32.ofNat)).toOption = (left b preds s).map (·.map UInt32.ofNat)
  | [], s, _ => rfl
  | p :: rest, s, hs => by
    rw [retainAll, left]
    by_cases hnil : s = []
    · subst hnil
      rfl
    · rw [if_neg (by simpa using hnil), if_neg hnil, Except.toOption_bind, predicateMatcher_eq]
      split
      · have hfilter : (s.map UInt32.ofNat).filter (fun i => p.holds (b.row i.toNat))
            = (s.filter (fun i => p.holds (b.row i))).map UInt32.ofNat := by
          rw [List.filter_map]
          congr 1
          apply List.filter_congr
          intro i hi
          rw [Function.comp_apply, toNat_ofNat_of_le (hs i hi) hsmall]
        rw [Option.bind_some, hfilter]
        exact toOption_retainAll hsmall rest fun i hi => hs i (List.mem_filter.1 hi).1
      · rfl

/-- The places of the rows that a predicate keeps. -/
def RecordBatch.places (b : RecordBatch) (p : Predicate) : List Nat := (List.range b.numRows).filter (fun i => p.holds (b.row i))

theorem map_row_places (b : RecordBatch) (p : Predicate) : (b.places p).map b.row = b.rows.filter p.holds := by
  conv_rhs => rw [← map_row_range b, List.filter_map]
  rfl

/-- **The rows of a batch that are left, gathered once.** -/
theorem toOption_fused (h : b.schema ≠ []) (hsmall : b.numRows ≤ 2 ^ 32) (p : Predicate) (rest : List Predicate) :
    (fusedFilterOne (p :: rest) b).toOption =
      if p.fits b.schema = true then (left b rest (b.places p)).map (fun s => ⟨b.schema, s.map b.row⟩) else none := by
  have hplaces : ∀ i ∈ b.places p, i < b.numRows := fun i hi => List.mem_range.1 (List.mem_filter.1 hi).1
  rw [fusedFilterOne]
  simp only [Except.toOption_bind, predicateMatcher_eq]
  split
  · rw [Option.bind_some]
    have hretain := toOption_retainAll hsmall rest hplaces
    rw [RecordBatch.places] at hretain
    rw [hretain, Option.bind_map, Option.map_eq_bind]
    refine Option.bind_congr fun s hs => ?_
    have hsub : s.Sublist (List.range b.numRows) := (left_subset hs).trans List.filter_sublist
    have hrange : ∀ i ∈ s, i < b.numRows := fun i hi => List.mem_range.1 (hsub.subset hi)
    have hback : (s.map UInt32.ofNat).map UInt32.toNat = s :=
      Selection.map_toNat_ofNat fun i hi => (hrange i hi).trans_le hsmall
    have hrows : (s.map UInt32.ofNat).map UInt32.toNat = Selection.rows b.numRows s.toFinset := by
      rw [hback]
      refine Selection.eq_rows (List.pairwise_lt_range.sublist hsub) fun i => ?_
      rw [List.mem_toFinset]
      exact ⟨fun hi => ⟨hrange i hi, hi⟩, And.right⟩
    obtain ⟨sel, heq, hrep⟩ := Selection.fromSortedIndices_eq hrows
    rw [Function.comp_apply, heq]
    dsimp only
    rw [hrep.toIndices hsmall, ← hrows, hback, tryNew_eq h]
    rfl
  · rfl

/-- **Fused or not**, a batch comes out the same. -/
theorem keptBy_fused (h : b.schema ≠ []) (hsmall : b.numRows ≤ 2 ^ 32) (p : Predicate) (rest : List Predicate) :
    (keptBy (fusedFilterOne (p :: rest)) b).toOption = keepAll (p :: rest) b := by
  rw [toOption_keptBy, toOption_fused h hsmall, keepAll, keep, ← map_row_places]
  split
  · rw [Option.bind_some, Option.map_map]
    by_cases hnil : b.places p = []
    · rw [hnil, left_nil]
      rfl
    · rw [nonempty, if_neg (by simpa using hnil)]
      exact (keepAll_left b rest _ hnil).symm
  · rfl

/-! ## Filters over batches -/

variable {ex : VecExecutor}

/-- Every batch numbers its rows with a `u32`. -/
def Small (bs : List RecordBatch) : Prop := ∀ b ∈ bs, b.numRows ≤ 2 ^ 32

/-- **In chunks or not**, batches are filtered in order. -/
theorem filterBatches_eq (one : RecordBatch → Except AnalyticsError RecordBatch) (input : List RecordBatch) :
    ex.filterBatches one input = sift (keptBy one) input := by
  unfold VecExecutor.filterBatches
  dsimp only
  split
  · rename_i hpar
    have hchunk : 0 < (input.length + max ex.logicalCpus 1 - 1) / max ex.logicalCpus 1 := Nat.div_pos (by omega) (by omega)
    rw [sift_flatten, flatten_chunks hchunk]
  · rfl

theorem toOption_filterBatches {one : RecordBatch → Except AnalyticsError RecordBatch} {f : RecordBatch → Option (Option RecordBatch)}
    (h : ∀ b ∈ bs, (keptBy one b).toOption = f b) : (ex.filterBatches one bs).toOption = pass f bs := by
  rw [filterBatches_eq, toOption_sift]
  exact pass_congr h

theorem Uniform.schema_ne (h : Uniform bs) (hb : b ∈ bs) : b.schema ≠ [] := by
  obtain ⟨schema, hne, hall⟩ := h
  rw [hall b hb]
  exact hne

theorem keep_eq_some {b' : RecordBatch} (h : keep p b = some (some b')) :
    b'.schema = b.schema ∧ b'.rows ≠ [] ∧ b'.numRows ≤ b.numRows := by
  rw [keep] at h
  split at h
  · rw [nonempty] at h
    split at h
    · cases h
    · rename_i hne
      cases h
      exact ⟨rfl, hne, List.length_filter_le _ _⟩
  · cases h

theorem Uniform.pass_keep {out : List RecordBatch} (h : Uniform bs) (hout : pass (keep p) bs = some out) : Uniform out := by
  obtain ⟨schema, hne, hall⟩ := h
  refine ⟨schema, hne, mem_of_pass (fun b hb b' hb' => ?_) hout⟩
  rw [(keep_eq_some hb').1]
  exact hall b hb

theorem toOption_predicate (ex : VecExecutor) (pid : Nat) : (ex.predicate pid).toOption = ex.predicates[pid]? := by
  unfold VecExecutor.predicate
  cases ex.predicates[pid]? <;> rfl

/-- One filter of a plan, on batches. -/
def filterStep (preds : List Predicate) (bs : List RecordBatch) (pid : Nat) : Option (List RecordBatch) :=
  (preds[pid]?).bind fun p => pass (keep p) bs

theorem toOption_runFilter (h : Uniform bs) (pid : Nat) : (ex.runFilter bs pid).toOption = filterStep ex.predicates bs pid := by
  rw [VecExecutor.runFilter, Except.toOption_bind, toOption_predicate, filterStep]
  exact Option.bind_congr fun p _ => toOption_filterBatches fun b hb => keptBy_filterOne (h.schema_ne hb)

theorem Uniform.filterStep {out : List RecordBatch} {pid : Nat} (h : Uniform bs) (hout : filterStep preds bs pid = some out) :
    Uniform out := by
  obtain ⟨p, -, hp⟩ := Option.bind_eq_some_iff.1 hout
  exact h.pass_keep hp

theorem toOption_runFilters : ∀ (pids : List Nat) {bs : List RecordBatch}, Uniform bs →
    (pids.foldlM ex.runFilter bs).toOption = pids.foldlM (filterStep ex.predicates) bs
  | [], _, _ => rfl
  | pid :: pids, bs, h => by
    rw [List.foldlM_cons, List.foldlM_cons, Except.toOption_bind, toOption_runFilter h]
    exact Option.bind_congr fun out hout => toOption_runFilters pids (h.filterStep hout)

/-- Predicates one after the other, batch by batch or over all batches. -/
theorem pass_keepAll : ∀ (preds : List Predicate) (bs : List RecordBatch),
    pass (keepAll preds) bs = preds.foldlM (fun bs p => pass (keep p) bs) bs
  | [], bs => by
    have hall : pass (keepAll []) bs = some (bs.filterMap some) := pass_some some bs
    rw [hall, List.filterMap_some]
    rfl
  | p :: rest, bs => by
    rw [List.foldlM_cons]
    have hrest : (fun bs => rest.foldlM (fun bs p => pass (keep p) bs) bs) = pass (keepAll rest) :=
      funext fun bs => (pass_keepAll rest bs).symm
    show _ = (pass (keep p) bs).bind (fun bs => rest.foldlM (fun bs p => pass (keep p) bs) bs)
    rw [hrest, pass_bind]
    rfl

theorem foldlM_filterStep (preds : List Predicate) : ∀ (pids : List Nat) (bs : List RecordBatch) {ps : List Predicate},
    pids.mapM (preds[·]?) = some ps → pids.foldlM (filterStep preds) bs = ps.foldlM (fun bs p => pass (keep p) bs) bs
  | [], _, _, h => by
    cases h
    rfl
  | pid :: pids, bs, ps, h => by
    rw [List.mapM_cons] at h
    obtain ⟨p, hp, h⟩ := Option.bind_eq_some_iff.1 h
    obtain ⟨rest, hrest, h⟩ := Option.bind_eq_some_iff.1 h
    cases h
    rw [List.foldlM_cons, List.foldlM_cons, filterStep, hp, Option.bind_some]
    exact Option.bind_congr fun out _ => foldlM_filterStep preds pids out hrest

/-- A predicate that is not registered fails the chain wherever it stands. -/
theorem foldlM_filterStep_none (preds : List Predicate) : ∀ (pids : List Nat) (bs : List RecordBatch),
    pids.mapM (preds[·]?) = none → pids.foldlM (filterStep preds) bs = none
  | [], _, h => by cases h
  | pid :: pids, bs, h => by
    rw [List.foldlM_cons]
    refine Option.bind_eq_none_iff.2 fun out hout => foldlM_filterStep_none preds pids out ?_
    obtain ⟨p, hp, -⟩ := Option.bind_eq_some_iff.1 hout
    rw [List.mapM_cons, hp] at h
    cases hrest : pids.mapM (preds[·]?) with
    | none => rfl
    | some rest =>
      rw [hrest] at h
      cases h

theorem toOption_mapM_predicate (ex : VecExecutor) : ∀ pids : List Nat,
    (pids.mapM ex.predicate).toOption = pids.mapM (ex.predicates[·]?)
  | [] => rfl
  | pid :: pids => by
    rw [List.mapM_cons, List.mapM_cons, Except.toOption_bind, toOption_predicate]
    refine Option.bind_congr fun p _ => ?_
    rw [Except.toOption_bind, toOption_mapM_predicate ex pids]
    rfl

/-- **A chain of filters**, fused or one filter at a time. -/
theorem toOption_runChain (h : Uniform bs) (hsmall : Small bs) (pid : Nat) (pids : List Nat) :
    (ex.runChain bs pid pids).toOption = (pid :: pids).foldlM (filterStep ex.predicates) bs := by
  rw [VecExecutor.runChain]
  split
  · rw [VecExecutor.runFusedFilters, Except.toOption_bind, toOption_mapM_predicate]
    cases hps : (pid :: pids).mapM (ex.predicates[·]?) with
    | none => exact (foldlM_filterStep_none ex.predicates _ bs hps).symm
    | some ps =>
      rw [foldlM_filterStep ex.predicates _ bs hps, Option.bind_some, ← pass_keepAll]
      cases ps with
      | nil =>
        rw [List.mapM_cons] at hps
        obtain ⟨p, -, hps⟩ := Option.bind_eq_some_iff.1 hps
        obtain ⟨rest, -, hps⟩ := Option.bind_eq_some_iff.1 hps
        cases hps
      | cons p rest => exact toOption_filterBatches fun b hb => keptBy_fused (h.schema_ne hb) (hsmall b hb) p rest
  · rw [List.foldlM_cons, Except.toOption_bind, toOption_runFilter h]
    exact Option.bind_congr fun out hout => toOption_runFilters pids (h.filterStep hout)

/-- A filter on a relation; what has no rows has no schema, since no batch is left. -/
def Relation.filter (p : Predicate) (rel : Relation) : Option Relation :=
  match rel.schema with
  | none => some rel
  | some schema =>
    if p.fits schema = true then
      some ⟨if rel.rows.filter p.holds = [] then none else some schema, rel.rows.filter p.holds⟩
    else none

theorem rows_filterMap (p : Predicate) : ∀ bs : List RecordBatch,
    (bs.filterMap (fun b => nonempty ⟨b.schema, b.rows.filter p.holds⟩)).flatMap RecordBatch.rows
      = (bs.flatMap RecordBatch.rows).filter p.holds
  | [] => rfl
  | b :: bs => by
    rw [List.filterMap_cons, List.flatMap_cons, List.filter_append, ← rows_filterMap p bs, nonempty]
    by_cases hnil : b.rows.filter p.holds = []
    · simp only [hnil, if_pos, List.nil_append]
    · simp only [if_neg hnil, List.flatMap_cons]

theorem head?_schema {out : List RecordBatch} (hall : ∀ b ∈ out, b.schema = schema ∧ b.rows ≠ []) :
    out.head?.map RecordBatch.schema = if out.flatMap RecordBatch.rows = [] then none else some schema := by
  cases out with
  | nil => rfl
  | cons b out =>
    obtain ⟨hb, hne⟩ := hall b List.mem_cons_self
    rw [List.flatMap_cons, if_neg fun hnil => hne (List.append_eq_nil_iff.1 hnil).1, ← hb]
    rfl

theorem view_keep (h : Uniform bs) (p : Predicate) : (pass (keep p) bs).map view = (view bs).filter p := by
  cases bs with
  | nil => rfl
  | cons b bs =>
    obtain ⟨schema, -, hall⟩ := h
    have hschema : (view (b :: bs)).schema = some schema := congrArg some (hall b List.mem_cons_self)
    unfold Relation.filter
    rw [hschema]
    dsimp only
    by_cases hfits : p.fits schema = true
    · have hkeep : ∀ c ∈ b :: bs, keep p c = some (nonempty ⟨c.schema, c.rows.filter p.holds⟩) := fun c hc => by
        rw [keep, hall c hc, if_pos hfits]
      have hout : ∀ c ∈ (b :: bs).filterMap (fun c => nonempty ⟨c.schema, c.rows.filter p.holds⟩),
          c.schema = schema ∧ c.rows ≠ [] := by
        intro c hc
        obtain ⟨a, ha, hac⟩ := List.mem_filterMap.1 hc
        have hk := keep_eq_some ((hkeep a ha).trans (congrArg some hac))
        exact ⟨hk.1.trans (hall a ha), hk.2.1⟩
      rw [pass_congr hkeep, pass_some, if_pos hfits, Option.map_some, view, head?_schema hout, rows_filterMap]
      rfl
    · rw [if_neg hfits, pass, keep, hall b List.mem_cons_self, if_neg hfits]
      rfl

/-- A filter of a plan, on a relation. -/
def Relation.filterStep (preds : List Predicate) (rel : Relation) (pid : Nat) : Option Relation :=
  (preds[pid]?).bind fun p => rel.filter p

theorem view_filterSteps (preds : List Predicate) : ∀ (pids : List Nat) {bs : List RecordBatch}, Uniform bs →
    (pids.foldlM (filterStep preds) bs).map view = pids.foldlM (Relation.filterStep preds) (view bs)
  | [], _, _ => rfl
  | pid :: pids, bs, h => by
    have hone : (filterStep preds bs pid).map view = (view bs).filterStep preds pid := by
      rw [filterStep, Relation.filterStep, Option.map_bind]
      exact Option.bind_congr fun p _ => view_keep h p
    rw [List.foldlM_cons, List.foldlM_cons, ← hone]
    show ((filterStep preds bs pid).bind _).map view = ((filterStep preds bs pid).map view).bind _
    rw [Option.map_bind, Option.bind_map]
    exact Option.bind_congr fun out hout => view_filterSteps preds pids (h.filterStep hout)

theorem uniform_filterSteps (preds : List Predicate) (pids : List Nat) {bs out : List RecordBatch} :
    Uniform bs → pids.foldlM (filterStep preds) bs = some out → Uniform out :=
  foldlM_invariant (fun _ _ _ => Uniform.filterStep) pids

theorem small_filterSteps (preds : List Predicate) (pids : List Nat) {bs out : List RecordBatch} :
    Small bs → pids.foldlM (filterStep preds) bs = some out → Small out := by
  refine foldlM_invariant (fun bs pid bs' h hbs' => ?_) pids
  obtain ⟨p, -, hp⟩ := Option.bind_eq_some_iff.1 hbs'
  exact mem_of_pass (fun b hb b' hb' => (keep_eq_some hb').2.2.trans (h b hb)) hp

end Analytics
end Heraclitus
