import Heraclitus.AnalyticsExact
import Heraclitus.Lib.Grouping
/-!
# AnalyticsGroups — groups and joins, row by row

The hash table of an aggregation holds, under each key, the number of its rows and their sums; the hash table of a join holds the
places of its rows.
-/
namespace Heraclitus
namespace Analytics

variable {b : RecordBatch} {bs : List RecordBatch}

/-- The columns of a relation; without a batch there are none, and no rows either. -/
def Relation.width (rel : Relation) : Nat := (rel.schema.getD []).length

/-- No row is read, or every column is there that is read of it. -/
def Relation.Reads (rel : Relation) (columns : List Nat) : Prop := rel.rows = [] ∨ ∀ k ∈ columns, k < rel.width

instance (rel : Relation) (columns : List Nat) : Decidable (rel.Reads columns) :=
  inferInstanceAs (Decidable (rel.rows = [] ∨ ∀ k ∈ columns, k < rel.width))

theorem toOption_columnType (b : RecordBatch) (k : Nat) {β : Type} (f : Except AnalyticsError β) :
    (b.columnType k >>= fun _ => f).toOption = if k < b.schema.length then f.toOption else none := by
  rw [Except.toOption_bind, RecordBatch.columnType]
  by_cases hk : k < b.schema.length
  · rw [List.getElem?_eq_getElem hk, if_pos hk]
    rfl
  · rw [List.getElem?_eq_none (Nat.le_of_not_lt hk), if_neg hk]
    rfl

theorem Uniform.width (h : Uniform bs) (hb : b ∈ bs) : (view bs).width = b.schema.length := by
  obtain ⟨schema, -, hall⟩ := h
  cases bs with
  | nil => cases hb
  | cons c cs =>
    have hc : c.schema = b.schema := (hall c List.mem_cons_self).trans (hall b hb).symm
    exact congrArg List.length hc

/-- A loop over rows that reads columns first stops before the first row if one is missing. -/
theorem foldlM_reads {σ α : Type} {rows : List α} (f : σ → α → σ) {P : Prop} [Decidable P] (s : σ) :
    rows.foldlM (fun s row => if P then some (f s row) else none) s = if rows = [] ∨ P then some (rows.foldl f s) else none := by
  rw [foldlM_guarded]
  cases rows with
  | nil => simp
  | cons row rows =>
    have hall : (∀ a ∈ row :: rows, P) ↔ row :: rows = [] ∨ P := by simp +contextual
    simp only [hall]

/-! ## Groups -/

def keyOf (keys : List Nat) (row : Row) : List Str := keys.map (textAt row)

def groupOf (keys : List Nat) (rows : List Row) (key : List Str) : List Row := rows.filter (fun row => decide (keyOf keys row = key))

/-- The number of rows of a group and their sums, as `u64` holds them. -/
def entryOf (keys aggs : List Nat) (rows : List Row) (key : List Str) : Nat × List Nat :=
  ((groupOf keys rows key).length % 2 ^ 64, aggs.map (fun a => ((groupOf keys rows key).map (u64At · a)).sum % 2 ^ 64))

/-- One row for each key, in the order of the keys. -/
def grouped (keys aggs : List Nat) (rows : List Row) : List Row :=
  (rows.map (keyOf keys)).toFinset.sort.map (fun key => groupRow (key, entryOf keys aggs rows key))

def Relation.aggregate (keys aggs : List Nat) (rel : Relation) : Option Relation :=
  if rel.Reads (keys ++ aggs) then some ⟨some (aggregateSchema keys aggs), grouped keys aggs rel.rows⟩ else none

theorem toOption_forM_columnType (b : RecordBatch) {β : Type} (f : Except AnalyticsError β) : ∀ ks : List Nat,
    ((forM ks (fun k => b.columnType k >>= fun _ => .ok ()) : Except AnalyticsError Unit) >>= fun _ => f).toOption =
      if ∀ k ∈ ks, k < b.schema.length then f.toOption else none
  | [] => by
    rw [if_pos fun _ h => (List.not_mem_nil h).elim]
    rfl
  | k :: ks => by
    have ih := toOption_forM_columnType b f ks
    rw [Except.toOption_bind] at ih ⊢
    rw [List.forM_cons, Except.toOption_bind, toOption_columnType, Option.bind_assoc]
    simp only [List.forall_mem_cons]
    by_cases hk : k < b.schema.length
    · rw [if_pos hk]
      refine ih.trans ?_
      simp only [hk, true_and]
    · rw [if_neg hk, if_neg fun h => hk h.1]
      rfl

theorem toOption_groups (keys aggs : List Nat) {width : Nat} : ∀ (bs : List RecordBatch) (groups : Groups),
    (∀ b ∈ bs, b.schema.length = width) →
    (bs.foldlM (fun groups (b : RecordBatch) => b.rows.foldlM (addRow keys aggs b) groups) groups).toOption =
      (bs.flatMap RecordBatch.rows).foldlM (fun groups row => if ∀ k ∈ keys ++ aggs, k < width then
        some (groups.alter (keyOf keys row) (fun old => some (addEntry aggs old row))) else none) groups
  | [], _, _ => rfl
  | b :: bs, groups, hwidth => by
    have hrow : (fun groups row => (addRow keys aggs b groups row).toOption) =
        (fun groups row => if ∀ k ∈ keys ++ aggs, k < width then
          some (groups.alter (keyOf keys row) (fun old => some (addEntry aggs old row))) else none) := by
      funext groups row
      rw [addRow, toOption_forM_columnType, hwidth b List.mem_cons_self]
      rfl
    rw [List.foldlM_cons, Except.toOption_bind, toOption_foldlM, hrow, List.flatMap_cons, List.foldlM_append]
    exact Option.bind_congr fun groups _ => toOption_groups keys aggs bs groups fun c hc => hwidth c (List.mem_cons_of_mem b hc)

/-- Rows added to an entry that stands for a count and sums. -/
theorem foldl_addEntry (aggs : List Nat) : ∀ (group : List Row) (old : Option (Nat × List Nat)) (c : Nat) (sum : Nat → Nat),
    old.getD (0, aggs.map (fun _ => 0)) = (c % 2 ^ 64, aggs.map (fun a => sum a % 2 ^ 64)) →
    (group.foldl (fun old row => some (addEntry aggs old row)) old).getD (0, aggs.map (fun _ => 0))
      = ((c + group.length) % 2 ^ 64, aggs.map (fun a => (sum a + (group.map (u64At · a)).sum) % 2 ^ 64))
  | [], _, _, _, h => by simpa using h
  | row :: group, old, c, sum, h => by
    have hentry : addEntry aggs old row = ((c + 1) % 2 ^ 64, aggs.map (fun a => (sum a + u64At row a) % 2 ^ 64)) := by
      rw [addEntry, h]
      refine Prod.ext (Nat.mod_add_mod c _ 1) ?_
      simp only [List.zipWith_map_left, List.zipWith_self]
      apply List.map_congr_left
      intro a _
      rw [u64At]
      cases (row[a]?).bind Cell.addend with
      | none => simp
      | some v => exact Nat.mod_add_mod (sum a) _ v
    rw [List.foldl_cons, hentry, foldl_addEntry aggs group _ (c + 1) (fun a => sum a + u64At row a) rfl]
    refine Prod.ext ?_ ?_
    · simp only [List.length_cons, Nat.add_assoc, Nat.add_comm 1]
    · simp only [List.map_cons, List.sum_cons, Nat.add_assoc]

theorem foldl_addEntry_isSome (aggs : List Nat) : ∀ (group : List Row) (old : Option (Nat × List Nat)),
    group ≠ [] ∨ old.isSome = true → (group.foldl (fun old row => some (addEntry aggs old row)) old).isSome = true
  | [], _, h => h.resolve_left fun h => h rfl
  | _ :: group, _, _ => foldl_addEntry_isSome aggs group _ (.inr rfl)

theorem get?_groups (keys aggs : List Nat) (rows : List Row) (key : List Str) (entry : Nat × List Nat) :
    (SortedMap.groupInto (keyOf keys) (addEntry aggs) rows .empty).get? key = some entry ↔
      key ∈ (rows.map (keyOf keys)).toFinset ∧ entry = entryOf keys aggs rows key := by
  have hmem : key ∈ (rows.map (keyOf keys)).toFinset ↔ groupOf keys rows key ≠ [] := by
    simp [groupOf, List.filter_eq_nil_iff]
  rw [SortedMap.get?_groupInto (fun row => decide_eq_true_iff), SortedMap.get?_empty]
  change (groupOf keys rows key).foldl _ none = _ ↔ _
  by_cases hkey : key ∈ (rows.map (keyOf keys)).toFinset
  · have hfold := foldl_addEntry aggs (groupOf keys rows key) none 0 (fun _ => 0) rfl
    obtain ⟨entry', hentry⟩ := Option.isSome_iff_exists.1 (foldl_addEntry_isSome aggs _ none (.inl (hmem.1 hkey)))
    rw [hentry, Option.getD_some] at hfold
    rw [hentry, hfold, entryOf]
    simp only [hkey, Nat.zero_add, Option.some.injEq, true_and]
    exact eq_comm
  · rw [not_not.1 (mt hmem.2 hkey)]
    simp [hkey]

/-- **An aggregation** groups the rows, and one batch comes out. -/
theorem view_aggregate (h : Uniform bs) (keys aggs : List Nat) :
    (runAggregate bs keys aggs).toOption.map view = (view bs).aggregate keys aggs ∧
      ∀ out, (runAggregate bs keys aggs).toOption = some out → Uniform out := by
  have hschema : aggregateSchema keys aggs ≠ [] := by simp [aggregateSchema]
  have hreads : ((bs.flatMap RecordBatch.rows = [] ∨ ∀ k ∈ keys ++ aggs, k < (view bs).width)) ↔ (view bs).Reads (keys ++ aggs) :=
    Iff.rfl
  rw [runAggregate, Except.toOption_bind, toOption_groups keys aggs bs .empty fun b hb => (h.width hb).symm, foldlM_reads,
    Relation.aggregate]
  simp only [hreads]
  split
  · have hentries := SortedMap.entries_eq_sort (get?_groups keys aggs (bs.flatMap RecordBatch.rows))
    rw [SortedMap.groupInto] at hentries
    simp only [Option.bind_some, tryNew_eq hschema, hentries, List.map_map, Except.toOption_bind, Except.toOption_ok, Option.map_some]
    refine ⟨?_, fun out hout => ?_⟩
    · simp [view, grouped, Function.comp_def]
    · cases hout
      exact ⟨_, hschema, List.forall_mem_singleton.2 rfl⟩
  · exact ⟨rfl, fun out hout => by cases hout⟩

/-! ## Joins -/

/-- Every pair of rows whose keys print alike, in the order of the right rows and then of the left. -/
def joined (lk rk : Nat) (left right : List Row) : List Row :=
  right.flatMap fun r => (left.filter (fun l => decide (textAt l lk = textAt r rk))).map (· ++ r)

def Relation.join (lk rk : Nat) (l r : Relation) : Option Relation :=
  match l.schema, r.schema with
  | some ls, some rs =>
    if l.Reads [lk] ∧ r.Reads [rk] then some ⟨some (joinedSchema ls rs), joined lk rk l.rows r.rows⟩ else none
  | _, _ => some ⟨none, []⟩

theorem foldl_push {α : Type} : ∀ (l : List α) (old : Option (List α)),
    (l.foldl (fun old a => some (old.getD [] ++ [a])) old).getD [] = old.getD [] ++ l
  | [], _ => (List.append_nil _).symm
  | a :: l, old => by
    rw [List.foldl_cons, foldl_push l, Option.getD_some, List.append_assoc]
    rfl

theorem range_numRows (b : RecordBatch) : List.range b.numRows = [] ↔ b.rows = [] := by
  rw [List.range_eq_nil, RecordBatch.numRows, List.length_eq_zero_iff]

theorem toOption_buildTable (b : RecordBatch) (k : Nat) : (buildTable b k).toOption =
    if b.rows = [] ∨ k < b.schema.length then
      some (SortedMap.groupInto (fun i => textAt (b.row i) k) (fun old i => old.getD [] ++ [i]) (List.range b.numRows) .empty)
    else none := by
  rw [buildTable, toOption_foldlM]
  simp only [toOption_columnType, Except.toOption_ok]
  rw [foldlM_reads]
  simp only [range_numRows]
  rfl

theorem toOption_probe (table : SortedMap Str (List Nat)) (b : RecordBatch) (k : Nat) : (probe table b k).toOption =
    if b.rows = [] ∨ k < b.schema.length then
      some ((List.range b.numRows).flatMap fun i => ((table.get? (textAt (b.row i) k)).getD []).map (·, i))
    else none := by
  have hfold : ∀ (l : List Nat) (pairs : List (Nat × Nat)),
      l.foldl (fun pairs i => pairs ++ ((table.get? (textAt (b.row i) k)).getD []).map (·, i)) pairs
        = pairs ++ l.flatMap (fun i => ((table.get? (textAt (b.row i) k)).getD []).map (·, i)) := fun l pairs =>
    foldl_append_of_step id (fun _ _ => rfl) l pairs
  rw [probe, toOption_foldlM]
  simp only [toOption_columnType, Except.toOption_ok]
  rw [foldlM_reads, hfold, List.nil_append]
  simp only [range_numRows]

/-- **The pairs of places** that the table finds, as rows. -/
theorem map_pairs (l r : RecordBatch) (lk rk : Nat) :
    ((List.range r.numRows).flatMap fun i => (((SortedMap.groupInto (fun i => textAt (l.row i) lk) (fun old i => old.getD [] ++ [i])
        (List.range l.numRows) .empty).get? (textAt (r.row i) rk)).getD []).map (·, i)).map (fun p => l.row p.1 ++ r.row p.2)
      = joined lk rk l.rows r.rows := by
  have hget : ∀ key : Str, ((SortedMap.groupInto (fun i => textAt (l.row i) lk) (fun old i => old.getD [] ++ [i])
      (List.range l.numRows) .empty).get? key).getD [] = (List.range l.numRows).filter (fun i => decide (textAt (l.row i) lk = key)) := by
    intro key
    rw [SortedMap.get?_groupInto (fun i => decide_eq_true_iff), foldl_push]
    rfl
  simp only [hget]
  conv_rhs => rw [joined, ← map_row_range l, ← map_row_range r, List.flatMap_map]
  rw [List.map_flatMap]
  apply List.flatMap_congr
  intro i _
  rw [List.filter_map, List.map_map, List.map_map]
  rfl

/-- **The hash join** pairs what a nested loop pairs. -/
theorem view_join {l r : List RecordBatch} (hl : Uniform l) (hr : Uniform r) (lk rk : Nat) :
    (runHashJoin l r lk rk).toOption.map view = (view l).join lk rk (view r) ∧
      ∀ out, (runHashJoin l r lk rk).toOption = some out → Uniform out := by
  have hempty : Uniform [] := ⟨batchSchema, by simp [batchSchema], fun _ h => (List.not_mem_nil h).elim⟩
  cases l with
  | nil => exact ⟨rfl, fun out h => by cases h; exact hempty⟩
  | cons lb ls =>
    cases r with
    | nil => exact ⟨rfl, fun out h => by cases h; exact hempty⟩
    | cons rb rs =>
      have hls := hl.schema_ne List.mem_cons_self
      have hrs := hr.schema_ne List.mem_cons_self
      have hjoined : joinedSchema lb.schema rb.schema ≠ [] := by simp [joinedSchema, hls]
      have hreads : ∀ (b : RecordBatch) (bs : List RecordBatch) (k : Nat),
          ((b :: bs).flatMap RecordBatch.rows = [] ∨ k < b.schema.length) ↔ (view (b :: bs)).Reads [k] := fun b bs k => by
        rw [Relation.Reads, List.forall_mem_singleton]
        rfl
      have hview : (view (lb :: ls)).join lk rk (view (rb :: rs)) =
          if (view (lb :: ls)).Reads [lk] ∧ (view (rb :: rs)).Reads [rk] then some ⟨some (joinedSchema lb.schema rb.schema),
            joined lk rk ((lb :: ls).flatMap RecordBatch.rows) ((rb :: rs).flatMap RecordBatch.rows)⟩ else none := rfl
      rw [hview, runHashJoin]
      simp only [Except.toOption_bind, RecordBatch.concatBatches, tryNew_eq hls, tryNew_eq hrs, tryNew_eq hjoined, Except.toOption_ok,
        Option.bind_some, toOption_buildTable, toOption_probe, hreads]
      by_cases hlk : (view (lb :: ls)).Reads [lk]
      · by_cases hrk : (view (rb :: rs)).Reads [rk]
        · have hrows := map_pairs ⟨lb.schema, (lb :: ls).flatMap RecordBatch.rows⟩ ⟨rb.schema, (rb :: rs).flatMap RecordBatch.rows⟩ lk rk
          rw [if_pos hlk, if_pos ⟨hlk, hrk⟩, Option.bind_some, if_pos hrk, Option.bind_some]
          refine ⟨?_, fun out h => ?_⟩
          · rw [← hrows, Option.map_some, view, List.flatMap_singleton, RecordBatch.take, RecordBatch.take, List.map_map, List.map_map,
              List.zipWith_map, List.zipWith_self]
            rfl
          · cases h
            exact ⟨_, hjoined, List.forall_mem_singleton.2 rfl⟩
        · rw [if_pos hlk, Option.bind_some, if_neg hrk, if_neg fun h => hrk h.2]
          exact ⟨rfl, fun out h => by cases h⟩
      · rw [if_neg hlk, if_neg fun h => hlk h.1]
        exact ⟨rfl, fun out h => by cases h⟩

end Analytics
end Heraclitus
