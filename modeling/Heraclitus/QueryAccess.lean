import Heraclitus.Query
import Heraclitus.Lib.Ranked
import Heraclitus.Lib.Fallible
/-!
# QueryAccess — a `WHERE` by its access path and by a scan

A shortcut sees some of the events below the bound, and hands on the first `queryScanCap` of these
(`candidates_eq`); the filter that runs behind it cannot bring back what the shortcut does not see.
-/
namespace Heraclitus
namespace Query

/-! ## What a shortcut sees -/

/-- The access path that a `WHERE` is given; a skip scan is a window, the engine having no zone maps. -/
inductive Path where
  | lookup (field value : Str)
  | range (field : Str) (min max : NumBound)
  | window

def accessPath (conditions : List (BoolOp × Condition)) : Path :=
  match attrEqHint conditions with
  | some (field, value) => .lookup field value
  | none => match attrRangeHint conditions with
    | some (field, min, max) => .range field min max
    | none => .window

instance (event : Episode) (key : Str) : Decidable (Files event key) := inferInstanceAs (Decidable (_ ∨ _ ∨ _))

/-- Is the key of a number within the bounds of a range? -/
def within (min max : NumBound) (n : Nat) : Bool :=
  ((toBound min).map encodeF64).above n && ((toBound max).map encodeF64).below n

section

variable (env : Env)

/-- The event is filed in the index under the key or within the range that is looked up, or it lies in the window. -/
def sees (conditions : List (BoolOp × Condition)) (bound : Option Nat) (r : Nat × Episode) : Bool :=
  match accessPath conditions with
  | .lookup field value => !isHvm r.2 && decide (Files r.2 (ikey field value))
  | .range field min max =>
    !isHvm r.2 && (r.2.attrs.get? field).any (fun v => !skipped (trim v) && (numKey env (trim v)).any (within min max))
  | .window => decide ((lsnWindow conditions bound).1 ≤ r.1) && decide (r.1 < (lsnWindow conditions bound).2)

/-- What the label, `VALID AT` and `WHERE` ask of an event. -/
def ScanFilter.accepts (q : ScanFilter) (r : Nat × Episode) : Bool :=
  labelAccepts q r.2 && q.validAt.all (validAtMatches env r.2) && matchesWhere env q.conditions r.1 r.2

theorem ScanFilter.keep_eq_filter (q : ScanFilter) (candidates : List (Nat × Episode)) :
    q.keep env candidates = candidates.filter (q.accepts env) := by
  unfold keep
  rw [List.filter_filter, List.filter_filter]
  refine List.filter_congr (fun r _ => ?_)
  rw [ScanFilter.accepts]
  cases labelAccepts q r.2 <;> cases q.validAt.all (validAtMatches env r.2) <;>
    cases matchesWhere env q.conditions r.1 r.2 <;> rfl

end

variable {env : Env} {events : List Episode} {bound : Option Nat}

theorem ranked_scanBelow : Ranked (scanBelow events bound) := (number_pairwise events 0).filter _

theorem mem_scanBelow {l : Nat} {e : Episode} :
    (l, e) ∈ scanBelow events bound ↔ events[l]? = some e ∧ bound.all (fun b => decide (l < b)) = true := by
  unfold scanBelow
  rw [List.mem_filter, mem_number]
  simp

/-! ## The index of a whole log -/

theorem mem_lookup_ofLog {l : Nat} {key : Str} : l ∈ (Engine.ofLog env events).attr.postings key ↔
    ∃ e, events[l]? = some e ∧ isHvm e = false ∧ Files e key := by
  have hstep : ∀ (idx : AttrIndex) (r : Nat × Episode), l ∈ (indexApplied env idx r).postings key ↔
      (l = r.1 ∧ isHvm r.2 = false ∧ Files r.2 key) ∨ l ∈ idx.postings key := fun idx r => by
    unfold indexApplied
    split
    · rename_i h
      simp [h]
    · rename_i h
      rw [AttrIndex.mem_postings_apply]
      simp [h]
  have hnew : l ∉ AttrIndex.new.postings key := by simp [AttrIndex.new, AttrIndex.postings]
  unfold Engine.ofLog
  dsimp only
  rw [foldl_iff_of_step (M := fun idx => l ∈ AttrIndex.postings idx key) hstep, or_iff_left hnew]
  constructor
  · rintro ⟨⟨l', e⟩, hmem, rfl, hhvm, hfiles⟩
    exact ⟨e, by simpa using (mem_number.1 hmem).2, hhvm, hfiles⟩
  · rintro ⟨e, he, hhvm, hfiles⟩
    exact ⟨(l, e), mem_number.2 ⟨Nat.zero_le l, by simpa using he⟩, rfl, hhvm, hfiles⟩

theorem mem_numPostings_ofLog {l n : Nat} {field : Str} : l ∈ (Engine.ofLog env events).attr.numPostings field n ↔
    ∃ e, events[l]? = some e ∧ isHvm e = false ∧
      ∃ v, e.attrs.get? field = some v ∧ skipped (trim v) = false ∧ numKey env (trim v) = some n := by
  have hstep : ∀ (idx : AttrIndex) (r : Nat × Episode), l ∈ (indexApplied env idx r).numPostings field n ↔
      (l = r.1 ∧ isHvm r.2 = false ∧
        ∃ v, r.2.attrs.get? field = some v ∧ skipped (trim v) = false ∧ numKey env (trim v) = some n)
      ∨ l ∈ idx.numPostings field n := fun idx r => by
    unfold indexApplied
    split
    · rename_i h
      simp [h]
    · rename_i h
      rw [AttrIndex.mem_numPostings_apply]
      simp [h]
  have hnew : l ∉ AttrIndex.new.numPostings field n := by simp [AttrIndex.new, AttrIndex.numPostings]
  unfold Engine.ofLog
  dsimp only
  rw [foldl_iff_of_step (M := fun idx => l ∈ AttrIndex.numPostings idx field n) hstep, or_iff_left hnew]
  constructor
  · rintro ⟨⟨l', e⟩, hmem, rfl, hhvm, hv⟩
    exact ⟨e, by simpa using (mem_number.1 hmem).2, hhvm, hv⟩
  · rintro ⟨e, he, hhvm, hv⟩
    exact ⟨(l, e), mem_number.2 ⟨Nat.zero_le l, by simpa using he⟩, rfl, hhvm, hv⟩

theorem postings_sorted (idx : AttrIndex) (key : Str) : (idx.postings key).Pairwise (· < ·) := by
  unfold AttrIndex.postings
  cases idx.exactPostings.get? key with
  | none => exact List.Pairwise.nil
  | some p => exact p.sorted

/-! ## The candidates -/

/-- Reading the events of a lookup gives the first `cap` of them. -/
theorem hydrate_eq {cap : Nat} : ∀ (rows out : List (Nat × Episode)), (∀ r ∈ rows, events[r.1]? = some r.2) →
    out.length < cap → hydrate events cap (rows.map Prod.fst) out = (out ++ rows).take cap
  | [], out, _, hout => by
    rw [List.append_nil, List.take_of_length_le (Nat.le_of_lt hout)]
    rfl
  | r :: rows, out, hread, hout => by
    rw [List.map_cons, hydrate, hread r List.mem_cons_self]
    dsimp only
    have hlength : (out ++ [r]).length = out.length + 1 := by simp
    have hassoc : out ++ r :: rows = (out ++ [r]) ++ rows := by simp
    rw [hlength, hassoc]
    split
    · rename_i hcap
      rw [List.take_append, List.take_of_length_le (by omega), hlength,
        show cap - (out.length + 1) = 0 by omega, List.take_zero, List.append_nil]
    · rename_i hcap
      exact hydrate_eq rows (out ++ [r]) (fun s hs => hread s (List.mem_cons_of_mem r hs)) (by omega)

theorem mem_retainBelow {l : Nat} {lsns : List Nat} :
    l ∈ retainBelow bound lsns ↔ l ∈ lsns ∧ bound.all (fun b => decide (l < b)) = true := by
  cases bound <;> simp [retainBelow]

theorem retainBelow_sorted {lsns : List Nat} (h : lsns.Pairwise (· < ·)) : (retainBelow bound lsns).Pairwise (· < ·) := by
  cases bound with
  | none => exact h
  | some b => exact h.filter _

/-- The events of a lookup, when their LSNs are those of the events that `seen` accepts. -/
theorem hydrate_keys {keys : List Nat} (hkeys : keys.Pairwise (· < ·)) (seen : Nat × Episode → Bool)
    (hmem : ∀ l, l ∈ keys ↔ ∃ e, (l, e) ∈ scanBelow events bound ∧ seen (l, e) = true) :
    hydrate events queryScanCap keys [] = ((scanBelow events bound).filter seen).take queryScanCap := by
  rw [keys_eq_map_filter ranked_scanBelow hkeys seen hmem, hydrate_eq _ [] (fun r hr => ?_) (by decide), List.nil_append]
  exact (mem_scanBelow.1 (List.mem_filter.1 hr).1).1

theorem narrow_le (w : Nat × Nat) (op : Cmp) (n : F64) : (narrow w op n).2 ≤ w.2 := by
  cases op <;> simp [narrow]

theorem narrowBy_le (w : Nat × Nat) (c : Condition) : (narrowBy w c).2 ≤ w.2 := by
  unfold narrowBy
  split
  · exact narrow_le _ _ _
  · exact Nat.le_refl _

theorem lsnWindow_le (conditions : List (BoolOp × Condition)) (bound : Option Nat) :
    (lsnWindow conditions bound).2 ≤ max (lsnWindow conditions bound).1 (bound.getD u64Max) := by
  unfold lsnWindow
  dsimp only
  split
  · exact Nat.le_max_right _ _
  · have hfold : (conditions.foldl (fun w oc => narrowBy w oc.2) (0, bound.getD u64Max)).2 ≤ bound.getD u64Max :=
      foldl_preserves (P := fun w : Nat × Nat => w.2 ≤ bound.getD u64Max)
        (fun w oc hw => Nat.le_trans (narrowBy_le w oc.2) hw) conditions _ (Nat.le_refl _)
    split
    · exact Nat.le_max_left _ _
    · exact Nat.le_trans hfold (Nat.le_max_right _ _)

/-- **The candidates are the first `queryScanCap` events that the access path sees.** -/
theorem candidates_eq (conditions : List (BoolOp × Condition)) (bound : Option Nat) :
    (Engine.ofLog env events).candidates conditions bound
      = ((scanBelow events bound).filter (sees env conditions bound)).take queryScanCap := by
  have hwindow : (Engine.ofLog env events).scanRange (lsnWindow conditions bound).1 (lsnWindow conditions bound).2
      = ((scanBelow events bound).filter (fun r => decide ((lsnWindow conditions bound).1 ≤ r.1) &&
          decide (r.1 < (lsnWindow conditions bound).2))).take queryScanCap := by
    have hle := lsnWindow_le conditions bound
    rw [Engine.scanRange, scanCapped_eq_filter, scanBelow, List.filter_filter]
    refine congrArg (List.take queryScanCap) (List.filter_congr fun r _ => ?_)
    rw [Bool.eq_iff_iff]
    cases bound with
    | none => simp
    | some b =>
      simp only [Option.getD_some, Option.all_some, Bool.and_eq_true, decide_eq_true_eq] at hle ⊢
      omega
  unfold Engine.candidates sees accessPath
  cases heq : attrEqHint conditions with
  | some fv =>
    obtain ⟨field, value⟩ := fv
    dsimp only [Engine.attrLookup]
    have hsorted : (retainBelow bound ((Engine.ofLog env events).attr.postings (ikey field value))).Pairwise (· < ·) :=
      retainBelow_sorted (postings_sorted _ _)
    have hsort : (retainBelow bound ((Engine.ofLog env events).attr.lookup field value)).insertionSort (· ≤ ·)
        = retainBelow bound ((Engine.ofLog env events).attr.postings (ikey field value)) :=
      (hsorted.imp Nat.le_of_lt).insertionSort_eq
    rw [hsort]
    refine hydrate_keys hsorted _ (fun l => ?_)
    rw [mem_retainBelow, mem_lookup_ofLog]
    simp only [mem_scanBelow, Bool.and_eq_true, Bool.not_eq_true', decide_eq_true_eq]
    constructor
    · rintro ⟨⟨e, he, hhvm, hfiles⟩, hbound⟩
      exact ⟨e, ⟨he, hbound⟩, hhvm, hfiles⟩
    · rintro ⟨e, ⟨he, hbound⟩, hhvm, hfiles⟩
      exact ⟨⟨e, he, hhvm, hfiles⟩, hbound⟩
  | none =>
    cases hrange : attrRangeHint conditions with
    | some fmm =>
      obtain ⟨field, min, max⟩ := fmm
      dsimp only [Engine.attrRangeLookup]
      refine hydrate_keys (retainBelow_sorted (AttrIndex.lookupRange_sorted _ _ _ _)) _ (fun l => ?_)
      rw [mem_retainBelow, AttrIndex.mem_lookupRange]
      simp only [mem_numPostings_ofLog, mem_scanBelow, Bool.and_eq_true, Bool.not_eq_true', Option.any_eq_true]
      constructor
      · rintro ⟨⟨n, hin, e, he, hhvm, v, hv, hs, hn⟩, hbound⟩
        exact ⟨e, ⟨he, hbound⟩, hhvm, v, hv, hs, n, hn, by rw [within, hin.1, hin.2]; rfl⟩
      · rintro ⟨e, ⟨he, hbound⟩, hhvm, v, hv, hs, n, hn, hin⟩
        rw [within, Bool.and_eq_true] at hin
        exact ⟨⟨n, hin, e, he, hhvm, v, hv, hs, hn⟩, hbound⟩
    | none => cases builtinSkipHint conditions <;> exact hwindow

/-- **A `WHERE` answers like the scan exactly when its access path sees every event it accepts**, early enough. -/
theorem execute_eq_scan_iff (env : Env) (events : List Episode) (q : ScanFilter) (bound : Option Nat) :
    (Engine.ofLog env events).execute env q bound = q.keep env (scanBelow events bound) ↔
      ∀ r ∈ scanBelow events bound, q.accepts env r = true →
        sees env q.conditions bound r = true ∧
          rank ((scanBelow events bound).filter (sees env q.conditions bound)) r < queryScanCap := by
  rw [Engine.execute, candidates_eq, ScanFilter.keep_eq_filter, ScanFilter.keep_eq_filter]
  exact filter_take_filter_eq_iff ranked_scanBelow _ _ _

/-- `WHERE n.ativo = "true"`, over a log whose only event has `ativo` set to `true`. -/
def ativoTrue : ScanFilter where
  label := none
  conditions := [(.first, ⟨.prop "n".toList "ativo".toList, .eq, .str "true".toList⟩)]
  validAt := none

def ativo : Episode :=
  { Episode.new 1 "a".toList .observation [] with
    attrs := SortedMap.empty.insert "ativo".toList "true".toList }

/-- The index files no `true`, so the lookup misses what the scan finds. -/
theorem execute_misses_scan :
    let env : Env := ⟨fun _ => none, fun _ => [], fun _ => [], fun _ _ _ => none⟩
    (Engine.ofLog env [ativo]).execute env ativoTrue none = [] ∧
      ativoTrue.keep env (scanBelow [ativo] none) = [(0, ativo)] := by decide +kernel

end Query
end Heraclitus
