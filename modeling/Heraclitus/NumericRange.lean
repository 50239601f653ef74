import Heraclitus.AttrOrder
import Heraclitus.Query
/-!
# NumericRange — `lookup_range` of the attribute index, with `BTreeMap::range` as it is

`BTreeMap::range` panics when its bounds cross.  The lookup tests the encoded bounds first, so it never does, and what lies between
the keys lies between the numbers.
-/
namespace Heraclitus

namespace Bound

/-- Bounds that make `BTreeMap::range` panic. -/
def crossed : Bound Nat → Bound Nat → Bool
  | .included a, .included b | .included a, .excluded b | .excluded a, .included b => decide (b < a)
  | .excluded a, .excluded b => decide (b ≤ a)
  | _, _ => false

/-- Is a number within a lower bound? -/
def From (x : F64) : Bound F64 → Prop
  | .unbounded => True
  | .included a => a.le x = true
  | .excluded a => a.lt x = true

/-- Is a number within an upper bound?  A NaN bounds nothing. -/
def UpTo (x : F64) : Bound F64 → Prop
  | .unbounded => True
  | .included a => a.isNan = true ∨ x.le a = true
  | .excluded a => a.isNan = true ∨ x.lt a = true

end Bound

namespace AttrIndex

/-- `BTreeMap::range`. -/
def btreeRange (m : SortedMap Nat Postings) (lo hi : Bound Nat) : Option (List (Nat × Postings)) :=
  if Bound.crossed lo hi then none else some (m.entries.filter (fun p => lo.above p.1 && hi.below p.1))

/-- `lookup_range`; no result is a panic. -/
def lookupRangePanics (idx : AttrIndex) (field : Str) (min max : Bound F64) : Option (List Nat) :=
  match idx.numeric.get? field with
  | none => some []
  | some byValue =>
    let lo := min.map encodeF64
    let hi := max.map encodeF64
    if Bound.vazio lo hi then some []
    else (btreeRange byValue lo hi).map (fun found => sortDedup (found.flatMap (·.2.lsns)))

/-! ## The order of the keys -/

section Keys

variable {a x : F64}

theorem isNan_of_isFinite (h : x.isFinite = true) : x.isNan = false := by
  simp only [F64.isFinite, F64.isNan, decide_eq_true_eq, decide_eq_false_iff_not] at h ⊢
  omega

theorem lt_iff_place (ha : a.isNan = false) (hx : x.isNan = false) : a.lt x = true ↔ a.place < x.place := by
  unfold F64.lt F64.partialCmp
  rw [ha, hx]
  rcases lt_trichotomy a.place x.place with h | h | h
  · simp [h]
  · simp [h]
  · simp [h.not_gt, h.ne']

theorem le_iff_place (ha : a.isNan = false) (hx : x.isNan = false) : a.le x = true ↔ a.place ≤ x.place := by
  unfold F64.le
  rw [Bool.or_eq_true, lt_iff_place ha hx, le_iff_lt_or_eq]
  unfold F64.partialCmp
  rw [ha, hx]
  rcases lt_trichotomy a.place x.place with h | h | h
  · simp [h]
  · simp [h]
  · simp [h.not_gt, h.ne']

theorem encodeF64_le_iff (ha : a.isNan = false) (hx : x.isNan = false) : encodeF64 a ≤ encodeF64 x ↔ a.place ≤ x.place := by
  rw [← not_lt, encodeF64_lt_iff hx ha, not_lt]

/-- A finite number is below the key of the NaNs. -/
theorem encodeF64_lt_nan (hx : x.isFinite = true) : encodeF64 x < u64Max := by
  have hkey := encodeF64_eq (isNan_of_isFinite hx)
  have hplace : x.place ≤ x.magnitude := by
    unfold F64.place
    split <;> omega
  have hlt : x.magnitude < 2047 * 2 ^ 52 := of_decide_eq_true hx
  unfold u64Max
  split at hkey <;> omega

theorem encodeF64_nan (ha : a.isNan = true) : encodeF64 a = u64Max := by
  rw [encodeF64, if_pos ha]

theorem partialCmp_nan_left (ha : a.isNan = true) : a.partialCmp x = none := by
  rw [F64.partialCmp, ha]
  rfl

theorem above_iff (hx : x.isFinite = true) (b : Bound F64) : (b.map encodeF64).above (encodeF64 x) = true ↔ b.From x := by
  have hxnan := isNan_of_isFinite hx
  have hkey := encodeF64_lt_nan hx
  cases b with
  | unbounded => exact iff_of_true rfl trivial
  | included a =>
    rw [Bound.map, Bound.above, decide_eq_true_eq, Bound.From]
    cases ha : a.isNan with
    | true =>
      rw [encodeF64_nan ha]
      refine iff_of_false (Nat.not_le.2 hkey) ?_
      simp [F64.le, F64.lt, partialCmp_nan_left ha]
    | false => rw [encodeF64_le_iff ha hxnan, le_iff_place ha hxnan]
  | excluded a =>
    rw [Bound.map, Bound.above, decide_eq_true_eq, Bound.From]
    cases ha : a.isNan with
    | true =>
      rw [encodeF64_nan ha]
      refine iff_of_false (Nat.not_lt.2 hkey.le) ?_
      simp [F64.lt, partialCmp_nan_left ha]
    | false => rw [encodeF64_lt_iff ha hxnan, lt_iff_place ha hxnan]

theorem below_iff (hx : x.isFinite = true) (b : Bound F64) : (b.map encodeF64).below (encodeF64 x) = true ↔ b.UpTo x := by
  have hxnan := isNan_of_isFinite hx
  have hkey := encodeF64_lt_nan hx
  cases b with
  | unbounded => exact iff_of_true rfl trivial
  | included a =>
    rw [Bound.map, Bound.below, decide_eq_true_eq, Bound.UpTo]
    cases ha : a.isNan with
    | true =>
      rw [encodeF64_nan ha]
      exact iff_of_true hkey.le (.inl rfl)
    | false => rw [encodeF64_le_iff hxnan ha, le_iff_place hxnan ha, or_iff_right Bool.false_ne_true]
  | excluded a =>
    rw [Bound.map, Bound.below, decide_eq_true_eq, Bound.UpTo]
    cases ha : a.isNan with
    | true =>
      rw [encodeF64_nan ha]
      exact iff_of_true hkey (.inl rfl)
    | false => rw [encodeF64_lt_iff hxnan ha, lt_iff_place hxnan ha, or_iff_right Bool.false_ne_true]

end Keys

theorem vazio_of_crossed {lo hi : Bound Nat} (h : Bound.crossed lo hi = true) : Bound.vazio lo hi = true := by
  cases lo <;> cases hi <;> simp [Bound.crossed, Bound.vazio] at h ⊢ <;> omega

/-- **The lookup never panics.** -/
theorem lookupRangePanics_eq (idx : AttrIndex) (field : Str) (min max : Bound F64) :
    idx.lookupRangePanics field min max = some (idx.lookupRange field min max) := by
  unfold lookupRangePanics lookupRange
  cases idx.numeric.get? field with
  | none => rfl
  | some byValue =>
    dsimp only
    by_cases hvazio : Bound.vazio (min.map encodeF64) (max.map encodeF64) = true
    · rw [if_pos hvazio, if_pos hvazio]
    · have hcrossed : ¬Bound.crossed (min.map encodeF64) (max.map encodeF64) = true := fun h => hvazio (vazio_of_crossed h)
      rw [if_neg hvazio, if_neg hvazio, btreeRange, if_neg hcrossed]
      rfl

/-- Has an event, under a name, an indexed value that reads as a finite number within the bounds? -/
def InRange (env : Query.Env) (field : Str) (min max : Bound F64) (event : Episode) : Prop :=
  ∃ v x, event.attrs.get? field = some v ∧ skipped (trim v) = false ∧ env.parseF64 (trim v) = some x ∧ x.isFinite = true ∧
    min.From x ∧ max.UpTo x

/-- **A numeric range lookup is total and exact**, for every delivery, name and pair of bounds. -/
theorem lookupRange_exact (env : Query.Env) (log : Nat → Episode) (lsns : List Nat) (field : Str) (min max : Bound F64) :
    ∃ found, (delivered (Query.numKey env) log lsns).lookupRangePanics field min max = some found ∧ found.Pairwise (· < ·) ∧
      ∀ l, l ∈ found ↔ l ∈ lsns ∧ InRange env field min max (log l) := by
  refine ⟨_, lookupRangePanics_eq _ field min max, lookupRange_sorted _ field min max, fun l => ?_⟩
  rw [mem_lookupRange]
  simp only [mem_numPostings_delivered]
  constructor
  · rintro ⟨n, hin, hl, v, hv, hskip, hn⟩
    obtain ⟨x, hx, hfinite⟩ := Option.bind_eq_some_iff.1 hn
    split at hfinite
    · rename_i hxfinite
      cases hfinite
      rw [Bool.and_eq_true, above_iff hxfinite, below_iff hxfinite] at hin
      exact ⟨hl, v, x, hv, hskip, hx, hxfinite, hin⟩
    · cases hfinite
  · rintro ⟨hl, v, x, hv, hskip, hx, hxfinite, hfrom, hupto⟩
    refine ⟨encodeF64 x, ?_, hl, v, hv, hskip, ?_⟩
    · rw [Bool.and_eq_true, above_iff hxfinite, below_iff hxfinite]
      exact ⟨hfrom, hupto⟩
    · rw [Query.numKey, hx, Option.bind_some, if_pos hxfinite]

/-- An event whose attribute `n` is infinite. -/
def infiniteEvent : Episode :=
  { Episode.new 1 "a".toList .observation [] with attrs := SortedMap.empty.insert "n".toList "inf".toList }

/-- `parse::<f64>`, on `inf`. -/
def infEnv : Query.Env where
  parseF64 := fun s => if s = "inf".toList then some ⟨0x7ff0000000000000⟩ else none
  ulidText := fun _ => []
  utf8Lossy := fun _ => []
  evalDist := fun _ _ _ => none

/-- **An indexed infinity is in no range**: its value reads as a number, and nothing bounds the lookup. -/
theorem infinity_not_found :
    (delivered (Query.numKey infEnv) (fun _ => infiniteEvent) [0]).lookup "n".toList "inf".toList = [0] ∧
    infEnv.parseF64 "inf".toList = some ⟨0x7ff0000000000000⟩ ∧ Bound.From ⟨0x7ff0000000000000⟩ .unbounded ∧
    Bound.UpTo ⟨0x7ff0000000000000⟩ .unbounded ∧
    (delivered (Query.numKey infEnv) (fun _ => infiniteEvent) [0]).lookupRangePanics "n".toList .unbounded .unbounded = some [] := by
  exact ⟨by decide +kernel, by decide +kernel, trivial, trivial, by decide +kernel⟩

end AttrIndex
end Heraclitus
