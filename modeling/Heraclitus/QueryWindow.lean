import Heraclitus.QueryReach
/-!
# QueryWindow — what the window of LSNs leaves out

A window is cut by every comparison of the LSN with a number.  The numbers are compared as `f64`, the window is cut at the
number's truncation: an accepted LSN stays within the window unless the two part (`mem_lsnWindow_iff`).
-/
namespace Heraclitus
namespace Query

variable {env : Env} {conditions : List (BoolOp × Condition)}

/-- A comparison that holds of an LSN cuts it off: the LSN is below a number that it is the truncation of, or it is 0 and above
a negative number, or the number is the LSN rounded away from it. -/
def Slips (l : Nat) (op : Cmp) (x : F64) : Prop :=
  match op with
  | .lt => l = x.toU64
  | .gt => l = 0
  | .ge => x.place = (F64.ofU64 l).place ∧ l < (F64.ofU64 l).toU64
  | .le => x.place = (F64.ofU64 l).place ∧ (F64.ofU64 l).toU64 < l
  | .eq => (F64.ofU64 l).toU64 ≠ l
  | .ne => False

/-! ## One comparison

An LSN over the truncation of a number is not below the number (`F64.place_le_ofU64`), and one up to the truncation not above. -/

section

variable {l : Nat} {x : F64} (hl : l < 2 ^ 64) (hnan : x.isNan = false)

include hnan

theorem place_ofU64_le (hpos : 0 ≤ x.place) (h : l ≤ x.toU64) : (F64.ofU64 l).place ≤ x.place :=
  Int.le_trans (F64.place_ofU64_mono h (by have := F64.toU64_le hnan; omega)) (F64.place_ofU64_toU64_le hnan hpos)

theorem place_nonneg (h : l < x.toU64) : 0 ≤ x.place := by
  by_contra hc
  rw [F64.toU64_of_place_le hnan (by omega)] at h
  exact Nat.not_lt_zero l h

include hl

theorem toU64_eq_of_place_eq (h : x.place = (F64.ofU64 l).place) : x.toU64 = (F64.ofU64 l).toU64 := by
  rw [F64.toU64_eq_truncate hnan, F64.toU64_eq_truncate (F64.place_ofU64 hl).2.1, h]

theorem toU64_le_iff (h : x.place ≤ (F64.ofU64 l).place) : x.toU64 ≤ l ↔ ¬ Slips l .ge x := by
  constructor
  · rintro hle ⟨heq, hlt⟩
    rw [← toU64_eq_of_place_eq hl hnan heq] at hlt
    exact Nat.not_lt.2 hle hlt
  · intro hns
    by_contra hlt
    rw [Nat.not_le] at hlt
    have heq : x.place = (F64.ofU64 l).place :=
      Int.le_antisymm h (place_ofU64_le hnan (place_nonneg hnan hlt) (Nat.le_of_lt hlt))
    exact hns ⟨heq, toU64_eq_of_place_eq hl hnan heq ▸ hlt⟩

theorem le_toU64_iff (h : (F64.ofU64 l).place ≤ x.place) : l ≤ x.toU64 ↔ ¬ Slips l .le x := by
  constructor
  · rintro hle ⟨heq, hlt⟩
    rw [← toU64_eq_of_place_eq hl hnan heq] at hlt
    exact Nat.not_lt.2 hle hlt
  · intro hns
    by_contra hlt
    rw [Nat.not_le] at hlt
    have heq : x.place = (F64.ofU64 l).place := Int.le_antisymm (F64.place_le_ofU64 hl hnan hlt) h
    exact hns ⟨heq, toU64_eq_of_place_eq hl hnan heq ▸ hlt⟩

theorem toU64_eq_iff (h : (F64.ofU64 l).place = x.place) : x.toU64 ≤ l ∧ l ≤ x.toU64 ↔ ¬ Slips l .eq x := by
  rw [toU64_eq_of_place_eq hl hnan h.symm, Slips, Decidable.not_not]
  exact ⟨fun h => Nat.le_antisymm h.1 h.2, fun h => ⟨Nat.le_of_eq h, Nat.le_of_eq h.symm⟩⟩

theorem lt_toU64_iff (h : (F64.ofU64 l).place < x.place) : l < x.toU64 ↔ ¬ Slips l .lt x := by
  have hle : l ≤ x.toU64 := by
    by_contra hlt
    exact Int.not_lt.2 (F64.place_le_ofU64 hl hnan (Nat.not_le.1 hlt)) h
  exact Nat.lt_iff_le_and_ne.trans (and_iff_right hle)

omit hl

theorem toU64_lt_iff (h : x.place < (F64.ofU64 l).place) : x.toU64 < l ↔ ¬ Slips l .gt x := by
  constructor
  · rintro hlt rfl
    exact Nat.not_lt_zero _ hlt
  · intro hns
    by_cases hneg : x.place < 0
    · rw [F64.toU64_of_place_le hnan (Int.le_of_lt hneg)]
      exact Nat.pos_of_ne_zero hns
    · by_contra hle
      exact Int.not_lt.2 (place_ofU64_le hnan (Int.not_lt.1 hneg) (Nat.not_lt.1 hle)) h

end

/-- A negative number and its cast are cut at 0 alike. -/
theorem narrow_cut {x : F64} (hnan : x.isNan = false) : (if x.lt ⟨0⟩ then 0 else x.toU64) = x.toU64 := by
  split
  · rename_i hneg
    rw [F64.toU64_of_place_le hnan (Int.le_of_lt ((lt_zero_iff hnan).1 hneg))]
  · rfl

/-- **A comparison that holds of an LSN keeps it in the window unless it slips.** -/
theorem mem_narrow_iff {l : Nat} {op : Cmp} {x : F64} {w : Nat × Nat} (hmax : l < u64Max) (hop : op ≠ .ne)
    (hholds : op.holds ((F64.ofU64 l).partialCmp x) = true) :
    ((narrow w op x).1 ≤ l ∧ l < (narrow w op x).2) ↔ (w.1 ≤ l ∧ l < w.2) ∧ ¬ Slips l op x := by
  obtain ⟨hnan, hplaces⟩ := ofPlaces_of_holds hop hholds
  have hl : l < 2 ^ 64 := Nat.lt_of_lt_of_le hmax (by decide)
  have hsat : ∀ m, l < satAdd64 m 1 ↔ l ≤ m := fun m => by
    unfold satAdd64
    omega
  have hsat' : ∀ m, satAdd64 m 1 ≤ l ↔ m < l := fun m => by
    unfold satAdd64
    omega
  unfold narrow
  rw [narrow_cut hnan]
  cases op with
  | ne => exact absurd rfl hop
  | ge =>
    rw [← toU64_le_iff hl hnan hplaces, Nat.max_le, and_right_comm]
  | le =>
    rw [← le_toU64_iff hl hnan hplaces, Nat.lt_min, hsat, and_assoc]
  | eq =>
    rw [← toU64_eq_iff hl hnan hplaces, Nat.max_le, Nat.lt_min, hsat, and_and_and_comm]
  | gt =>
    rw [← toU64_lt_iff hnan hplaces, Nat.max_le, hsat', and_right_comm]
  | lt =>
    rw [← lt_toU64_iff hl hnan hplaces, Nat.lt_min, and_assoc]

/-! ## The window -/

theorem mem_narrowBy_iff {l : Nat} {e : Episode} {c : Condition} {w : Nat × Nat} (hl : l < u64Max)
    (hhit : hit env l e c = true) : ((narrowBy w c).1 ≤ l ∧ l < (narrowBy w c).2) ↔
      (w.1 ≤ l ∧ l < w.2) ∧ ∀ op x, lsnCondition c = some (op, x) → ¬ Slips l op x := by
  unfold narrowBy
  cases hc : lsnCondition c with
  | none => simp
  | some ox =>
    obtain ⟨op, x⟩ := ox
    have hone : (∀ op' x', some (op, x) = some (op', x') → ¬ Slips l op' x') ↔ ¬ Slips l op x := by
      constructor
      · intro h
        exact h op x rfl
      · rintro h _ _ ⟨⟩
        exact h
    rw [hone]
    by_cases hop : op = .ne
    · subst hop
      simp [narrow, Slips]
    · exact mem_narrow_iff hl hop (holds_of_lsnCondition hc hop hhit)

theorem mem_foldl_narrowBy_iff {l : Nat} {e : Episode} (hl : l < u64Max) : ∀ (cs : List (BoolOp × Condition)) (w : Nat × Nat),
    (∀ oc ∈ cs, hit env l e oc.2 = true) →
    (((cs.foldl (fun w oc => narrowBy w oc.2) w).1 ≤ l ∧ l < (cs.foldl (fun w oc => narrowBy w oc.2) w).2) ↔
      (w.1 ≤ l ∧ l < w.2) ∧ ∀ oc ∈ cs, ∀ op x, lsnCondition oc.2 = some (op, x) → ¬ Slips l op x)
  | [], w, _ => by simp
  | oc :: cs, w, hhits => by
    rw [List.foldl_cons, mem_foldl_narrowBy_iff hl cs _ (fun oc' h => hhits oc' (List.mem_cons_of_mem oc h)),
      mem_narrowBy_iff hl (hhits oc List.mem_cons_self), List.forall_mem_cons, and_assoc]

/-- **An accepted event below the bound lies in the window exactly when no comparison of its LSN slips**, unless the condition
has an `OR` and the window is whole. -/
theorem mem_lsnWindow_iff (env : Env) (conditions : List (BoolOp × Condition)) (bound : Option Nat) (l : Nat) (e : Episode)
    (hg : Grammatical conditions) (hbound : ∀ b, bound = some b → b ≤ u64Max) (hl : l < bound.getD u64Max)
    (h : matchesWhere env conditions l e = true) :
    ((lsnWindow conditions bound).1 ≤ l ∧ l < (lsnWindow conditions bound).2) ↔
      hasOr conditions = true ∨ ∀ oc ∈ conditions, ∀ op x, lsnCondition oc.2 = some (op, x) → ¬ Slips l op x := by
  have hmax : l < u64Max := by
    cases bound with
    | none => exact hl
    | some b => exact Nat.lt_of_lt_of_le hl (hbound b rfl)
  unfold lsnWindow
  dsimp only
  cases hor : hasOr conditions with
  | true => simp [hl]
  | false =>
    have hfold := mem_foldl_narrowBy_iff hmax conditions (0, bound.getD u64Max) (hit_of_evalBool hg hor h)
    have hwhole : (0, bound.getD u64Max).1 ≤ l ∧ l < (0, bound.getD u64Max).2 := ⟨Nat.zero_le l, hl⟩
    rw [if_neg Bool.false_ne_true, or_iff_right Bool.false_ne_true]
    rw [and_iff_right hwhole] at hfold
    rw [← hfold]
    split
    · simp only
      omega
    · rfl

/-- `WHERE n.lsn >= 1 AND n.lsn < 4`. -/
theorem mem_lsnWindow_iff_sample :
    let conditions := [(.first, ⟨.prop "n".toList "lsn".toList, .ge, .num (.ofU64 1)⟩),
      (.and, ⟨.prop "n".toList "lsn".toList, .lt, .num (.ofU64 4)⟩)]
    ((lsnWindow conditions (some 9)).1 ≤ 2 ∧ 2 < (lsnWindow conditions (some 9)).2) ↔
      hasOr conditions = true ∨ ∀ oc ∈ conditions, ∀ op x, lsnCondition oc.2 = some (op, x) → ¬ Slips 2 op x :=
  mem_lsnWindow_iff ⟨fun _ => none, fun _ => [], fun _ => [], fun _ _ _ => none⟩ _ (some 9) 2
    (Episode.new 1 "a".toList .observation []) ⟨rfl, by decide⟩ (by decide) (by decide) (by decide +kernel)

/-- `WHERE n.lsn < 2.5`. -/
def belowFraction : List (BoolOp × Condition) :=
  [(.first, ⟨.prop "n".toList "lsn".toList, .lt, .num ⟨0x4004000000000000⟩⟩)]

/-- The window of `n.lsn < 2.5` ends before LSN 2. -/
theorem window_is_too_narrow :
    let env : Env := ⟨fun _ => none, fun _ => [], fun _ => [], fun _ _ _ => none⟩
    matchesWhere env belowFraction 2 (Episode.new 1 "a".toList .observation []) = true ∧
      lsnWindow belowFraction none = (0, 2) := by decide +kernel

end Query
end Heraclitus
