import Heraclitus.AttrIndex
import Heraclitus.Lib.F64
import Mathlib.Data.List.Dedup
import Mathlib.Data.List.Sort
/-!
# AttrRange — the ordered half of the attribute index (`lookup_range`, `heraclitus-core/src/canonical.rs`)

Numbers are filed under their canonical key, an integer in the order of the numbers.
-/
namespace Heraclitus

/-- `CanonicalKeyCodec::encode_f64`: one key for the two zeros, the NaNs last. -/
def encodeF64 (v : F64) : Nat :=
  if v.isNan then u64Max
  else
    let bits := if v.place = 0 then 0 else v.bits.toNat
    if bits < 2 ^ 63 then bits + 2 ^ 63 else 2 ^ 64 - 1 - bits

/-- The key of a number is its place in the order, shifted. -/
theorem encodeF64_eq {v : F64} (h : v.isNan = false) :
    (encodeF64 v : Int) = if v.place < 0 then v.place + 2 ^ 63 - 1 else v.place + 2 ^ 63 := by
  have hbits : v.bits.toNat < 2 ^ 64 := v.bits.toNat_lt
  unfold encodeF64
  rw [h, if_neg Bool.false_ne_true]
  dsimp only
  by_cases hneg : 2 ^ 63 ≤ v.bits.toNat
  · have hplace := F64.place_of_le hneg
    by_cases hzero : v.place = 0
    · simp [hzero]
    · rw [if_neg hzero, if_neg (by omega), if_pos (by omega)]
      omega
  · have hplace := F64.place_of_lt (Nat.not_le.1 hneg)
    by_cases hzero : v.place = 0
    · simp [hzero]
    · rw [if_neg hzero, if_pos (by omega), if_neg (by omega)]
      omega

theorem encodeF64_lt_iff {v w : F64} (hv : v.isNan = false) (hw : w.isNan = false) :
    encodeF64 v < encodeF64 w ↔ v.place < w.place := by
  have hv' := encodeF64_eq hv
  have hw' := encodeF64_eq hw
  split at hv' <;> split at hw' <;> omega

/-- A bound of `BTreeMap::range`. -/
inductive Bound (α : Type) where
  | unbounded
  | included (a : α)
  | excluded (a : α)
  deriving DecidableEq

namespace Bound

def map {α β : Type} (f : α → β) : Bound α → Bound β
  | .unbounded => .unbounded
  | .included a => .included (f a)
  | .excluded a => .excluded (f a)

/-- Is `n` within a lower bound? -/
def above (n : Nat) : Bound Nat → Bool
  | .unbounded => true
  | .included a => decide (a ≤ n)
  | .excluded a => decide (a < n)

/-- Is `n` within an upper bound? -/
def below (n : Nat) : Bound Nat → Bool
  | .unbounded => true
  | .included a => decide (n ≤ a)
  | .excluded a => decide (n < a)

/-- `vazio`: bounds that `BTreeMap::range` refuses, or that leave nothing between them. -/
def vazio : Bound Nat → Bound Nat → Bool
  | .included a, .included b => decide (b < a)
  | .included a, .excluded b | .excluded a, .included b | .excluded a, .excluded b => decide (b ≤ a)
  | _, _ => false

theorem not_within_of_vazio {lo hi : Bound Nat} (h : vazio lo hi = true) (n : Nat) :
    (lo.above n && hi.below n) = false := by
  cases lo <;> cases hi <;> simp [vazio, above, below] at h ⊢ <;> omega

end Bound

namespace AttrIndex

/-- The postings of a number under a field. -/
def numPostings (idx : AttrIndex) (field : Str) (n : Nat) : List Nat :=
  (((idx.numeric.get? field).bind (·.get? n)).map Postings.lsns).getD []

/-- `sort_unstable` and `dedup`. -/
def sortDedup (lsns : List Nat) : List Nat := (lsns.insertionSort (· ≤ ·)).dedup

def lookupRange (idx : AttrIndex) (field : Str) (min max : Bound F64) : List Nat :=
  match idx.numeric.get? field with
  | none => []
  | some byValue =>
    let lo := min.map encodeF64
    let hi := max.map encodeF64
    if Bound.vazio lo hi then []
    else sortDedup ((byValue.entries.filter (fun p => lo.above p.1 && hi.below p.1)).flatMap (·.2.lsns))

theorem sortDedup_sorted (lsns : List Nat) : (sortDedup lsns).Pairwise (· < ·) := by
  have hle : (sortDedup lsns).Pairwise (· ≤ ·) := (List.pairwise_insertionSort _ lsns).sublist (List.dedup_sublist _)
  exact (hle.and (List.nodup_dedup _)).imp (fun h => Nat.lt_of_le_of_ne h.1 h.2)

theorem lookupRange_sorted (idx : AttrIndex) (field : Str) (min max : Bound F64) :
    (idx.lookupRange field min max).Pairwise (· < ·) := by
  unfold lookupRange
  split
  · exact List.Pairwise.nil
  · dsimp only
    split
    · exact List.Pairwise.nil
    · exact sortDedup_sorted _

variable {idx : AttrIndex} {lsn l n : Nat} {field : Str}

/-- **A range lookup finds what is filed under the numbers within its bounds.** -/
theorem mem_lookupRange {min max : Bound F64} : l ∈ idx.lookupRange field min max ↔
    ∃ n, ((min.map encodeF64).above n && (max.map encodeF64).below n) = true ∧ l ∈ idx.numPostings field n := by
  unfold lookupRange numPostings
  cases hget : idx.numeric.get? field with
  | none => simp
  | some byValue =>
    dsimp only [Option.bind_some]
    split
    · rename_i hvazio
      simp [Bound.not_within_of_vazio hvazio]
    · rw [sortDedup, List.mem_dedup, (List.perm_insertionSort _ _).mem_iff, List.mem_flatMap]
      constructor
      · rintro ⟨⟨n, p⟩, hp, hl⟩
        obtain ⟨hmem, hin⟩ := List.mem_filter.1 hp
        refine ⟨n, hin, ?_⟩
        rw [SortedMap.get?_eq_some.2 hmem]
        exact hl
      · rintro ⟨n, hin, hl⟩
        cases hp : byValue.get? n with
        | none => simp [hp] at hl
        | some p =>
          rw [hp] at hl
          exact ⟨(n, p), List.mem_filter.2 ⟨SortedMap.get?_eq_some.1 hp, hin⟩, hl⟩

variable {numKey : Str → Option Nat}

@[simp] theorem numPostings_addExact {k : Str} : (idx.addExact k lsn).numPostings field n = idx.numPostings field n := rfl

theorem numPostings_applyPseudo {f text : Str} :
    (applyPseudo f text lsn idx).numPostings field n = idx.numPostings field n := by
  unfold applyPseudo
  dsimp only
  split <;> rfl

theorem mem_numPostings_addNumeric {f : Str} {m : Nat} : l ∈ (idx.addNumeric f m lsn).numPostings field n ↔
    (l = lsn ∧ field = f ∧ n = m) ∨ l ∈ idx.numPostings field n := by
  unfold addNumeric numPostings
  rw [SortedMap.get?_alter]
  by_cases hf : field = f
  · subst hf
    rw [if_pos rfl, Option.bind_some, mem_entryInsert]
    cases hget : idx.numeric.get? field with
    | none => simp [SortedMap.get?_empty]
    | some m' => simp
  · rw [if_neg hf]
    simp [hf]

theorem mem_numPostings_applyAttr {attr : Str × Str} : l ∈ (applyAttr numKey lsn idx attr).numPostings field n ↔
    (l = lsn ∧ skipped (trim attr.2) = false ∧ field = attr.1 ∧ numKey (trim attr.2) = some n)
      ∨ l ∈ idx.numPostings field n := by
  unfold applyAttr
  dsimp only
  split
  · rename_i h
    simp [h]
  · rename_i h
    have hs : skipped (trim attr.2) = false := by simpa using h
    split
    · rename_i hnone
      simp [hnone]
    · rename_i m hsome
      rw [mem_numPostings_addNumeric, numPostings_addExact, hs, hsome, Option.some.injEq]
      tauto

theorem mem_numPostings_foldl : ∀ (attrs : List (Str × Str)) (idx : AttrIndex),
    l ∈ (attrs.foldl (applyAttr numKey lsn) idx).numPostings field n ↔
      (l = lsn ∧ ∃ attr ∈ attrs, skipped (trim attr.2) = false ∧ field = attr.1 ∧ numKey (trim attr.2) = some n)
        ∨ l ∈ idx.numPostings field n
  | [], _ => by simp
  | a :: attrs, idx => by
    rw [List.foldl_cons, mem_numPostings_foldl attrs, mem_numPostings_applyAttr, List.exists_mem_cons_iff, and_or_left,
      ← or_assoc, or_comm (a := l = lsn ∧ ∃ x ∈ attrs, _)]

/-- The number `n` under which `apply` files an event in the ordered half. -/
theorem mem_numPostings_apply {event : Episode} : l ∈ (idx.apply numKey lsn event).numPostings field n ↔
    (l = lsn ∧ ∃ v, event.attrs.get? field = some v ∧ skipped (trim v) = false ∧ numKey (trim v) = some n)
      ∨ l ∈ idx.numPostings field n := by
  unfold apply
  show l ∈ numPostings (event.attrs.entries.foldl (applyAttr numKey lsn) (applyPseudo kindField event.kind.label lsn
    (applyPseudo agentField event.agentId lsn idx))) field n ↔ _
  rw [mem_numPostings_foldl, numPostings_applyPseudo, numPostings_applyPseudo]
  refine or_congr_left (and_congr_right fun _ => ?_)
  constructor
  · rintro ⟨⟨f, v⟩, hmem, hs, rfl, hn⟩
    exact ⟨v, SortedMap.get?_eq_some.2 hmem, hs, hn⟩
  · rintro ⟨v, hv, hs, hn⟩
    exact ⟨(field, v), SortedMap.get?_eq_some.1 hv, hs, rfl, hn⟩

end AttrIndex
end Heraclitus
