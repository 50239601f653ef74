import Mathlib.Algebra.Ring.Nat
import Mathlib.Data.List.Sort
/-!
# Ranked — a limited view of a sequence in increasing order

Rows come in increasing order of a key.  A reader sees some of them, the first `n` of these, and keeps what it asked for:
it misses nothing exactly when every row it asks for is seen and fewer than `n` seen rows come before it.
-/
namespace Heraclitus

variable {α : Type} {S : List (Nat × α)}

/-- Rows in strictly increasing order of their key. -/
abbrev Ranked (S : List (Nat × α)) : Prop := S.Pairwise (fun a b => a.1 < b.1)

theorem Ranked.nodup (h : Ranked S) : S.Nodup := by
  refine h.imp (fun {a b} hlt heq => ?_)
  subst heq
  exact Nat.lt_irrefl _ hlt

/-- How many rows of `S` come before `x`. -/
def rank (S : List (Nat × α)) (x : Nat × α) : Nat := (S.filter (fun y => decide (y.1 < x.1))).length

/-- **The first `n` rows are those with fewer than `n` rows before them.** -/
theorem mem_take_iff_rank {x : Nat × α} : ∀ {S : List (Nat × α)} {n : Nat}, Ranked S →
    (x ∈ S.take n ↔ x ∈ S ∧ rank S x < n)
  | [], n, _ => by simp
  | y :: S, 0, _ => by simp
  | y :: S, n + 1, h => by
    obtain ⟨hy, hS⟩ := List.pairwise_cons.1 h
    have ih := mem_take_iff_rank (x := x) (n := n) hS
    rw [List.take_succ_cons, List.mem_cons, List.mem_cons, ih]
    by_cases hx : x ∈ S
    · have hlt : y.1 < x.1 := hy x hx
      have hrank : rank (y :: S) x = rank S x + 1 := by simp [rank, hlt]
      have hne : x ≠ y := fun heq => Nat.lt_irrefl _ (heq ▸ hlt)
      simp only [hx, hne, hrank, true_and, false_or]
      omega
    · simp only [hx, false_and, or_false]
      refine ⟨fun heq => ⟨heq, ?_⟩, fun h => h.1⟩
      have hnone : (y :: S).filter (fun z => decide (z.1 < y.1)) = [] := by
        refine List.filter_eq_nil_iff.2 (fun z hz => ?_)
        rw [decide_eq_true_eq]
        rcases List.mem_cons.1 hz with rfl | hz
        · exact Nat.lt_irrefl _
        · exact Nat.lt_asymm (hy z hz)
      rw [heq, rank, hnone]
      exact Nat.succ_pos n

/-- Two sublists of a duplicate-free list are one as soon as the bigger one has no member the other lacks. -/
theorem eq_of_sublist_of_subset {l m : List α} (hm : m.Nodup) (hlm : l.Sublist m) (hml : m ⊆ l) : l = m :=
  hlm.eq_of_length_le (List.subperm_of_subset hm hml).length_le

/-- **A limited view answers like the whole** exactly when every wanted row is seen and early enough. -/
theorem filter_take_filter_eq_iff (h : Ranked S) (seen wanted : Nat × α → Bool) (n : Nat) :
    ((S.filter seen).take n).filter wanted = S.filter wanted ↔
      ∀ x ∈ S, wanted x = true → seen x = true ∧ rank (S.filter seen) x < n := by
  have hmem : ∀ x, x ∈ (S.filter seen).take n ↔ (x ∈ S ∧ seen x = true) ∧ rank (S.filter seen) x < n := fun x => by
    rw [mem_take_iff_rank (h.filter seen), List.mem_filter]
  constructor
  · intro heq x hx hw
    have hin : x ∈ ((S.filter seen).take n).filter wanted := heq ▸ List.mem_filter.2 ⟨hx, hw⟩
    obtain ⟨⟨-, hseen⟩, hrank⟩ := (hmem x).1 (List.mem_filter.1 hin).1
    exact ⟨hseen, hrank⟩
  · intro hall
    have hsub : ((S.filter seen).take n).Sublist S := (List.take_sublist _ _).trans List.filter_sublist
    refine eq_of_sublist_of_subset (h.nodup.filter _) (hsub.filter wanted) (fun x hx => ?_)
    obtain ⟨hx, hw⟩ := List.mem_filter.1 hx
    obtain ⟨hseen, hrank⟩ := hall x hx hw
    exact List.mem_filter.2 ⟨(hmem x).2 ⟨⟨hx, hseen⟩, hrank⟩, hw⟩

/-- A list of keys in increasing order is read off the rows that carry them. -/
theorem keys_eq_map_filter (h : Ranked S) {keys : List Nat} (hkeys : keys.Pairwise (· < ·)) (seen : Nat × α → Bool)
    (hmem : ∀ k, k ∈ keys ↔ ∃ a, (k, a) ∈ S ∧ seen (k, a) = true) : keys = (S.filter seen).map Prod.fst := by
  have hsorted : ((S.filter seen).map Prod.fst).Pairwise (· < ·) := List.pairwise_map.2 (h.filter seen)
  have hperm : keys.Perm ((S.filter seen).map Prod.fst) := by
    refine (List.perm_ext_iff_of_nodup (hkeys.imp Nat.ne_of_lt) (hsorted.imp Nat.ne_of_lt)).2 (fun k => ?_)
    rw [hmem, List.mem_map]
    constructor
    · rintro ⟨a, ha, hs⟩
      exact ⟨(k, a), List.mem_filter.2 ⟨ha, hs⟩, rfl⟩
    · rintro ⟨⟨k', a⟩, ha, rfl⟩
      exact ⟨a, List.mem_filter.1 ha⟩
  exact hperm.eq_of_pairwise (fun a b _ _ hab hba => absurd hba (Nat.lt_asymm hab)) hkeys hsorted

/-- An ordered list stays so under a new last element just when that one is later than the last. -/
theorem pairwise_concat_iff {l : List Nat} (h : l.Pairwise (· < ·)) (x : Nat) :
    (l ++ [x]).Pairwise (· < ·) ↔ ∀ t ∈ l.getLast?, t < x := by
  rw [List.pairwise_append]
  rcases List.eq_nil_or_concat l with rfl | ⟨init, last, rfl⟩
  · simp
  · rw [List.concat_eq_append] at *
    have hlast := (List.pairwise_append.1 h).2.2
    simp only [List.mem_singleton, forall_eq, List.getLast?_append, List.getLast?_singleton, Option.some_or,
      Option.mem_some_iff, forall_eq', h, List.pairwise_singleton, true_and]
    refine ⟨fun hall => hall last (List.mem_append_right _ List.mem_cons_self), fun hlt t ht => ?_⟩
    rcases List.mem_append.1 ht with ht | ht
    · exact Nat.lt_trans (hlast t ht last List.mem_cons_self) hlt
    · rw [List.mem_singleton.1 ht]
      exact hlt

end Heraclitus
