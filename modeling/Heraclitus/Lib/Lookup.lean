import Heraclitus.Lib.Pieces
/-!
# Lookup — a binary search and a look at the item it ends at

`slice::partition_point` is promised on a partitioned slice only; on any other its answer is left open.  A lookup asks for the
first item that does not lie `before` what is wanted, and takes it if it `holds` it.  It finds what some item holds, whatever
the search answers elsewhere, exactly for a list that is `Searchable`.
-/
namespace Heraclitus

variable {α : Type} {before holds : α → Bool} {l : List α} {point : (α → Bool) → List α → Nat}

/-- What `partition_point` promises. -/
def IsPartitionPoint (point : (α → Bool) → List α → Nat) : Prop :=
  ∀ p l k, k ≤ l.length → (∀ i x, l[i]? = some x → (p x = true ↔ i < k)) → point p l = k

theorem isPartitionPoint_partitionPoint : IsPartitionPoint (partitionPoint : (α → Bool) → List α → Nat) :=
  fun _ _ _ hk h => partitionPoint_eq h hk

/-- The index of the item that the search ends at, if it holds what is wanted. -/
def lookupWith (point : (α → Bool) → List α → Nat) (before holds : α → Bool) (l : List α) : Option Nat :=
  let i := point before l
  match l[i]? with
  | none => none
  | some a => if holds a then some i else none

theorem holds_of_lookupWith {i : Nat} (h : lookupWith point before holds l = some i) : ∃ a, l[i]? = some a ∧ holds a = true := by
  unfold lookupWith at h
  dsimp only at h
  split at h
  · cases h
  · rename_i a ha
    split at h
    · rename_i hholds
      cases h
      exact ⟨a, ha, hholds⟩
    · cases h

theorem lookupWith_eq_some {a : α} (ha : l[point before l]? = some a) (hholds : holds a = true) :
    lookupWith point before holds l = some (point before l) := by
  unfold lookupWith
  dsimp only
  rw [ha]
  dsimp only
  rw [if_pos hholds]

/-- The item itself, where the lookup is not asked for its index. -/
theorem filter_getElem?_point : (l[point before l]?).filter holds = (lookupWith point before holds l).bind (fun i => l[i]?) := by
  unfold lookupWith
  dsimp only
  cases ha : l[point before l]? with
  | none => rfl
  | some a =>
    dsimp only
    cases hholds : holds a with
    | false => rw [Option.filter_some_neg hholds, if_neg Bool.false_ne_true, Option.bind_none]
    | true => rw [Option.filter_some_pos hholds, if_pos rfl, Option.bind_some, ha]

theorem partitionPoint_map {β : Type} (p : α → Bool) (f : β → α) (l : List β) :
    partitionPoint p (l.map f) = partitionPoint (fun b => p (f b)) l := by
  unfold partitionPoint
  rw [List.takeWhile_map, List.length_map]
  rfl

/-- What lies before stands in front, and what neither lies before nor holds stands behind something that holds. -/
structure Searchable (before holds : α → Bool) (l : List α) : Prop where
  partitioned : l.Pairwise (fun a b => before b = true → before a = true)
  behind : ∀ pre a post, l = pre ++ a :: post → before a = false → holds a = false → ∃ b ∈ pre, holds b = true

/-- On a list that is partitioned, every search answers where the partition is. -/
theorem IsPartitionPoint.eq (hpoint : IsPartitionPoint point) (h : l.Pairwise (fun a b => before b = true → before a = true)) :
    point before l = (l.filter before).length :=
  hpoint before l _ (List.length_filter_le _ _) (iff_lt_length_filter h)

theorem searchable_map {β : Type} {f : β → α} {l : List β} :
    Searchable before holds (l.map f) ↔ Searchable (fun b => before (f b)) (fun b => holds (f b)) l := by
  constructor
  · rintro ⟨hpart, hbehind⟩
    refine ⟨List.pairwise_map.1 hpart, fun pre a post hsplit hstop hnot => ?_⟩
    obtain ⟨b, hb, hbholds⟩ := hbehind (pre.map f) (f a) (post.map f) (by rw [hsplit, List.map_append, List.map_cons]) hstop hnot
    obtain ⟨c, hc, rfl⟩ := List.mem_map.1 hb
    exact ⟨c, hc, hbholds⟩
  · rintro ⟨hpart, hbehind⟩
    refine ⟨List.pairwise_map.2 hpart, fun pre a post hsplit hstop hnot => ?_⟩
    obtain ⟨pre', rest, rfl, rfl, hrest⟩ := List.map_eq_append_iff.1 hsplit
    obtain ⟨a', post', rfl, rfl, rfl⟩ := List.map_eq_cons_iff.1 hrest
    obtain ⟨b, hb, hbholds⟩ := hbehind pre' a' post' rfl hstop hnot
    exact ⟨f b, List.mem_map_of_mem hb, hbholds⟩

variable (hholds : ∀ a ∈ l, holds a = true → before a = false)

include hholds

theorem Searchable.lookupWith (h : Searchable before holds l) (hpoint : IsPartitionPoint point) (hsome : ∃ a ∈ l, holds a = true) :
    (lookupWith point before holds l).isSome = true := by
  obtain ⟨a, ha, hwanted⟩ := hsome
  obtain ⟨i, hi⟩ := List.mem_iff_getElem?.1 ha
  have hiff := iff_lt_length_filter h.partitioned
  have hle : (l.filter before).length ≤ i := Nat.not_lt.1 (fun hlt => by
    have hbefore := (hiff i a hi).2 hlt
    rw [hholds a ha hwanted] at hbefore
    cases hbefore)
  have hlt : (l.filter before).length < l.length := Nat.lt_of_le_of_lt hle (List.getElem?_eq_some_iff.1 hi).1
  obtain ⟨b, hb⟩ : ∃ b, l[(l.filter before).length]? = some b := ⟨_, List.getElem?_eq_getElem hlt⟩
  -- the item behind the partition holds what is wanted, or something in front of it would
  have hfound : holds b = true := by
    by_contra hnot
    have hstop : before b = false := by
      cases hbefore : before b with
      | false => rfl
      | true => exact absurd ((hiff _ b hb).1 hbefore) (Nat.lt_irrefl _)
    obtain ⟨pre, post, hsplit, hlength⟩ : ∃ pre post, l = pre ++ b :: post ∧ pre.length = (l.filter before).length := by
      refine ⟨l.take (l.filter before).length, l.drop ((l.filter before).length + 1), ?_, ?_⟩
      · conv_lhs => rw [← List.take_append_drop (l.filter before).length l]
        rw [List.drop_eq_getElem_cons hlt, Option.some.inj ((List.getElem?_eq_getElem hlt).symm.trans hb)]
      · rw [List.length_take, Nat.min_eq_left (Nat.le_of_lt hlt)]
    obtain ⟨c, hc, hcholds⟩ := h.behind pre b post hsplit hstop (Bool.eq_false_iff.2 hnot)
    obtain ⟨j, hj⟩ := List.mem_iff_getElem?.1 hc
    have hjlt := (List.getElem?_eq_some_iff.1 hj).1
    have hin : l[j]? = some c := by rw [hsplit, List.getElem?_append_left hjlt, hj]
    have hcbefore := (hiff j c hin).2 (by omega)
    rw [hholds c (List.mem_of_getElem? hin) hcholds] at hcbefore
    cases hcbefore
  have hpoint' := hpoint.eq h.partitioned
  rw [lookupWith_eq_some (by rw [hpoint']; exact hb) hfound]
  rfl

/-- **When a lookup finds what some item holds**, with any search that keeps the promise. -/
theorem lookupWith_isSome_iff (hsome : ∃ a ∈ l, holds a = true) :
    (∀ point, IsPartitionPoint point → (Heraclitus.lookupWith point before holds l).isSome = true) ↔ Searchable before holds l := by
  classical
  refine ⟨fun h => ?_, fun h point hpoint => h.lookupWith hholds hpoint hsome⟩
  have hpart : l.Pairwise (fun a b => before b = true → before a = true) := by
    by_contra hnot
    -- a search that answers the end where the promise says nothing
    have hpoint : IsPartitionPoint (fun (p : α → Bool) (l : List α) =>
        if l.Pairwise (fun a b => p b = true → p a = true) then partitionPoint p l else l.length) := by
      intro p l k hk hiff
      have hp : l.Pairwise (fun a b => p b = true → p a = true) := by
        rw [List.pairwise_iff_getElem]
        intro i j hi hj hij hpj
        exact (hiff i _ (List.getElem?_eq_getElem hi)).2
          (Nat.lt_trans hij ((hiff j _ (List.getElem?_eq_getElem hj)).1 hpj))
      dsimp only
      rw [if_pos hp]
      exact isPartitionPoint_partitionPoint p l k hk hiff
    have hfound := h _ hpoint
    unfold Heraclitus.lookupWith at hfound
    dsimp only at hfound
    rw [if_neg hnot, List.getElem?_eq_none (Nat.le_refl _)] at hfound
    cases hfound
  refine ⟨hpart, fun pre a post hsplit hstop hnot => ?_⟩
  have hfound := h partitionPoint isPartitionPoint_partitionPoint
  obtain ⟨i, hi⟩ := Option.isSome_iff_exists.1 hfound
  obtain ⟨b, hb, hbholds⟩ := holds_of_lookupWith hi
  have hi' : i = (l.filter before).length := by
    unfold Heraclitus.lookupWith at hi
    dsimp only at hi
    split at hi
    · cases hi
    · split at hi
      · cases hi
        exact isPartitionPoint_partitionPoint.eq hpart
      · cases hi
  have ha : l[pre.length]? = some a := by
    rw [hsplit, List.getElem?_append_right (Nat.le_refl _), Nat.sub_self]
    rfl
  have hle : i ≤ pre.length := by
    rw [hi']
    refine Nat.not_lt.1 (fun hlt => ?_)
    rw [(iff_lt_length_filter hpart _ a ha).2 hlt] at hstop
    cases hstop
  have hne : i ≠ pre.length := by
    intro heq
    rw [heq, ha] at hb
    rw [← Option.some.inj hb, hnot] at hbholds
    cases hbholds
  refine ⟨b, ?_, hbholds⟩
  rw [hsplit, List.getElem?_append_left (by omega)] at hb
  exact List.mem_of_getElem? hb

end Heraclitus
