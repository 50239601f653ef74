import Mathlib.Data.List.Basic
/-!
# Pieces — a sequence kept in consecutive pieces, and the search for the piece that holds a position

`start segs i` is the position at which piece `i` begins.  A binary search over the starts either hits one, possibly
that of an empty piece, or answers the insertion point, and then the piece before it holds the position.
-/
namespace Heraclitus

variable {α : Type}

def start (segs : List (List α)) (i : Nat) : Nat := (segs.take i).flatten.length

def starts (segs : List (List α)) : List Nat := (List.range segs.length).map (start segs)

/-- `slice::partition_point` of a slice that `p` partitions. -/
def partitionPoint (p : α → Bool) (l : List α) : Nat := (l.takeWhile p).length

theorem partitionPoint_eq {p : α → Bool} : ∀ {l : List α} {k : Nat}, (∀ i x, l[i]? = some x → (p x = true ↔ i < k)) →
    k ≤ l.length → partitionPoint p l = k
  | [], _, _, hk => (Nat.le_zero.1 hk).symm
  | x :: l, 0, h, _ => by
    have hx : p x = false := by
      simpa using h 0 x rfl
    simp [partitionPoint, hx]
  | x :: l, k + 1, h, hk => by
    have hx : p x = true := (h 0 x rfl).2 (Nat.succ_pos k)
    have ih : partitionPoint p l = k := by
      refine partitionPoint_eq (fun i y hy => ?_) (Nat.le_of_succ_le_succ hk)
      rw [h (i + 1) y hy, Nat.succ_lt_succ_iff]
    simp only [partitionPoint] at ih
    simp [partitionPoint, hx, ih]

/-- **Sorted insertion**: in front of the first element that is not below it, an element keeps a sorted list sorted. -/
theorem pairwise_insertIdx_partitionPoint {key : α → Nat} (a : α) : ∀ {l : List α}, (l.map key).Pairwise (· ≤ ·) →
    ((l.insertIdx (partitionPoint (fun x => decide (key x < key a)) l) a).map key).Pairwise (· ≤ ·)
  | [], _ => List.pairwise_singleton _ _
  | x :: l, h => by
    obtain ⟨hx, hl⟩ := List.pairwise_cons.1 h
    rw [List.forall_mem_map] at hx
    by_cases hlt : key x < key a
    · have hpoint : partitionPoint (fun x => decide (key x < key a)) (x :: l)
          = partitionPoint (fun x => decide (key x < key a)) l + 1 := by
        simp [partitionPoint, hlt]
      have hle : partitionPoint (fun x => decide (key x < key a)) l ≤ l.length := (List.takeWhile_prefix _).length_le
      rw [hpoint, List.insertIdx_succ_cons, List.map_cons, List.pairwise_cons, List.forall_mem_map]
      refine ⟨fun y hy => ?_, pairwise_insertIdx_partitionPoint a hl⟩
      rcases (List.mem_insertIdx hle).1 hy with rfl | hy
      · exact Nat.le_of_lt hlt
      · exact hx y hy
    · have hpoint : partitionPoint (fun x => decide (key x < key a)) (x :: l) = 0 := by
        simp [partitionPoint, hlt]
      rw [hpoint, List.insertIdx_zero, List.map_cons, List.pairwise_cons, List.forall_mem_map, List.forall_mem_cons]
      have hle := Nat.not_lt.1 hlt
      exact ⟨⟨hle, fun y hy => Nat.le_trans hle (hx y hy)⟩, h⟩

/-- A relation from each element to those behind it. -/
theorem pairwise_iff_split {R : α → α → Prop} {l : List α} :
    l.Pairwise R ↔ ∀ pre a post, l = pre ++ a :: post → ∀ b ∈ post, R a b := by
  constructor
  · rintro h pre a post rfl
    exact (List.pairwise_cons.1 (List.pairwise_append.1 h).2.1).1
  · intro h
    induction l with
    | nil => exact List.Pairwise.nil
    | cons x l ih =>
      refine List.pairwise_cons.2 ⟨h [] x l rfl, ih (fun pre a post hsplit => h (x :: pre) a post ?_)⟩
      rw [hsplit, List.cons_append]

/-- In a list whose first part satisfies `p`, that part is as long as what `p` keeps. -/
theorem iff_lt_length_filter {p : α → Bool} : ∀ {l : List α}, l.Pairwise (fun a b => p b = true → p a = true) →
    ∀ i a, l[i]? = some a → (p a = true ↔ i < (l.filter p).length)
  | [], _, i, a, h => by simp at h
  | b :: l, hsorted, i, a, h => by
    rw [List.pairwise_cons] at hsorted
    by_cases hb : p b = true
    · rw [List.filter_cons_of_pos hb, List.length_cons]
      cases i with
      | zero =>
        cases h
        exact ⟨fun _ => Nat.succ_pos _, fun _ => hb⟩
      | succ i => rw [iff_lt_length_filter hsorted.2 i a h, Nat.succ_lt_succ_iff]
    · have hnone : (b :: l).filter p = [] := by
        rw [List.filter_eq_nil_iff]
        intro c hc hpc
        rcases List.mem_cons.1 hc with rfl | hc
        · exact hb hpc
        · exact hb (hsorted.1 c hc hpc)
      rw [hnone]
      refine ⟨fun ha => ?_, fun hlt => absurd hlt (Nat.not_lt_zero i)⟩
      exact absurd (List.mem_filter.2 ⟨List.mem_of_getElem? h, ha⟩) (by rw [hnone]; exact List.not_mem_nil)

/-- Where a search in front of a partition stops. -/
theorem partitionPoint_spec (p : α → Bool) : ∀ l : List α,
    (∀ i x, i < partitionPoint p l → l[i]? = some x → p x = true) ∧
      ∀ x, l[partitionPoint p l]? = some x → p x = false
  | [] => by
    refine ⟨fun i x hi _ => ?_, fun x hx => ?_⟩
    · exact absurd hi (Nat.not_lt_zero i)
    · cases hx
  | a :: l => by
    obtain ⟨hbefore, hstop⟩ := partitionPoint_spec p l
    cases ha : p a with
    | true =>
      have hsucc : partitionPoint p (a :: l) = partitionPoint p l + 1 := by simp [partitionPoint, ha]
      rw [hsucc]
      refine ⟨fun i x hi hx => ?_, fun x hx => hstop x hx⟩
      cases i with
      | zero =>
        cases hx
        exact ha
      | succ i => exact hbefore i x (Nat.lt_of_succ_lt_succ hi) hx
    | false =>
      have hzero : partitionPoint p (a :: l) = 0 := by simp [partitionPoint, ha]
      rw [hzero]
      refine ⟨fun i x hi _ => absurd hi (Nat.not_lt_zero i), fun x hx => ?_⟩
      cases hx
      exact ha

/-- **A key is looked up in one piece**: the first one whose last key is not below it. -/
theorem find?_flatMap_partitionPoint {β : Type} {key : α → Nat} (last : β → Nat) {items : β → List α} {n : Nat} :
    ∀ {bs : List β}, (bs.flatMap items).Pairwise (fun a b => key a < key b) →
      (∀ b ∈ bs, (∀ a ∈ items b, key a ≤ last b) ∧ ∃ a ∈ items b, key a = last b) →
      (bs.flatMap items).find? (fun a => key a == n)
        = (bs[partitionPoint (fun b => decide (last b < n)) bs]?).elim none (fun b => (items b).find? (fun a => key a == n))
  | [], _, _ => rfl
  | b :: bs, hsorted, hlast => by
    obtain ⟨hle, a, ha, heq⟩ := hlast b List.mem_cons_self
    rw [List.flatMap_cons] at hsorted
    obtain ⟨-, hrest, hcross⟩ := List.pairwise_append.1 hsorted
    rw [List.flatMap_cons, List.find?_append]
    by_cases hlt : last b < n
    · have hpoint : partitionPoint (fun b => decide (last b < n)) (b :: bs)
          = partitionPoint (fun b => decide (last b < n)) bs + 1 := by simp [partitionPoint, hlt]
      have hnone : (items b).find? (fun a => key a == n) = none := by
        refine List.find?_eq_none.2 (fun x hx hkey => ?_)
        have := hle x hx
        rw [beq_iff_eq.1 hkey] at this
        omega
      rw [hnone, Option.none_or, hpoint, List.getElem?_cons_succ,
        find?_flatMap_partitionPoint last hrest (fun b' hb' => hlast b' (List.mem_cons_of_mem b hb'))]
    · have hpoint : partitionPoint (fun b => decide (last b < n)) (b :: bs) = 0 := by simp [partitionPoint, hlt]
      have hnone : (bs.flatMap items).find? (fun a => key a == n) = none := by
        refine List.find?_eq_none.2 (fun x hx hkey => ?_)
        have := hcross a ha x hx
        rw [beq_iff_eq.1 hkey, heq] at this
        omega
      rw [hnone, Option.or_none, hpoint]
      rfl

/-- What a binary search promises about sorted keys: which of several equal ones it finds is left open. -/
structure IsBinarySearch (search : List Nat → Nat → Except Nat Nat) : Prop where
  found : ∀ {keys : List Nat} {k i : Nat}, keys.Pairwise (· ≤ ·) → search keys k = .ok i → keys[i]? = some k
  absent : ∀ {keys : List Nat} {k i : Nat}, keys.Pairwise (· ≤ ·) → search keys k = .error i →
    i ≤ keys.length ∧ (∀ x ∈ keys.take i, x < k) ∧ ∀ x ∈ keys.drop i, k < x

/-- The search that finds the first of several equal keys. -/
def searchFirst : List Nat → Nat → Except Nat Nat
  | [], _ => .error 0
  | x :: keys, k =>
    if x < k then
      match searchFirst keys k with
      | .ok i => .ok (i + 1)
      | .error i => .error (i + 1)
    else if x = k then .ok 0
    else .error 0

theorem searchFirst_found {k : Nat} : ∀ {keys : List Nat} {i : Nat}, searchFirst keys k = .ok i → keys[i]? = some k
  | x :: keys, i, h => by
    unfold searchFirst at h
    split at h
    · cases hrec : searchFirst keys k with
      | ok j =>
        rw [hrec] at h
        cases h
        rw [List.getElem?_cons_succ]
        exact searchFirst_found hrec
      | error j =>
        rw [hrec] at h
        cases h
    · split at h
      · rename_i hx
        cases h
        rw [hx]
        rfl
      · cases h

theorem searchFirst_absent {k : Nat} : ∀ {keys : List Nat} {i : Nat}, keys.Pairwise (· ≤ ·) →
    searchFirst keys k = .error i → i ≤ keys.length ∧ (∀ x ∈ keys.take i, x < k) ∧ ∀ x ∈ keys.drop i, k < x
  | [], _, _, h => by
    cases h
    simp
  | x :: keys, i, hs, h => by
    obtain ⟨hx, hkeys⟩ := List.pairwise_cons.1 hs
    unfold searchFirst at h
    split at h
    · rename_i hlt
      cases hrec : searchFirst keys k with
      | ok j =>
        rw [hrec] at h
        cases h
      | error j =>
        rw [hrec] at h
        cases h
        obtain ⟨hle, hbefore, hafter⟩ := searchFirst_absent hkeys hrec
        refine ⟨Nat.succ_le_succ hle, fun y hy => ?_, hafter⟩
        rw [List.take_succ_cons, List.mem_cons] at hy
        rcases hy with rfl | hy
        · exact hlt
        · exact hbefore y hy
    · rename_i hge
      split at h
      · cases h
      · rename_i hne
        cases h
        refine ⟨Nat.zero_le _, fun y hy => (by cases hy), fun y hy => ?_⟩
        have hle : x ≤ y := by
          rcases List.mem_cons.1 hy with rfl | hy
          · exact Nat.le_refl _
          · exact hx y hy
        omega

theorem isBinarySearch_searchFirst : IsBinarySearch searchFirst :=
  ⟨fun _ h => searchFirst_found h, fun hs h => searchFirst_absent hs h⟩

/-- The search that finds the last of several equal keys. -/
def searchLast : List Nat → Nat → Except Nat Nat
  | [], _ => .error 0
  | x :: keys, k =>
    match searchLast keys k with
    | .ok i => .ok (i + 1)
    | .error i => if x < k then .error (i + 1) else if x = k then .ok 0 else .error 0

theorem searchLast_found {k : Nat} : ∀ {keys : List Nat} {i : Nat}, searchLast keys k = .ok i → keys[i]? = some k
  | x :: keys, i, h => by
    unfold searchLast at h
    cases hrec : searchLast keys k with
    | ok j =>
      rw [hrec] at h
      cases h
      rw [List.getElem?_cons_succ]
      exact searchLast_found hrec
    | error j =>
      rw [hrec] at h
      dsimp only at h
      split at h
      · cases h
      · split at h
        · rename_i hx
          cases h
          rw [hx]
          rfl
        · cases h

theorem searchLast_absent {k : Nat} : ∀ {keys : List Nat} {i : Nat}, keys.Pairwise (· ≤ ·) →
    searchLast keys k = .error i → i ≤ keys.length ∧ (∀ x ∈ keys.take i, x < k) ∧ ∀ x ∈ keys.drop i, k < x
  | [], _, _, h => by
    cases h
    simp
  | x :: keys, i, hs, h => by
    obtain ⟨hx, hkeys⟩ := List.pairwise_cons.1 hs
    unfold searchLast at h
    cases hrec : searchLast keys k with
    | ok j =>
      rw [hrec] at h
      cases h
    | error j =>
      obtain ⟨hle, hbefore, hafter⟩ := searchLast_absent hkeys hrec
      rw [hrec] at h
      dsimp only at h
      split at h
      · rename_i hlt
        cases h
        refine ⟨Nat.succ_le_succ hle, ?_, hafter⟩
        intro y hy
        rw [List.take_succ_cons, List.mem_cons] at hy
        rcases hy with rfl | hy
        · exact hlt
        · exact hbefore y hy
      · rename_i hge
        split at h
        · cases h
        · rename_i hne
          cases h
          refine ⟨Nat.zero_le _, fun y hy => (by cases hy), ?_⟩
          intro y hy
          have hle : x ≤ y := by
            rcases List.mem_cons.1 hy with rfl | hy
            · exact Nat.le_refl _
            · exact hx y hy
          omega

theorem isBinarySearch_searchLast : IsBinarySearch searchLast :=
  ⟨fun _ h => searchLast_found h, fun hs h => searchLast_absent hs h⟩

variable {segs : List (List α)} {seg : List α} {i n : Nat}

theorem start_succ (h : segs[i]? = some seg) : start segs (i + 1) = start segs i + seg.length := by
  unfold start
  rw [List.take_add_one, h, Option.toList_some, List.flatten_append, List.length_append, List.flatten_singleton]

theorem start_append (l : List (List α)) (h : i ≤ segs.length) : start (segs ++ l) i = start segs i := by
  unfold start
  rw [List.take_append_of_le_length h]

@[simp] theorem start_length (segs : List (List α)) : start segs segs.length = segs.flatten.length := by
  rw [start, List.take_length]

theorem start_mono (segs : List (List α)) {i j : Nat} (h : i ≤ j) : start segs i ≤ start segs j := by
  have hsub : segs.take i <+: segs.take j := List.take_prefix_take_left h
  obtain ⟨t, ht⟩ := hsub
  unfold start
  rw [← ht, List.flatten_append, List.length_append]
  omega

theorem getElem?_starts (segs : List (List α)) (i : Nat) :
    (starts segs)[i]? = if i < segs.length then some (start segs i) else none := by
  rw [starts, List.getElem?_map]
  by_cases h : i < segs.length
  · rw [List.getElem?_range h, if_pos h]; rfl
  · rw [List.getElem?_eq_none (by simpa using h), if_neg h]; rfl

theorem starts_sorted (segs : List (List α)) : (starts segs).Pairwise (· ≤ ·) := by
  refine List.pairwise_map.2 (List.Pairwise.imp (fun h => start_mono segs (Nat.le_of_lt h)) List.pairwise_lt_range)

/-- From the start of a piece on, the sequence is that piece and what follows it. -/
theorem drop_start (h : segs[i]? = some seg) : ∃ rest, segs.flatten.drop (start segs i) = seg ++ rest := by
  obtain ⟨hi, heq⟩ := List.getElem?_eq_some_iff.1 h
  refine ⟨(segs.drop (i + 1)).flatten, ?_⟩
  have hsplit : segs.flatten = (segs.take i).flatten ++ (segs.drop i).flatten := by
    rw [← List.flatten_append, List.take_append_drop]
  rw [hsplit, start, List.drop_left, List.drop_eq_getElem_cons hi, heq, List.flatten_cons]

/-- The piece at `i`, cut out of the whole. -/
theorem take_drop_piece {fs : List (List α)} {f tail : List α} {i k n : Nat} (hf : fs[i]? = some f) (hk : start fs i = k)
    (hn : f.length = n) : ((fs.flatten ++ tail).drop k).take n = f := by
  obtain ⟨rest, hdrop⟩ := drop_start hf
  have hle : k ≤ fs.flatten.length := by
    rw [← hk, ← start_length]
    exact start_mono fs (Nat.le_of_lt (List.getElem?_eq_some_iff.1 hf).1)
  rw [List.drop_append_of_le_length hle, ← hk, hdrop, List.append_assoc, List.take_left' hn]

variable {search : List Nat → Nat → Except Nat Nat} (hS : IsBinarySearch search)
include hS

theorem found_start {k : Nat} (h : search (starts segs) k = .ok i) : ∃ seg, segs[i]? = some seg ∧ start segs i = k := by
  have hget := hS.found (starts_sorted segs) h
  rw [getElem?_starts] at hget
  split at hget
  · rename_i hi
    exact ⟨segs[i], List.getElem?_eq_getElem hi, Option.some.inj hget⟩
  · cases hget

/-- **A position that is no start lies inside the piece before the insertion point.** -/
theorem absent_start (hn : n < segs.flatten.length) (h : search (starts segs) n = .error i) :
    0 < i ∧ ∃ seg, segs[i - 1]? = some seg ∧ start segs (i - 1) < n ∧ n < start segs (i - 1) + seg.length := by
  obtain ⟨hle, hbefore, hafter⟩ := hS.absent (starts_sorted segs) h
  rw [starts, List.length_map, List.length_range] at hle
  have hkey : ∀ j, j < segs.length → (starts segs)[j]? = some (start segs j) := fun j hj => by
    rw [getElem?_starts, if_pos hj]
  have hupper : n < start segs i := by
    by_cases hi : i < segs.length
    · refine hafter _ (List.mem_iff_getElem?.2 ⟨0, ?_⟩)
      rw [List.getElem?_drop, Nat.add_zero, hkey i hi]
    · rw [Nat.le_antisymm hle (Nat.not_lt.1 hi), start_length]
      exact hn
  have hpos : 0 < i := by
    refine Nat.pos_of_ne_zero (fun h0 => ?_)
    rw [h0] at hupper
    exact absurd hupper (Nat.not_lt_zero n)
  have hi : i - 1 < segs.length := by omega
  have hlower : start segs (i - 1) < n := by
    refine hbefore _ (List.mem_iff_getElem?.2 ⟨i - 1, ?_⟩)
    rw [List.getElem?_take, if_pos (by omega), hkey _ hi]
  have hseg : segs[i - 1]? = some segs[i - 1] := List.getElem?_eq_getElem hi
  have hsucc := start_succ hseg
  rw [Nat.sub_add_cancel hpos] at hsucc
  exact ⟨hpos, _, hseg, hlower, by omega⟩

end Heraclitus
