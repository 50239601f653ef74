import Mathlib.Algebra.Ring.Nat
import Mathlib.Order.Lattice
import Mathlib.Data.List.Basic
import Mathlib.Data.List.Lex
/-!
# SortedMap — finite maps as lists with strictly increasing keys

The ordered map of the standard library, read by key: two maps with the same bindings are equal, so a map can be
compared, hashed and walked in key order.  `alter` is the only writer; `insert` and `erase` are cases of it.
-/
namespace Heraclitus

/-! Byte strings are keys. -/

instance byteOrder : LinearOrder UInt8 where
  le_refl a := UInt8.le_refl a
  le_trans a b c := UInt8.le_trans
  le_antisymm a b := UInt8.le_antisymm
  le_total a b := UInt8.le_total a b
  lt_iff_le_not_ge a b := by
    rw [UInt8.lt_iff_toNat_lt, UInt8.le_iff_toNat_le, UInt8.le_iff_toNat_le]
    omega
  toDecidableLE := inferInstance

structure SortedMap (κ β : Type) [LinearOrder κ] where
  entries : List (κ × β)
  sorted : entries.Pairwise (fun a b => a.1 < b.1)

namespace SortedMap

variable {κ β : Type} [LinearOrder κ]

instance [DecidableEq β] : DecidableEq (SortedMap κ β) := fun a b =>
  decidable_of_iff (a.entries = b.entries) (by cases a; cases b; simp)

def empty : SortedMap κ β := ⟨[], List.Pairwise.nil⟩

instance : Inhabited (SortedMap κ β) := ⟨empty⟩

def isEmpty (m : SortedMap κ β) : Bool := m.entries.isEmpty

def find (k : κ) : List (κ × β) → Option β
  | [] => none
  | (k', v) :: l => if k = k' then some v else if k < k' then none else find k l

def get? (m : SortedMap κ β) (k : κ) : Option β := find k m.entries

/-- The binding of `k` becomes `f` of what it was; `none` is absence, before and after. -/
def alterList (k : κ) (f : Option β → Option β) : List (κ × β) → List (κ × β)
  | [] => (f none).toList.map (k, ·)
  | (k', v) :: l =>
    if k = k' then (f (some v)).toList.map (k, ·) ++ l
    else if k < k' then (f none).toList.map (k, ·) ++ (k', v) :: l
    else (k', v) :: alterList k f l

theorem alterList_keys (k : κ) (f : Option β → Option β) : ∀ l : List (κ × β), ∀ p ∈ alterList k f l,
    p.1 = k ∨ ∃ q ∈ l, q.1 = p.1
  | [], p, hp => by
    obtain ⟨v, _, rfl⟩ := List.mem_map.1 hp
    exact .inl rfl
  | (k', v) :: l, p, hp => by
    unfold alterList at hp
    split at hp
    · rcases List.mem_append.1 hp with hp | hp
      · obtain ⟨v, _, rfl⟩ := List.mem_map.1 hp
        exact .inl rfl
      · exact .inr ⟨p, by simp [hp], rfl⟩
    · split at hp
      · rcases List.mem_append.1 hp with hp | hp
        · obtain ⟨v, _, rfl⟩ := List.mem_map.1 hp
          exact .inl rfl
        · exact .inr ⟨p, hp, rfl⟩
      · rcases List.mem_cons.1 hp with rfl | hp
        · exact .inr ⟨_, by simp, rfl⟩
        · rcases alterList_keys k f l p hp with h | ⟨q, hq, h⟩
          · exact .inl h
          · exact .inr ⟨q, by simp [hq], h⟩

theorem pairwise_toList_append {k : κ} {o : Option β} {l : List (κ × β)} (hl : l.Pairwise (fun a b => a.1 < b.1))
    (hk : ∀ p ∈ l, k < p.1) : (o.toList.map (k, ·) ++ l).Pairwise (fun a b => a.1 < b.1) := by
  cases o with
  | none => simpa using hl
  | some v =>
    refine List.pairwise_cons.2 ⟨?_, hl⟩
    exact hk

theorem alterList_sorted (k : κ) (f : Option β → Option β) : ∀ l : List (κ × β),
    l.Pairwise (fun a b => a.1 < b.1) → (alterList k f l).Pairwise (fun a b => a.1 < b.1)
  | [], _ => by simpa [alterList] using pairwise_toList_append (o := f none) List.Pairwise.nil (by simp)
  | (k', v) :: l, h => by
    obtain ⟨hk', hl⟩ := List.pairwise_cons.1 h
    unfold alterList
    split
    · rename_i hkk
      exact pairwise_toList_append hl (fun p hp => hkk ▸ hk' p hp)
    · rename_i hkk
      split
      · rename_i hlt
        refine pairwise_toList_append h (fun p hp => ?_)
        rcases List.mem_cons.1 hp with rfl | hp
        · exact hlt
        · exact lt_trans hlt (hk' p hp)
      · rename_i hlt
        refine List.pairwise_cons.2 ⟨fun p hp => ?_, alterList_sorted k f l hl⟩
        rcases alterList_keys k f l p hp with h | ⟨q, hq, h⟩
        · rw [h]
          exact lt_of_le_of_ne (not_lt.1 hlt) (Ne.symm hkk)
        · exact h ▸ hk' q hq

def alter (m : SortedMap κ β) (k : κ) (f : Option β → Option β) : SortedMap κ β :=
  ⟨alterList k f m.entries, alterList_sorted k f m.entries m.sorted⟩

def insert (m : SortedMap κ β) (k : κ) (v : β) : SortedMap κ β := m.alter k (fun _ => some v)

def erase (m : SortedMap κ β) (k : κ) : SortedMap κ β := m.alter k (fun _ => none)

def contains (m : SortedMap κ β) (k : κ) : Bool := (m.get? k).isSome

theorem find_eq_none_of_lt {k : κ} : ∀ {l : List (κ × β)}, (∀ p ∈ l, k < p.1) → find k l = none
  | [], _ => rfl
  | (k', v) :: l, h => by
    have hk : k < k' := h (k', v) (by simp)
    unfold find
    rw [if_neg hk.ne, if_pos hk]

theorem find_alterList (k : κ) (f : Option β → Option β) (j : κ) : ∀ l : List (κ × β),
    l.Pairwise (fun a b => a.1 < b.1) → find j (alterList k f l) = if j = k then f (find k l) else find j l
  | [], _ => by
    unfold alterList find
    cases hf : f none with
    | none => simp
    | some v => by_cases hj : j = k <;> simp [find, hj]
  | (k', v) :: l, h => by
    obtain ⟨hk', hl⟩ := List.pairwise_cons.1 h
    unfold alterList
    by_cases hkk : k = k'
    · subst hkk
      have hnone : find k l = none := find_eq_none_of_lt hk'
      rw [if_pos rfl]
      cases hf : f (some v) with
      | none =>
        by_cases hj : j = k
        · subst hj; simp [find, hf, hnone]
        · by_cases hlt : j < k
          · have : find j l = none := find_eq_none_of_lt (fun p hp => lt_trans hlt (hk' p hp))
            simp [find, hj, hlt, this]
          · simp [find, hj, hlt]
      | some w => by_cases hj : j = k <;> simp [find, hf, hj]
    · rw [if_neg hkk]
      by_cases hlt : k < k'
      · rw [if_pos hlt]
        cases hf : f none with
        | none => by_cases hj : j = k <;> simp [find, hf, hj, hkk, hlt]
        | some w =>
          by_cases hj : j = k
          · subst hj; simp [find, hf, hkk, hlt]
          · by_cases hjk : j < k
            · have hjk' : j < k' := lt_trans hjk hlt
              simp [find, hj, hjk, hjk', hjk'.ne]
            · simp [find, hj, hjk]
      · rw [if_neg hlt]
        have ih := find_alterList k f j l hl
        by_cases hj : j = k
        · subst hj; simp [find, hkk, hlt, ih]
        · simp only [find, ih, if_neg hj]

@[simp] theorem get?_empty (k : κ) : (empty : SortedMap κ β).get? k = none := rfl

theorem get?_alter (m : SortedMap κ β) (k : κ) (f : Option β → Option β) (j : κ) :
    (m.alter k f).get? j = if j = k then f (m.get? k) else m.get? j :=
  find_alterList k f j m.entries m.sorted

@[simp] theorem get?_insert (m : SortedMap κ β) (k : κ) (v : β) (j : κ) :
    (m.insert k v).get? j = if j = k then some v else m.get? j :=
  get?_alter m k _ j

@[simp] theorem get?_erase (m : SortedMap κ β) (k j : κ) :
    (m.erase k).get? j = if j = k then none else m.get? j :=
  get?_alter m k _ j

theorem get?_of_erase {m : SortedMap κ β} {k j : κ} {v : β} (h : (m.erase k).get? j = some v) : m.get? j = some v := by
  rw [get?_erase] at h
  split at h
  · cases h
  · exact h

theorem find_eq_some {k : κ} {v : β} : ∀ {l : List (κ × β)}, l.Pairwise (fun a b => a.1 < b.1) →
    (find k l = some v ↔ (k, v) ∈ l)
  | [], _ => by simp [find]
  | (k', v') :: l, h => by
    obtain ⟨hk', hl⟩ := List.pairwise_cons.1 h
    have ih := find_eq_some (k := k) (v := v) hl
    unfold find
    by_cases hkk : k = k'
    · subst hkk
      rw [if_pos rfl, List.mem_cons, Option.some.injEq, Prod.mk.injEq]
      refine ⟨fun h => .inl ⟨rfl, h.symm⟩, fun h => ?_⟩
      rcases h with ⟨-, h⟩ | h
      · exact h.symm
      · exact absurd (hk' _ h) (lt_irrefl _)
    · rw [if_neg hkk, List.mem_cons, Prod.mk.injEq]
      simp only [hkk, false_and, false_or]
      by_cases hlt : k < k'
      · rw [if_pos hlt]
        exact ⟨fun h => (by cases h), fun h => absurd (lt_trans hlt (hk' _ h)) (lt_irrefl k)⟩
      · rw [if_neg hlt, ih]

theorem get?_eq_some {m : SortedMap κ β} {k : κ} {v : β} : m.get? k = some v ↔ (k, v) ∈ m.entries :=
  find_eq_some m.sorted

/-- Strictly sorted lists with the same members are equal, so a map is its bindings. -/
@[ext] theorem ext {m n : SortedMap κ β} (h : ∀ k, m.get? k = n.get? k) : m = n := by
  have hmem : ∀ p, p ∈ m.entries ↔ p ∈ n.entries := fun p => by
    rw [← get?_eq_some (k := p.1) (v := p.2), h, get?_eq_some]
  have hnodup : ∀ q : SortedMap κ β, q.entries.Nodup := fun q =>
    q.sorted.imp (fun hab he => (he ▸ hab).ne rfl)
  have hperm : m.entries.Perm n.entries := (List.perm_ext_iff_of_nodup (hnodup m) (hnodup n)).2 hmem
  have heq : m.entries = n.entries := hperm.eq_of_pairwise
    (fun a b _ _ hab hba => absurd (lt_trans hab hba) (lt_irrefl _)) m.sorted n.sorted
  cases m; cases n; cases heq; rfl

theorem insert_of_get? {m : SortedMap κ β} {k : κ} {v : β} (h : m.get? k = some v) : m.insert k v = m := by
  refine ext (fun j => ?_)
  rw [get?_insert]
  split
  · rename_i hj
    rw [hj, h]
  · rfl

/-- The bindings whose key meets `p`. -/
def filter (m : SortedMap κ β) (p : κ → Bool) : SortedMap κ β :=
  ⟨m.entries.filter (fun e => p e.1), m.sorted.filter _⟩

@[simp] theorem get?_filter (m : SortedMap κ β) (p : κ → Bool) (k : κ) :
    (m.filter p).get? k = if p k then m.get? k else none := by
  apply Option.ext
  intro v
  rw [get?_eq_some, filter, List.mem_filter]
  split
  · rename_i hp
    rw [get?_eq_some, hp, and_iff_left rfl]
  · rename_i hp
    exact ⟨fun h => absurd h.2 hp, nofun⟩

/-- All the bindings of `n` written over those of `m`. -/
def extend (m n : SortedMap κ β) : SortedMap κ β := n.entries.foldl (fun m e => m.insert e.1 e.2) m

theorem get?_foldl_insert (k : κ) : ∀ (l : List (κ × β)) (m : SortedMap κ β), l.Pairwise (fun a b => a.1 < b.1) →
    (l.foldl (fun m e => m.insert e.1 e.2) m).get? k = (find k l).or (m.get? k)
  | [], _, _ => rfl
  | (k', v) :: l, m, h => by
    obtain ⟨hk', hl⟩ := List.pairwise_cons.1 h
    rw [List.foldl_cons, get?_foldl_insert k l _ hl, get?_insert]
    change _ = (if k = k' then some v else if k < k' then none else find k l).or (m.get? k)
    by_cases hk : k = k'
    · subst hk
      rw [if_pos rfl, if_pos rfl, find_eq_none_of_lt hk']
      rfl
    · rw [if_neg hk, if_neg hk]
      by_cases hlt : k < k'
      · rw [if_pos hlt, find_eq_none_of_lt (fun p hp => lt_trans hlt (hk' p hp))]
      · rw [if_neg hlt]

/-- **One alteration a key**: a pass over distinct keys alters each of them once. -/
theorem get?_foldl_alter {γ : Type} (g : γ → Option β → Option β) (k : κ) : ∀ (l : List (κ × γ)) (m : SortedMap κ β),
    l.Pairwise (fun a b => a.1 < b.1) →
      (l.foldl (fun m e => m.alter e.1 (g e.2)) m).get? k = (find k l).elim (m.get? k) (fun v => g v (m.get? k))
  | [], _, _ => rfl
  | (k', v) :: l, m, h => by
    obtain ⟨hk', hl⟩ := List.pairwise_cons.1 h
    rw [List.foldl_cons, get?_foldl_alter g k l _ hl, get?_alter]
    change _ = (if k = k' then some v else if k < k' then none else find k l).elim _ _
    by_cases hk : k = k'
    · subst hk
      rw [if_pos rfl, if_pos rfl, find_eq_none_of_lt hk']
      rfl
    · rw [if_neg hk, if_neg hk]
      by_cases hlt : k < k'
      · rw [if_pos hlt, find_eq_none_of_lt (fun p hp => lt_trans hlt (hk' p hp))]
      · rw [if_neg hlt]

@[simp] theorem get?_extend (m n : SortedMap κ β) (k : κ) : (m.extend n).get? k = (n.get? k).or (m.get? k) :=
  get?_foldl_insert k n.entries m n.sorted

/-- **A key above all others** comes last. -/
theorem alterList_of_lt {k : κ} (f : Option β → Option β) : ∀ {l : List (κ × β)}, (∀ e ∈ l, e.1 < k) →
    alterList k f l = l ++ (f none).toList.map (k, ·)
  | [], _ => rfl
  | (k', v) :: l, h => by
    have hk : k' < k := h (k', v) List.mem_cons_self
    rw [alterList, if_neg hk.ne', if_neg (not_lt.2 hk.le),
      alterList_of_lt f (fun e he => h e (List.mem_cons_of_mem _ he)), List.cons_append]

/-- A binding that adds to a walk what the old one added leaves the walk as it was. -/
theorem flatMap_alterList {γ : Type} (h : κ × β → List γ) (k : κ) (f : Option β → Option β) :
    ∀ l : List (κ × β), (f (find k l)).toList.flatMap (fun v => h (k, v)) = (find k l).toList.flatMap (fun v => h (k, v)) →
      (alterList k f l).flatMap h = l.flatMap h
  | [], hf => by
    rw [find] at hf
    rw [alterList, List.flatMap_map, hf]
    rfl
  | (k', v) :: l, hf => by
    unfold find at hf
    unfold alterList
    by_cases hk : k = k'
    · subst hk
      rw [if_pos rfl] at hf ⊢
      rw [List.flatMap_append, List.flatMap_map, hf, List.flatMap_cons]
      simp
    · rw [if_neg hk] at hf ⊢
      by_cases hlt : k < k'
      · rw [if_pos hlt] at hf ⊢
        rw [List.flatMap_append, List.flatMap_map, hf]
        rfl
      · rw [if_neg hlt] at hf ⊢
        rw [List.flatMap_cons, List.flatMap_cons, flatMap_alterList h k f l hf]

theorem flatMap_alter {γ : Type} (m : SortedMap κ β) (h : κ × β → List γ) {k : κ} {f : Option β → Option β}
    (hf : (f (m.get? k)).toList.flatMap (fun v => h (k, v)) = (m.get? k).toList.flatMap (fun v => h (k, v))) :
    (m.alter k f).entries.flatMap h = m.entries.flatMap h :=
  flatMap_alterList h k f m.entries hf

theorem sum_alterList (f : κ × β → Nat) {k : κ} {v : β} (v' : β) : ∀ {l : List (κ × β)}, find k l = some v →
    ((alterList k (fun _ => some v') l).map f).sum + f (k, v) = (l.map f).sum + f (k, v')
  | [], h => by cases h
  | (k', w) :: l, h => by
    rw [find] at h
    rw [alterList]
    by_cases hk : k = k'
    · rw [if_pos hk] at h
      cases h
      rw [if_pos hk]
      subst hk
      simp
      omega
    · rw [if_neg hk] at h
      rw [if_neg hk]
      by_cases hlt : k < k'
      · rw [if_pos hlt] at h
        cases h
      · rw [if_neg hlt] at h
        rw [if_neg hlt, List.map_cons, List.sum_cons, List.map_cons, List.sum_cons]
        have ih := sum_alterList f v' h
        omega

/-- **A sum over the bindings**, when one of them is written over. -/
theorem sum_insert (f : κ × β → Nat) {m : SortedMap κ β} {k : κ} {v : β} (v' : β) (h : m.get? k = some v) :
    ((m.insert k v').entries.map f).sum + f (k, v) = (m.entries.map f).sum + f (k, v') :=
  sum_alterList f v' h

end SortedMap
end Heraclitus
