import Mathlib.Data.List.Infix
import Mathlib.Data.Nat.Log
import Mathlib.Data.Set.Function
/-!
# OddTree — hash trees that pair an odd last node with itself

A tree over a list is built level by level, from neighbours.  The repetitions fill the list up to `filledTo`; two lists under
trees of one height have the same top exactly if they are filled up to the same, as long as `node` tells the pairs apart that
it is given.  A list of the same length is then the same list.
-/
namespace Heraclitus

/-- Neighbours in pairs, an odd last item with itself. -/
def neighbours {α : Type} : List α → List (α × α)
  | a :: b :: l => (a, b) :: neighbours l
  | [a] => [(a, a)]
  | [] => []

def members {α : Type} (pairs : List (α × α)) : List α := pairs.flatMap (fun p => [p.1, p.2])

/-- The items with those that a tree of `h` levels repeats. -/
def filledTo : Nat → {α : Type} → List α → List α
  | 0, _, l => l
  | h + 1, _, l => members (filledTo h (neighbours l))

section Items

variable {α β : Type}

theorem neighbours_map (f : α → β) : ∀ l : List α, neighbours (l.map f) = (neighbours l).map (Prod.map f f)
  | a :: b :: l => congrArg (List.cons (f a, f b)) (neighbours_map f l)
  | [_] => rfl
  | [] => rfl

theorem members_map (f : α → β) : ∀ p : List (α × α), members (p.map (Prod.map f f)) = (members p).map f
  | [] => rfl
  | p :: l => congrArg (fun t => f p.1 :: f p.2 :: t) (members_map f l)

theorem members_inj : ∀ {p q : List (α × α)}, members p = members q → p = q
  | [], [], _ => rfl
  | [], _ :: _, h => nomatch h
  | _ :: _, [], h => nomatch h
  | p :: l, q :: m, h => by
    obtain ⟨h₁, h⟩ := List.cons.inj h
    obtain ⟨h₂, h⟩ := List.cons.inj h
    rw [Prod.ext h₁ h₂, members_inj h]

theorem isPrefix_members_neighbours : ∀ l : List α, l <+: members (neighbours l)
  | [] => List.nil_prefix
  | [a] => ⟨[a], rfl⟩
  | a :: b :: l => (List.prefix_cons_inj a).2 ((List.prefix_cons_inj b).2 (isPrefix_members_neighbours l))

theorem mem_members_neighbours {a : α} : ∀ l : List α, a ∈ members (neighbours l) ↔ a ∈ l
  | [] => Iff.rfl
  | [b] => by
    show a ∈ [b, b] ↔ a ∈ [b]
    rw [List.mem_cons, List.mem_singleton, or_self]
  | b :: c :: l => by
    show a ∈ b :: c :: members (neighbours l) ↔ _
    rw [List.mem_cons, List.mem_cons, List.mem_cons, List.mem_cons, mem_members_neighbours l]

theorem filledTo_map : ∀ (h : Nat) {α β : Type} (f : α → β) (l : List α), filledTo h (l.map f) = (filledTo h l).map f
  | 0, _, _, _, _ => rfl
  | h + 1, _, _, f, l => by
    rw [filledTo, neighbours_map, filledTo_map h, members_map]
    rfl

/-- What fills the list up are items of it. -/
theorem mem_filledTo : ∀ (h : Nat) {α : Type} {a : α} {l : List α}, a ∈ filledTo h l ↔ a ∈ l
  | 0, _, _, _ => Iff.rfl
  | h + 1, α, a, l => by
    rw [← mem_members_neighbours l, filledTo, members, members, List.mem_flatMap, List.mem_flatMap]
    exact exists_congr (fun p => and_congr_left' (mem_filledTo h))

theorem isPrefix_filledTo : ∀ (h : Nat) {α : Type} (l : List α), l <+: filledTo h l
  | 0, _, _ => List.prefix_rfl
  | h + 1, _, l => (isPrefix_members_neighbours l).trans ((isPrefix_filledTo h (neighbours l)).flatMap _)

theorem map_eq_map_of_injOn {f : α → β} : ∀ {l m : List α}, Set.InjOn f {a | a ∈ l ∨ a ∈ m} → l.map f = m.map f → l = m
  | [], [], _, _ => rfl
  | [], _ :: _, _, h => nomatch h
  | _ :: _, [], _, h => nomatch h
  | a :: l, b :: m, hinj, h => by
    obtain ⟨hab, h⟩ := List.cons.inj h
    rw [hinj (.inl List.mem_cons_self) (.inr List.mem_cons_self) hab, map_eq_map_of_injOn (fun x hx y hy => hinj
      (hx.imp (List.mem_cons_of_mem a) (List.mem_cons_of_mem b)) (hy.imp (List.mem_cons_of_mem a) (List.mem_cons_of_mem b))) h]

end Items

/-! ## Levels -/

variable {α : Type} (node : α → α → α)

def levelUp (l : List α) : List α := (neighbours l).map (fun p => node p.1 p.2)

def levelsUp : Nat → List α → List α
  | 0, l => l
  | h + 1, l => levelsUp h (levelUp node l)

/-- The pairs that `h` levels make nodes of. -/
def pairsBelow : Nat → List α → List (α × α)
  | 0, _ => []
  | h + 1, l => neighbours l ++ pairsBelow h (levelUp node l)

/-- The levels up to a single node. -/
def height (l : List α) : Nat := Nat.clog 2 l.length

/-- The lists fill the same tree, once the lower levels of the taller tree are built. -/
def SameFilled (l m : List α) : Prop :=
  filledTo (min (height l) (height m)) (levelsUp node (height l - height m) l) =
    filledTo (min (height l) (height m)) (levelsUp node (height m - height l) m)

variable {node} {l m : List α}

theorem levelsUp_add (k h : Nat) : ∀ l : List α, levelsUp node (k + h) l = levelsUp node h (levelsUp node k l) := by
  induction k with
  | zero =>
    intro l
    rw [Nat.zero_add]
    rfl
  | succ k ih =>
    intro l
    rw [Nat.succ_add]
    exact ih (levelUp node l)

theorem pairsBelow_add (k h : Nat) : ∀ l : List α,
    pairsBelow node (k + h) l = pairsBelow node k l ++ pairsBelow node h (levelsUp node k l) := by
  induction k with
  | zero =>
    intro l
    rw [Nat.zero_add]
    rfl
  | succ k ih =>
    intro l
    rw [Nat.succ_add, pairsBelow, ih, pairsBelow, List.append_assoc]
    rfl

/-- **Trees of one height** have the same top exactly if they are filled up to the same. -/
theorem levelsUp_eq_iff : ∀ {h : Nat} {l m : List α},
    Set.InjOn (fun p : α × α => node p.1 p.2) {p | p ∈ pairsBelow node h l ∨ p ∈ pairsBelow node h m} →
    (levelsUp node h l = levelsUp node h m ↔ filledTo h l = filledTo h m)
  | 0, _, _, _ => Iff.rfl
  | h + 1, l, m, hinj => by
    have hhere : Set.InjOn (fun p : α × α => node p.1 p.2) {p | p ∈ filledTo h (neighbours l) ∨ p ∈ filledTo h (neighbours m)} :=
      hinj.mono (fun p hp => hp.imp (fun hp => List.mem_append_left _ ((mem_filledTo h).1 hp))
        (fun hp => List.mem_append_left _ ((mem_filledTo h).1 hp)))
    have habove : Set.InjOn (fun p : α × α => node p.1 p.2)
        {p | p ∈ pairsBelow node h (levelUp node l) ∨ p ∈ pairsBelow node h (levelUp node m)} :=
      hinj.mono (fun p hp => hp.imp (List.mem_append_right _) (List.mem_append_right _))
    show levelsUp node h (levelUp node l) = levelsUp node h (levelUp node m) ↔ _
    rw [levelsUp_eq_iff habove, levelUp, levelUp, filledTo_map, filledTo_map]
    exact ⟨fun h => congrArg members (map_eq_map_of_injOn hhere h), fun h => congrArg (List.map _) (members_inj h)⟩

theorem length_neighbours : ∀ l : List α, (neighbours l).length = (l.length + 1) / 2
  | [] => by
    rw [neighbours, List.length_nil, List.length_nil]
  | [_] => by
    rw [neighbours, List.length_singleton, List.length_singleton]
  | a :: b :: l => by
    rw [neighbours, List.length_cons, length_neighbours l, List.length_cons, List.length_cons]
    omega

theorem height_levelUp (h : 2 ≤ l.length) : height l = height (levelUp node l) + 1 := by
  rw [height, Nat.clog_of_two_le (by decide : 1 < 2) h, height, levelUp, List.length_map, length_neighbours]
  rfl

/-- **The top of a tree binds** what fills it, whatever the heights. -/
theorem top_eq_iff (hinj : Set.InjOn (fun p : α × α => node p.1 p.2)
      {p | p ∈ pairsBelow node (height l) l ∨ p ∈ pairsBelow node (height m) m}) :
    levelsUp node (height l) l = levelsUp node (height m) m ↔ SameFilled node l m := by
  have hl : height l = (height l - height m) + min (height l) (height m) := by omega
  have hm : height m = (height m - height l) + min (height l) (height m) := by omega
  unfold SameFilled
  rw [← levelsUp_eq_iff]
  · rw [← levelsUp_add, ← levelsUp_add, ← hl, ← hm]
  · refine hinj.mono (fun p hp => hp.imp (fun hp => ?_) (fun hp => ?_))
    · rw [hl, pairsBelow_add]
      exact List.mem_append_right _ hp
    · rw [hm, pairsBelow_add]
      exact List.mem_append_right _ hp

/-- **With the number of items the top binds the list.** -/
theorem SameFilled.eq (h : SameFilled node l m) (hlength : l.length = m.length) : l = m := by
  have hheight : height l = height m := congrArg (Nat.clog 2) hlength
  unfold SameFilled at h
  rw [hheight, Nat.sub_self, Nat.min_self] at h
  have hprefix : l <+: filledTo (height m) m := by
    have := isPrefix_filledTo (height m) l
    rwa [show filledTo (height m) l = filledTo (height m) m from h] at this
  exact (List.prefix_of_prefix_length_le hprefix (isPrefix_filledTo (height m) m) (Nat.le_of_eq hlength)).eq_of_length hlength

end Heraclitus
