import Mathlib.Algebra.Ring.Nat
import Mathlib.Data.List.Induction
import Mathlib.Data.Set.Function
/-!
# HashTree — digests of lists as binary trees

The balanced tree of a list has a perfect tree on the left, and on the right a balanced one that is no larger.  There is one
for each list; joining the trees of a level in pairs finds it, and so does a binary counter of perfect trees.
-/
namespace Heraclitus

inductive HashTree (α : Type) where
  | leaf (a : α)
  | node (left right : HashTree α)

namespace HashTree

variable {α δ : Type}

def leaves : HashTree α → List α
  | leaf a => [a]
  | node left right => left.leaves ++ right.leaves

theorem leaves_ne_nil : ∀ t : HashTree α, t.leaves ≠ []
  | leaf _ => List.cons_ne_nil _ _
  | node left _ => List.append_ne_nil_of_left_ne_nil left.leaves_ne_nil _

theorem length_leaves_pos (t : HashTree α) : 0 < t.leaves.length := List.length_pos_iff.2 t.leaves_ne_nil

/-! ## Digests and paths -/

/-- What is hashed: a leaf, or the digests of two subtrees. -/
inductive Input (α δ : Type) where
  | leaf (a : α)
  | node (left right : δ)

/-- The digest beside the one that is known, and its side. -/
structure Step (δ : Type) where
  sibling : δ
  siblingIsLeft : Bool
  deriving DecidableEq

def Step.input (acc : δ) (s : Step δ) : Input α δ := if s.siblingIsLeft then .node s.sibling acc else .node acc s.sibling

variable (hash : Input α δ → δ)

def digest : HashTree α → δ
  | leaf a => hash (.leaf a)
  | node left right => hash (.node left.digest right.digest)

/-- All that is hashed for the digest of a tree. -/
def inputs : HashTree α → List (Input α δ)
  | leaf a => [.leaf a]
  | node left right => .node (left.digest hash) (right.digest hash) :: (left.inputs ++ right.inputs)

/-- The digest that a path leads to. -/
def climb (acc : δ) (path : List (Step δ)) : δ := path.foldl (fun acc s => hash (s.input acc)) acc

/-- All that is hashed on the way. -/
def climbInputs : δ → List (Step δ) → List (Input α δ)
  | _, [] => []
  | acc, s :: path => s.input acc :: climbInputs (hash (s.input acc)) path

/-- The siblings from a leaf up. -/
def pathTo : HashTree α → Nat → List (Step δ)
  | leaf _, _ => []
  | node left right, i =>
    if i < left.leaves.length then left.pathTo i ++ [⟨right.digest hash, false⟩]
    else right.pathTo (i - left.leaves.length) ++ [⟨left.digest hash, true⟩]

variable {hash}

theorem climb_concat (acc : δ) (path : List (Step δ)) (s : Step δ) :
    climb hash acc (path ++ [s]) = hash (s.input (climb hash acc path)) := by
  rw [climb, List.foldl_append]
  rfl

theorem climbInputs_concat : ∀ (acc : δ) (path : List (Step δ)) (s : Step δ),
    climbInputs hash acc (path ++ [s]) = climbInputs hash acc path ++ [s.input (climb hash acc path)]
  | _, [], _ => rfl
  | acc, s :: path, s' => by
    rw [List.cons_append, climbInputs, climbInputs_concat _ path s']
    rfl

/-- **A leaf's path leads to the digest of the tree.** -/
theorem climb_pathTo : ∀ {t : HashTree α} {i : Nat} {a : α}, t.leaves[i]? = some a →
    climb hash (hash (.leaf a)) (t.pathTo hash i) = t.digest hash
  | leaf b, i, a, h => by
    rw [leaves, List.getElem?_singleton] at h
    split at h
    · cases h
      rfl
    · cases h
  | node left right, i, a, h => by
    rw [leaves] at h
    by_cases hi : i < left.leaves.length
    · rw [List.getElem?_append_left hi] at h
      rw [pathTo, if_pos hi, climb_concat, climb_pathTo h]
      rfl
    · rw [List.getElem?_append_right (Nat.not_lt.1 hi)] at h
      rw [pathTo, if_neg hi, climb_concat, climb_pathTo h]
      rfl

/-- **A path that leads to the digest of a tree is a leaf's**, where the hashed inputs do not collide. -/
theorem eq_pathTo_of_climb {S : Set (Input α δ)} (hinj : Set.InjOn hash S) : ∀ {t : HashTree α} {a : α} {path : List (Step δ)},
    (∀ x ∈ t.inputs hash, x ∈ S) → .leaf a ∈ S → (∀ x ∈ climbInputs hash (hash (.leaf a)) path, x ∈ S) →
    climb hash (hash (.leaf a)) path = t.digest hash → ∃ i, t.leaves[i]? = some a ∧ path = t.pathTo hash i
  | leaf b, a, path, ht, ha, hpath, h => by
    cases path using List.reverseRecOn with
    | nil =>
      have heq := hinj ha (ht (.leaf b) List.mem_cons_self) h
      cases heq
      exact ⟨0, rfl, rfl⟩
    | append_singleton path s =>
      rw [climb_concat] at h
      rw [climbInputs_concat] at hpath
      have heq := hinj (hpath _ List.mem_concat_self) (ht (.leaf b) List.mem_cons_self) h
      rw [Step.input] at heq
      split at heq <;> cases heq
  | node left right, a, path, ht, ha, hpath, h => by
    cases path using List.reverseRecOn with
    | nil =>
      have heq := hinj ha (ht _ List.mem_cons_self) h
      cases heq
    | append_singleton path s =>
      rw [climb_concat] at h
      rw [climbInputs_concat] at hpath
      have heq := hinj (hpath _ List.mem_concat_self) (ht _ List.mem_cons_self) h
      have hrest : ∀ x ∈ climbInputs hash (hash (.leaf a)) path, x ∈ S := fun x hx => hpath x (List.mem_append_left _ hx)
      obtain ⟨sibling, siblingIsLeft⟩ := s
      cases siblingIsLeft with
      | true =>
        obtain ⟨hleft, hright⟩ : sibling = left.digest hash ∧ climb hash (hash (.leaf a)) path = right.digest hash := by
          simpa [Step.input] using heq
        obtain ⟨i, hi, hp⟩ := eq_pathTo_of_climb hinj
          (fun x hx => ht x (List.mem_cons_of_mem _ (List.mem_append_right _ hx))) ha hrest hright
        refine ⟨left.leaves.length + i, ?_, ?_⟩
        · rw [leaves, List.getElem?_append_right (Nat.le_add_right _ _), Nat.add_sub_cancel_left]
          exact hi
        · rw [pathTo, if_neg (by omega), Nat.add_sub_cancel_left, hp, hleft]
      | false =>
        obtain ⟨hleft, hright⟩ : climb hash (hash (.leaf a)) path = left.digest hash ∧ sibling = right.digest hash := by
          simpa [Step.input] using heq
        obtain ⟨i, hi, hp⟩ := eq_pathTo_of_climb hinj
          (fun x hx => ht x (List.mem_cons_of_mem _ (List.mem_append_left _ hx))) ha hrest hleft
        have hlt := (List.getElem?_eq_some_iff.1 hi).1
        refine ⟨i, ?_, ?_⟩
        · rw [leaves, List.getElem?_append_left hlt]
          exact hi
        · rw [pathTo, if_pos hlt, hp, hright]

/-! ## The balanced tree of a list -/

inductive Perfect : Nat → HashTree α → Prop
  | leaf (a : α) : Perfect 0 (leaf a)
  | node {n : Nat} {left right : HashTree α} : Perfect n left → Perfect n right → Perfect (n + 1) (node left right)

inductive Balanced : HashTree α → Prop
  | leaf (a : α) : Balanced (leaf a)
  | node {n : Nat} {left right : HashTree α} : Perfect n left → Balanced right → right.leaves.length ≤ 2 ^ n →
      Balanced (node left right)

theorem Perfect.length {n : Nat} {t : HashTree α} (h : Perfect n t) : t.leaves.length = 2 ^ n := by
  induction h with
  | leaf a => rfl
  | node _ _ ihl ihr =>
    rw [leaves, List.length_append, ihl, ihr, Nat.pow_succ]
    omega

theorem Perfect.balanced {n : Nat} {t : HashTree α} (h : Perfect n t) : Balanced t := by
  induction h with
  | leaf a => exact .leaf a
  | node hl hr _ ihr => exact .node hl ihr (Nat.le_of_eq hr.length)

theorem Perfect.unique {n : Nat} {t t' : HashTree α} (h : Perfect n t) (h' : Perfect n t') (heq : t.leaves = t'.leaves) :
    t = t' := by
  induction h generalizing t' with
  | leaf a =>
    cases h'
    cases heq
    rfl
  | node hl hr ihl ihr =>
    cases h' with
    | node hl' hr' =>
      obtain ⟨hleft, hright⟩ := List.append_inj heq (hl.length.trans hl'.length.symm)
      rw [ihl hl' hleft, ihr hr' hright]

theorem two_pow_eq_of_sum_eq {n m a b : Nat} (ha : 0 < a) (han : a ≤ 2 ^ n) (hb : 0 < b) (hbm : b ≤ 2 ^ m)
    (h : 2 ^ n + a = 2 ^ m + b) : n = m := by
  have hle : ∀ {k l : Nat}, k < l → 2 ^ k + 2 ^ k ≤ 2 ^ l := fun {k l} hkl => by
    have := Nat.pow_le_pow_right (show 0 < 2 by decide) hkl
    rw [Nat.pow_succ] at this
    omega
  rcases Nat.lt_trichotomy n m with hlt | heq | hgt
  · have := hle hlt
    omega
  · exact heq
  · have := hle hgt
    omega

/-- **There is one balanced tree of a list.** -/
theorem Balanced.unique {t t' : HashTree α} (h : Balanced t) (h' : Balanced t') (heq : t.leaves = t'.leaves) : t = t' := by
  induction h generalizing t' with
  | leaf a =>
    cases h' with
    | leaf b =>
      cases heq
      rfl
    | @node m left right hl hr _ =>
      have hlen := congrArg List.length heq
      have := left.length_leaves_pos
      have := right.length_leaves_pos
      simp only [leaves, List.length_append, List.length_singleton] at hlen
      omega
  | @node n left right hl hr hle ih =>
    cases h' with
    | leaf b =>
      have hlen := congrArg List.length heq
      have := left.length_leaves_pos
      have := right.length_leaves_pos
      simp only [leaves, List.length_append, List.length_singleton] at hlen
      omega
    | @node m left' right' hl' hr' hle' =>
      have hlen := congrArg List.length heq
      simp only [leaves, List.length_append, hl.length, hl'.length] at hlen
      have hnm := two_pow_eq_of_sum_eq right.length_leaves_pos hle right'.length_leaves_pos hle' hlen
      cases hnm
      obtain ⟨hleft, hright⟩ := List.append_inj heq (hl.length.trans hl'.length.symm)
      rw [hl.unique hl' hleft, ih hr' hright]

/-! ## Level by level -/

/-- The next level: neighbours are joined; the last one without a partner goes up as it is. -/
def pairUp {τ : Type} (join : τ → τ → τ) : List τ → List τ
  | [] => []
  | [t] => [t]
  | l :: r :: rest => join l r :: pairUp join rest

theorem map_pairUp {τ τ' : Type} {join : τ → τ → τ} {join' : τ' → τ' → τ'} {f : τ → τ'}
    (hf : ∀ a b, f (join a b) = join' (f a) (f b)) : ∀ ts : List τ, (pairUp join ts).map f = pairUp join' (ts.map f)
  | [] => rfl
  | [_] => rfl
  | l :: r :: rest => by
    rw [pairUp, List.map_cons, map_pairUp hf rest, hf]
    rfl

theorem length_pairUp {τ : Type} (join : τ → τ → τ) : ∀ ts : List τ, (pairUp join ts).length = (ts.length + 1) / 2
  | [] => by simp [pairUp]
  | [_] => by simp [pairUp]
  | l :: r :: rest => by
    rw [pairUp, List.length_cons, length_pairUp join rest, List.length_cons, List.length_cons]
    omega

theorem flatMap_leaves_pairUp : ∀ ts : List (HashTree α), (pairUp node ts).flatMap leaves = ts.flatMap leaves
  | [] => rfl
  | [_] => rfl
  | l :: r :: rest => by
    rw [pairUp, List.flatMap_cons, List.flatMap_cons, List.flatMap_cons, flatMap_leaves_pairUp rest, leaves,
      List.append_assoc]

/-- A level: perfect trees of one height, and a balanced one that is no larger. -/
inductive Row (n : Nat) : List (HashTree α) → Prop
  | last {t : HashTree α} : Balanced t → t.leaves.length ≤ 2 ^ n → Row n [t]
  | cons {t : HashTree α} {ts : List (HashTree α)} : Perfect n t → Row n ts → Row n (t :: ts)

theorem row_leaves : ∀ {l : List α}, l ≠ [] → Row 0 (l.map leaf)
  | [a], _ => .last (.leaf a) (Nat.le_refl 1)
  | a :: b :: l, _ => .cons (.leaf a) (row_leaves (List.cons_ne_nil b l))

/-- **A level is followed by a level.** -/
theorem Row.pairUp {n : Nat} : ∀ {ts : List (HashTree α)}, Row n ts → Row (n + 1) (pairUp node ts)
  | [], h => by cases h
  | [t], h => by
    have hpow : 2 ^ n ≤ 2 ^ (n + 1) := Nat.pow_le_pow_right (by decide) (Nat.le_succ n)
    cases h with
    | last hb hle => exact .last hb (Nat.le_trans hle hpow)
    | cons _ hnil => cases hnil
  | [l, r], h => by
    cases h with
    | cons hl hr =>
      cases hr with
      | last hb hle =>
        refine .last (.node hl hb hle) ?_
        rw [leaves, List.length_append, hl.length, Nat.pow_succ]
        omega
      | cons _ hnil => cases hnil
  | l :: r :: t :: rest, h => by
    cases h with
    | cons hl hr =>
      cases hr with
      | cons hr hrest => exact .cons (.node hl hr) hrest.pairUp

/-- What a path gets at a level. -/
def siblingOf (level : List δ) (idx : Nat) : List (Step δ) :=
  if idx % 2 = 0 then (level[idx + 1]?).toList.map (fun s => ⟨s, false⟩)
  else (level[idx - 1]?).toList.map (fun s => ⟨s, true⟩)

/-- The leaf `i` of a level's trees is in tree `idx`, and `path` leads from it to that tree's digest. -/
def Leads (hash : Input α δ → δ) (ts : List (HashTree α)) (i idx : Nat) (path : List (Step δ)) : Prop :=
  ∃ t j, ts[idx]? = some t ∧ j < t.leaves.length ∧ i = ((ts.take idx).flatMap leaves).length + j ∧ path = t.pathTo hash j

theorem leads_leaves {l : List α} {i : Nat} (hi : i < l.length) : Leads hash (l.map leaf) i i [] := by
  refine ⟨leaf l[i], 0, ?_, Nat.one_pos, ?_, rfl⟩
  · rw [List.getElem?_map, List.getElem?_eq_getElem hi]
    rfl
  · have hmap : ∀ l : List α, (l.map leaf).flatMap leaves = l := fun l => by
      rw [List.flatMap_map]
      exact List.flatMap_singleton' l
    rw [← List.map_take, hmap, List.length_take_of_le (Nat.le_of_lt hi)]
    rfl

/-- **A path goes up a level** with its sibling there. -/
theorem Leads.pairUp : ∀ {ts : List (HashTree α)} {i idx : Nat} {path : List (Step δ)}, Leads hash ts i idx path →
    Leads hash (pairUp node ts) i (idx / 2) (path ++ siblingOf (ts.map (digest hash)) idx)
  | [], _, _, _, ⟨_, _, hget, _⟩ => by cases hget
  | [t], i, 0, path, ⟨t', j, hget, hj, hi, hpath⟩ => by
    cases hget
    exact ⟨t, j, rfl, hj, hi, by rw [hpath]; exact List.append_nil _⟩
  | [t], _, _ + 1, _, ⟨_, _, hget, _⟩ => by cases hget
  | l :: r :: rest, i, 0, path, ⟨t', j, hget, hj, hi, hpath⟩ => by
    cases hget
    refine ⟨node l r, j, rfl, ?_, hi, ?_⟩
    · rw [leaves, List.length_append]
      omega
    · rw [pathTo, if_pos hj, hpath]
      rfl
  | l :: r :: rest, i, 1, path, ⟨t', j, hget, hj, hi, hpath⟩ => by
    cases hget
    refine ⟨node l r, l.leaves.length + j, rfl, ?_, ?_, ?_⟩
    · rw [leaves, List.length_append]
      omega
    · rw [hi]
      simp
    · rw [pathTo, if_neg (by omega), Nat.add_sub_cancel_left, hpath]
      rfl
  | l :: r :: rest, i, idx + 2, path, ⟨t', j, hget, hj, hi, hpath⟩ => by
    have hlen : (l.leaves ++ (r.leaves ++ (rest.take idx).flatMap leaves)).length
        = (node l r).leaves.length + ((rest.take idx).flatMap leaves).length := by
      rw [leaves, ← List.append_assoc, List.length_append]
    have hrest : Leads hash rest (i - (node l r).leaves.length) idx path := by
      refine ⟨t', j, hget, hj, ?_, hpath⟩
      rw [hi, List.take_succ_cons, List.take_succ_cons, List.flatMap_cons, List.flatMap_cons, hlen]
      omega
    obtain ⟨t, j', hget', hj', hi', hpath'⟩ := hrest.pairUp
    have hhalf : (idx + 2) / 2 = idx / 2 + 1 := by omega
    refine ⟨t, j', ?_, hj', ?_, ?_⟩
    · rw [hhalf]
      exact hget'
    · have hsum : i = (node l r).leaves.length + (i - (node l r).leaves.length) := by
        rw [hi, List.take_succ_cons, List.take_succ_cons, List.flatMap_cons, List.flatMap_cons, hlen]
        omega
      rw [hsum, hi', hhalf, HashTree.pairUp, List.take_succ_cons, List.flatMap_cons, List.length_append, Nat.add_assoc]
    · rw [← hpath']
      refine congrArg (path ++ ·) ?_
      have heven : (idx + 2) % 2 = idx % 2 := Nat.add_mod_right idx 2
      rw [siblingOf, siblingOf, heven]
      by_cases hmod : idx % 2 = 0
      · rw [if_pos hmod, if_pos hmod]
        rfl
      · have hpred : idx + 2 - 1 = idx - 1 + 2 := by omega
        rw [if_neg hmod, if_neg hmod, hpred]
        rfl

theorem Leads.eq_pathTo {t : HashTree α} {i idx : Nat} {path : List (Step δ)} (h : Leads hash [t] i idx path) :
    path = t.pathTo hash i := by
  obtain ⟨t', j, hget, -, hi, hpath⟩ := h
  cases idx with
  | zero =>
    cases hget
    have hij : i = j := by simpa using hi
    rw [hpath, hij]
  | succ idx => cases hget

/-! ## A binary counter -/

section Counter

variable {τ : Type} (join : τ → τ → τ)

/-- A tree goes up to the first free level. -/
def carry (t : τ) : List (Option τ) → List (Option τ)
  | [] => []
  | none :: levels => some t :: levels
  | some pending :: levels => none :: carry (join pending t) levels

/-- Everything pending is joined, from the lowest level up. -/
def gather (t : Option τ) : List (Option τ) → Option τ
  | [] => t
  | none :: levels => gather t levels
  | some pending :: levels => gather (some (t.elim pending (join pending))) levels

variable {join}

theorem map_carry {τ' : Type} {join' : τ' → τ' → τ'} {f : τ → τ'} (hf : ∀ a b, f (join a b) = join' (f a) (f b)) :
    ∀ (levels : List (Option τ)) (t : τ), (carry join t levels).map (Option.map f) = carry join' (f t) (levels.map (Option.map f))
  | [], _ => rfl
  | none :: _, _ => rfl
  | some pending :: levels, t => by
    rw [carry, List.map_cons, map_carry hf levels, hf]
    rfl

theorem map_gather {τ' : Type} {join' : τ' → τ' → τ'} {f : τ → τ'} (hf : ∀ a b, f (join a b) = join' (f a) (f b)) :
    ∀ (levels : List (Option τ)) (t : Option τ), (gather join t levels).map f = gather join' (t.map f) (levels.map (Option.map f))
  | [], _ => rfl
  | none :: levels, t => map_gather hf levels t
  | some pending :: levels, t => by
    rw [gather, map_gather hf levels]
    cases t with
    | none => rfl
    | some right =>
      rw [Option.elim_some, Option.map_some, hf]
      rfl

end Counter

/-- The trees of a counter, from height `n` up, are perfect. -/
inductive Counter : Nat → List (Option (HashTree α)) → Prop
  | nil (n : Nat) : Counter n []
  | free {n : Nat} {levels : List (Option (HashTree α))} : Counter (n + 1) levels → Counter n (none :: levels)
  | pending {n : Nat} {t : HashTree α} {levels : List (Option (HashTree α))} : Perfect n t → Counter (n + 1) levels →
      Counter n (some t :: levels)

/-- The leaves of a counter; the higher trees came first. -/
def counted : List (Option (HashTree α)) → List α
  | [] => []
  | none :: levels => counted levels
  | some t :: levels => counted levels ++ t.leaves

theorem counter_replicate : ∀ (k n : Nat), Counter (α := α) n (List.replicate k none)
  | 0, n => .nil n
  | k + 1, n => .free (counter_replicate k (n + 1))

theorem counted_replicate : ∀ k : Nat, counted (α := α) (List.replicate k none) = []
  | 0 => rfl
  | k + 1 => counted_replicate k

/-- **A counter takes a tree** while a level is free. -/
theorem Counter.carry {n : Nat} {levels : List (Option (HashTree α))} (h : Counter n levels) {t : HashTree α}
    (ht : Perfect n t) (hfree : none ∈ levels) :
    Counter n (carry node t levels) ∧ counted (HashTree.carry node t levels) = counted levels ++ t.leaves := by
  induction h generalizing t with
  | nil n => cases hfree
  | free hrest _ => exact ⟨.pending ht hrest, rfl⟩
  | @pending n p levels hp hrest ih =>
    have hin : none ∈ levels := by simpa using hfree
    obtain ⟨hcounter, hcounted⟩ := ih (hp.node ht) hin
    refine ⟨.free hcounter, ?_⟩
    rw [HashTree.carry, counted, counted, hcounted, leaves, List.append_assoc]

theorem length_carry {τ : Type} (join : τ → τ → τ) : ∀ (levels : List (Option τ)) (t : τ),
    (HashTree.carry join t levels).length = levels.length
  | [], _ => rfl
  | none :: _, _ => rfl
  | some _ :: levels, _ => congrArg Nat.succ (length_carry join levels _)

/-- A full counter. -/
theorem Counter.full {n : Nat} {levels : List (Option (HashTree α))} (h : Counter n levels) (hfull : none ∉ levels) :
    (counted levels).length + 2 ^ n = 2 ^ (n + levels.length) := by
  induction h with
  | nil n => simp [counted]
  | free _ _ => exact absurd List.mem_cons_self hfull
  | @pending n t levels ht _ ih =>
    have hrest := ih (fun hin => hfull (List.mem_cons_of_mem _ hin))
    rw [counted, List.length_append, ht.length, Nat.add_assoc, ← Nat.mul_two, ← Nat.pow_succ, hrest, List.length_cons]
    congr 1
    omega

/-- **Gathering a counter gives the balanced tree** of its leaves. -/
theorem Counter.gather {n : Nat} {levels : List (Option (HashTree α))} (h : Counter n levels) {t : HashTree α}
    (ht : Balanced t) (hle : t.leaves.length ≤ 2 ^ n) :
    ∃ t', HashTree.gather node (some t) levels = some t' ∧ Balanced t' ∧ t'.leaves = counted levels ++ t.leaves := by
  induction h generalizing t with
  | nil n => exact ⟨t, rfl, ht, rfl⟩
  | @free n levels _ ih =>
    have hpow : 2 ^ n ≤ 2 ^ (n + 1) := Nat.pow_le_pow_right (by decide) (Nat.le_succ n)
    exact ih ht (Nat.le_trans hle hpow)
  | @pending n p levels hp _ ih =>
    have hlen : (node p t).leaves.length ≤ 2 ^ (n + 1) := by
      rw [leaves, List.length_append, hp.length, Nat.pow_succ]
      omega
    obtain ⟨t', hgather, hbalanced, hleaves⟩ := ih (.node hp ht hle) hlen
    refine ⟨t', hgather, hbalanced, ?_⟩
    rw [hleaves, counted, leaves, List.append_assoc]

theorem Counter.gather_none {n : Nat} {levels : List (Option (HashTree α))} (h : Counter n levels) (hne : counted levels ≠ []) :
    ∃ t', HashTree.gather node none levels = some t' ∧ Balanced t' ∧ t'.leaves = counted levels := by
  induction h with
  | nil n => exact absurd rfl hne
  | free _ ih => exact ih hne
  | @pending n p levels hp hrest _ =>
    have hle : p.leaves.length ≤ 2 ^ (n + 1) := by
      rw [hp.length]
      exact Nat.pow_le_pow_right (by decide) (Nat.le_succ n)
    exact hrest.gather hp.balanced hle

end HashTree
end Heraclitus
