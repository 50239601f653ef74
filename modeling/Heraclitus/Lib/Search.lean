import Mathlib.Data.List.Chain
import Mathlib.Data.List.Nodup
import Mathlib.Data.List.Perm.Subperm
import Mathlib.Logic.Relation
import Mathlib.Tactic.Common
/-!
# Search — a graph that is searched from a node

Distances and chains; what a breadth-first search by layers, one by a queue, and a search by a worklist in any order keep as they
go; and how long they take in a graph that a list bounds.
-/
namespace Heraclitus
namespace Search

/-! ## Distance -/

section Distance

variable {α : Type}

/-- One node leads to another. -/
abbrev Reach (next : α → List α) : α → α → Prop := Relation.ReflTransGen (fun a b => b ∈ next a)

/-- `x` is `n` steps from `start`. -/
def Steps (next : α → List α) (start : α) : Nat → α → Prop
  | 0, x => x = start
  | n + 1, x => ∃ y, Steps next start n y ∧ x ∈ next y

/-- `x` is `n` steps from `start` and no fewer. -/
def Nearest (next : α → List α) (start : α) (n : Nat) (x : α) : Prop :=
  Steps next start n x ∧ ∀ m < n, ¬Steps next start m x

variable {next : α → List α} {start x y : α} {m n : Nat}

theorem Steps.exists_nearest (h : Steps next start n x) : ∃ m ≤ n, Nearest next start m x := by
  induction n using Nat.strong_induction_on with
  | _ n ih =>
    by_cases hless : ∃ m < n, Steps next start m x
    · obtain ⟨m, hm, hsteps⟩ := hless
      obtain ⟨k, hk, hnear⟩ := ih m hm hsteps
      exact ⟨k, hk.trans hm.le, hnear⟩
    · exact ⟨n, le_rfl, h, fun m hm hsteps => hless ⟨m, hm, hsteps⟩⟩

theorem Nearest.unique (h : Nearest next start m x) (h' : Nearest next start n x) : m = n := by
  rcases lt_trichotomy m n with hlt | heq | hgt
  · exact absurd h.1 (h'.2 m hlt)
  · exact heq
  · exact absurd h'.1 (h.2 n hgt)

theorem nearest_zero : Nearest next start 0 x ↔ x = start := ⟨fun h => h.1, fun h => ⟨h, fun m hm => absurd hm (Nat.not_lt_zero m)⟩⟩

/-- The last step to a node comes from one that is a step nearer. -/
theorem Nearest.pred (h : Nearest next start (n + 1) x) : ∃ y, Nearest next start n y ∧ x ∈ next y := by
  obtain ⟨⟨y, hy, hx⟩, hless⟩ := h
  exact ⟨y, ⟨hy, fun m hm hsteps => hless (m + 1) (Nat.succ_lt_succ hm) ⟨y, hsteps, hx⟩⟩, hx⟩

/-- Some node stands at every shorter distance. -/
theorem Nearest.exists_of_le (h : Nearest next start n x) (hm : m ≤ n) : ∃ y, Nearest next start m y := by
  induction hm using Nat.decreasingInduction with
  | self => exact ⟨x, h⟩
  | of_succ k hk ih =>
    obtain ⟨y, hy⟩ := ih
    obtain ⟨z, hz, -⟩ := hy.pred
    exact ⟨z, hz⟩

/-- Distances are below the number of nodes. -/
theorem Nearest.lt_length (h : Nearest next start n x) {nodes : List α} (hstart : start ∈ nodes)
    (hnodes : ∀ y ∈ nodes, ∀ x ∈ next y, x ∈ nodes) : n < nodes.length := by
  have hmem : ∀ {m y}, Steps next start m y → y ∈ nodes := fun {m} => by
    induction m with
    | zero => exact fun h => h ▸ hstart
    | succ m ih => exact fun ⟨y, hy, hx⟩ => hnodes y (ih hy) _ hx
  have hat : ∀ m, ∃ y, m ≤ n → Nearest next start m y := fun m => by
    by_cases hm : m ≤ n
    · obtain ⟨y, hy⟩ := h.exists_of_le hm
      exact ⟨y, fun _ => hy⟩
    · exact ⟨x, fun hm' => absurd hm' hm⟩
  choose f hf using hat
  have hinj : ((List.range (n + 1)).map f).Nodup := by
    refine (List.nodup_map_iff_inj_on List.nodup_range).2 (fun i hi j hj heq => ?_)
    rw [List.mem_range] at hi hj
    exact (hf i (by omega)).unique (heq ▸ hf j (by omega))
  have hlen := (List.subperm_of_subset hinj (fun y hy => by
    obtain ⟨i, hi, rfl⟩ := List.mem_map.1 hy
    exact hmem (hf i (Nat.le_of_lt_succ (List.mem_range.1 hi))).1)).length_le
  rwa [List.length_map, List.length_range] at hlen

/-- **A chain from `start`**: each node is followed by one of its next. -/
structure Chain (next : α → List α) (start x : α) (l : List α) : Prop where
  head : l.head? = some start
  last : l.getLast? = some x
  links : l.IsChain (fun a b => b ∈ next a)

theorem Chain.concat {l : List α} (h : Chain next start y l) (hx : x ∈ next y) : Chain next start x (l ++ [x]) := by
  obtain ⟨hhead, hlast, hlinks⟩ := h
  refine ⟨by rw [List.head?_append, hhead]; rfl, by simp, ?_⟩
  rw [List.isChain_append]
  refine ⟨hlinks, List.isChain_singleton x, fun a ha b hb => ?_⟩
  rw [hlast] at ha
  cases ha
  cases hb
  exact hx

/-- Chains are steps. -/
theorem steps_iff_chain : Steps next start n x ↔ ∃ l, l.length = n + 1 ∧ Chain next start x l := by
  induction n generalizing x with
  | zero =>
    constructor
    · rintro rfl
      exact ⟨[x], rfl, rfl, rfl, List.isChain_singleton x⟩
    · rintro ⟨l, hl, hhead, hlast, -⟩
      obtain ⟨a, rfl⟩ := List.length_eq_one_iff.1 hl
      cases hhead
      cases hlast
      rfl
  | succ n ih =>
    constructor
    · rintro ⟨y, hy, hx⟩
      obtain ⟨l, hl, hchain⟩ := ih.1 hy
      exact ⟨l ++ [x], by rw [List.length_append, hl]; rfl, hchain.concat hx⟩
    · rintro ⟨l, hl, hhead, hlast, hlinks⟩
      rcases List.eq_nil_or_concat' l with rfl | ⟨l', z, rfl⟩
      · cases hl
      rw [List.length_append, List.length_singleton, Nat.add_right_cancel_iff] at hl
      have hne : l' ≠ [] := List.ne_nil_of_length_eq_add_one hl
      obtain ⟨hfront, -, hlink⟩ := List.isChain_append.1 hlinks
      rw [List.getLast?_append, List.getLast?_singleton, Option.some_or] at hlast
      cases hlast
      rw [List.head?_append_of_ne_nil _ hne] at hhead
      refine ⟨l'.getLast hne, ih.2 ⟨l', hl, hhead, List.getLast?_eq_getLast_of_ne_nil hne, hfront⟩, ?_⟩
      exact hlink _ (List.getLast?_eq_getLast_of_ne_nil hne) x rfl

/-- **The nearest nodes end the shortest chains.** -/
theorem Nearest.length_le {l : List α} (h : Nearest next start n x) (hl : Chain next start x l) : n + 1 ≤ l.length := by
  have hne : l ≠ [] := fun hnil => by simpa [hnil] using hl.head
  have hlen : l.length = l.length - 1 + 1 := (Nat.succ_pred_eq_of_pos (List.length_pos_iff.2 hne)).symm
  by_contra hlt
  exact h.2 (l.length - 1) (by omega) (steps_iff_chain.2 ⟨l, hlen, hl⟩)

end Distance

/-! ## Nodes that have not been seen -/

section Fresh

variable {α : Type} [DecidableEq α]

/-- The nodes of a list that have not been seen, each once. -/
def fresh (seen : α → Bool) : List α → List α
  | [] => []
  | x :: l => if seen x then fresh seen l else x :: fresh (fun y => seen y || decide (y = x)) l

variable {seen : α → Bool} {x : α} {l : List α}

theorem mem_fresh : x ∈ fresh seen l ↔ x ∈ l ∧ seen x = false := by
  induction l generalizing seen with
  | nil => simp [fresh]
  | cons y l ih =>
    rw [fresh]
    by_cases hy : seen y = true
    · rw [if_pos hy, ih, List.mem_cons, or_and_right]
      refine ⟨.inr, fun h => h.resolve_left ?_⟩
      rintro ⟨rfl, hx⟩
      rw [hy] at hx
      cases hx
    · rw [if_neg hy, List.mem_cons, ih, List.mem_cons, Bool.or_eq_false_iff, decide_eq_false_iff_not]
      by_cases hxy : x = y
      · subst hxy
        simpa using hy
      · simp [hxy]

theorem nodup_fresh : (fresh seen l).Nodup := by
  induction l generalizing seen with
  | nil => exact List.nodup_nil
  | cons y l ih =>
    rw [fresh]
    split
    · exact ih
    · refine List.nodup_cons.2 ⟨fun h => ?_, ih⟩
      simpa using (mem_fresh.1 h).2

/-- Where a list tells what has been seen. -/
theorem fresh_cons (seen : List α) (x : α) (l : List α) : fresh (fun y => decide (y ∈ seen)) (x :: l)
    = if x ∈ seen then fresh (fun y => decide (y ∈ seen)) l else x :: fresh (fun y => decide (y ∈ x :: seen)) l := by
  have hseen : (fun y => decide (y ∈ x :: seen)) = fun y => decide (y ∈ seen) || decide (y = x) := by
    funext y
    by_cases hy : y = x <;> simp [hy]
  rw [fresh, hseen]
  by_cases hx : x ∈ seen <;> simp [hx]

end Fresh

/-! ## By layers -/

section Layers

variable {α : Type} {next : α → List α} {start x : α} {d : Nat} {seen : α → Bool} {frontier frontier' : List α}

/-- All nodes up to a distance have been seen, and the frontier is those at that distance. -/
structure Layer (next : α → List α) (start : α) (d : Nat) (seen : α → Bool) (frontier : List α) : Prop where
  seen : ∀ x, seen x = true ↔ ∃ m ≤ d, Nearest next start m x
  frontier : ∀ x, x ∈ frontier ↔ Nearest next start d x

/-- What the frontier leads to that has not been seen is the next layer. -/
theorem Layer.nearest_succ (h : Layer next start d seen frontier) :
    (x ∈ frontier.flatMap next ∧ seen x = false) ↔ Nearest next start (d + 1) x := by
  rw [List.mem_flatMap, ← Bool.not_eq_true, h.seen]
  constructor
  · rintro ⟨⟨y, hy, hx⟩, hnew⟩
    refine ⟨⟨y, ((h.frontier y).1 hy).1, hx⟩, fun m hm hsteps => hnew ?_⟩
    obtain ⟨k, hk, hnear⟩ := hsteps.exists_nearest
    exact ⟨k, by omega, hnear⟩
  · intro hx
    obtain ⟨y, hy, hxy⟩ := hx.pred
    exact ⟨⟨y, (h.frontier y).2 hy, hxy⟩, fun ⟨m, hm, hnear⟩ => by have := hnear.unique hx; omega⟩

theorem Layer.succ (h : Layer next start d seen frontier) {seen' : α → Bool}
    (hfrontier : ∀ x, x ∈ frontier' ↔ x ∈ frontier.flatMap next ∧ seen x = false)
    (hseen : ∀ x, seen' x = true ↔ seen x = true ∨ x ∈ frontier') : Layer next start (d + 1) seen' frontier' := by
  have hnext : ∀ x, x ∈ frontier' ↔ Nearest next start (d + 1) x := fun x => (hfrontier x).trans h.nearest_succ
  refine ⟨fun x => ?_, hnext⟩
  rw [hseen, h.seen, hnext]
  constructor
  · rintro (⟨m, hm, hnear⟩ | hnear)
    · exact ⟨m, by omega, hnear⟩
    · exact ⟨d + 1, le_rfl, hnear⟩
  · rintro ⟨m, hm, hnear⟩
    rcases Nat.lt_or_ge d m with hlt | hle
    · obtain rfl : m = d + 1 := by omega
      exact .inr hnear
    · exact .inl ⟨m, hle, hnear⟩

end Layers

/-! ## By a worklist -/

section Worklist

variable {α : Type} {next : α → List α} {start n : α} {old : α → Prop} {done todo todo' rest new : List α}

/-- A search in any order: what has been found, apart from old nodes, is reached; what is done leads to nothing else. -/
structure Flood (next : α → List α) (start : α) (old : α → Prop) (done todo : List α) : Prop where
  begins : start ∈ done ++ todo
  nodup : (done ++ todo).Nodup
  sound : ∀ x ∈ done ++ todo, ¬old x ∧ Reach next start x
  closed : ∀ y ∈ done, ∀ x ∈ next y, old x ∨ x ∈ done ++ todo

theorem flood_start (h : ¬old start) : Flood next start old [] [start] where
  begins := List.mem_singleton_self start
  nodup := List.nodup_singleton start
  sound x hx := by
    obtain rfl := List.mem_singleton.1 hx
    exact ⟨h, .refl⟩
  closed y hy := absurd hy List.not_mem_nil

theorem Flood.pop (h : Flood next start old done todo) (htodo : todo.Perm (n :: rest)) (hnodup : new.Nodup)
    (hnew : ∀ x, x ∈ new ↔ x ∈ next n ∧ ¬old x ∧ x ∉ done ++ todo) (htodo' : todo'.Perm (new ++ rest)) :
    Flood next start old (n :: done) todo' := by
  have hfound : (done ++ todo).Perm (n :: done ++ rest) :=
    (htodo.append_left done).trans (List.perm_middle)
  have hmem : ∀ x, x ∈ n :: done ++ todo' ↔ x ∈ done ++ todo ∨ x ∈ new := fun x => by
    rw [hfound.mem_iff, List.mem_append, List.mem_append, htodo'.mem_iff, List.mem_append]
    tauto
  have hn : n ∈ done ++ todo := List.mem_append_right _ (htodo.mem_iff.2 List.mem_cons_self)
  refine ⟨(hmem start).2 (.inl h.begins), ?_, fun x hx => ?_, fun y hy x hx => ?_⟩
  · have hperm : (n :: done ++ todo').Perm (new ++ (n :: done ++ rest)) :=
      (htodo'.append_left (n :: done)).trans (by
        rw [← List.append_assoc, ← List.append_assoc]
        exact List.perm_append_comm.append_right rest)
    refine hperm.nodup_iff.2 (List.nodup_append'.2 ⟨hnodup, hfound.nodup_iff.1 h.nodup, fun x hx hx' => ?_⟩)
    exact ((hnew x).1 hx).2.2 (hfound.mem_iff.2 hx')
  · rcases (hmem x).1 hx with hx | hx
    · exact h.sound x hx
    · obtain ⟨hx, hold, -⟩ := (hnew x).1 hx
      exact ⟨hold, (h.sound n hn).2.tail hx⟩
  · rw [hmem]
    rcases List.mem_cons.1 hy with rfl | hy
    · by_cases hx' : old x ∨ x ∈ done ++ todo
      · tauto
      · rw [not_or] at hx'
        exact .inr (.inr ((hnew x).2 ⟨hx, hx'⟩))
    · rcases h.closed y hy x hx with hx | hx
      · exact .inl hx
      · exact .inr (.inl hx)

/-- **A search that is over has found what can be reached**, where no old node is next to a new one. -/
theorem Flood.mem_done (h : Flood next start old done []) (hold : ∀ y x, x ∈ next y → old x → old y) (x : α) :
    x ∈ done ↔ Reach next start x := by
  have hstart := h.begins
  have hsound := h.sound
  have hclosed := h.closed
  rw [List.append_nil] at hstart hsound hclosed
  refine ⟨fun hx => (hsound x hx).2, fun hx => ?_⟩
  induction hx with
  | refl => exact hstart
  | tail _ hstep ih =>
    rcases hclosed _ ih _ hstep with hx | hx
    · exact absurd (hold _ _ hstep hx) (hsound _ ih).1
    · exact hx

/-- What has been found lies in every list that holds the start and is closed. -/
theorem Flood.length_le (h : Flood next start old done todo) {nodes : List α} (hstart : start ∈ nodes)
    (hnodes : ∀ y ∈ nodes, ∀ x ∈ next y, x ∈ nodes) : done.length + todo.length ≤ nodes.length := by
  rw [← List.length_append]
  refine (List.subperm_of_subset h.nodup (fun x hx => ?_)).length_le
  have hreach : ∀ {x}, Reach next start x → x ∈ nodes := fun h => by
    induction h with
    | refl => exact hstart
    | tail _ hstep ih => exact hnodes _ ih _ hstep
  exact hreach (h.sound x hx).2

end Worklist

/-! ## By a queue -/

section Queue

variable {α : Type} {next : α → List α} {start n x : α} {d : Nat} {done queue rest new : List α}

theorem exists_steps (h : Reach next start x) : ∃ d, Steps next start d x := by
  induction h with
  | refl => exact ⟨0, rfl⟩
  | tail _ hstep ih =>
    obtain ⟨d, hd⟩ := ih
    exact ⟨d + 1, _, hd, hstep⟩

theorem Steps.reflTransGen (h : Steps next start d x) : Reach next start x := by
  induction d generalizing x with
  | zero => exact h ▸ .refl
  | succ d ih =>
    obtain ⟨y, hy, hx⟩ := h
    exact (ih hy).tail hx

/-- A worklist that is a queue: nodes stand in it by distance, and no two are more than a step apart. -/
structure Fifo (next : α → List α) (start : α) (done queue : List α) : Prop
    extends Flood next start (fun _ => False) done queue where
  order : queue.Pairwise (fun x y => ∀ k m, Nearest next start k x → Nearest next start m y → k ≤ m)
  near : ∀ x ∈ queue, ∀ y ∈ queue, ∀ k m, Nearest next start k x → Nearest next start m y → m ≤ k + 1

theorem fifo_start : Fifo next start [] [start] where
  toFlood := flood_start id
  order := List.pairwise_singleton _ _
  near x hx y hy k m hk hm := by
    obtain rfl := List.mem_singleton.1 hx
    obtain rfl := List.mem_singleton.1 hy
    have := hm.unique (nearest_zero.2 rfl)
    omega

theorem Flood.exists_nearest {old : α → Prop} {todo : List α} (h : Flood next start old done todo) (hx : x ∈ done ++ todo) :
    ∃ d, Nearest next start d x := by
  obtain ⟨d, hd⟩ := exists_steps (h.sound x hx).2
  obtain ⟨m, -, hm⟩ := hd.exists_nearest
  exact ⟨m, hm⟩

/-- Up to the distance of the head everything has been found. -/
theorem Fifo.found (h : Fifo next start done (n :: rest)) (hn : Nearest next start d n) {m : Nat} (hm : m ≤ d)
    (hx : Nearest next start m x) : x ∈ done ++ n :: rest := by
  induction m generalizing x with
  | zero =>
    obtain rfl := nearest_zero.1 hx
    exact h.begins
  | succ m ih =>
    obtain ⟨y, hy, hxy⟩ := hx.pred
    rcases List.mem_append.1 (ih (by omega) hy) with hdone | hqueue
    · exact (h.closed y hdone x hxy).resolve_left id
    · rcases List.mem_cons.1 hqueue with rfl | hrest
      · have := hn.unique hy
        omega
      · have := (List.pairwise_cons.1 h.order).1 y hrest d m hn hy
        omega

/-- **What the head leads to for the first time is one step further.** -/
theorem Fifo.nearest_new (h : Fifo next start done (n :: rest)) (hn : Nearest next start d n) (hx : x ∈ next n)
    (hnew : x ∉ done ++ n :: rest) : Nearest next start (d + 1) x := by
  refine ⟨⟨n, hn.1, hx⟩, fun m hm hsteps => hnew ?_⟩
  obtain ⟨k, hk, hnear⟩ := hsteps.exists_nearest
  exact h.found hn (by omega) hnear

theorem Fifo.pop (h : Fifo next start done (n :: rest)) (hnodup : new.Nodup)
    (hnew : ∀ x, x ∈ new ↔ x ∈ next n ∧ x ∉ done ++ n :: rest) : Fifo next start (n :: done) (rest ++ new) := by
  obtain ⟨d, hn⟩ := h.exists_nearest (List.mem_append_right done List.mem_cons_self)
  obtain ⟨hhead, hrest⟩ := List.pairwise_cons.1 h.order
  have hnewDist : ∀ x ∈ new, ∀ m, Nearest next start m x → m = d + 1 := fun x hx m hm =>
    hm.unique (h.nearest_new hn ((hnew x).1 hx).1 ((hnew x).1 hx).2)
  have hrestDist : ∀ x ∈ rest, ∀ m, Nearest next start m x → d ≤ m ∧ m ≤ d + 1 := fun x hx m hm =>
    ⟨hhead x hx d m hn hm, h.near n List.mem_cons_self x (List.mem_cons_of_mem n hx) d m hn hm⟩
  refine ⟨h.toFlood.pop (.refl _) hnodup (fun x => by simp [hnew]) List.perm_append_comm, ?_, fun x hx y hy k m hk hm => ?_⟩
  · refine List.pairwise_append.2 ⟨hrest, List.pairwise_of_forall_mem_list ?_, fun x hx y hy k m hk hm => ?_⟩
    · intro x hx y hy k m hk hm
      rw [hnewDist x hx k hk, hnewDist y hy m hm]
    · rw [hnewDist y hy m hm]
      exact (hrestDist x hx k hk).2
  · have hk' : d ≤ k := by
      rcases List.mem_append.1 hx with hx | hx
      · exact (hrestDist x hx k hk).1
      · exact (hnewDist x hx k hk).symm ▸ Nat.le_succ d
    have hm' : m ≤ d + 1 := by
      rcases List.mem_append.1 hy with hy | hy
      · exact (hrestDist y hy m hm).2
      · exact (hnewDist y hy m hm).le
    omega

end Queue

/-! ## The way back -/

section Back

variable {α : Type} {next : α → List α} {start x : α} {found : α → Prop} {cameFrom : α → Option α} {d : Nat}

/-- Every node that has been found has its origin, one step nearer. -/
def Origins (next : α → List α) (start : α) (found : α → Prop) (cameFrom : α → Option α) : Prop :=
  ∀ x, found x → (x = start ∧ cameFrom x = none) ∨
    ∃ y d, cameFrom x = some y ∧ found y ∧ x ∈ next y ∧ Nearest next start d y ∧ Nearest next start (d + 1) x

/-- Origins, followed from a node. -/
def unwind (cameFrom : α → Option α) : Nat → α → List α → Option (List α)
  | 0, _, _ => none
  | fuel + 1, cur, chain =>
    match cameFrom cur with
    | none => some chain
    | some child => unwind cameFrom fuel child (chain ++ [child])

/-- **Followed back, origins are a shortest chain.** -/
theorem Origins.unwind (h : Origins next start found cameFrom) (hx : found x) (hd : Nearest next start d x) :
    ∃ l, Chain next start x l ∧ l.length = d + 1 ∧ ∀ fuel chain, d < fuel →
      Search.unwind cameFrom fuel x chain = some (chain ++ l.reverse.tail) := by
  induction d generalizing x with
  | zero =>
    obtain rfl := nearest_zero.1 hd
    refine ⟨[x], ⟨rfl, rfl, List.isChain_singleton x⟩, rfl, fun fuel chain hfuel => ?_⟩
    obtain ⟨fuel, rfl⟩ := Nat.exists_eq_add_of_lt hfuel
    rcases h x hx with ⟨-, hnone⟩ | ⟨y, d, -, -, -, -, hfar⟩
    · simp [Search.unwind, hnone]
    · exact absurd (hfar.unique hd) (Nat.succ_ne_zero d)
  | succ d ih =>
    rcases h x hx with ⟨rfl, -⟩ | ⟨y, k, hfrom, hy, hxy, hnear, hfar⟩
    · exact absurd (hd.unique (nearest_zero.2 rfl)) (Nat.succ_ne_zero d)
    · obtain rfl : k = d := Nat.succ.inj (hfar.unique hd)
      obtain ⟨l, hchain, hlen, hback⟩ := ih hy hnear
      refine ⟨l ++ [x], hchain.concat hxy, by rw [List.length_append, hlen]; rfl, fun fuel chain hfuel => ?_⟩
      obtain ⟨fuel, rfl⟩ : ∃ f, fuel = f + 1 := ⟨fuel - 1, by omega⟩
      have hlast : l.reverse = y :: l.reverse.tail := by
        rw [List.cons_head?_tail (by rw [Option.mem_def, List.head?_reverse, hchain.last])]
      rw [Search.unwind, hfrom]
      dsimp only
      rw [hback fuel (chain ++ [y]) (by omega), List.reverse_append, List.reverse_singleton, List.singleton_append,
        List.tail_cons, List.append_assoc, List.singleton_append, ← hlast]

/-- A new node, with its origin. -/
theorem Origins.extend (h : Origins next start found cameFrom) {found' : α → Prop} {cameFrom' : α → Option α} {y : α}
    (hsame : ∀ x, found x → cameFrom' x = cameFrom x) (hy : found y) (hd : Nearest next start d y)
    (hnew : ∀ x, found' x → found x ∨ cameFrom' x = some y ∧ x ∈ next y ∧ Nearest next start (d + 1) x)
    (hmono : ∀ x, found x → found' x) : Origins next start found' cameFrom' := by
  intro x hx
  rcases hnew x hx with hold | ⟨hfrom, hxy, hfar⟩
  · rw [hsame x hold]
    exact (h x hold).imp_right (fun ⟨z, k, hfrom, hz, hrest⟩ => ⟨z, k, hfrom, hmono z hz, hrest⟩)
  · exact .inr ⟨y, d, hfrom, hmono y hy, hxy, hd, hfar⟩

end Back

/-! ## Graphs that lead to the same nodes -/

section Congr

variable {α : Type} {next next' : α → List α} {start x : α} {n : Nat}

theorem steps_congr (h : ∀ y x, x ∈ next y ↔ x ∈ next' y) : Steps next start n x ↔ Steps next' start n x := by
  induction n generalizing x with
  | zero => exact Iff.rfl
  | succ n ih => exact exists_congr (fun y => and_congr ih (h y x))

theorem nearest_congr (h : ∀ y x, x ∈ next y ↔ x ∈ next' y) : Nearest next start n x ↔ Nearest next' start n x :=
  and_congr (steps_congr h) (forall₂_congr (fun _ _ => not_congr (steps_congr h)))

end Congr

end Search
end Heraclitus
