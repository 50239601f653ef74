import Mathlib.Algebra.BigOperators.Group.List.Basic
import Mathlib.Algebra.Ring.Nat
import Mathlib.Data.List.Induction
import Heraclitus.Lib.Search
import Heraclitus.TemporalAdjacency
/-!
# Communities — `analyze` of the temporal graph (`heraclitus-index-graph/src/temporal.rs`)

A search with a stack from every node that has no label yet, in the order of the nodes: communities are connected components, each
under its least node.  Degrees are counted in 32 bits.
-/
namespace Heraclitus
namespace Temporal

open Search (Reach Flood fresh)

/-- `x >= y` on `f32`. -/
def f32Ge (x y : F32) : Bool := !isNan x && !isNan y && decide (placeOf y ≤ placeOf x)

structure Topology where
  nodes : SortedMap Str Unit := .empty
  adj : SortedMap Str (SortedMap Str Unit) := .empty
  degree : SortedMap Str Nat := .empty

/-- `entry(from).or_default().insert(to)`. -/
def join (adj : SortedMap Str (SortedMap Str Unit)) (x y : Str) : SortedMap Str (SortedMap Str Unit) :=
  adj.alter x (fun ys => some ((ys.getD .empty).insert y ()))

/-- `+= 1` on a `u32`, which wraps. -/
def countEnd (degree : SortedMap Str Nat) (x : Str) : SortedMap Str Nat :=
  degree.alter x (fun d => some ((d.getD 0 + 1) % 2 ^ 32))

def Topology.add (t : Topology) (e : Edge) : Topology where
  nodes := (t.nodes.insert e.from_ ()).insert e.to_ ()
  adj := join (join t.adj e.from_ e.to_) e.to_ e.from_
  degree := countEnd (countEnd t.degree e.from_) e.to_

def Topology.neighbors (t : Topology) (x : Str) : List Str := ((t.adj.get? x).getD .empty).entries.map Prod.fst

/-- What the loop over the neighbors does with one. -/
def label (seed : Str) (st : SortedMap Str Str × List Str) (x : Str) : SortedMap Str Str × List Str :=
  if (st.1.get? x).isSome then st else (st.1.insert x seed, x :: st.2)

/-- `while let Some(n) = stack.pop()`. -/
def flood (neighbors : Str → List Str) (seed : Str) : Nat → SortedMap Str Str × List Str → Option (SortedMap Str Str)
  | 0, _ => none
  | _ + 1, (community, []) => some community
  | fuel + 1, (community, n :: stack) => flood neighbors seed fuel ((neighbors n).foldl (label seed) (community, stack))

/-- One seed. -/
def sow (neighbors : Str → List Str) (fuel : Nat) (community : SortedMap Str Str) (seed : Str) : Option (SortedMap Str Str) :=
  if (community.get? seed).isSome then some community
  else flood neighbors seed fuel (community.insert seed seed, [seed])

/-- The communities, and of the metrics the degrees. -/
structure GraphAnalytics where
  community : SortedMap Str Str
  degree : SortedMap Str Nat

namespace TemporalGraph

/-- The edges that are alive and believed. -/
def trusted (env : Env) (g : TemporalGraph) (asOf : Nat) (minConfidence : F32) : List Edge :=
  (g.edges.entries.map Prod.snd).filter (fun e => e.aliveAt asOf && f32Ge (g.beliefAt env e.id asOf) minConfidence)

def analyze (env : Env) (g : TemporalGraph) (fuel asOf : Nat) (minConfidence : F32) : Option GraphAnalytics :=
  let t := (g.trusted env asOf minConfidence).foldl Topology.add {}
  let nodes := t.nodes.entries.map Prod.fst
  (nodes.foldlM (sow t.neighbors fuel) .empty).map (fun community =>
    { community := community
      degree := nodes.foldl (fun m node => m.insert node ((t.degree.get? node).getD 0)) .empty })

end TemporalGraph

/-! ## What is claimed -/

def Edge.Joins (e : Edge) (x y : Str) : Prop := e.from_ = x ∧ e.to_ = y

/-- Connected by some of the edges, whichever way they point. -/
def Connected (edges : List Edge) : Str → Str → Prop := Relation.EqvGen (fun x y => ∃ e ∈ edges, e.Joins x y)

/-- **The communities are the connected components.** -/
structure Components (edges : List Edge) (community : SortedMap Str Str) : Prop where
  nodes : ∀ x, (community.get? x).isSome ↔ ∃ e ∈ edges, x = e.from_ ∨ x = e.to_
  same : ∀ x y c d, community.get? x = some c → community.get? y = some d → (c = d ↔ Connected edges x y)
  least : ∀ x c, community.get? x = some c → Connected edges x c ∧ ∀ y, Connected edges x y → c ≤ y

def ends (edges : List Edge) : List Str := edges.flatMap (fun e => [e.from_, e.to_])

variable {edges : List Edge} {t : Topology} {x y : Str}

/-! ## The topology -/

theorem topology_concat (edges : List Edge) (e : Edge) :
    (edges ++ [e]).foldl Topology.add {} = (edges.foldl Topology.add {}).add e := by
  rw [List.foldl_append]
  rfl

theorem mem_join {adj : SortedMap Str (SortedMap Str Unit)} {a b : Str} :
    y ∈ (((join adj a b).get? x).getD .empty).entries.map Prod.fst ↔
      (a = x ∧ b = y) ∨ y ∈ ((adj.get? x).getD .empty).entries.map Prod.fst := by
  have hkeys : ∀ {m : SortedMap Str Unit}, y ∈ m.entries.map Prod.fst ↔ m.get? y = some () := fun {m} => by
    rw [List.mem_map, SortedMap.get?_eq_some]
    exact ⟨fun ⟨⟨y', ()⟩, h, heq⟩ => heq ▸ h, fun h => ⟨(y, ()), h, rfl⟩⟩
  rw [hkeys, hkeys, join, SortedMap.get?_alter]
  by_cases hx : x = a
  · subst hx
    rw [if_pos rfl, Option.getD_some, SortedMap.get?_insert]
    by_cases hy : y = b
    · simp [hy]
    · simp [hy, Ne.symm hy]
  · rw [if_neg hx]
    simp [Ne.symm hx]

/-- The spec of the topology of some edges. -/
structure Topology.Of (edges : List Edge) (t : Topology) : Prop where
  nodes : ∀ x, (t.nodes.get? x).isSome ↔ x ∈ ends edges
  neighbors : ∀ x y, y ∈ t.neighbors x ↔ ∃ e ∈ edges, e.Joins x y ∨ e.Joins y x
  degree : ∀ x, (t.degree.get? x).getD 0 = (ends edges).count x % 2 ^ 32

theorem getD_countEnd (degree : SortedMap Str Nat) (a : Str) :
    ((countEnd degree a).get? x).getD 0 = if x = a then ((degree.get? x).getD 0 + 1) % 2 ^ 32 else (degree.get? x).getD 0 := by
  rw [countEnd, SortedMap.get?_alter]
  by_cases hx : x = a
  · subst hx
    rw [if_pos rfl, if_pos rfl]
    rfl
  · rw [if_neg hx, if_neg hx]

theorem topology_of (edges : List Edge) : (edges.foldl Topology.add {}).Of edges := by
  induction edges using List.reverseRecOn with
  | nil => exact ⟨fun x => by simp [ends], fun x y => ⟨fun h => absurd h List.not_mem_nil, fun ⟨e, he, _⟩ => absurd he List.not_mem_nil⟩, fun x => by simp [ends]⟩
  | append_singleton edges e ih =>
    have hends : ends (edges ++ [e]) = ends edges ++ [e.from_, e.to_] := by simp [ends]
    rw [topology_concat, Topology.add]
    refine ⟨fun x => ?_, fun x y => ?_, fun x => ?_⟩
    · rw [hends, List.mem_append, ← ih.nodes]
      dsimp only
      rw [SortedMap.get?_insert, SortedMap.get?_insert]
      by_cases hto : x = e.to_
      · simp [hto]
      · by_cases hfrom : x = e.from_
        · simp [hfrom]
        · simp [hto, hfrom]
    · have hold := ih.neighbors x y
      unfold Topology.neighbors at hold ⊢
      rw [mem_join, mem_join, hold]
      simp only [List.mem_append, List.mem_singleton, or_and_right, exists_or, exists_eq_left, Edge.Joins]
      rw [and_comm (a := e.to_ = x), or_left_comm, or_comm (a := e.from_ = y ∧ e.to_ = x), or_left_comm (b := ∃ e, e ∈ edges ∧ _)]
    · rw [hends, List.count_append]
      dsimp only
      rw [getD_countEnd, getD_countEnd, ih.degree, List.count_cons, List.count_singleton]
      by_cases hto : x = e.to_
      · by_cases hfrom : x = e.from_
        · rw [if_pos hto, if_pos hfrom, if_pos (beq_iff_eq.2 hto.symm), if_pos (beq_iff_eq.2 hfrom.symm)]
          omega
        · rw [if_pos hto, if_neg hfrom, if_pos (beq_iff_eq.2 hto.symm), if_neg (by simpa using Ne.symm hfrom)]
          omega
      · by_cases hfrom : x = e.from_
        · rw [if_neg hto, if_pos hfrom, if_neg (by simpa using Ne.symm hto), if_pos (beq_iff_eq.2 hfrom.symm)]
          omega
        · rw [if_neg hto, if_neg hfrom, if_neg (by simpa using Ne.symm hto), if_neg (by simpa using Ne.symm hfrom),
            Nat.add_zero]

/-! ## Connections -/

/-- To be connected is to be reached over neighbors. -/
theorem reach_iff {neighbors : Str → List Str} (h : ∀ x y, y ∈ neighbors x ↔ ∃ e ∈ edges, e.Joins x y ∨ e.Joins y x) :
    Reach neighbors x y ↔ Connected edges x y := by
  have : Std.Symm (fun a b => b ∈ neighbors a) := ⟨fun a b hb => by
    rw [h] at hb ⊢
    simpa only [or_comm] using hb⟩
  constructor
  · intro hreach
    induction hreach with
    | refl => exact .refl x
    | tail _ hstep ih =>
      obtain ⟨e, he, hjoin⟩ := (h _ _).1 hstep
      rcases hjoin with hjoin | hjoin
      · exact .trans _ _ _ ih (.rel _ _ ⟨e, he, hjoin⟩)
      · exact .trans _ _ _ ih (.symm _ _ (.rel _ _ ⟨e, he, hjoin⟩))
  · intro hconn
    induction hconn with
    | rel a b hab =>
      obtain ⟨e, he, hjoin⟩ := hab
      exact .single ((h a b).2 ⟨e, he, .inl hjoin⟩)
    | refl a => exact .refl
    | symm a b _ ih => exact Std.Symm.symm _ _ ih
    | trans a b c _ _ ih₁ ih₂ => exact ih₁.trans ih₂

/-! ## The search from a seed -/

section Search

variable {neighbors : Str → List Str} {seed : Str} {community c₀ : SortedMap Str Str} {stack done nodes : List Str}

theorem foldl_label (seed : Str) (xs : List Str) (community : SortedMap Str Str) (stack : List Str) :
    (xs.foldl (label seed) (community, stack)).2 = (fresh (fun x => (community.get? x).isSome) xs).reverse ++ stack ∧
    ∀ x, (xs.foldl (label seed) (community, stack)).1.get? x
      = if x ∈ fresh (fun x => (community.get? x).isSome) xs then some seed else community.get? x := by
  induction xs generalizing community stack with
  | nil => exact ⟨rfl, fun x => rfl⟩
  | cons y xs ih =>
    rw [List.foldl_cons, label, fresh]
    dsimp only
    by_cases hy : (community.get? y).isSome = true
    · rw [if_pos hy, if_pos hy]
      exact ih community stack
    · rw [if_neg hy, if_neg hy]
      have hseen : (fun x => ((community.insert y seed).get? x).isSome)
          = fun x => (community.get? x).isSome || decide (x = y) := by
        funext x
        rw [SortedMap.get?_insert]
        by_cases hx : x = y <;> simp [hx]
      obtain ⟨hstack, hget⟩ := ih (community.insert y seed) (y :: stack)
      rw [hseen] at hstack hget
      refine ⟨by rw [hstack]; simp, fun x => ?_⟩
      rw [hget, SortedMap.get?_insert]
      by_cases hx : x = y
      · simp [hx]
      · simp [hx]

/-- **From a seed the search labels what can be reached**, and nothing else. -/
theorem flood_spec (hseed : seed ∈ nodes) (hnodes : ∀ y ∈ nodes, ∀ x ∈ neighbors y, x ∈ nodes)
    (hold : ∀ y x, x ∈ neighbors y → (c₀.get? x).isSome = true → (c₀.get? y).isSome = true) :
    ∀ (fuel : Nat) {community : SortedMap Str Str} {done stack : List Str},
    Flood neighbors seed (fun x => (c₀.get? x).isSome = true) done stack →
    (∀ x, community.get? x = if x ∈ done ++ stack then some seed else c₀.get? x) → nodes.length < done.length + fuel →
    ∃ c, flood neighbors seed fuel (community, stack) = some c ∧ ∀ x,
      (Reach neighbors seed x → c.get? x = some seed) ∧
      (¬Reach neighbors seed x → c.get? x = c₀.get? x)
  | 0, _, _, _, h, _, hfuel => by
    have := h.length_le hseed hnodes
    omega
  | fuel + 1, community, done, [], h, hget, _ => by
    refine ⟨community, rfl, fun x => ?_⟩
    rw [hget, List.append_nil, ← h.mem_done hold x]
    exact ⟨fun hx => if_pos hx, fun hx => if_neg hx⟩
  | fuel + 1, community, done, n :: stack, h, hget, hfuel => by
    rw [flood]
    obtain ⟨hstack, hget'⟩ := foldl_label seed (neighbors n) community stack
    generalize (neighbors n).foldl (label seed) (community, stack) = st at hstack hget'
    obtain ⟨community', stack'⟩ := st
    obtain rfl : stack' = _ := hstack
    generalize hfresh : fresh (fun x => (community.get? x).isSome) (neighbors n) = new at hget'
    have hmem : ∀ x, x ∈ new ↔ x ∈ neighbors n ∧ ¬(c₀.get? x).isSome = true ∧ x ∉ done ++ n :: stack := fun x => by
      rw [← hfresh, Search.mem_fresh, hget]
      by_cases hx : x ∈ done ++ n :: stack
      · simp [hx]
      · simp [hx]
    refine flood_spec hseed hnodes hold fuel (h.pop (.refl _) (hfresh ▸ Search.nodup_fresh) hmem
      ((List.reverse_perm new).append_right stack)) (fun x => ?_) (by rw [List.length_cons]; omega)
    rw [hget', hget]
    simp only [List.mem_append, List.mem_cons, List.mem_reverse]
    by_cases hx : x ∈ new
    · simp [hx]
    · simp only [hx, false_or, if_false]
      exact if_congr (by tauto) rfl rfl

/-- What the seeds up to one have labelled. -/
structure Labelled (neighbors : Str → List Str) (seeds : List Str) (c : SortedMap Str Str) : Prop where
  nodes : ∀ x, (c.get? x).isSome = true ↔ ∃ s ∈ seeds, Reach neighbors s x
  least : ∀ x l, c.get? x = some l → l ∈ seeds ∧ Reach neighbors l x ∧
    ∀ s ∈ seeds, Reach neighbors s x → l ≤ s

/-- **One more seed.** -/
theorem Labelled.sow {seeds : List Str} {fuel : Nat} (h : Labelled neighbors seeds community)
    (hsymm : ∀ x y, Reach neighbors x y → Reach neighbors y x) (hlast : ∀ s ∈ seeds, s < seed) (hseed : seed ∈ nodes) (hnodes : ∀ y ∈ nodes, ∀ x ∈ neighbors y, x ∈ nodes)
    (hfuel : nodes.length < fuel) :
    ∃ c, sow neighbors fuel community seed = some c ∧ Labelled neighbors (seeds ++ [seed]) c := by
  unfold Temporal.sow
  by_cases hknown : (community.get? seed).isSome = true
  · rw [if_pos hknown]
    obtain ⟨s₀, hs₀, hreach₀⟩ := (h.nodes seed).1 hknown
    refine ⟨community, rfl, fun x => ?_, fun x l hl => ?_⟩
    · rw [h.nodes]
      constructor
      · rintro ⟨s, hs, hreach⟩
        exact ⟨s, List.mem_append_left _ hs, hreach⟩
      · rintro ⟨s, hs, hreach⟩
        rcases List.mem_append.1 hs with hs | hs
        · exact ⟨s, hs, hreach⟩
        · obtain rfl := List.mem_singleton.1 hs
          exact ⟨s₀, hs₀, hreach₀.trans hreach⟩
    · obtain ⟨hmem, hreach, hleast⟩ := h.least x l hl
      refine ⟨List.mem_append_left _ hmem, hreach, fun s hs hsx => ?_⟩
      rcases List.mem_append.1 hs with hs | hs
      · exact hleast s hs hsx
      · exact List.mem_singleton.1 hs ▸ (hlast l hmem).le
  · rw [if_neg hknown]
    have hold : ∀ y x, x ∈ neighbors y → (community.get? x).isSome = true → (community.get? y).isSome = true := by
      intro y x hxy hx
      obtain ⟨s, hs, hreach⟩ := (h.nodes x).1 hx
      exact (h.nodes y).2 ⟨s, hs, hreach.trans (hsymm _ _ (.single hxy))⟩
    have hstart : ∀ x, (community.insert seed seed).get? x = if x ∈ ([] : List Str) ++ [seed] then some seed else community.get? x := by
      intro x
      rw [SortedMap.get?_insert]
      simp
    obtain ⟨c, hc, hget⟩ := flood_spec hseed hnodes hold fuel (Search.flood_start hknown) hstart (by simpa using hfuel)
    have hnew : ∀ s ∈ seeds, ∀ x, Reach neighbors s x →
        ¬Reach neighbors seed x := fun s hs x hsx hseedx =>
      hknown ((h.nodes seed).2 ⟨s, hs, hsx.trans (hsymm _ _ hseedx)⟩)
    refine ⟨c, hc, fun x => ?_, fun x l hl => ?_⟩
    · by_cases hx : Reach neighbors seed x
      · rw [(hget x).1 hx]
        exact iff_of_true rfl ⟨seed, by simp, hx⟩
      · rw [(hget x).2 hx, h.nodes]
        constructor
        · rintro ⟨s, hs, hreach⟩
          exact ⟨s, List.mem_append_left _ hs, hreach⟩
        · rintro ⟨s, hs, hreach⟩
          rcases List.mem_append.1 hs with hs | hs
          · exact ⟨s, hs, hreach⟩
          · exact absurd (List.mem_singleton.1 hs ▸ hreach) hx
    · by_cases hx : Reach neighbors seed x
      · rw [(hget x).1 hx] at hl
        cases hl
        refine ⟨by simp, hx, fun s hs hsx => ?_⟩
        rcases List.mem_append.1 hs with hs | hs
        · exact absurd hx (hnew s hs x hsx)
        · exact (List.mem_singleton.1 hs).ge
      · rw [(hget x).2 hx] at hl
        obtain ⟨hmem, hreach, hleast⟩ := h.least x l hl
        refine ⟨List.mem_append_left _ hmem, hreach, fun s hs hsx => ?_⟩
        rcases List.mem_append.1 hs with hs | hs
        · exact hleast s hs hsx
        · exact absurd (List.mem_singleton.1 hs ▸ hsx) hx

/-- **All seeds, in order.** -/
theorem foldlM_sow {fuel : Nat}
    (hsymm : ∀ x y, Reach neighbors x y → Reach neighbors y x)
    (hnodes : ∀ y ∈ nodes, ∀ x ∈ neighbors y, x ∈ nodes) (hfuel : nodes.length < fuel) :
    ∀ {seeds rest : List Str} {community : SortedMap Str Str}, (seeds ++ rest).Pairwise (· < ·) → rest ⊆ nodes →
    Labelled neighbors seeds community →
    ∃ c, rest.foldlM (sow neighbors fuel) community = some c ∧ Labelled neighbors (seeds ++ rest) c := by
  intro seeds rest
  induction rest generalizing seeds with
  | nil =>
    intro community _ _ h
    exact ⟨community, rfl, by rwa [List.append_nil]⟩
  | cons seed rest ih =>
    intro community hsorted hsub h
    have hlast : ∀ s ∈ seeds, s < seed := fun s hs => (List.pairwise_append.1 hsorted).2.2 s hs seed List.mem_cons_self
    obtain ⟨c, hc, hlabelled⟩ := h.sow hsymm hlast (hsub List.mem_cons_self) hnodes hfuel
    rw [List.append_cons] at hsorted ⊢
    rw [List.foldlM_cons, hc]
    exact ih hsorted (fun s hs => hsub (List.mem_cons_of_mem seed hs)) hlabelled

end Search

/-! ## The result -/

theorem mem_ends : x ∈ ends edges ↔ ∃ e ∈ edges, x = e.from_ ∨ x = e.to_ := by
  simp [ends]

theorem Topology.Of.mem_nodes (h : t.Of edges) : x ∈ t.nodes.entries.map Prod.fst ↔ x ∈ ends edges := by
  rw [← h.nodes, List.mem_map, Option.isSome_iff_exists]
  constructor
  · rintro ⟨⟨x, u⟩, hmem, rfl⟩
    exact ⟨u, SortedMap.get?_eq_some.2 hmem⟩
  · rintro ⟨u, hget⟩
    exact ⟨(x, u), SortedMap.get?_eq_some.1 hget, rfl⟩

theorem Topology.sorted_nodes (t : Topology) : (t.nodes.entries.map Prod.fst).Pairwise (· < ·) :=
  List.pairwise_map.2 t.nodes.sorted

/-- **The communities are the components.** -/
theorem components_of (h : t.Of edges) {fuel : Nat} (hfuel : (t.nodes.entries.map Prod.fst).length < fuel) :
    ∃ c, (t.nodes.entries.map Prod.fst).foldlM (sow t.neighbors fuel) .empty = some c ∧ Components edges c := by
  have hreach : ∀ x y, Reach t.neighbors x y ↔ Connected edges x y := fun x y => reach_iff h.neighbors
  have hsymm : ∀ x y, Reach t.neighbors x y → Reach t.neighbors y x := fun x y hxy => by
    rw [hreach] at hxy ⊢
    exact .symm _ _ hxy
  have hnodes : ∀ y ∈ t.nodes.entries.map Prod.fst, ∀ x ∈ t.neighbors y, x ∈ t.nodes.entries.map Prod.fst := by
    intro y _ x hx
    rw [h.mem_nodes, mem_ends]
    obtain ⟨e, he, hjoin⟩ := (h.neighbors y x).1 hx
    rcases hjoin with ⟨-, rfl⟩ | ⟨rfl, -⟩
    · exact ⟨e, he, .inr rfl⟩
    · exact ⟨e, he, .inl rfl⟩
  have hclosed : ∀ {x y}, Reach t.neighbors x y → x ∈ t.nodes.entries.map Prod.fst → y ∈ t.nodes.entries.map Prod.fst := by
    intro x y hxy hx
    induction hxy with
    | refl => exact hx
    | tail _ hstep ih => exact hnodes _ ih _ hstep
  have hempty : Labelled t.neighbors [] .empty := ⟨fun x => by simp, fun x l hl => by cases hl⟩
  obtain ⟨c, hc, hnodesOf, hleast⟩ := foldlM_sow hsymm hnodes hfuel (by exact t.sorted_nodes) (List.Subset.refl _) hempty
  rw [List.nil_append] at hnodesOf hleast
  have hin : ∀ x l, c.get? x = some l → x ∈ t.nodes.entries.map Prod.fst := fun x l hl => by
    obtain ⟨hmem, hlx, -⟩ := hleast x l hl
    exact hclosed hlx hmem
  refine ⟨c, hc, fun x => ?_, fun x y l m hl hm => ?_, fun x l hl => ?_⟩
  · rw [hnodesOf, ← mem_ends, ← h.mem_nodes]
    exact ⟨fun ⟨s, hs, hsx⟩ => hclosed hsx hs, fun hx => ⟨x, hx, .refl⟩⟩
  · obtain ⟨hlmem, hlx, hlleast⟩ := hleast x l hl
    obtain ⟨hmmem, hmy, hmleast⟩ := hleast y m hm
    rw [← hreach]
    constructor
    · rintro rfl
      exact (hsymm _ _ hlx).trans hmy
    · intro hxy
      exact le_antisymm (hlleast m hmmem (hmy.trans (hsymm _ _ hxy))) (hmleast l hlmem (hlx.trans hxy))
  · obtain ⟨-, hlx, hlleast⟩ := hleast x l hl
    refine ⟨(hreach x l).1 (hsymm _ _ hlx), fun y hy => ?_⟩
    have hxy := (hreach x y).2 hy
    exact hlleast y (hclosed hxy (hin x l hl)) (hsymm _ _ hxy)

/-! ## Degrees -/

theorem sum_eq_iff_of_le {α : Type} {f g : α → Nat} : ∀ {l : List α}, (∀ x ∈ l, f x ≤ g x) →
    (l.map f).sum ≤ (l.map g).sum ∧ ((l.map f).sum = (l.map g).sum ↔ ∀ x ∈ l, f x = g x)
  | [], _ => by simp
  | x :: l, h => by
    have hx := h x List.mem_cons_self
    obtain ⟨hle, heq⟩ := sum_eq_iff_of_le (fun y hy => h y (List.mem_cons_of_mem x hy))
    rw [List.map_cons, List.map_cons, List.sum_cons, List.sum_cons, List.forall_mem_cons, ← heq]
    omega

/-- Over all its elements, a list counts itself. -/
theorem sum_count {α : Type} [BEq α] [LawfulBEq α] {nodes : List α} (hnodup : nodes.Nodup) : ∀ {l : List α}, l ⊆ nodes →
    (nodes.map (fun x => l.count x)).sum = l.length
  | [], _ => by simp
  | a :: l, h => by
    have hone : ∀ nodes : List α, (nodes.map (fun x => if a == x then 1 else 0)).sum = nodes.count a := fun nodes => by
      induction nodes with
      | nil => rfl
      | cons x nodes ih =>
        rw [List.map_cons, List.sum_cons, ih, List.count_cons, Nat.add_comm]
        by_cases hx : a = x
        · simp [hx]
        · simp [hx, Ne.symm hx]
    simp only [List.count_cons]
    rw [List.sum_map_add, hone, sum_count hnodup (fun x hx => h (List.mem_cons_of_mem a hx)),
      List.count_eq_one_of_mem hnodup (h List.mem_cons_self), List.length_cons]

theorem length_ends (edges : List Edge) : (ends edges).length = 2 * edges.length := by
  induction edges with
  | nil => rfl
  | cons e edges ih =>
    rw [ends, List.flatMap_cons, List.length_append]
    show 2 + (ends edges).length = _
    rw [ih, List.length_cons]
    omega

/-- **The degrees add up just when none is too large for its counter.** -/
theorem sum_degrees (h : t.Of edges) :
    (((t.nodes.entries.map Prod.fst).map (fun x => (t.degree.get? x).getD 0)).sum = 2 * edges.length) ↔
      ∀ x, (ends edges).count x < 2 ^ 32 := by
  have hnodup : (t.nodes.entries.map Prod.fst).Nodup := t.sorted_nodes.imp (fun hlt => ne_of_lt hlt)
  have htotal : ((t.nodes.entries.map Prod.fst).map (fun x => (ends edges).count x)).sum = 2 * edges.length := by
    rw [sum_count hnodup (fun x hx => h.mem_nodes.2 hx), length_ends]
  rw [← htotal, (sum_eq_iff_of_le (fun x _ => (h.degree x).trans_le (Nat.mod_le _ _))).2]
  constructor
  · intro hall x
    by_cases hx : x ∈ ends edges
    · have := hall x (h.mem_nodes.2 hx)
      rw [h.degree] at this
      exact this ▸ Nat.mod_lt _ (by decide)
    · rw [List.count_eq_zero_of_not_mem hx]
      decide
  · intro hall x _
    rw [h.degree, Nat.mod_eq_of_lt (hall x)]

theorem sum_inserts (f : Str → Nat) {nodes : List Str} (h : nodes.Pairwise (· < ·)) :
    ((nodes.foldl (fun m node => m.insert node (f node)) (.empty : SortedMap Str Nat)).entries.map Prod.snd).sum = (nodes.map f).sum := by
  have hsorted : (nodes.map (fun x => (x, f x))).Pairwise (fun a b => a.1 < b.1) := List.pairwise_map.2 h
  have hmap : nodes.foldl (fun m node => m.insert node (f node)) (.empty : SortedMap Str Nat)
      = ⟨nodes.map (fun x => (x, f x)), hsorted⟩ := by
    ext1 k
    have hget := SortedMap.get?_foldl_insert k (nodes.map (fun x => (x, f x))) .empty hsorted
    rw [List.foldl_map] at hget
    rw [hget, SortedMap.get?_empty, Option.or_none]
    rfl
  rw [hmap]
  simp [Function.comp_def]

/-! ## What `analyze` returns -/

theorem analyze_spec (env : Env) (g : TemporalGraph) (asOf : Nat) (minConfidence : F32) :
    ∃ bound, ∀ fuel > bound, ∃ a, g.analyze env fuel asOf minConfidence = some a ∧
      Components (g.trusted env asOf minConfidence) a.community ∧
      ((a.degree.entries.map Prod.snd).sum = 2 * (g.trusted env asOf minConfidence).length ↔
        ∀ x, (ends (g.trusted env asOf minConfidence)).count x < 2 ^ 32) := by
  have hof := topology_of (g.trusted env asOf minConfidence)
  unfold TemporalGraph.analyze
  dsimp only
  generalize (g.trusted env asOf minConfidence).foldl Topology.add {} = t at hof
  refine ⟨(t.nodes.entries.map Prod.fst).length, fun fuel hfuel => ?_⟩
  obtain ⟨c, hc, hcomponents⟩ := components_of hof hfuel
  rw [hc]
  exact ⟨_, rfl, hcomponents, by rw [← sum_degrees hof, ← sum_inserts _ t.sorted_nodes]⟩

/-- **The analysis is exact**: components, and degrees that add up to twice the edges. -/
structure Analyzed (edges : List Edge) (a : GraphAnalytics) : Prop where
  components : Components edges a.community
  degrees : (a.degree.entries.map Prod.snd).sum = 2 * edges.length

/-- **When the analysis is exact**: it ends, the communities are always the components, and the degrees add up exactly when no node
has 2^32 ends of edges. -/
theorem analyzed_iff (env : Env) (g : TemporalGraph) (asOf : Nat) (minConfidence : F32) :
    ∃ bound, ∀ fuel > bound, ∃ a, g.analyze env fuel asOf minConfidence = some a ∧
      Components (g.trusted env asOf minConfidence) a.community ∧
      (Analyzed (g.trusted env asOf minConfidence) a ↔ ∀ x, (ends (g.trusted env asOf minConfidence)).count x < 2 ^ 32) := by
  obtain ⟨bound, h⟩ := analyze_spec env g asOf minConfidence
  refine ⟨bound, fun fuel hfuel => ?_⟩
  obtain ⟨a, ha, hcomponents, hdegrees⟩ := h fuel hfuel
  exact ⟨a, ha, hcomponents, ⟨fun h => hdegrees.1 h.degrees, fun h => ⟨hcomponents, hdegrees.2 h⟩⟩⟩

/-- The edge from a hub to the `i`th node. -/
def spoke (i : Nat) : Edge where
  id := edgeId "h".toList (List.replicate i 'a') .pagou
  from_ := "h".toList
  to_ := List.replicate i 'a'
  etype := .pagou
  validFromLsn := 0
  validToLsn := none
  worldValidFrom := none
  worldValidTo := none
  closedIntervals := []

def hubGraph (n : Nat) : TemporalGraph := (List.range n).foldl (fun g i => g.upsertEdge (spoke i) []) {}

def countingEnv : Env := { parseF32 := fun _ => none, ulidText := fun _ => [], aggregate := fun _ => one, weight := fun b _ _ => b }

theorem spoke_id_injective {i j : Nat} (h : (spoke i).id = (spoke j).id) : i = j := by
  have hlen := congrArg List.length h
  simp only [spoke, edgeId, List.length_append, List.length_replicate] at hlen
  omega

theorem hubGraph_succ (n : Nat) : hubGraph (n + 1) = (hubGraph n).upsertEdge (spoke n) [] := by
  rw [hubGraph, List.range_succ, List.foldl_append]
  rfl

theorem get?_hubGraph (n : Nat) {id : Str} {e : Edge} : (hubGraph n).edges.get? id = some e ↔ ∃ i < n, e = spoke i ∧ id = e.id := by
  induction n generalizing id e with
  | zero => simp [hubGraph]
  | succ n ih =>
    have hnew : (hubGraph n).edges.get? (spoke n).id = none := by
      rw [Option.eq_none_iff_forall_ne_some]
      intro e he
      obtain ⟨i, hi, rfl, hid⟩ := ih.1 he
      exact absurd (spoke_id_injective hid) (Nat.ne_of_gt hi)
    rw [hubGraph_succ, TemporalGraph.edges_upsertEdge, hnew, Option.map_none, Option.getD_none, SortedMap.get?_insert]
    by_cases hid : id = (spoke n).id
    · rw [if_pos hid, Option.some.injEq]
      constructor
      · rintro rfl
        exact ⟨n, Nat.lt_succ_self n, rfl, hid⟩
      · rintro ⟨i, -, rfl, hid'⟩
        rw [spoke_id_injective (hid.symm.trans hid')]
    · rw [if_neg hid, ih]
      constructor
      · rintro ⟨i, hi, heq⟩
        exact ⟨i, Nat.lt_succ_of_lt hi, heq⟩
      · rintro ⟨i, hi, rfl, hid'⟩
        rcases Nat.lt_succ_iff_lt_or_eq.1 hi with hi | rfl
        · exact ⟨i, hi, rfl, hid'⟩
        · exact absurd hid' hid

theorem beliefAt_hubGraph (n : Nat) (id : Str) (t : Nat) : (hubGraph n).beliefAt countingEnv id t = 0 := by
  have hnone : (hubGraph n).versions.get? id = none ∨ (hubGraph n).versions.get? id = some [] := by
    induction n with
    | zero => exact .inl rfl
    | succ n ih =>
      rw [hubGraph_succ, TemporalGraph.versions_of_upsertEdge, SortedMap.get?_alter]
      by_cases hid : id = (spoke n).id
      · rw [if_pos hid, ← hid]
        rcases ih with h | h <;> rw [h] <;> exact .inr rfl
      · rwa [if_neg hid]
  unfold TemporalGraph.beliefAt
  rcases hnone with h | h <;> rw [h]
  rfl

theorem trusted_hubGraph (n : Nat) : ((hubGraph n).trusted countingEnv 0 0).Perm ((List.range n).map spoke) := by
  have hall : ∀ e ∈ (hubGraph n).edges.entries.map Prod.snd,
      (e.aliveAt 0 && f32Ge ((hubGraph n).beliefAt countingEnv e.id 0) 0) = true := fun e he => by
    obtain ⟨⟨id, e⟩, hmem, rfl⟩ := List.mem_map.1 he
    obtain ⟨i, -, rfl, -⟩ := (get?_hubGraph n).1 (SortedMap.get?_eq_some.2 hmem)
    rw [beliefAt_hubGraph]
    rfl
  rw [TemporalGraph.trusted, List.filter_eq_self.2 hall]
  refine (List.perm_ext_iff_of_nodup ?_ ?_).2 (fun e => ?_)
  · rw [List.Nodup, List.pairwise_map]
    refine (hubGraph n).edges.sorted.imp_of_mem (fun {p q} hp hq hlt heq => ?_)
    obtain ⟨i, -, hi, hpid⟩ := (get?_hubGraph n).1 (SortedMap.get?_eq_some.2 hp)
    obtain ⟨j, -, hj, hqid⟩ := (get?_hubGraph n).1 (SortedMap.get?_eq_some.2 hq)
    rw [hpid, hqid, heq] at hlt
    exact lt_irrefl _ hlt
  · exact List.nodup_range.map (fun i j heq => spoke_id_injective (congrArg Edge.id heq))
  · rw [List.mem_map, List.mem_map]
    constructor
    · rintro ⟨⟨id, e⟩, hmem, rfl⟩
      obtain ⟨i, hi, rfl, -⟩ := (get?_hubGraph n).1 (SortedMap.get?_eq_some.2 hmem)
      exact ⟨i, List.mem_range.2 hi, rfl⟩
    · rintro ⟨i, hi, rfl⟩
      exact ⟨((spoke i).id, spoke i), SortedMap.get?_eq_some.1 ((get?_hubGraph n).2 ⟨i, List.mem_range.1 hi, rfl, rfl⟩), rfl⟩

theorem count_spokes (n : Nat) : (ends ((List.range n).map spoke)).count "h".toList = n := by
  induction n with
  | zero => rfl
  | succ n ih =>
    have hto : List.replicate n 'a' ≠ "h".toList := fun h => by
      have hmem : 'h' ∈ List.replicate n 'a' := h ▸ List.mem_cons_self
      exact absurd (List.eq_of_mem_replicate hmem) (by decide)
    have hlast : ends [spoke n] = ["h".toList, List.replicate n 'a'] := rfl
    have hsplit : ends ((List.range n).map spoke ++ [spoke n]) = ends ((List.range n).map spoke) ++ ends [spoke n] :=
      List.flatMap_append
    rw [List.range_succ, List.map_append, List.map_singleton, hsplit, List.count_append, ih, hlast, List.count_cons_self,
      List.count_cons_of_ne hto, List.count_nil]

/-- **A hub of 2^32 edges counts none**: the degrees do not add up. -/
theorem hub_degree_wraps : ∃ bound, ∀ fuel > bound, ∃ a, (hubGraph (2 ^ 32)).analyze countingEnv fuel 0 0 = some a ∧
    ¬Analyzed ((hubGraph (2 ^ 32)).trusted countingEnv 0 0) a := by
  obtain ⟨bound, h⟩ := analyze_spec countingEnv (hubGraph (2 ^ 32)) 0 0
  refine ⟨bound, fun fuel hfuel => ?_⟩
  obtain ⟨a, ha, -, hdegrees⟩ := h fuel hfuel
  refine ⟨a, ha, fun hanalyzed => ?_⟩
  have hcount := hdegrees.1 hanalyzed.degrees "h".toList
  have hperm : (ends ((hubGraph (2 ^ 32)).trusted countingEnv 0 0)).Perm (ends ((List.range (2 ^ 32)).map spoke)) :=
    (trusted_hubGraph (2 ^ 32)).flatMap_right _
  rw [hperm.count_eq, count_spokes] at hcount
  exact lt_irrefl _ hcount

end Temporal
end Heraclitus
