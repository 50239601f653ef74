import Heraclitus.VectorIndex
import Mathlib.Logic.Relation
/-!
# VectorSearch — what one level's search finds

Inside a set of nodes that leads nowhere else the search returns, in order and once each, nodes that it can reach and that pass;
and all of them, when there are fewer than `ef`.
-/
namespace Heraclitus
namespace VectorIndex

open Relation (ReflTransGen)

variable {P D F E Sig : Type} [LinearOrder D] {S : Host P D F Sig} {v : VectorIndex P E Sig} {A : Set Nat}
variable {query : P} {entry level ef n x : Nat} {filter : Option (Finset Nat)} {busy : Nat → Prop}

/-- A search of the level stays among these nodes. -/
def ClosedAt (v : VectorIndex P E Sig) (level : Nat) (A : Set Nat) : Prop :=
  ∀ i ∈ A, ∃ list, v.layer level i = some list ∧ ∀ j ∈ list, j ∈ A

/-- Nodes with lists, whose neighbours at every level are among them. -/
def Closed (v : VectorIndex P E Sig) (A : Set Nat) : Prop :=
  ∀ i ∈ A, ∃ node, v.nodes[i]? = some node ∧ node.neighbors ≠ [] ∧ ∀ list ∈ node.neighbors, ∀ j ∈ list, j ∈ A

/-- A search of the level goes from `i` to `j`. -/
def Link (v : VectorIndex P E Sig) (level i j : Nat) : Prop := ∃ list, v.layer level i = some list ∧ j ∈ list

theorem layer_eq {i : Nat} {node : Node P} (hnode : v.nodes[i]? = some node) (hne : node.neighbors ≠ []) (level : Nat) :
    v.layer level i = node.neighbors[min level (node.neighbors.length - 1)]? := by
  rw [layer, hnode, Option.bind_some, if_neg hne]

theorem ClosedAt.node (hA : ClosedAt v level A) {i : Nat} (hi : i ∈ A) : ∃ node, v.nodes[i]? = some node := by
  obtain ⟨list, hlist, -⟩ := hA i hi
  obtain ⟨node, hnode, -⟩ := Option.bind_eq_some_iff.1 hlist
  exact ⟨node, hnode⟩

theorem ClosedAt.lt (hA : ClosedAt v level A) {i : Nat} (hi : i ∈ A) : i < v.nodes.length := by
  obtain ⟨node, hnode⟩ := hA.node hi
  exact (List.getElem?_eq_some_iff.1 hnode).1

theorem ClosedAt.dist (hA : ClosedAt v level A) (query : P) {i : Nat} (hi : i ∈ A) : ∃ d, v.dist S i query = some d := by
  obtain ⟨node, hnode⟩ := hA.node hi
  exact ⟨_, by rw [VectorIndex.dist, hnode, Option.map_some]⟩

theorem ClosedAt.link (hA : ClosedAt v level A) {i j : Nat} (hi : i ∈ A) (h : Link v level i j) : j ∈ A := by
  obtain ⟨list, hlist, hj⟩ := h
  obtain ⟨list', hlist', hmem⟩ := hA i hi
  obtain rfl : list = list' := Option.some.inj (hlist.symm.trans hlist')
  exact hmem j hj

theorem ClosedAt.reach (hA : ClosedAt v level A) {i j : Nat} (hi : i ∈ A) (h : ReflTransGen (Link v level) i j) : j ∈ A := by
  induction h with
  | refl => exact hi
  | tail _ hlink ih => exact hA.link ih hlink

theorem Closed.closedAt (hA : Closed v A) (level : Nat) : ClosedAt v level A := by
  intro i hi
  obtain ⟨node, hnode, hne, hlists⟩ := hA i hi
  have hlt : min level (node.neighbors.length - 1) < node.neighbors.length := by
    have := List.length_pos_iff.2 hne
    omega
  exact ⟨_, by rw [layer_eq hnode hne, List.getElem?_eq_getElem hlt], hlists _ (List.getElem_mem hlt)⟩

/-! ## The loop -/

/-- A full result list stays full; one that is not has lost nothing. -/
theorem keep_of_lt {c : Candidate D} {results : S.farthest.Heap} (h : S.farthest.len (keep S ef c results) < ef) :
    keep S ef c results = S.farthest.push c results ∧ S.farthest.len results < ef := by
  unfold keep at h ⊢
  by_cases hfull : ef < S.farthest.len (S.farthest.push c results)
  · rw [if_pos hfull] at h
    have hdrop := S.farthest.len_drop (h := S.farthest.push c results)
    omega
  · rw [if_neg hfull, BinaryHeap.len_push] at h
    exact ⟨if_neg hfull, by omega⟩

theorem keep_subperm (ef : Nat) (c : Candidate D) (results : S.farthest.Heap) :
    (S.farthest.toVec (keep S ef c results)).Subperm (c :: S.farthest.toVec results) := by
  have hpush := (S.farthest.toVec_push c results).subperm
  unfold keep
  dsimp only
  split
  · exact BinaryHeap.toVec_drop_subperm.trans hpush
  · exact hpush

/-- What holds between two turns of the loop; the neighbours of a busy node are still to be looked at. -/
structure Explored (v : VectorIndex P E Sig) (query : P) (level ef : Nat) (filter : Option (Finset Nat)) (entry : Nat)
    (busy : Nat → Prop) (f : Frontier S) : Prop where
  start : entry ∈ f.visited
  reached : ∀ x ∈ f.visited, ReflTransGen (Link v level) entry x
  pending : ∀ c ∈ S.nearest.toVec f.candidates, c.id ∈ f.visited
  nodup : ((S.farthest.toVec f.results).map (·.id)).Nodup
  found : ∀ c ∈ S.farthest.toVec f.results,
    c.id ∈ f.visited ∧ v.passes filter c.id = true ∧ v.dist S c.id query = some c.dist
  kept : S.farthest.len f.results < ef → ∀ x ∈ f.visited, v.passes filter x = true →
    ∃ c ∈ S.farthest.toVec f.results, c.id = x
  frontier : S.farthest.len f.results < ef → ∀ x ∈ f.visited, ¬busy x →
    (∃ c ∈ S.nearest.toVec f.candidates, c.id = x) ∨ ∀ y, Link v level x y → y ∈ f.visited

/-- One frontier after another: nothing is forgotten, and each candidate is a node newly visited. -/
structure Extends (f f' : Frontier S) : Prop where
  visited : f.visited ⊆ f'.visited
  candidates : S.nearest.len f'.candidates + f.visited.card ≤ S.nearest.len f.candidates + f'.visited.card

theorem Extends.refl (f : Frontier S) : Extends f f := ⟨Finset.Subset.refl _, Nat.le_refl _⟩

theorem Extends.trans {f g h : Frontier S} (hfg : Extends f g) (hgh : Extends g h) : Extends f h :=
  ⟨hfg.visited.trans hgh.visited, by
    have := hfg.candidates
    have := hgh.candidates
    omega⟩

/-- Looking at a neighbour. -/
theorem Explored.visit {f : Frontier S} (hf : Explored v query level ef filter entry busy f)
    (hreach : ReflTransGen (Link v level) entry n) {d : D} (hd : v.dist S n query = some d) :
    ∃ f', v.visit S query ef filter f n = some f' ∧ Explored v query level ef filter entry busy f' ∧ n ∈ f'.visited ∧
      Extends f f' := by
  by_cases hn : n ∈ f.visited
  · exact ⟨f, if_pos hn, hf, hn, .refl f⟩
  have hmem : ∀ x, x ∈ Insert.insert n f.visited ↔ x = n ∨ x ∈ f.visited := fun x => Finset.mem_insert
  have hreached : ∀ x ∈ Insert.insert n f.visited, ReflTransGen (Link v level) entry x := fun x hx => by
    rcases (hmem x).1 hx with rfl | hx
    · exact hreach
    · exact hf.reached x hx
  have hcard : (Insert.insert n f.visited).card = f.visited.card + 1 := Finset.card_insert_of_notMem hn
  by_cases hgood : S.farthest.len f.results < ef ∨ S.less d (worst S f.results) = true
  · -- the neighbour becomes a candidate, and a result if it passes
    have hsub : (S.farthest.toVec (if v.passes filter n then keep S ef ⟨d, n⟩ f.results else f.results)).Subperm
        (⟨d, n⟩ :: S.farthest.toVec f.results) := by
      split
      · exact keep_subperm ef _ _
      · exact (List.sublist_cons_self _ _).subperm
    have hnew : n ∉ (S.farthest.toVec f.results).map (·.id) := by
      rintro hin
      obtain ⟨c, hc, rfl⟩ := List.mem_map.1 hin
      exact hn (hf.found c hc).1
    have hlen : S.farthest.len (if v.passes filter n then keep S ef ⟨d, n⟩ f.results else f.results) < ef →
        S.farthest.len f.results < ef ∧ (v.passes filter n = true →
          (if v.passes filter n then keep S ef ⟨d, n⟩ f.results else f.results) = S.farthest.push ⟨d, n⟩ f.results) := by
      by_cases hpass : v.passes filter n = true
      · rw [if_pos hpass]
        exact fun h => ⟨(keep_of_lt h).2, fun _ => (keep_of_lt h).1⟩
      · rw [if_neg hpass]
        exact fun h => ⟨h, fun hp => absurd hp hpass⟩
    refine ⟨_, by rw [VectorIndex.visit, if_neg hn, hd, Option.map_some, if_pos hgood], ?_, Finset.mem_insert_self _ _,
      Finset.subset_insert _ _, by rw [BinaryHeap.len_push, hcard]; omega⟩
    constructor
    · exact Finset.mem_insert_of_mem hf.start
    · exact hreached
    · intro c hc
      rcases BinaryHeap.mem_push.1 hc with rfl | hc
      · exact Finset.mem_insert_self _ _
      · exact Finset.mem_insert_of_mem (hf.pending c hc)
    · obtain ⟨l, hperm, hl⟩ := hsub
      exact (hperm.map (·.id)).nodup_iff.1 ((hl.map (·.id)).nodup (List.nodup_cons.2 ⟨hnew, hf.nodup⟩))
    · intro c hc
      rcases List.mem_cons.1 (hsub.subset hc) with rfl | hold
      · have hpass : v.passes filter n = true := by
          by_contra hp
          rw [if_neg hp] at hc
          exact hnew (List.mem_map.2 ⟨_, hc, rfl⟩)
        exact ⟨Finset.mem_insert_self _ _, hpass, hd⟩
      · exact ⟨Finset.mem_insert_of_mem (hf.found c hold).1, (hf.found c hold).2⟩
    · intro hlt x hx hpass
      obtain ⟨hlt', hpush⟩ := hlen hlt
      rcases (hmem x).1 hx with rfl | hx
      · exact ⟨⟨d, x⟩, by rw [hpush hpass]; exact BinaryHeap.mem_push.2 (Or.inl rfl), rfl⟩
      · obtain ⟨c, hc, hid⟩ := hf.kept hlt' x hx hpass
        refine ⟨c, ?_, hid⟩
        by_cases hp : v.passes filter n = true
        · rw [hpush hp]
          exact BinaryHeap.mem_push.2 (Or.inr hc)
        · rwa [if_neg hp]
    · intro hlt x hx hidle
      rcases (hmem x).1 hx with rfl | hx
      · exact Or.inl ⟨⟨d, x⟩, BinaryHeap.mem_push.2 (Or.inl rfl), rfl⟩
      · rcases hf.frontier (hlen hlt).1 x hx hidle with ⟨c, hc, hid⟩ | hall
        · exact Or.inl ⟨c, BinaryHeap.mem_push.2 (Or.inr hc), hid⟩
        · exact Or.inr (fun y hy => Finset.mem_insert_of_mem (hall y hy))
  · -- the results are full and the neighbour is no better
    refine ⟨_, by rw [VectorIndex.visit, if_neg hn, hd, Option.map_some, if_neg hgood], ?_, Finset.mem_insert_self _ _,
      Finset.subset_insert _ _, by rw [hcard]; dsimp only; omega⟩
    have hfull : ¬S.farthest.len f.results < ef := fun h => hgood (Or.inl h)
    exact {
      start := Finset.mem_insert_of_mem hf.start
      reached := hreached
      pending := fun c hc => Finset.mem_insert_of_mem (hf.pending c hc)
      nodup := hf.nodup
      found := fun c hc => ⟨Finset.mem_insert_of_mem (hf.found c hc).1, (hf.found c hc).2⟩
      kept := fun h => absurd h hfull
      frontier := fun h => absurd h hfull }

/-- Looking at all neighbours of a node. -/
theorem Explored.visitAll : ∀ {ns : List Nat} {f : Frontier S}, Explored v query level ef filter entry busy f →
    (∀ n ∈ ns, ReflTransGen (Link v level) entry n ∧ ∃ d, v.dist S n query = some d) →
    ∃ f', ns.foldlM (v.visit S query ef filter) f = some f' ∧ Explored v query level ef filter entry busy f' ∧
      (∀ n ∈ ns, n ∈ f'.visited) ∧ Extends f f'
  | [], f, hf, _ => ⟨f, rfl, hf, fun _ hn => (List.not_mem_nil hn).elim, .refl f⟩
  | n :: ns, f, hf, hns => by
    obtain ⟨hreach, d, hd⟩ := hns n (List.mem_cons_self ..)
    obtain ⟨g, hg, hexp, hn, hfg⟩ := hf.visit hreach hd
    obtain ⟨f', hf', hexp', hall, hgf⟩ := hexp.visitAll (fun m hm => hns m (List.mem_cons_of_mem _ hm))
    refine ⟨f', by rw [List.foldlM_cons, hg]; exact hf', hexp', fun m hm => ?_, hfg.trans hgf⟩
    rcases List.mem_cons.1 hm with rfl | hm
    · exact hgf.visited hn
    · exact hall m hm

/-- What a search of the level has to show for itself. -/
structure Found (S : Host P D F Sig) (v : VectorIndex P E Sig) (query : P) (level ef : Nat) (filter : Option (Finset Nat))
    (entry : Nat) (out : List (Candidate D)) : Prop where
  nodup : (out.map (·.id)).Nodup
  sound : ∀ c ∈ out, ReflTransGen (Link v level) entry c.id ∧ v.passes filter c.id = true ∧
    v.dist S c.id query = some c.dist
  complete : out.length < ef → ∀ x, ReflTransGen (Link v level) entry x → v.passes filter x = true →
    ∃ c ∈ out, c.id = x

theorem Explored.searchLoop (hA : ClosedAt v level A) (hentry : entry ∈ A) : ∀ {fuel : Nat} {f : Frontier S},
    Explored v query level ef filter entry (fun _ => False) f →
    S.nearest.len f.candidates + (v.nodes.length - f.visited.card) < fuel →
    ∃ results, v.searchLoop S query level ef filter fuel f = some results ∧
      Found S v query level ef filter entry (S.farthest.toVec results)
  | 0, _, _, hfuel => absurd hfuel (Nat.not_lt_zero _)
  | fuel + 1, f, hf, hfuel => by
    have hsound : ∀ c ∈ S.farthest.toVec f.results, ReflTransGen (Link v level) entry c.id ∧
        v.passes filter c.id = true ∧ v.dist S c.id query = some c.dist := fun c hc =>
      ⟨hf.reached c.id (hf.found c hc).1, (hf.found c hc).2⟩
    cases hpop : S.nearest.pop f.candidates with
    | none =>
      -- nothing is left to look at: what was visited is all that can be reached
      refine ⟨f.results, by rw [VectorIndex.searchLoop, hpop], hf.nodup, hsound, fun hlt x hx hpass => ?_⟩
      have hvisited : x ∈ f.visited := by
        clear hpass
        induction hx with
        | refl => exact hf.start
        | tail _ hlink ih =>
          rcases hf.frontier hlt _ ih (fun h => h) with ⟨c, hc, -⟩ | hall
          · rw [S.nearest.pop_none _ hpop] at hc
            exact (List.not_mem_nil hc).elim
          · exact hall _ hlink
      exact hf.kept hlt x hvisited hpass
    | some r =>
      obtain ⟨c, candidates⟩ := r
      by_cases hstop : ef ≤ S.farthest.len f.results ∧ S.less (worst S f.results) c.dist = true
      · refine ⟨f.results, by rw [VectorIndex.searchLoop, hpop]; exact if_pos hstop, hf.nodup, hsound, fun hlt => ?_⟩
        exact absurd hlt (Nat.not_lt.2 hstop.1)
      · have hc : c.id ∈ f.visited := hf.pending c ((BinaryHeap.mem_of_pop hpop).2 (Or.inl rfl))
        have hcreach := hf.reached c.id hc
        obtain ⟨ns, hns, hnsA⟩ := hA c.id (hA.reach hentry hcreach)
        have hpopped : Explored v query level ef filter entry (fun x => x = c.id) { f with candidates := candidates } := {
          start := hf.start
          reached := hf.reached
          pending := fun c' hc' => hf.pending c' ((BinaryHeap.mem_of_pop hpop).2 (Or.inr hc'))
          nodup := hf.nodup
          found := hf.found
          kept := hf.kept
          frontier := fun hlt x hx hidle => by
            rcases hf.frontier hlt x hx (fun h => h) with ⟨c', hc', hid⟩ | hall
            · rcases (BinaryHeap.mem_of_pop hpop).1 hc' with rfl | hc'
              · exact absurd hid.symm hidle
              · exact Or.inl ⟨c', hc', hid⟩
            · exact Or.inr hall }
        obtain ⟨f', hfold, hexp, hall, hext⟩ := hpopped.visitAll (fun n hn =>
          ⟨hcreach.tail ⟨ns, hns, hn⟩, hA.dist query (hnsA n hn)⟩)
        have hdone : Explored v query level ef filter entry (fun _ => False) f' := {
          hexp with
          frontier := fun hlt x hx _ => by
            by_cases hxc : x = c.id
            · subst hxc
              refine Or.inr (fun y hy => ?_)
              obtain ⟨list, hlist, hy⟩ := hy
              obtain rfl : ns = list := Option.some.inj (hns.symm.trans hlist)
              exact hall y hy
            · exact hexp.frontier hlt x hx hxc }
        have hcard : f'.visited.card ≤ v.nodes.length := by
          rw [← Finset.card_range v.nodes.length]
          exact Finset.card_le_card (fun x hx => Finset.mem_range.2 (hA.lt (hA.reach hentry (hexp.reached x hx))))
        have hlen := BinaryHeap.len_of_pop hpop
        have hgrow := hext.candidates
        have hmono := Finset.card_le_card hext.visited
        have hless : S.nearest.len f'.candidates + (v.nodes.length - f'.visited.card) < fuel := by
          dsimp only at hgrow hmono
          omega
        obtain ⟨results, hloop, hfound⟩ := Explored.searchLoop hA hentry hdone hless
        refine ⟨results, ?_, hfound⟩
        rw [VectorIndex.searchLoop, hpop]
        dsimp only
        rw [if_neg hstop, hns, Option.bind_some, hfold, Option.bind_some, hloop]

/-- **One level's search inside a closed set** ends without a panic, and finds what it can reach. -/
theorem searchLayer_found (hA : ClosedAt v level A) (hentry : entry ∈ A) (query : P) (ef : Nat) (filter : Option (Finset Nat)) :
    ∃ out, v.searchLayer S query entry level ef filter = some out ∧ out.Pairwise (fun a b => a.dist ≤ b.dist) ∧
      Found S v query level ef filter entry out := by
  obtain ⟨d, hd⟩ := hA.dist (S := S) query hentry
  have hfirst : ∀ c ∈ S.nearest.toVec (S.nearest.push ⟨d, entry⟩ S.nearest.empty), c = ⟨d, entry⟩ := fun c hc => by
    rcases BinaryHeap.mem_push.1 hc with rfl | hc
    · rfl
    · rw [S.nearest.toVec_empty] at hc
      exact (List.not_mem_nil hc).elim
  have hresults : ∀ c ∈ S.farthest.toVec (if v.passes filter entry then S.farthest.push ⟨d, entry⟩ S.farthest.empty
      else S.farthest.empty), c = ⟨d, entry⟩ ∧ v.passes filter entry = true := fun c hc => by
    by_cases hpass : v.passes filter entry = true
    · rw [if_pos hpass] at hc
      rcases BinaryHeap.mem_push.1 hc with rfl | hc
      · exact ⟨rfl, hpass⟩
      · rw [S.farthest.toVec_empty] at hc
        exact (List.not_mem_nil hc).elim
    · rw [if_neg hpass, S.farthest.toVec_empty] at hc
      exact (List.not_mem_nil hc).elim
  have hstart : Explored v query level ef filter entry (fun _ => False) (S := S) {
      visited := {entry}
      candidates := S.nearest.push ⟨d, entry⟩ S.nearest.empty
      results := if v.passes filter entry then S.farthest.push ⟨d, entry⟩ S.farthest.empty else S.farthest.empty } := {
    start := Finset.mem_singleton_self entry
    reached := fun x hx => by
      rw [Finset.mem_singleton.1 hx]
    pending := fun c hc => by
      rw [hfirst c hc]
      exact Finset.mem_singleton_self entry
    nodup := by
      split
      · rw [((S.farthest.toVec_push _ _).map _).nodup_iff, S.farthest.toVec_empty]
        exact List.nodup_singleton _
      · rw [S.farthest.toVec_empty]
        exact List.nodup_nil
    found := fun c hc => by
      obtain ⟨rfl, hpass⟩ := hresults c hc
      exact ⟨Finset.mem_singleton_self entry, hpass, hd⟩
    kept := fun _ x hx hpass => by
      obtain rfl := Finset.mem_singleton.1 hx
      exact ⟨⟨d, x⟩, by rw [if_pos hpass]; exact BinaryHeap.mem_push.2 (Or.inl rfl), rfl⟩
    frontier := fun _ x hx _ => by
      obtain rfl := Finset.mem_singleton.1 hx
      exact Or.inl ⟨⟨d, x⟩, BinaryHeap.mem_push.2 (Or.inl rfl), rfl⟩ }
  have hpos := hA.lt hentry
  obtain ⟨results, hloop, hfound⟩ := hstart.searchLoop hA hentry (show _ < v.nodes.length + 1 by
    simp only [BinaryHeap.len_push, BinaryHeap.len_empty, Finset.card_singleton]
    omega)
  have hperm := List.perm_insertionSort (fun a b : Candidate D => a.dist ≤ b.dist) (S.farthest.toVec results)
  refine ⟨_, by rw [searchLayer, hd, Option.bind_some, hloop, Option.map_some], ?_, ?_⟩
  · have : Std.Total (fun a b : Candidate D => a.dist ≤ b.dist) := ⟨fun a b => le_total a.dist b.dist⟩
    have : IsTrans (Candidate D) (fun a b => a.dist ≤ b.dist) := ⟨fun _ _ _ h h' => le_trans h h'⟩
    exact List.pairwise_insertionSort _ _
  · exact {
      nodup := ((hperm.map _).nodup_iff).2 hfound.nodup
      sound := fun c hc => hfound.sound c (hperm.mem_iff.1 hc)
      complete := fun hlt x hx hpass => by
        obtain ⟨c, hc, hid⟩ := hfound.complete (hperm.length_eq ▸ hlt) x hx hpass
        exact ⟨c, hperm.mem_iff.2 hc, hid⟩ }

/-- A result list as long as the closed set allows holds everything too. -/
theorem Found.all {out : List (Candidate D)} (h : Found S v query level ef filter entry out) (hA : ClosedAt v level A)
    (hentry : entry ∈ A) (hef : v.nodes.length ≤ ef) (hx : ReflTransGen (Link v level) entry x)
    (hpass : v.passes filter x = true) : ∃ c ∈ out, c.id = x := by
  rcases Nat.lt_or_ge out.length ef with hlt | hge
  · exact h.complete hlt x hx hpass
  · have hsub : (out.map (·.id)).toFinset ⊆ Finset.range v.nodes.length := fun i hi => by
      obtain ⟨c, hc, rfl⟩ := List.mem_map.1 (List.mem_toFinset.1 hi)
      exact Finset.mem_range.2 (hA.lt (hA.reach hentry (h.sound c hc).1))
    have heq := Finset.eq_of_subset_of_card_le hsub (by
      rw [Finset.card_range, List.toFinset_card_of_nodup h.nodup, List.length_map]
      omega)
    have hin : x ∈ (out.map (·.id)).toFinset := by
      rw [heq]
      exact Finset.mem_range.2 (hA.lt (hA.reach hentry hx))
    obtain ⟨c, hc, hid⟩ := List.mem_map.1 (List.mem_toFinset.1 hin)
    exact ⟨c, hc, hid⟩

/-! ## Descents -/

/-- The first candidate, or the entry point, is one that the search can reach. -/
theorem Found.first {out : List (Candidate D)} (h : Found S v query level ef filter entry out) :
    ReflTransGen (Link v level) entry ((out.head?.map (·.id)).getD entry) := by
  cases out with
  | nil => exact .refl
  | cons c out => exact (h.sound c (List.mem_cons_self ..)).1

/-- A descent through sets of nodes that grow from level to level. -/
theorem descend_mem {B : Nat → Set Nat} (hB : Antitone B) (query : P) {pick : Nat → Nat → Option Nat} {b : Nat} :
    ∀ {levels : List Nat} {top ep : Nat}, levels.Pairwise (· > ·) → (∀ l ∈ levels, b ≤ l ∧ l ≤ top) → b ≤ top →
      (∀ l ∈ levels, ∀ i ∈ B l, ∃ l', pick l i = some l' ∧ ClosedAt v l' (B l)) → ep ∈ B top →
      ∃ ep', v.descend S query pick levels ep = some ep' ∧ ep' ∈ B b
  | [], _, ep, _, _, hbt, _, hep => ⟨ep, rfl, hB hbt hep⟩
  | l :: levels, _, ep, hdesc, hrange, _, hpick, hep => by
    obtain ⟨hbl, hlt⟩ := hrange l (List.mem_cons_self ..)
    have hepl : ep ∈ B l := hB hlt hep
    obtain ⟨l', hl', hclosed⟩ := hpick l (List.mem_cons_self ..) ep hepl
    obtain ⟨out, hout, -, hfound⟩ := searchLayer_found (S := S) hclosed hepl query 1 none
    have hdesc := List.pairwise_cons.1 hdesc
    obtain ⟨ep', hep', hmem⟩ := descend_mem hB query hdesc.2
      (fun m hm => ⟨(hrange m (List.mem_cons_of_mem _ hm)).1, Nat.le_of_lt (hdesc.1 m hm)⟩) hbl
      (fun m hm => hpick m (List.mem_cons_of_mem _ hm)) (hclosed.reach hepl hfound.first)
    exact ⟨ep', by rw [descend, hl', Option.bind_some, hout, Option.bind_some, hep'], hmem⟩

/-- The descent of a search stays in a closed set. -/
theorem Closed.descend (hA : Closed v A) (hentry : entry ∈ A) (top : Nat) (query : P) : ∃ ep',
    v.descend S query (fun l _ => some l) (List.range' 1 top).reverse entry = some ep' ∧ ep' ∈ A :=
  descend_mem (B := fun _ => A) (b := 0) antitone_const query (by
    rw [List.pairwise_reverse]
    exact List.pairwise_lt_range') (fun l hl => by
    rw [List.mem_reverse, List.mem_range'_1] at hl
    omega) (Nat.zero_le top) (fun l _ _ _ => ⟨l, rfl, hA.closedAt l⟩) hentry

end VectorIndex
end Heraclitus
