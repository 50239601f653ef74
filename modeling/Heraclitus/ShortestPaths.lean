import Heraclitus.GraphIndex
import Heraclitus.Lib.Search
import Heraclitus.TemporalAdjacency
/-!
# ShortestPaths — `traverse`, `minimal_causal_chain` and `trace_minimal_chain`

Three breadth-first searches: by layers over the live edges of the temporal graph (`temporal.rs`), and by a queue over the parents
of events, in the index (`provenance.rs`) and in a map of texts (`heraclitus-query/src/backend.rs`).
-/
namespace Heraclitus

open Search (Reach Nearest Chain Layer Fifo Origins fresh)
open Temporal (TemporalGraph)

/-! ## `traverse` -/

section Layers

structure Level (α : Type) where
  seen : List α
  result : List (α × Nat)
  next : List α

variable {α : Type} [LinearOrder α] {targets : α → List α} {start : α} {depth : Nat}

def Level.visit (depth : Nat) (l : Level α) (to_ : α) : Level α :=
  if to_ ∈ l.seen then l
  else { seen := to_ :: l.seen, result := l.result ++ [(to_, depth)], next := l.next ++ [to_] }

/-- The loop of `traverse`, from a depth on. -/
def layers (targets : α → List α) : Nat → Nat → List α → List α → List (α × Nat) → List (α × Nat)
  | 0, _, _, _, result => result
  | more + 1, depth, seen, frontier, result =>
    let l := frontier.foldl (fun l node => (targets node).foldl (Level.visit depth) l) ⟨seen, result, []⟩
    if l.next.isEmpty then l.result
    else layers targets more (depth + 1) l.seen (l.next.insertionSort (· ≤ ·)) l.result

theorem foldl_visit (targets : List α) (l : Level α) : targets.foldl (Level.visit depth) l =
    { seen := (fresh (fun x => decide (x ∈ l.seen)) targets).reverse ++ l.seen
      result := l.result ++ (fresh (fun x => decide (x ∈ l.seen)) targets).map (fun x => (x, depth))
      next := l.next ++ fresh (fun x => decide (x ∈ l.seen)) targets } := by
  induction targets generalizing l with
  | nil => simp [fresh]
  | cons x targets ih =>
    rw [List.foldl_cons, ih, Level.visit, Search.fresh_cons]
    by_cases hx : x ∈ l.seen
    · simp [hx]
    · simp [hx]

theorem foldl_foldl_visit (frontier : List α) (l : Level α) :
    frontier.foldl (fun l node => (targets node).foldl (Level.visit depth) l) l
      = (frontier.flatMap targets).foldl (Level.visit depth) l :=
  List.foldl_flatMap.symm

/-- **The loop lists the nodes layer by layer.** -/
theorem layers_spec : ∀ (more : Nat) {d : Nat} {seen frontier : List α} {result : List (α × Nat)},
    Layer targets start d (fun x => decide (x ∈ seen)) frontier →
    (∀ x m, (x, m) ∈ result ↔ 1 ≤ m ∧ m ≤ d ∧ Nearest targets start m x) → (result.map Prod.fst).Nodup →
    (∀ x m, (x, m) ∈ layers targets more (d + 1) seen frontier result ↔
      1 ≤ m ∧ m ≤ d + more ∧ Nearest targets start m x) ∧
    ((layers targets more (d + 1) seen frontier result).map Prod.fst).Nodup
  | 0, _, _, _, _, _, hresult, hnodup => ⟨hresult, hnodup⟩
  | more + 1, d, seen, frontier, result, hlayer, hresult, hnodup => by
    rw [layers, foldl_foldl_visit, foldl_visit]
    dsimp only
    rw [List.nil_append]
    generalize hnew : fresh (fun x => decide (x ∈ seen)) (frontier.flatMap targets) = new
    have hmem : ∀ x, x ∈ new ↔ x ∈ frontier.flatMap targets ∧ decide (x ∈ seen) = false := fun x => by
      rw [← hnew, Search.mem_fresh]
    have hdist : ∀ x, x ∈ new ↔ Nearest targets start (d + 1) x := fun x => (hmem x).trans hlayer.nearest_succ
    have hresult' : ∀ x m, (x, m) ∈ result ++ new.map (fun x => (x, d + 1)) ↔ 1 ≤ m ∧ m ≤ d + 1 ∧ Nearest targets start m x := by
      intro x m
      rw [List.mem_append, hresult]
      constructor
      · rintro (⟨h₁, h₂, hnear⟩ | hx)
        · exact ⟨h₁, by omega, hnear⟩
        · obtain ⟨y, hy, heq⟩ := List.mem_map.1 hx
          cases heq
          exact ⟨by omega, le_rfl, (hdist x).1 hy⟩
      · rintro ⟨h₁, h₂, hnear⟩
        rcases Nat.lt_or_ge d m with hlt | hle
        · obtain rfl : m = d + 1 := by omega
          exact .inr (List.mem_map.2 ⟨x, (hdist x).2 hnear, rfl⟩)
        · exact .inl ⟨h₁, hle, hnear⟩
    have hnodup' : ((result ++ new.map (fun x => (x, d + 1))).map Prod.fst).Nodup := by
      rw [List.map_append, List.map_map, List.nodup_append]
      refine ⟨hnodup, by simpa [Function.comp_def, ← hnew] using Search.nodup_fresh, fun x hx y hy heq => ?_⟩
      obtain ⟨⟨x', m⟩, hxm, rfl⟩ := List.mem_map.1 hx
      obtain ⟨z, hz, rfl⟩ := List.mem_map.1 hy
      obtain rfl : x' = z := heq
      obtain ⟨-, hm, hnear⟩ := (hresult x' m).1 hxm
      have := hnear.unique ((hdist x').1 hz)
      omega
    cases hempty : new.isEmpty with
    | true =>
      obtain rfl := List.isEmpty_iff.1 hempty
      have hnone : ∀ m, d + 1 ≤ m → ∀ x, ¬Nearest targets start m x := fun m hm x hx => by
        obtain ⟨y, hy⟩ := hx.exists_of_le hm
        exact absurd ((hdist y).2 hy) List.not_mem_nil
      refine ⟨fun x m => ?_, hnodup'⟩
      rw [if_pos rfl, hresult']
      exact and_congr_right (fun _ => ⟨fun ⟨hm, hnear⟩ => ⟨by omega, hnear⟩, fun ⟨_, hnear⟩ =>
        ⟨Nat.le_of_not_lt (fun hlt => hnone m (by omega) x hnear), hnear⟩⟩)
    | false =>
      have hlayer' : Layer targets start (d + 1) (fun x => decide (x ∈ new.reverse ++ seen)) (new.insertionSort (· ≤ ·)) := by
        refine hlayer.succ (fun x => ?_) (fun x => ?_)
        · rw [List.mem_insertionSort, hmem]
        · rw [List.mem_insertionSort]
          simp [or_comm]
      have hrest := layers_spec more hlayer' hresult' hnodup'
      rw [Nat.add_right_comm d 1 more] at hrest
      exact hrest

end Layers

namespace Temporal

namespace TemporalGraph

variable (env : Env) (g : TemporalGraph)

def traverse (start : Str) (maxDepth asOf : Nat) (minConfidence lambda : F32) : List (Str × Nat) :=
  layers (fun node => (g.neighbors env node none asOf minConfidence lambda).map Neighbor.to_) maxDepth 1 [start] [start] []

/-- Where the edges from a node lead that are alive and not below the confidence. -/
def liveTargets (asOf : Nat) (minConfidence : F32) (node : Str) : List Str :=
  (g.edges.entries.filter (fun ke => ke.2.from_ == node && (ke.2.aliveAt asOf &&
    !f32Lt (g.beliefAt env ke.1 asOf) minConfidence))).map (fun ke => ke.2.to_)

end TemporalGraph

variable {env : Env} {g : TemporalGraph}

theorem mem_neighbors (h : g.Built) {node x : Str} {asOf : Nat} {minConfidence lambda : F32} :
    x ∈ (g.neighbors env node none asOf minConfidence lambda).map Neighbor.to_ ↔ x ∈ g.liveTargets env asOf minConfidence node := by
  rw [((h.sound.neighbors_perm node none asOf minConfidence lambda).map Neighbor.to_).mem_iff, TemporalGraph.liveTargets,
    List.map_filterMap, List.filterMap_filter, ← List.filterMap_eq_map, List.filterMap_filter]
  refine iff_of_eq (congrArg (x ∈ ·) (List.filterMap_congr (fun ke _ => ?_)))
  unfold TemporalGraph.neighbor
  dsimp only
  generalize g.beliefAt env ke.1 asOf = belief
  cases ke.2.from_ == node <;> cases ke.2.aliveAt asOf <;> cases f32Lt belief minConfidence <;> simp

/-- **`traverse` lists the nodes within the depth, apart from the start**, each once and at its distance. -/
theorem traverse_spec (h : g.Built) (start : Str) (maxDepth asOf : Nat) (minConfidence lambda : F32) :
    (∀ x m, (x, m) ∈ g.traverse env start maxDepth asOf minConfidence lambda ↔
      1 ≤ m ∧ m ≤ maxDepth ∧ Nearest (g.liveTargets env asOf minConfidence) start m x) ∧
    ((g.traverse env start maxDepth asOf minConfidence lambda).map Prod.fst).Nodup := by
  obtain ⟨hmem, hnodup⟩ : (∀ x m, (x, m) ∈ g.traverse env start maxDepth asOf minConfidence lambda ↔ 1 ≤ m ∧ m ≤ 0 + maxDepth ∧
      Nearest (fun node => (g.neighbors env node none asOf minConfidence lambda).map Neighbor.to_) start m x) ∧
      ((g.traverse env start maxDepth asOf minConfidence lambda).map Prod.fst).Nodup := by
    refine layers_spec maxDepth ⟨fun x => ?_, fun x => ?_⟩ (fun x m => ?_) List.nodup_nil
    · simp [Search.nearest_zero]
    · simp [Search.nearest_zero]
    · exact iff_of_false List.not_mem_nil (fun h => by omega)
  refine ⟨fun x m => (hmem x m).trans ?_, hnodup⟩
  rw [Nat.zero_add, Search.nearest_congr (fun y x => mem_neighbors h)]

end Temporal

/-! ## Minimal causal chains -/

section Quest

variable {α : Type}

structure Quest (α : Type) where
  queue : List α
  seen : List α
  cameFrom : α → Option α

/-- **What a minimal chain is**: there is one for an ancestor, from the effect to the cause by parents, and none is shorter. -/
structure Minimal (parents : α → List α) (effect cause : α) (chain : Option (List α)) : Prop where
  isSome : chain.isSome ↔ Reach parents effect cause
  chain : ∀ l, chain = some l → Chain parents effect cause l ∧ ∀ l', Chain parents effect cause l' → l.length ≤ l'.length

variable {parents : α → List α} {effect cause node : α} {done rest : List α} {q : Quest α} {ps : List α}

theorem minimal_none (h : ¬Reach parents effect cause) : Minimal parents effect cause none where
  isSome := iff_of_false (by simp) h
  chain l hl := by cases hl

theorem minimal_some {l : List α} {d : Nat} (hd : Nearest parents effect d cause) (hl : Chain parents effect cause l)
    (hlen : l.length = d + 1) : Minimal parents effect cause (some l) where
  isSome := iff_of_true rfl hd.1.reflTransGen
  chain l' hl' := by
    cases hl'
    exact ⟨hl, fun l' hl' => hlen.le.trans (hd.length_le hl')⟩

/-- What a search keeps. -/
structure Questing (parents : α → List α) (effect cause : α) (done : List α) (q : Quest α) : Prop where
  fifo : Fifo parents effect done q.queue
  seen : ∀ x, x ∈ q.seen ↔ x ∈ done ++ q.queue
  origins : Origins parents effect (· ∈ done ++ q.queue) q.cameFrom
  cause : cause ∉ done ++ q.queue

variable [DecidableEq α]

/-- The loop over the parents of a node; it ends at the cause. -/
def Quest.visit (cause node : α) : List α → Quest α → Quest α × Bool
  | [], q => (q, false)
  | parent :: parents, q =>
    if parent ∈ q.seen then Quest.visit cause node parents q
    else
      let q := { q with seen := parent :: q.seen, cameFrom := Function.update q.cameFrom parent (some node) }
      if parent = cause then (q, true) else Quest.visit cause node parents { q with queue := q.queue ++ [parent] }

/-- The loop over the queue.  Without fuel it has no result; `limit` is the fuel of the way back. -/
def quest (parents : α → List α) (cause : α) (limit : Nat) : Nat → Quest α → Option (Option (List α))
  | 0, _ => none
  | fuel + 1, q =>
    match q.queue with
    | [] => some none
    | node :: queue =>
      match Quest.visit cause node (parents node) { q with queue := queue } with
      | (q, true) => (Search.unwind q.cameFrom limit cause [cause]).map (fun chain => some chain.reverse)
      | (q, false) => quest parents cause limit fuel q

def minimalChain (parents : α → List α) (fuel : Nat) (effect cause : α) : Option (Option (List α)) :=
  if effect = cause then some (some [effect])
  else quest parents cause fuel fuel { queue := [effect], seen := [effect], cameFrom := fun _ => none }

theorem visit_spec (cause node : α) (ps : List α) (q : Quest α) :
    (Quest.visit cause node ps q).2 = decide (cause ∈ fresh (fun x => decide (x ∈ q.seen)) ps) ∧
    (∀ x, x ∈ q.seen → (Quest.visit cause node ps q).1.cameFrom x = q.cameFrom x) ∧
    (cause ∈ fresh (fun x => decide (x ∈ q.seen)) ps → (Quest.visit cause node ps q).1.cameFrom cause = some node) ∧
    (cause ∉ fresh (fun x => decide (x ∈ q.seen)) ps →
      (Quest.visit cause node ps q).1.queue = q.queue ++ fresh (fun x => decide (x ∈ q.seen)) ps ∧
      (Quest.visit cause node ps q).1.seen = (fresh (fun x => decide (x ∈ q.seen)) ps).reverse ++ q.seen ∧
      ∀ x ∈ fresh (fun x => decide (x ∈ q.seen)) ps, (Quest.visit cause node ps q).1.cameFrom x = some node) := by
  induction ps generalizing q with
  | nil => simp [Quest.visit, fresh]
  | cons p ps ih =>
    rw [Quest.visit, Search.fresh_cons]
    by_cases hp : p ∈ q.seen
    · rw [if_pos hp, if_pos hp]
      exact ih q
    · rw [if_neg hp, if_neg hp]
      dsimp only
      by_cases hcause : p = cause
      · subst hcause
        rw [if_pos rfl]
        refine ⟨by simp, fun x hx => ?_, fun _ => Function.update_self .., fun h => absurd List.mem_cons_self h⟩
        exact Function.update_of_ne (ne_of_mem_of_not_mem hx hp) ..
      · rw [if_neg hcause]
        obtain ⟨hend, hold, hfound, hnew⟩ := ih ⟨q.queue ++ [p], p :: q.seen, Function.update q.cameFrom p (some node)⟩
        dsimp only at hend hold hfound hnew
        have hmem : ∀ {new : List α}, cause ∈ p :: new ↔ cause ∈ new := fun {new} => by
          simp [Ne.symm hcause]
        refine ⟨by rw [hend]; simp [hmem], fun x hx => ?_, fun h => hfound (hmem.1 h), fun h => ?_⟩
        · rw [hold x (List.mem_cons_of_mem p hx)]
          exact Function.update_of_ne (ne_of_mem_of_not_mem hx hp) ..
        · obtain ⟨hqueue, hseen, hcame⟩ := hnew (fun hc => h (hmem.2 hc))
          refine ⟨by rw [hqueue]; simp, by rw [hseen]; simp, fun x hx => ?_⟩
          rcases List.mem_cons.1 hx with rfl | hx
          · rw [hold x List.mem_cons_self]
            exact Function.update_self ..
          · exact hcame x hx

/-- **The search ends, with a minimal chain if there is one.** -/
theorem quest_spec {nodes : List α} (heffect : effect ∈ nodes) (hnodes : ∀ y ∈ nodes, ∀ x ∈ parents y, x ∈ nodes) {limit : Nat}
    (hlimit : nodes.length < limit) : ∀ (fuel : Nat) {done : List α} {q : Quest α}, Questing parents effect cause done q →
    nodes.length < done.length + fuel → ∃ r, quest parents cause limit fuel q = some r ∧ Minimal parents effect cause r
  | 0, done, q, h, hfuel => by
    have := h.fifo.length_le heffect hnodes
    omega
  | fuel + 1, done, q, h, hfuel => by
    obtain ⟨hfifo, hseen, horigins, hcause⟩ := h
    rw [quest]
    cases hqueue : q.queue with
    | nil =>
      rw [hqueue] at hfifo hcause
      refine ⟨none, rfl, minimal_none (fun hreach => hcause ?_)⟩
      rw [List.append_nil]
      exact (hfifo.mem_done (fun _ _ _ h => h) cause).2 hreach
    | cons node queue =>
      rw [hqueue] at hfifo hseen horigins hcause
      dsimp only
      obtain ⟨hend, hold, hfound, hnew⟩ := visit_spec cause node (parents node) { q with queue := queue }
      dsimp only at hend hold hfound hnew
      generalize hvisit : Quest.visit cause node (parents node) { q with queue := queue } = visited at hend hold hfound hnew
      generalize hfresh : fresh (fun x => decide (x ∈ q.seen)) (parents node) = new at hend hold hfound hnew
      have hmem : ∀ x, x ∈ new ↔ x ∈ parents node ∧ x ∉ done ++ node :: queue := fun x => by
        rw [← hfresh, Search.mem_fresh, decide_eq_false_iff_not, hseen]
      have hnode : node ∈ done ++ node :: queue := List.mem_append_right done List.mem_cons_self
      obtain ⟨d, hd⟩ := hfifo.exists_nearest hnode
      have hdist : ∀ x ∈ new, Nearest parents effect (d + 1) x := fun x hx =>
        hfifo.nearest_new hd ((hmem x).1 hx).1 ((hmem x).1 hx).2
      obtain ⟨q', met⟩ := visited
      obtain rfl : met = decide (cause ∈ new) := hend
      by_cases hmet : cause ∈ new
      · rw [decide_eq_true hmet]
        dsimp only
        have horigins' : Origins parents effect (fun x => x ∈ done ++ node :: queue ∨ x = cause) q'.cameFrom :=
          horigins.extend (fun x hx => hold x ((hseen x).2 hx)) hnode hd (fun x hx => hx.imp_right (fun heq => by
            rw [heq]
            exact ⟨hfound hmet, ((hmem cause).1 hmet).1, hdist cause hmet⟩)) (fun x hx => .inl hx)
        obtain ⟨l, hchain, hlen, hback⟩ := horigins'.unwind (.inr rfl) (hdist cause hmet)
        have hlast : cause :: l.reverse.tail = l.reverse :=
          List.cons_head?_tail (by rw [Option.mem_def, List.head?_reverse, hchain.last])
        have hlt := (hdist cause hmet).lt_length heffect hnodes
        refine ⟨some l, ?_, minimal_some (hdist cause hmet) hchain hlen⟩
        rw [hback limit [cause] (by omega), List.singleton_append, hlast, Option.map_some, List.reverse_reverse]
      · rw [decide_eq_false hmet]
        dsimp only
        obtain ⟨hqueue', hseen', hcame⟩ := hnew hmet
        have hquesting : Questing parents effect cause (node :: done) q' := by
          refine ⟨?_, ?_, ?_, ?_⟩
          · rw [hqueue']
            exact hfifo.pop (hfresh ▸ Search.nodup_fresh) hmem
          · intro x
            rw [hseen', hqueue', List.mem_append, List.mem_reverse, hseen]
            simp only [List.mem_append, List.mem_cons]
            tauto
          · rw [hqueue']
            refine horigins.extend (fun x hx => hold x ((hseen x).2 hx)) hnode hd (fun x hx => ?_) (fun x hx => ?_)
            · by_cases hxnew : x ∈ new
              · exact .inr ⟨hcame x hxnew, ((hmem x).1 hxnew).1, hdist x hxnew⟩
              · simp only [List.mem_append, List.mem_cons] at hx ⊢
                tauto
            · simp only [List.mem_append, List.mem_cons] at hx ⊢
              tauto
          · rw [hqueue']
            simp only [List.mem_append, List.mem_cons] at hcause ⊢
            tauto
        exact quest_spec heffect hnodes hlimit fuel hquesting (by rw [List.length_cons]; omega)

/-- **With enough fuel the search ends, with a minimal chain if there is one.** -/
theorem minimalChain_spec {nodes : List α} (heffect : effect ∈ nodes) (hnodes : ∀ y ∈ nodes, ∀ x ∈ parents y, x ∈ nodes)
    {fuel : Nat} (hfuel : nodes.length < fuel) :
    ∃ r, minimalChain parents fuel effect cause = some r ∧ Minimal parents effect cause r := by
  unfold minimalChain
  by_cases hsame : effect = cause
  · subst hsame
    rw [if_pos rfl]
    exact ⟨_, rfl, minimal_some (Search.nearest_zero.2 rfl) ⟨rfl, rfl, List.isChain_singleton effect⟩ rfl⟩
  · rw [if_neg hsame]
    have hstart : Questing parents effect cause [] ⟨[effect], [effect], fun _ => none⟩ := by
      refine ⟨Search.fifo_start, fun x => by simp, fun x hx => ?_, ?_⟩
      · exact .inl ⟨List.mem_singleton.1 hx, rfl⟩
      · simpa using Ne.symm hsame
    exact quest_spec heffect hnodes hfuel fuel hstart (by simpa using hfuel)

end Quest

/-! ## The index and the query -/

namespace GraphIndex

def minimalCausalChain (g : GraphIndex) (fuel effect cause : Nat) : Option (Option (List Nat)) :=
  minimalChain g.parents fuel effect cause

/-- What the first event of an id names as its parents. -/
def parentsOf (events : List (Nat × Episode)) (id : Nat) : List Nat :=
  (((firsts events).find? (fun f => f.id == id)).map Episode.parents).getD []

/-- **The chain of an index**: with enough fuel it ends, and is minimal over the parents of the events. -/
theorem minimalCausalChain_spec (events : List (Nat × Episode)) (effect cause : Nat) :
    ∃ bound, ∀ fuel > bound, ∃ r, (ofEvents events).minimalCausalChain fuel effect cause = some r ∧
      Minimal (parentsOf events) effect cause r := by
  have hparents : (ofEvents events).parents = parentsOf events := funext (holds_ofEvents events).parents
  refine ⟨(effect :: (firsts events).flatMap Episode.parents).length, fun fuel hfuel => ?_⟩
  unfold minimalCausalChain
  rw [hparents]
  refine minimalChain_spec List.mem_cons_self (fun y _ x hx => ?_) hfuel
  unfold parentsOf at hx
  cases hfind : (firsts events).find? (fun f => f.id == y) with
  | none => simp [hfind] at hx
  | some f =>
    rw [hfind] at hx
    exact List.mem_cons_of_mem _ (List.mem_flatMap.2 ⟨f, List.mem_of_find?_eq_some hfind, hx⟩)

end GraphIndex

namespace Query

def traceMinimalChain (parents : SortedMap Str (List Str)) (fuel : Nat) (effect cause : Str) : Option (List Str) :=
  (minimalChain (fun id => (parents.get? id).getD []) fuel effect cause).map (fun r => r.getD [])

/-- The parents that `why_chain` reads off its events: only those that are present. -/
def parentMap (ulidText : Nat → Str) (events : List (Nat × Episode)) : SortedMap Str (List Str) :=
  let present := events.map (fun r => ulidText r.2.id)
  events.foldl (fun m r => m.insert (ulidText r.2.id) ((r.2.parents.map ulidText).filter (fun p => present.contains p))) .empty

/-- **The chain over a map of texts.** -/
theorem traceMinimalChain_spec (parents : SortedMap Str (List Str)) (effect cause : Str) :
    ∃ bound, ∀ fuel > bound, ∃ r, traceMinimalChain parents fuel effect cause = some (r.getD []) ∧
      Minimal (fun id => (parents.get? id).getD []) effect cause r := by
  refine ⟨(effect :: parents.entries.flatMap Prod.snd).length, fun fuel hfuel => ?_⟩
  obtain ⟨r, hr, hminimal⟩ : ∃ r, minimalChain (fun id => (parents.get? id).getD []) fuel effect cause = some r ∧
      Minimal (fun id => (parents.get? id).getD []) effect cause r := by
    refine minimalChain_spec List.mem_cons_self (fun y _ x hx => ?_) hfuel
    cases hget : parents.get? y with
    | none => simp [hget] at hx
    | some ps =>
      rw [hget] at hx
      exact List.mem_cons_of_mem _ (List.mem_flatMap.2 ⟨(y, ps), SortedMap.get?_eq_some.1 hget, hx⟩)
  refine ⟨r, ?_, hminimal⟩
  unfold traceMinimalChain
  rw [hr]
  rfl

end Query

def payment : Temporal.Edge where
  id := Temporal.edgeId "Alfa".toList "Beto".toList .pagou
  from_ := "Alfa".toList
  to_ := "Beto".toList
  etype := .pagou
  validFromLsn := 0
  validToLsn := none
  worldValidFrom := none
  worldValidTo := none
  closedIntervals := []

def pathEnv : Temporal.Env :=
  { parseF32 := fun _ => none, ulidText := fun _ => [], aggregate := fun _ => Temporal.one, weight := fun b _ _ => b }

/-- An event, and one that it caused. -/
def causedEvents : List (Nat × Episode) :=
  [(0, .new 1 "a".toList .observation []), (1, { Episode.new 2 "a".toList .observation [] with parents := [1] })]

end Heraclitus
