import Heraclitus.Lib.Run
import Heraclitus.VectorInsert
/-!
# VectorComplete — when a search finds every vector

The shape of the graph (a list for each level, neighbours that live on it, an entry point at the top) holds of any sequence of
insertions and tombstones while ids fit 32 bits.  That the entry point leads to every live vector holds as long as a new vector
finds a live one to link to, or becomes the entry point itself, and no list of the ground level is cut.
-/
namespace Heraclitus
namespace VectorIndex

open Relation (ReflTransGen)

variable {P D F E Sig : Type} [LinearOrder D] {S : Host P D F Sig} {v v' : VectorIndex P E Sig}

inductive Call (P E : Type) where
  | insert (eventId : E) (lsn : Nat) (point : P)
  | tombstoneEvent (event : E)

def step [DecidableEq E] (S : Host P D F Sig) (v : VectorIndex P E Sig) : Call P E → Option (VectorIndex P E Sig)
  | .insert eventId lsn point => v.insert S eventId lsn point
  | .tombstoneEvent event => some (v.tombstoneEvent event).2

/-! ## What is asked -/

/-- A list for each level up to the node's own, neighbours that live on the level, and an entry point at the highest level. -/
structure Shaped (v : VectorIndex P E Sig) : Prop where
  layered : ∀ node ∈ v.nodes, node.neighbors.length = node.level + 1
  lives : ∀ i l list j, v.listAt i l = some list → j ∈ list → ∃ node, v.nodes[j]? = some node ∧ l ≤ node.level
  empty : v.entry = none → v.nodes = []
  top : ∀ ep, v.entry = some ep → ∃ node, v.nodes[ep]? = some node ∧ ∀ other ∈ v.nodes, other.level ≤ node.level

/-- A search for at least as many hits as there are vectors gives each vector that passes once, in the order of distance. -/
structure Complete (S : Host P D F Sig) (v : VectorIndex P E Sig) : Prop where
  distinct : v.ids.Nodup
  finds : ∀ query k ef filter, v.nodes.length ≤ k → ∃ order hits, v.search S query k ef filter = some hits ∧
    order.Perm ((List.range v.nodes.length).filter (fun i => v.passes filter i)) ∧
    order.Pairwise (fun i j => ∀ a b, v.dist S i query = some a → v.dist S j query = some b → a ≤ b) ∧
    List.Forall₂ (fun i h => v.ids[i]? = some h.id ∧ v.lsns[i]? = some h.lsn ∧
      (v.dist S i query).map S.narrow = some h.dist) order hits

/-- The ids that an insertion selects at the ground level. -/
def groundSelection [DecidableEq E] (S : Host P D F Sig) (v : VectorIndex P E Sig) (eventId : E) (lsn : Nat) (point : P) (ep : Nat) :
    Option (List Nat) :=
  ((v.pushNode eventId lsn point (v.randomLevel S)).approach S point (v.randomLevel S) ep).bind (fun x =>
    (connect S v.nodes.length point (List.range' 1 (min (v.randomLevel S) x.1)).reverse
      (v.pushNode eventId lsn point (v.randomLevel S), x.2)).bind (fun y =>
        (y.1.searchLayer S point y.2 0 y.1.efConstruction none).map (select v.nodes.length y.1.m)))

/-- A list of the ground level would grow past `m*2`. -/
def prunes [DecidableEq E] (S : Host P D F Sig) (v : VectorIndex P E Sig) (eventId : E) (lsn : Nat) (point : P) (ep : Nat) : Bool :=
  ((groundSelection S v eventId lsn point ep).getD []).any (fun x => ((v.listAt x 0).map (fun list =>
    decide (v.m * 2 ≤ list.length))).getD false)

/-- Ids fit 32 bits. -/
def Room (v : VectorIndex P E Sig) : Call P E → Prop
  | .insert eventId _ _ => v.byEvent eventId = none → v.nodes.length < 2 ^ 32
  | .tombstoneEvent _ => True

/-- Besides, a new vector meets a live one or rises above the entry point, and cuts no list of the ground level. -/
def Links [DecidableEq E] (S : Host P D F Sig) (v : VectorIndex P E Sig) (c : Call P E) : Prop :=
  Room v c ∧ match c with
    | .insert eventId lsn point => v.byEvent eventId = none → ∀ ep, v.entry = some ep →
      ((∃ i, i < v.nodes.length ∧ i ∉ v.tombstones) ∨ ∀ node, v.nodes[ep]? = some node → node.level < v.randomLevel S) ∧
        prunes S v eventId lsn point ep = false
    | .tombstoneEvent _ => True

instance instDecidableLinks [DecidableEq E] (S : Host P D F Sig) (v : VectorIndex P E Sig) : ∀ c, Decidable (Links S v c)
  | .insert eventId lsn point => inferInstanceAs (Decidable ((v.byEvent eventId = none → v.nodes.length < 2 ^ 32) ∧
      (v.byEvent eventId = none → ∀ ep, v.entry = some ep →
        ((∃ i, i < v.nodes.length ∧ i ∉ v.tombstones) ∨ ∀ node, v.nodes[ep]? = some node → node.level < v.randomLevel S) ∧
          prunes S v eventId lsn point ep = false)))
  | .tombstoneEvent _ => inferInstanceAs (Decidable (True ∧ True))

/-! ## The shape -/

/-- The entry point moves to a node with more levels. -/
def raise (w : VectorIndex P E Sig) (top level id : Nat) : VectorIndex P E Sig :=
  if top < level then { w with entry := some id } else w

variable {e : E} {lsn l ep i : Nat} {point : P}

/-- The shape, and what the other tables say of the nodes. -/
structure Steady (v : VectorIndex P E Sig) : Prop extends Shaped v where
  m : v.m = defaultM
  efConstruction : v.efConstruction = defaultEfConstruction
  ids : v.ids.length = v.nodes.length
  lsns : v.lsns.length = v.nodes.length
  events : ∀ e i, v.byEvent e = some i ↔ v.ids[i]? = some e

theorem steady_new (metric : Sig) : Steady (new metric : VectorIndex P E Sig) where
  layered _ h := (List.not_mem_nil h).elim
  lives i l list j h := by simp [listAt, new] at h
  empty _ := rfl
  top _ h := by cases h
  m := rfl
  efConstruction := rfl
  ids := rfl
  lsns := rfl
  events e i := by simp [new]

theorem Shaped.closed (h : Shaped v) : Closed v {i | i < v.nodes.length} := by
  refine fun i (hi : i < v.nodes.length) => ⟨v.nodes[i], List.getElem?_eq_getElem hi, fun hnil => ?_, fun list hlist j hj => ?_⟩
  · have := h.layered _ (List.getElem_mem hi)
    rw [hnil] at this
    cases this
  · obtain ⟨l, hl⟩ := List.mem_iff_getElem?.1 hlist
    obtain ⟨node, hnode, -⟩ := h.lives i l list j (listAt_eq_some.2 ⟨_, List.getElem?_eq_getElem hi, hl⟩) hj
    exact (List.getElem?_eq_some_iff.1 hnode).1

/-- Nodes on a level and above. -/
def levelSet (v : VectorIndex P E Sig) (l : Nat) : Set Nat := {i | ∃ node, v.nodes[i]? = some node ∧ l ≤ node.level}

theorem antitone_levelSet : Antitone (levelSet v) := fun _ _ hl _ ⟨node, hnode, hle⟩ => ⟨node, hnode, hl.trans hle⟩

theorem levelSet_lt (hi : i ∈ levelSet v l) : i < v.nodes.length := by
  obtain ⟨node, hnode, -⟩ := hi
  exact (List.getElem?_eq_some_iff.1 hnode).1

theorem Shaped.layer (h : Shaped v) {node : Node P} (hnode : v.nodes[i]? = some node) (hl : l ≤ node.level) :
    v.layer l i = v.listAt i l := by
  have hlength := h.layered node (List.mem_of_getElem? hnode)
  have hne : node.neighbors ≠ [] := fun hnil => by
    rw [hnil] at hlength
    cases hlength
  rw [layer_eq hnode hne, hlength, Nat.add_sub_cancel, Nat.min_eq_left hl, listAt, hnode, Option.bind_some]

theorem Shaped.closedAt (h : Shaped v) (l : Nat) : ClosedAt v l (levelSet v l) := by
  rintro i ⟨node, hnode, hl⟩
  have hlt : l < node.neighbors.length := by
    rw [h.layered node (List.mem_of_getElem? hnode)]
    omega
  have hlist : v.listAt i l = some node.neighbors[l] := listAt_eq_some.2 ⟨node, hnode, List.getElem?_eq_getElem hlt⟩
  exact ⟨_, (h.layer hnode hl).trans hlist, fun j hj => h.lives i l _ j hlist hj⟩

theorem Shaped.closedAt_min (h : Shaped v) (l : Nat) : ∀ i ∈ levelSet v l, ∃ node, v.nodes[i]? = some node ∧
    ClosedAt v (min l node.level) (levelSet v l) := by
  rintro i ⟨node, hnode, hl⟩
  rw [show min l = min l from rfl]
  exact ⟨node, hnode, by rw [Nat.min_eq_left hl]; exact h.closedAt l⟩

variable {node : Node P}

theorem Alike.mem (h : Alike v v') (hnode : node ∈ v'.nodes) :
    ∃ node' ∈ v.nodes, node.level = node'.level ∧ node.neighbors.length = node'.neighbors.length := by
  obtain ⟨i, hi⟩ := List.mem_iff_getElem?.1 hnode
  obtain ⟨node', hnode', -, hlevel, hlength⟩ := h.symm.node hi
  exact ⟨node', List.mem_of_getElem? hnode', hlevel.symm, hlength.symm⟩

section Insert

variable [DecidableEq E]

/-- A node of the index with one pushed. -/
theorem mem_pushNode {level : Nat} (h : node ∈ (v.pushNode e lsn point level).nodes) : node ∈ v.nodes ∨
    node.level = level ∧ node.neighbors.length = level + 1 := by
  rcases List.mem_append.1 h with h | h
  · exact Or.inl h
  · obtain rfl := List.mem_singleton.1 h
    exact Or.inr ⟨rfl, List.length_replicate⟩

theorem events_pushNode {level : Nat} (hs : Steady v) (hnew : v.byEvent e = none) (hroom : v.nodes.length < 2 ^ 32) (e' : E)
    (i : Nat) : (v.pushNode e lsn point level).byEvent e' = some i ↔ (v.pushNode e lsn point level).ids[i]? = some e' := by
  have hold := hs.events e' i
  dsimp only [pushNode]
  rw [Nat.mod_eq_of_lt hroom, ← hs.ids]
  rcases Nat.lt_trichotomy i v.ids.length with hi | rfl | hi
  · rw [List.getElem?_append_left hi, ← hold]
    by_cases he : e' = e
    · subst he
      rw [Function.update_self, hnew, Option.some_inj]
      exact ⟨fun h => absurd h (Nat.ne_of_gt hi), fun h => by cases h⟩
    · rw [Function.update_of_ne he]
  · rw [List.getElem?_concat_length, Option.some_inj]
    by_cases he : e' = e
    · subst he
      simp
    · rw [Function.update_of_ne he, hold, List.getElem?_eq_none (Nat.le_refl _)]
      exact ⟨fun h => (by cases h), fun h => absurd h.symm he⟩
  · rw [List.getElem?_eq_none (by rw [List.length_append, List.length_singleton]; omega)]
    refine ⟨fun h => ?_, fun h => by cases h⟩
    by_cases he : e' = e
    · subst he
      rw [Function.update_self, Option.some_inj] at h
      omega
    · rw [Function.update_of_ne he, hold, List.getElem?_eq_none (Nat.le_of_lt hi)] at h
      cases h

/-- A node whose lists are all empty. -/
theorem mem_listAt_pushNode {level : Nat} {list : List Nat} {j : Nat}
    (hlist : (v.pushNode e lsn point level).listAt i l = some list) (hj : j ∈ list) : i < v.nodes.length ∧ v.listAt i l = some list := by
  have hlt : i < v.nodes.length := by
    rcases Nat.lt_trichotomy i v.nodes.length with hi | rfl | hi
    · exact hi
    · rw [listAt_pushNode_self] at hlist
      split at hlist
      · cases hlist
        exact (List.not_mem_nil hj).elim
      · cases hlist
    · obtain ⟨node, hnode, -⟩ := listAt_eq_some.1 hlist
      have hlength := (List.getElem?_eq_some_iff.1 hnode).1
      rw [pushNode, List.length_append, List.length_singleton] at hlength
      omega
  exact ⟨hlt, by rw [← hlist, listAt_pushNode_lt v e lsn hlt]⟩

/-- With a node pushed and connected the shape is kept, if the lists and the entry point have it. -/
theorem Steady.pushed {w : VectorIndex P E Sig} {level : Nat} {entry : Option Nat} (hs : Steady v) (hnew : v.byEvent e = none)
    (hroom : v.nodes.length < 2 ^ 32) (halike : Alike (v.pushNode e lsn point level) w)
    (hlives : ∀ i l list j, w.listAt i l = some list → j ∈ list → ∃ node, w.nodes[j]? = some node ∧ l ≤ node.level)
    (hentry : ∃ ep, entry = some ep ∧ ∃ node, w.nodes[ep]? = some node ∧ ∀ other ∈ w.nodes, other.level ≤ node.level) :
    Steady { w with entry := entry } := by
  obtain ⟨hids, hlsns, hevents, -⟩ := halike.tables
  obtain ⟨ep, rfl, htop⟩ := hentry
  exact {
    layered := fun node hnode => by
      obtain ⟨node', hmem, hlevel, hlength⟩ := halike.mem hnode
      rw [hlength, hlevel]
      rcases mem_pushNode hmem with hold | ⟨hlevel', hlength'⟩
      · exact hs.layered node' hold
      · rw [hlevel', hlength']
    lives := hlives
    empty := fun h => by cases h
    top := fun ep' hep' => by
      obtain rfl := Option.some.inj hep'
      exact htop
    m := halike.m.trans hs.m
    efConstruction := halike.efConstruction.trans hs.efConstruction
    ids := by
      dsimp only
      rw [hids, halike.length, pushNode, List.length_append, List.length_append, hs.ids]
      rfl
    lsns := by
      dsimp only
      rw [hlsns, halike.length, pushNode, List.length_append, List.length_append, hs.lsns]
      rfl
    events := fun e' i => by
      dsimp only
      rw [hevents, hids]
      exact events_pushNode hs hnew hroom e' i }

/-- An insertion behind an entry point, for the nodes of each level. -/
theorem Steady.grown (hs : Steady v) (hentry : v.entry = some ep) (hnew : v.byEvent e = none)
    (hroom : v.nodes.length < 2 ^ 32) (lsn : Nat) (point : P) :
    ∃ (node : Node P) (w : VectorIndex P E Sig) (sel : Nat → List Nat),
      v.nodes[ep]? = some node ∧ (∀ other ∈ v.nodes, other.level ≤ node.level) ∧
      v.insert S e lsn point = some (raise w node.level (v.randomLevel S) v.nodes.length) ∧
      Grown (levelSet v) (v.pushNode e lsn point (v.randomLevel S)) w v.nodes.length (min (v.randomLevel S) node.level) sel := by
  obtain ⟨node, hnode, htop⟩ := hs.top ep hentry
  obtain ⟨-, w, -, sel, -, -, hinsert, -, hgrown⟩ := insert_grown (S := S) e lsn point
    hs.closed antitone_levelSet (fun l i hi => levelSet_lt hi) (fun l => hs.closedAt_min l) (fun l _ => hs.closedAt l)
    hentry hnode ⟨node, hnode, Nat.le_refl _⟩ hnew hroom (by rw [hs.m]; decide)
    (S.level_fits _ _ (by rw [hs.m]; decide))
  exact ⟨node, w, sel, hnode, htop, hinsert, hgrown⟩

/-- What lives on a level still does with a node pushed and connected. -/
theorem levelSet_alike {w : VectorIndex P E Sig} {level j : Nat} (halike : Alike (v.pushNode e lsn point level) w)
    (hj : j ∈ levelSet v l ∨ j = v.nodes.length ∧ l ≤ level) : ∃ node, w.nodes[j]? = some node ∧ l ≤ node.level := by
  rcases hj with hj | ⟨rfl, hl⟩
  · have hlt := levelSet_lt hj
    obtain ⟨node, hnode, hle⟩ := hj
    obtain ⟨node', hnode', -, hlevel, -⟩ := halike.node (by rw [nodes_pushNode_lt v e lsn hlt]; exact hnode)
    exact ⟨node', hnode', hlevel ▸ hle⟩
  · obtain ⟨node', hnode', -, hlevel, -⟩ := halike.node (nodes_pushNode_self v e lsn)
    exact ⟨node', hnode', by rw [hlevel]; exact hl⟩

/-- **An insertion keeps the shape.** -/
theorem Steady.insert (hs : Steady v) (hroom : v.byEvent e = none → v.nodes.length < 2 ^ 32) (lsn : Nat) (point : P) :
    ∃ v', v.insert S e lsn point = some v' ∧ Steady v' := by
  by_cases hknown : (v.byEvent e).isSome = true
  · exact ⟨v, insert_known hknown, hs⟩
  have hnew : v.byEvent e = none := Option.not_isSome_iff_eq_none.1 hknown
  have hroom := hroom hnew
  cases hentry : v.entry with
  | none =>
    have hnil := hs.empty hentry
    refine ⟨_, insert_first hnew hroom (S.level_fits _ _ (by rw [hs.m]; decide)) hentry, ?_⟩
    refine hs.pushed hnew hroom (Alike.refl (v.pushNode e lsn point (v.randomLevel S))) (fun i l list j hlist hj => ?_)
      ⟨_, rfl, _, nodes_pushNode_self v e lsn, fun other hother => ?_⟩
    · obtain ⟨hlt, -⟩ := mem_listAt_pushNode hlist hj
      rw [hnil] at hlt
      exact (Nat.not_lt_zero _ hlt).elim
    · rcases mem_pushNode hother with hold | ⟨hlevel, -⟩
      · rw [hnil] at hold
        exact (List.not_mem_nil hold).elim
      · exact Nat.le_of_eq hlevel
  | some ep =>
    obtain ⟨node, w, sel, hnode, htop, hinsert, hgrown⟩ := hs.grown (S := S) hentry hnew hroom lsn point
    have hlives : ∀ i l list j, w.listAt i l = some list → j ∈ list → ∃ node, w.nodes[j]? = some node ∧ l ≤ node.level := by
      intro i l list' j hlist' hj
      refine levelSet_alike hgrown.alike ?_
      rcases hgrown.mem hlist' hj with ⟨list, hlist, hj⟩ | ⟨hl, ⟨-, hj⟩ | ⟨-, rfl⟩⟩
      · exact Or.inl (hs.lives i l list j (mem_listAt_pushNode hlist hj).2 hj)
      · obtain ⟨ep', hep', hchosen⟩ := hgrown.chosen l hl
        have hat : ClosedAt (v.pushNode e lsn point (v.randomLevel S)) l (levelSet v l) := fun x hx => by
          rw [VectorIndex.layer, nodes_pushNode_lt v e lsn (levelSet_lt hx)]
          exact hs.closedAt l x hx
        exact Or.inl (hat.reach hep' (hchosen.member j hj).1)
      · exact Or.inr ⟨rfl, hl.trans (Nat.min_le_left _ _)⟩
    have hlevels : ∀ other ∈ w.nodes, other.level ≤ max node.level (v.randomLevel S) := fun other hother => by
      obtain ⟨node', hmem, hlevel, -⟩ := hgrown.alike.mem hother
      rcases mem_pushNode hmem with hold | ⟨hlevel', -⟩
      · exact hlevel ▸ Nat.le_trans (htop node' hold) (Nat.le_max_left _ _)
      · exact hlevel ▸ hlevel' ▸ Nat.le_max_right _ _
    refine ⟨_, hinsert, ?_⟩
    by_cases hup : node.level < v.randomLevel S
    · rw [raise, if_pos hup]
      obtain ⟨node', hnode', hle⟩ := levelSet_alike hgrown.alike (Or.inr ⟨rfl, Nat.le_refl _⟩)
      exact hs.pushed hnew hroom hgrown.alike hlives ⟨_, rfl, node', hnode', fun other hother => by
        have := hlevels other hother
        omega⟩
    · rw [raise, if_neg hup]
      obtain ⟨node', hnode', hle⟩ := levelSet_alike hgrown.alike (Or.inl ⟨node, hnode, Nat.le_refl _⟩)
      have hw : w.entry = some ep := hgrown.alike.tables.2.2.2.trans hentry
      show Steady { w with entry := w.entry }
      exact hs.pushed hnew hroom hgrown.alike hlives ⟨ep, hw, node', hnode', fun other hother => by
        have := hlevels other hother
        omega⟩

end Insert

theorem Steady.tombstoneEvent (hs : Steady v) (event : E) : Steady (v.tombstoneEvent event).2 := by
  unfold VectorIndex.tombstoneEvent
  split
  · exact ⟨⟨hs.layered, hs.lives, hs.empty, hs.top⟩, hs.m, hs.efConstruction, hs.ids, hs.lsns, hs.events⟩
  · exact hs

/-! ## What leads to what -/

/-- The entry point is in a part of the graph that is closed, whose nodes all lead to each other on the ground level, and that
has every live vector. -/
def Woven (v : VectorIndex P E Sig) : Prop := ∀ ep, v.entry = some ep → ∃ C : Set Nat, ep ∈ C ∧ Closed v C ∧
  (∀ i < v.nodes.length, i ∉ v.tombstones → i ∈ C) ∧ ∀ x ∈ C, ∀ y ∈ C, ReflTransGen (Link v 0) x y

theorem layer_zero (v : VectorIndex P E Sig) (i : Nat) : v.layer 0 i = v.listAt i 0 := by
  rw [VectorIndex.layer, listAt]
  refine Option.bind_congr (fun node _ => ?_)
  by_cases h : node.neighbors = []
  · rw [if_pos h, h]
    rfl
  · rw [if_neg h, Nat.zero_min]

theorem link_zero {x y : Nat} : Link v 0 x y ↔ ∃ list, v.listAt x 0 = some list ∧ y ∈ list := by
  rw [Link, layer_zero]

theorem Woven.tombstoneEvent (h : Woven v) (event : E) : Woven (v.tombstoneEvent event).2 := by
  unfold VectorIndex.tombstoneEvent
  split
  · intro ep hep
    obtain ⟨C, hC, hclosed, hlive, hjoined⟩ := h ep hep
    exact ⟨C, hC, hclosed, fun i hi hlive' => hlive i hi (fun hin => hlive' (Finset.mem_insert_of_mem hin)), hjoined⟩
  · exact h

theorem connect_append (id : Nat) (point : P) : ∀ (levels levels' : List Nat) (x : VectorIndex P E Sig × Nat),
    connect S id point (levels ++ levels') x = (connect S id point levels x).bind (connect S id point levels')
  | [], _, _ => rfl
  | l :: levels, levels', x => by
    rw [List.cons_append, connect, connect, Option.bind_assoc]
    exact Option.bind_congr (fun y _ => connect_append id point levels levels' y)

/-- A node whose lists are empty, in front of no other live vector. -/
theorem woven_single {w : VectorIndex P E Sig} {id : Nat} (hentry : w.entry = some id) (hnode : (w.listAt id 0).isSome = true)
    (hempty : ∀ l list j, w.listAt id l = some list → j ∉ list) (hlive : ∀ i < w.nodes.length, i ∉ w.tombstones → i = id) :
    Woven w := by
  intro ep hep
  obtain rfl : id = ep := Option.some.inj (hentry.symm.trans hep)
  refine ⟨{id}, rfl, closed_iff.2 ?_, hlive, ?_⟩
  · rintro i rfl
    exact ⟨hnode, fun l list hlist j hj => absurd hj (hempty l list j hlist)⟩
  · rintro x rfl y rfl
    exact .refl

section Ground

variable [DecidableEq E]

/-- What the new node has at the ground level is what was selected there. -/
theorem groundSelection_eq {top ep₀ ep₁ : Nat} {w : VectorIndex P E Sig} {s : List Nat}
    (happroach : (v.pushNode e lsn point (v.randomLevel S)).approach S point (v.randomLevel S) ep = some (top, ep₀))
    (hconnect : connect S v.nodes.length point (List.range (min (v.randomLevel S) top + 1)).reverse
      (v.pushNode e lsn point (v.randomLevel S), ep₀) = some (w, ep₁))
    (hself : w.listAt v.nodes.length 0 = some s) : groundSelection S v e lsn point ep = some s := by
  rw [List.range_eq_range', List.range'_succ, List.reverse_cons, connect_append] at hconnect
  obtain ⟨y, hy, hlast⟩ := Option.bind_eq_some_iff.1 hconnect
  rw [connect] at hlast
  obtain ⟨z, hz, hlast⟩ := Option.bind_eq_some_iff.1 hlast
  obtain rfl := Option.some.inj hlast
  obtain ⟨neighbors, hneighbors, hz⟩ := Option.bind_eq_some_iff.1 hz
  obtain ⟨x, -, hz⟩ := Option.bind_eq_some_iff.1 hz
  obtain ⟨node, hnode, hz⟩ := Option.bind_eq_some_iff.1 hz
  split at hz
  · rename_i hlt
    have hw := congrArg Prod.fst (Option.some.inj hz)
    dsimp only at hw
    have hown : (x.listAt v.nodes.length 0).isSome = true := isSome_listAt.2 ⟨node, hnode, hlt⟩
    obtain ⟨list, hlist⟩ := Option.isSome_iff_exists.1 hown
    rw [← hw, listAt_setList, if_pos ⟨rfl, rfl⟩, hlist, Option.map_some] at hself
    rw [groundSelection, happroach, Option.bind_some]
    dsimp only
    rw [hy, Option.bind_some, hneighbors, Option.map_some, hself]
  · cases hz

/-- A new node that is joined to a closed part at the ground level, whose lists there are not cut. -/
theorem joined_ground {C : Set Nat} {B : Nat → Set Nat} {top : Nat} {w : VectorIndex P E Sig} {sel : Nat → List Nat}
    (hclosed : Closed v C) (hjoined : ∀ x ∈ C, ∀ y ∈ C, ReflTransGen (Link v 0) x y)
    (hgrown : Grown B (v.pushNode e lsn point (v.randomLevel S)) w v.nodes.length top sel)
    (hkept : ∀ x ∈ sel 0, ∀ list, v.listAt x 0 = some list → list.length < v.m * 2) (hselC : ∀ x ∈ sel 0, x ∈ C)
    (hne : sel 0 ≠ []) : ∀ x ∈ Insert.insert v.nodes.length C, ∀ y ∈ Insert.insert v.nodes.length C,
      ReflTransGen (Link w 0) x y := by
  have hlt : ∀ {x}, x ∈ C → x < v.nodes.length := fun hx => (hclosed.closedAt 0).lt hx
  have hground := hgrown.joined 0 (Nat.zero_le _)
  have hback : ∀ x ∈ sel 0, ∃ list, v.listAt x 0 = some list ∧ w.listAt x 0 = some (list ++ [v.nodes.length]) := fun x hx => by
    have hsome : (w.listAt x 0).isSome = true := by
      rw [hgrown.alike.isSome_listAt, listAt_pushNode_lt v e lsn (hlt (hselC x hx))]
      exact (closed_iff.1 hclosed x (hselC x hx)).1
    obtain ⟨list', hlist'⟩ := Option.isSome_iff_exists.1 hsome
    obtain ⟨list, hlist, -, hcut⟩ := hground.back x hx list' hlist'
    rw [listAt_pushNode_lt v e lsn (hlt (hselC x hx))] at hlist
    exact ⟨list, hlist, by rw [hlist', hcut (hkept x hx list hlist)]⟩
  have hgrow : ∀ x ∈ C, ∀ y, Link v 0 x y → Link w 0 x y := fun x hx y hlink => by
    obtain ⟨list, hlist, hy⟩ := link_zero.1 hlink
    by_cases hsel : x ∈ sel 0
    · obtain ⟨list', hlist', hw⟩ := hback x hsel
      obtain rfl : list = list' := Option.some.inj (hlist.symm.trans hlist')
      exact link_zero.2 ⟨_, hw, List.mem_append_left _ hy⟩
    · refine link_zero.2 ⟨list, ?_, hy⟩
      rw [hground.others x (Nat.ne_of_lt (hlt hx)) hsel, listAt_pushNode_lt v e lsn (hlt hx), hlist]
  have hwalk : ∀ x ∈ C, ∀ y ∈ C, ReflTransGen (Link w 0) x y := fun x hx y hy => by
    have hpath := hjoined x hx y hy
    clear hy
    induction hpath with
    | refl => exact .refl
    | tail hreach hlink ih => exact ih.tail (hgrow _ ((hclosed.closedAt 0).reach hx hreach) _ hlink)
  obtain ⟨s, hs⟩ := List.exists_mem_of_ne_nil _ hne
  obtain ⟨list, -, hsw⟩ := hback s hs
  have hto : Link w 0 s v.nodes.length := link_zero.2 ⟨_, hsw, List.mem_append_right _ (List.mem_singleton_self _)⟩
  have hfrom : Link w 0 v.nodes.length s := link_zero.2 ⟨_, hground.own, hs⟩
  rintro x (rfl | hx) y (rfl | hy)
  · exact .refl
  · exact (hwalk s (hselC s hs) y hy).head hfrom
  · exact (hwalk x hx s (hselC s hs)).tail hto
  · exact hwalk x hx y hy

/-- **An insertion that meets the condition keeps every live vector within reach.** -/
theorem Woven.insert (h : Woven v) (hs : Steady v) (hlinks : Links S v (.insert e lsn point))
    (hv' : v.insert S e lsn point = some v') : Woven v' := by
  by_cases hknown : (v.byEvent e).isSome = true
  · rw [VectorIndex.insert_known hknown] at hv'
    cases hv'
    exact h
  have hnew : v.byEvent e = none := Option.not_isSome_iff_eq_none.1 hknown
  have hroom : v.nodes.length < 2 ^ 32 := hlinks.1 hnew
  have hlength : (v.pushNode e lsn point (v.randomLevel S)).nodes.length = v.nodes.length + 1 := by
    rw [pushNode, List.length_append, List.length_singleton]
  have hfresh : ((v.pushNode e lsn point (v.randomLevel S)).listAt v.nodes.length 0).isSome = true := by
    rw [listAt_pushNode_self, if_pos (Nat.zero_le _)]
    rfl
  cases hentry : v.entry with
  | none =>
    have hnil := hs.empty hentry
    rw [insert_first hnew hroom (S.level_fits _ _ (by rw [hs.m]; decide)) hentry] at hv'
    cases hv'
    refine woven_single rfl hfresh (fun l list j hlist hj => ?_) (fun i hi _ => ?_)
    · have hlist : (v.pushNode e lsn point (v.randomLevel S)).listAt v.nodes.length l = some list := hlist
      have hlt := (mem_listAt_pushNode hlist hj).1
      exact absurd hlt (Nat.lt_irrefl _)
    · have hi : i < v.nodes.length + 1 := hlength ▸ hi
      rw [hnil] at hi ⊢
      exact Nat.lt_one_iff.1 hi
  | some ep =>
    obtain ⟨C, hC, hclosed, hlive, hjoined⟩ := h ep hentry
    obtain ⟨node, hnode, -⟩ := hs.top ep hentry
    obtain ⟨hmeets, hprunes⟩ := hlinks.2 hnew ep hentry
    have hlt : ∀ {x}, x ∈ C → x < v.nodes.length := fun hx => (hclosed.closedAt 0).lt hx
    have hCl : ∀ l, ClosedAt v l (C ∩ levelSet v l) := fun l i hi => by
      obtain ⟨list, hlist, hmem⟩ := hs.closedAt l i hi.2
      obtain ⟨list', hlist', hmem'⟩ := hclosed.closedAt l i hi.1
      obtain rfl : list = list' := Option.some.inj (hlist.symm.trans hlist')
      exact ⟨list, hlist, fun j hj => ⟨hmem' j hj, hmem j hj⟩⟩
    obtain ⟨ep₀, w, ep₁, sel, happroach, hconnect, hinsert, hAw, hgrown⟩ := insert_grown (S := S) (B := fun l => C ∩ levelSet v l)
      e lsn point hclosed
      (fun l l' hl i hi => ⟨hi.1, antitone_levelSet hl hi.2⟩) (fun l i hi => hi.1)
      (fun l i hi => by
        obtain ⟨node, hnode, hle⟩ := hi.2
        exact ⟨node, hnode, by rw [Nat.min_eq_left hle]; exact hCl l⟩)
      (fun l _ => hCl l) hentry hnode ⟨hC, node, hnode, Nat.le_refl _⟩ hnew hroom (by rw [hs.m]; decide)
      (S.level_fits _ _ (by rw [hs.m]; decide))
    obtain rfl := Option.some.inj (hinsert.symm.trans hv')
    have hselC : ∀ l ≤ min (v.randomLevel S) node.level, ∀ x ∈ sel l, x ∈ C ∧ x ∉ v.tombstones := fun l hl x hx => by
      obtain ⟨ep', hep', hchosen⟩ := hgrown.chosen l hl
      have hat : ClosedAt (v.pushNode e lsn point (v.randomLevel S)) l C := hclosed.pushNode.closedAt l
      exact ⟨hat.reach hep'.1 (hchosen.member x hx).1, (hchosen.member x hx).2.2⟩
    have htomb : w.tombstones = v.tombstones := hgrown.alike.tombstones
    have hwlen : w.nodes.length = v.nodes.length + 1 := hgrown.alike.length.trans hlength
    by_cases hsome : ∃ i, i < v.nodes.length ∧ i ∉ v.tombstones
    · -- a live vector is within reach, so some are selected
      obtain ⟨i, hi, hilive⟩ := hsome
      have hne : sel 0 ≠ [] := fun hnil => by
        obtain ⟨ep', hep', hchosen⟩ := hgrown.chosen 0 (Nat.zero_le _)
        have hpath := hjoined ep' hep'.1 i (hlive i hi hilive)
        have hpushed : ReflTransGen (Link (v.pushNode e lsn point (v.randomLevel S)) 0) ep' i := by
          clear hi hilive
          induction hpath with
          | refl => exact .refl
          | tail hreach hlink ih =>
            refine ih.tail ?_
            rw [link_pushNode v e lsn (hlt ((hclosed.closedAt 0).reach hep'.1 hreach))]
            exact hlink
        have := hchosen.nonempty (by show 0 < v.m; rw [hs.m]; decide) (by show 1 < v.efConstruction; rw [hs.efConstruction]; decide)
          hnil i hpushed hilive
        omega
      have hkept : ∀ x ∈ sel 0, ∀ list, v.listAt x 0 = some list → list.length < v.m * 2 := fun x hx list hlist => by
        have hground := groundSelection_eq happroach hconnect (hgrown.joined 0 (Nat.zero_le _)).own
        rw [prunes, hground, Option.getD_some, List.any_eq_false] at hprunes
        have := hprunes x hx
        rw [hlist, Option.map_some, Option.getD_some, decide_eq_true_eq, Nat.not_le] at this
        exact this
      have hwoven : ∀ x ∈ Insert.insert v.nodes.length C, ∀ y ∈ Insert.insert v.nodes.length C, ReflTransGen (Link w 0) x y :=
        joined_ground hclosed hjoined hgrown hkept (fun x hx => (hselC 0 (Nat.zero_le _) x hx).1) hne
      have hlive' : ∀ i < w.nodes.length, i ∉ w.tombstones → i ∈ Insert.insert v.nodes.length C := fun i hi hilive => by
        rw [hwlen] at hi
        rcases Nat.lt_succ_iff_lt_or_eq.1 hi with hi | rfl
        · exact Or.inr (hlive i hi (htomb ▸ hilive))
        · exact Or.inl rfl
      intro ep' hep'
      by_cases hup : node.level < v.randomLevel S
      · rw [if_pos hup] at hep' ⊢
        obtain rfl := Option.some.inj hep'
        exact ⟨_, Or.inl rfl, hAw, hlive', hwoven⟩
      · rw [if_neg hup] at hep' ⊢
        obtain rfl : ep = ep' := Option.some.inj ((hgrown.alike.tables.2.2.2.trans hentry).symm.trans hep')
        exact ⟨_, Or.inr hC, hAw, hlive', hwoven⟩
    · -- none is live, so none is selected, and the new vector is the entry point
      have hup : node.level < v.randomLevel S := (hmeets.resolve_left hsome) node hnode
      have hselnil : ∀ l ≤ min (v.randomLevel S) node.level, ∀ x, x ∉ sel l := fun l hl x hx =>
        hsome ⟨x, hlt (hselC l hl x hx).1, (hselC l hl x hx).2⟩
      rw [if_pos hup]
      refine woven_single rfl ?_ (fun l list' j hlist' hj => ?_) (fun i hi hilive => ?_)
      · show (w.listAt v.nodes.length 0).isSome = true
        rw [hgrown.alike.isSome_listAt, hfresh]
      · rcases hgrown.mem hlist' hj with ⟨list, hlist, hj⟩ | ⟨hl, ⟨-, hj⟩ | ⟨hj, -⟩⟩
        · exact absurd (mem_listAt_pushNode hlist hj).1 (Nat.lt_irrefl _)
        · exact hselnil l hl j hj
        · exact hselnil l hl _ hj
      · have hi : i < v.nodes.length + 1 := hwlen ▸ hi
        by_contra hne
        exact hsome ⟨i, by omega, htomb ▸ hilive⟩

end Ground

/-! ## Search -/

theorem notMem_of_passes {filter : Option (Finset Nat)} (h : v.passes filter i = true) : i ∉ v.tombstones := by
  unfold passes at h
  rw [Bool.and_eq_true] at h
  exact of_decide_eq_true h.1

theorem Steady.hit (hs : Steady v) {c : Candidate D} (hc : c.id < v.nodes.length) : ∃ h, v.hit S c = some h ∧
    v.ids[c.id]? = some h.id ∧ v.lsns[c.id]? = some h.lsn ∧ h.dist = S.narrow c.dist := by
  have hid : c.id < v.ids.length := hs.ids ▸ hc
  have hlsn : c.id < v.lsns.length := hs.lsns ▸ hc
  exact ⟨{ id := v.ids[c.id], lsn := v.lsns[c.id], dist := S.narrow c.dist }, by
    rw [VectorIndex.hit, List.getElem?_eq_getElem hid, Option.bind_some, List.getElem?_eq_getElem hlsn, Option.map_some],
    List.getElem?_eq_getElem hid, List.getElem?_eq_getElem hlsn, rfl⟩

theorem Steady.nodup (hs : Steady v) : v.ids.Nodup := by
  rw [List.nodup_iff_injective_get]
  intro i j hij
  have hi := (hs.events (v.ids.get i) i).2 (List.getElem?_eq_getElem i.2)
  have hj := (hs.events (v.ids.get j) j).2 (List.getElem?_eq_getElem j.2)
  rw [hij, hj] at hi
  exact Fin.ext (Option.some.inj hi).symm

/-- **Where every live vector is within reach, a search finds all that pass.** -/
theorem Woven.complete (h : Woven v) (hs : Steady v) : Complete S v := by
  refine ⟨hs.nodup, fun query k ef filter hk => ?_⟩
  cases hentry : v.entry with
  | none =>
    refine ⟨[], [], by rw [search, hentry], ?_, .nil, .nil⟩
    rw [hs.empty hentry]
    exact .refl _
  | some ep =>
    obtain ⟨C, hC, hclosed, hlive, hjoined⟩ := h ep hentry
    obtain ⟨node, hnode, -⟩ := hs.top ep hentry
    obtain ⟨ep', hdescend, hep'⟩ := hclosed.descend (S := S) hC node.level query
    obtain ⟨out, hout, hsorted, hfound⟩ := searchLayer_found (S := S) (hclosed.closedAt 0) hep' query
      (max (max ef k) (min v.efConstruction 64)) filter
    have hlt : ∀ c ∈ out, c.id < v.nodes.length := fun c hc =>
      (hclosed.closedAt 0).lt ((hclosed.closedAt 0).reach hep' (hfound.sound c hc).1)
    have hperm : (out.map (·.id)).Perm ((List.range v.nodes.length).filter (fun i => v.passes filter i)) := by
      rw [List.perm_ext_iff_of_nodup hfound.nodup (List.nodup_range.filter _)]
      intro x
      rw [List.mem_filter, List.mem_range]
      constructor
      · intro hx
        obtain ⟨c, hc, rfl⟩ := List.mem_map.1 hx
        exact ⟨hlt c hc, (hfound.sound c hc).2.1⟩
      · rintro ⟨hx, hpass⟩
        obtain ⟨c, hc, hid⟩ := hfound.all (hclosed.closedAt 0) hep' (by omega)
          (hjoined ep' hep' x (hlive x hx (notMem_of_passes hpass))) hpass
        exact List.mem_map.2 ⟨c, hc, hid⟩
    have htake : out.take k = out := by
      have hlength := hperm.length_eq
      have hfilter := List.length_filter_le (fun i => v.passes filter i) (List.range v.nodes.length)
      rw [List.length_map] at hlength
      rw [List.length_range] at hfilter
      exact List.take_of_length_le (by omega)
    obtain ⟨hits, hhits, hall⟩ := mapM_eq_some_of_forall (f := v.hit S) (l := out) (R := fun c h => v.ids[c.id]? = some h.id ∧
      v.lsns[c.id]? = some h.lsn ∧ (v.dist S c.id query).map S.narrow = some h.dist) (fun c hc => by
      obtain ⟨h, hh, hid, hlsn, hdist⟩ := hs.hit (S := S) (hlt c hc)
      exact ⟨h, hh, hid, hlsn, by rw [(hfound.sound c hc).2.2, Option.map_some, hdist]⟩)
    refine ⟨out.map (·.id), hits, ?_, hperm, ?_, ?_⟩
    · rw [search, hentry]
      dsimp only
      rw [hnode, Option.bind_some, hdescend, Option.bind_some, hout, Option.bind_some, htake, hhits]
    · rw [List.pairwise_map]
      refine List.Pairwise.imp_of_mem (fun {c c'} hc hc' hle a b ha hb => ?_) hsorted
      obtain rfl : c.dist = a := Option.some.inj ((hfound.sound c hc).2.2.symm.trans ha)
      obtain rfl : c'.dist = b := Option.some.inj ((hfound.sound c' hc').2.2.symm.trans hb)
      exact hle
    · rw [List.forall₂_map_left_iff]
      exact hall

/-! ## Runs -/

section Runs

variable [DecidableEq E]

/-- **Any sequence of insertions and tombstones keeps the shape while ids fit**, and **while each new vector finds a live one or
rises above the entry point and no list of the ground level is cut, a search finds every vector**. -/
theorem vectors_found (metric : Sig) (calls : List (Call P E)) :
    (allOk (step S) Room (new metric) calls → ∃ v, runs (step S) (new metric) calls = some v ∧ Shaped v) ∧
    (allOk (step S) (Links S) (new metric) calls → ∃ v, runs (step S) (new metric) calls = some v ∧ Shaped v ∧ Complete S v) := by
  constructor
  · intro hok
    have hstep : ∀ (v : VectorIndex P E Sig) (c : Call P E), Steady v → Room v c → ∃ v', step S v c = some v' ∧ Steady v' := by
      intro v c hs hroom
      cases c with
      | insert e lsn point => exact hs.insert hroom lsn point
      | tombstoneEvent event => exact ⟨_, rfl, hs.tombstoneEvent event⟩
    obtain ⟨v, hv, hs⟩ := runs_of_allOk hstep (steady_new metric) hok
    exact ⟨v, hv, hs.toShaped⟩
  · intro hok
    have hstep : ∀ (v : VectorIndex P E Sig) (c : Call P E), Steady v ∧ Woven v → Links S v c →
        ∃ v', step S v c = some v' ∧ Steady v' ∧ Woven v' := by
      intro v c hs hlinks
      cases c with
      | insert e lsn point =>
        obtain ⟨v', hv', hs'⟩ := hs.1.insert (S := S) hlinks.1 lsn point
        exact ⟨v', hv', hs', hs.2.insert hs.1 hlinks hv'⟩
      | tombstoneEvent event => exact ⟨_, rfl, hs.1.tombstoneEvent event, hs.2.tombstoneEvent event⟩
    obtain ⟨v, hv, hs, hw⟩ := runs_of_allOk hstep ⟨steady_new metric, fun ep hep => by cases hep⟩ hok
    exact ⟨v, hv, hs.toShaped, hw.complete hs⟩

end Runs

/-! ## On a line -/

instance {D : Type} [LinearOrder D] : Std.Total (fun a b : Candidate D => a.dist ≤ b.dist) := ⟨fun a b => le_total a.dist b.dist⟩

instance {D : Type} [LinearOrder D] : IsTrans (Candidate D) (fun a b => a.dist ≤ b.dist) := ⟨fun _ _ _ h h' => le_trans h h'⟩

instance {D : Type} [LinearOrder D] : Std.Total (fun a b : Candidate D => b.dist ≤ a.dist) := ⟨fun a b => le_total b.dist a.dist⟩

instance {D : Type} [LinearOrder D] : IsTrans (Candidate D) (fun a b => b.dist ≤ a.dist) := ⟨fun _ _ _ h h' => le_trans h' h⟩

/-- Points on a line; the number drawn second makes a node with two levels, every other one a node of the ground level. -/
def line : Host Nat Nat Nat Unit where
  metricDist _ a b := (a - b) + (b - a)
  less a b := decide (a < b)
  least := 0
  narrow d := d
  nearest := .sorted
  farthest := .sorted
  level m i := if m = 1 then 2 ^ 64 - 1 else if i = 1 then 1 else 0
  level_fits m i h := by
    rw [if_neg h]
    split <;> decide
  level_one i := rfl

/-- Three points of which the second is raised above the first, and the first is let go before the third comes. -/
theorem line_found : ∃ v, runs (step line) (new () : VectorIndex Nat Nat Unit)
    [.insert 7 0 10, .insert 8 1 20, .tombstoneEvent 7, .insert 9 2 30] = some v ∧ Shaped v ∧ Complete line v :=
  (vectors_found () _).2 (by decide +kernel)

/-- **A vector that comes when every other is let go is lost.** -/
theorem lone_lost : ∃ v, runs (step line) (new () : VectorIndex Nat Nat Unit)
    [.insert 7 0 10, .insert 9 1 20, .tombstoneEvent 7, .tombstoneEvent 9, .insert 8 2 30] = some v ∧ ¬Complete line v := by
  have hsearch : (runs (step line) (new () : VectorIndex Nat Nat Unit)
      [.insert 7 0 10, .insert 9 1 20, .tombstoneEvent 7, .tombstoneEvent 9, .insert 8 2 30]).bind (fun v =>
        (v.search line 30 3 3 none).map (fun hits => (hits, v.nodes.length, v.passes none 2))) = some ([], 3, true) := by
    decide +kernel
  obtain ⟨v, hv, hhits⟩ := Option.bind_eq_some_iff.1 hsearch
  obtain ⟨hits, hhits, heq⟩ := Option.map_eq_some_iff.1 hhits
  simp only [Prod.mk.injEq] at heq
  obtain ⟨rfl, hlength, hpass⟩ := heq
  refine ⟨v, hv, fun h => ?_⟩
  obtain ⟨order, hits, hfound, hperm, -, hall⟩ := h.finds 30 3 3 none (Nat.le_of_eq hlength)
  obtain rfl := Option.some.inj (hhits.symm.trans hfound)
  obtain rfl := List.forall₂_nil_right_iff.1 hall
  have hmem : 2 ∈ (List.range v.nodes.length).filter (fun i => v.passes none i) :=
    List.mem_filter.2 ⟨List.mem_range.2 (by omega), hpass⟩
  exact List.not_mem_nil (hperm.mem_iff.2 hmem)

end VectorIndex
end Heraclitus
