import Heraclitus.VectorCheckpoint
/-!
# VectorLoad — what a decoded checkpoint can do (`heraclitus-index-vector/src/lib.rs`, `load_checkpoint`)

The checks at load compare lengths and look at the entry point, not at the neighbour ids nor at the degree.  With the ids that lists
lead to in range and a degree whose double and whose levels fit, every later call completes.
-/
namespace Heraclitus
namespace VectorIndex

variable {P D F E Sig : Type} [LinearOrder D] {S : Host P D F Sig} {v v' : VectorIndex P E Sig} {A : Set Nat}
variable {e : E} {lsn : Nat} {point : P} {snap : VectorSnapshot P E Sig}

/-- What lists lead to from the entry point. -/
inductive Leads (snap : VectorSnapshot P E Sig) : Nat → Prop
  | entry {ep : Nat} : snap.entry = some ep → Leads snap ep
  | neighbor {i j : Nat} {node : Node P} {list : List Nat} : Leads snap i → snap.nodes[i]? = some node →
    list ∈ node.neighbors → j ∈ list → Leads snap j

/-- No level at its largest is compared; and if the file is accepted, the degree is not 1, its double fits, and the neighbours are
nodes. -/
structure Safe (snap : VectorSnapshot P E Sig) : Prop where
  compared : (coherent snap).isSome = true
  degree : coherent snap = some true → snap.m ≠ 1 ∧ snap.m * 2 < 2 ^ 64
  neighbors : coherent snap = some true → ∀ i, Leads snap i → i < snap.nodes.length

inductive Later (P E : Type) where
  | call (c : Call P E)
  | search (query : P) (k ef : Nat) (filter : Option (Finset Nat))

def laterStep [DecidableEq E] (S : Host P D F Sig) (v : VectorIndex P E Sig) : Later P E → Option (VectorIndex P E Sig)
  | .call c => step S v c
  | .search query k ef filter => (v.search S query k ef filter).map (fun _ => v)

def LaterRoom (v : VectorIndex P E Sig) : Later P E → Prop
  | .call c => Room v c
  | .search _ _ _ _ => True

/-- An index whose entry point leads to nodes only, and whose degree does not overflow. -/
structure Guarded (v : VectorIndex P E Sig) : Prop where
  ids : v.ids.length = v.nodes.length
  lsns : v.lsns.length = v.nodes.length
  degree : v.m ≠ 1 ∧ v.m * 2 < 2 ^ 64
  entry : ∀ ep, v.entry = some ep → ∃ A : Set Nat, ep ∈ A ∧ Closed v A

theorem layered_eq_true : ∀ {nodes : List (Node P)}, layered nodes = some true → ∀ node ∈ nodes, node.neighbors ≠ []
  | [], _, _, hnode => (List.not_mem_nil hnode).elim
  | node :: nodes, h, node', hnode => by
    rw [layered] at h
    split at h
    · split at h
      · rename_i hne
        rcases List.mem_cons.1 hnode with rfl | hnode
        · exact hne.2
        · exact layered_eq_true h node' hnode
      · cases h
    · cases h

theorem coherent_eq_true (h : coherent snap = some true) : snap.nodes.length = snap.ids.length ∧
    snap.nodes.length = snap.lsns.length ∧ ∀ node ∈ snap.nodes, node.neighbors ≠ [] := by
  unfold coherent at h
  split at h
  · rename_i hlengths
    obtain ⟨layers, hlayers, h⟩ := Option.map_eq_some_iff.1 h
    rw [Bool.and_eq_true] at h
    rw [h.1] at hlayers
    exact ⟨hlengths.1, hlengths.2, layered_eq_true hlayers⟩
  · cases h

theorem Guarded.hit (hg : Guarded v) {c : Candidate D} (hc : c.id < v.nodes.length) : ∃ h, v.hit S c = some h := by
  have hid : c.id < v.ids.length := hg.ids ▸ hc
  have hlsn : c.id < v.lsns.length := hg.lsns ▸ hc
  exact ⟨_, by rw [VectorIndex.hit, List.getElem?_eq_getElem hid, Option.bind_some, List.getElem?_eq_getElem hlsn,
    Option.map_some]⟩

theorem Guarded.search (hg : Guarded v) (query : P) (k ef : Nat) (filter : Option (Finset Nat)) :
    ∃ hits, v.search S query k ef filter = some hits := by
  cases hentry : v.entry with
  | none => exact ⟨[], by rw [VectorIndex.search, hentry]⟩
  | some ep =>
    obtain ⟨A, hep, hA⟩ := hg.entry ep hentry
    obtain ⟨node, hnode, -⟩ := hA ep hep
    obtain ⟨ep', hdescend, hep'⟩ := hA.descend (S := S) hep node.level query
    obtain ⟨out, hout, -, hfound⟩ := searchLayer_found (S := S) (hA.closedAt 0) hep' query
      (max (max ef k) (min v.efConstruction 64)) filter
    obtain ⟨hits, hhits, -⟩ := mapM_eq_some_of_forall (f := v.hit S) (l := out.take k) (R := fun _ _ => True) (fun c hc => by
      have hreach := (hfound.sound c (List.mem_of_mem_take hc)).1
      obtain ⟨h, hh⟩ := hg.hit (S := S) ((hA.closedAt 0).lt ((hA.closedAt 0).reach hep' hreach))
      exact ⟨h, hh, trivial⟩)
    refine ⟨hits, ?_⟩
    rw [VectorIndex.search, hentry]
    dsimp only
    rw [hnode, Option.bind_some, hdescend, Option.bind_some, hout, Option.bind_some, hhits]

theorem Guarded.tombstoneEvent (hg : Guarded v) (event : E) : Guarded (v.tombstoneEvent event).2 := by
  unfold VectorIndex.tombstoneEvent
  split
  · exact ⟨hg.ids, hg.lsns, hg.degree, hg.entry⟩
  · exact hg

section Later

variable [DecidableEq E]

/-- With a node pushed and connected, for an entry point of a closed set. -/
theorem Guarded.pushed {w : VectorIndex P E Sig} {level ep : Nat} (hg : Guarded v)
    (halike : Alike (v.pushNode e lsn point level) w) (hA : Closed w A) (hep : ep ∈ A) : Guarded { w with entry := some ep } where
  ids := by
    dsimp only
    rw [halike.tables.1, halike.length, pushNode, List.length_append, List.length_append, hg.ids]
    rfl
  lsns := by
    dsimp only
    rw [halike.tables.2.1, halike.length, pushNode, List.length_append, List.length_append, hg.lsns]
    rfl
  degree := by
    dsimp only
    rw [halike.m]
    exact hg.degree
  entry ep' hep' := by
    obtain rfl := Option.some.inj hep'
    exact ⟨A, hep, hA⟩

/-- **An insertion completes, and the entry point still leads to nodes only.** -/
theorem Guarded.insert (hg : Guarded v) (hroom : v.byEvent e = none → v.nodes.length < 2 ^ 32) (lsn : Nat) (point : P) :
    ∃ v', v.insert S e lsn point = some v' ∧ Guarded v' := by
  by_cases hknown : (v.byEvent e).isSome = true
  · exact ⟨v, insert_known hknown, hg⟩
  have hnew : v.byEvent e = none := Option.not_isSome_iff_eq_none.1 hknown
  have hroom := hroom hnew
  have hfit : v.randomLevel S + 1 < 2 ^ 64 := S.level_fits _ _ hg.degree.1
  cases hentry : v.entry with
  | none =>
    have hempty : Closed v ∅ := fun i hi => hi.elim
    exact ⟨_, insert_first hnew hroom hfit hentry, hg.pushed (.refl _) hempty.pushNode_insert (Set.mem_insert ..)⟩
  | some ep =>
    obtain ⟨A, hep, hA⟩ := hg.entry ep hentry
    obtain ⟨node, hnode, -⟩ := hA ep hep
    obtain ⟨ep₀, w, ep₁, sel, -, -, hinsert, hAw, hgrown⟩ := insert_grown (S := S) (B := fun _ => A) e lsn point
      hA antitone_const (fun _ => Set.Subset.rfl)
      (fun l i hi => by
        obtain ⟨node, hnode, -⟩ := hA i hi
        exact ⟨node, hnode, hA.closedAt _⟩)
      (fun l _ => hA.closedAt l) hentry hnode hep hnew hroom hg.degree.2 hfit
    refine ⟨_, hinsert, ?_⟩
    split
    · exact hg.pushed hgrown.alike hAw (Set.mem_insert ..)
    · have hw : w.entry = some ep := hgrown.alike.tables.2.2.2.trans hentry
      have hguarded := hg.pushed hgrown.alike hAw (Or.inr hep)
      rw [← hw] at hguarded
      exact hguarded

/-- **A decoded checkpoint that is safe is refused, or every later sequence of calls completes.** -/
theorem load_safe (S : Host P D F Sig) (v : VectorIndex P E Sig) (hsafe : Safe snap) :
    loadCheckpoint v (some snap) = some (false, v) ∨ ∃ v', loadCheckpoint v (some snap) = some (true, v') ∧
      ∀ laters, allOk (laterStep S) LaterRoom v' laters → ∃ last, runs (laterStep S) v' laters = some last := by
  obtain ⟨ok, hok⟩ := Option.isSome_iff_exists.1 hsafe.compared
  rw [loadCheckpoint, hok, Option.map_some]
  cases ok with
  | false => exact Or.inl rfl
  | true =>
    refine Or.inr ⟨_, rfl, fun laters hlaters => ?_⟩
    obtain ⟨hids, hlsns, hlists⟩ := coherent_eq_true hok
    have hstep : ∀ (v : VectorIndex P E Sig) (c : Later P E), Guarded v → LaterRoom v c →
        ∃ v', laterStep S v c = some v' ∧ Guarded v' := by
      intro v c hg hroom
      cases c with
      | call c =>
        cases c with
        | insert e lsn point => exact hg.insert (S := S) hroom lsn point
        | tombstoneEvent event => exact ⟨_, rfl, hg.tombstoneEvent event⟩
      | search query k ef filter =>
        obtain ⟨hits, hhits⟩ := hg.search (S := S) query k ef filter
        exact ⟨v, by rw [laterStep, hhits, Option.map_some], hg⟩
    refine (runs_of_allOk hstep ⟨hids.symm, hlsns.symm, hsafe.degree hok, fun ep hep => ?_⟩ hlaters).imp (fun _ h => h.1)
    refine ⟨{i | Leads snap i}, .entry hep, fun i hi => ?_⟩
    have hlt := hsafe.neighbors hok i hi
    exact ⟨_, List.getElem?_eq_getElem hlt, hlists _ (List.getElem_mem hlt),
      fun list hlist j hj => .neighbor hi (List.getElem?_eq_getElem hlt) hlist hj⟩

end Later

/-- Two points linked to each other. -/
def linked : VectorSnapshot Nat Nat Unit where
  m := 16
  efConstruction := 200
  nodes := [{ point := 10, level := 0, neighbors := [[1]] }, { point := 20, level := 0, neighbors := [[0]] }]
  entry := some 0
  ids := [7, 8]
  lsns := [0, 1]
  watermark := 1
  sig := ()
  tombstones := []

theorem linked_loads : ∃ v', loadCheckpoint (new ()) (some linked) = some (true, v') ∧
    ∀ laters, allOk (laterStep line) LaterRoom v' laters → ∃ last, runs (laterStep line) v' laters = some last := by
  have hlists : ∀ node ∈ linked.nodes, ∀ list ∈ node.neighbors, ∀ j ∈ list, j < linked.nodes.length := by decide
  have hsafe : Safe linked := {
    compared := by decide
    degree := fun _ => by decide
    neighbors := fun _ i h => by
      induction h with
      | entry hep =>
        obtain rfl := Option.some.inj hep
        decide
      | neighbor _ hnode hlist hj => exact hlists _ (List.mem_of_getElem? hnode) _ hlist _ hj }
  refine (load_safe line (new ()) hsafe).resolve_left (fun h => ?_)
  have htrue : (loadCheckpoint (new ()) (some linked)).map (·.1) = some true := by decide
  rw [h] at htrue
  cases htrue

/-- **A neighbour id outside is accepted, and the first search stops at it.** -/
theorem dangling_accepted : ∃ v', loadCheckpoint (new ()) (some { linked with
    nodes := [{ point := 10, level := 0, neighbors := [[5]] }]
    ids := [7]
    lsns := [0] }) = some (true, v') ∧ runs (laterStep line) v' [.search 10 1 1 none] = none := by
  refine ⟨_, rfl, ?_⟩
  decide

end VectorIndex
end Heraclitus
