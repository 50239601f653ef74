import Heraclitus.TemporalAsOf
import Heraclitus.Encryption
import Heraclitus.Lib.Extrema
import Heraclitus.Lib.LittleEndian
/-!
# TemporalRedelivery — events applied a second time (`heraclitus-index-graph/src/temporal.rs`)

A known assert adds nothing to the versions, opens a closed edge again and leaves an open one alone; a close closes an open
edge.  So a second delivery is harmless as long as it does to no edge what the log undid later.
-/
namespace Heraclitus
namespace Temporal

open Crypto (asBytes)

/-! ## The state hash -/

def edgeBytes (p : Str × Edge) : Bytes :=
  asBytes p.1 ++ asBytes p.2.from_ ++ asBytes p.2.to_ ++ asBytes p.2.etype.key ++ leBytes 8 p.2.validFromLsn ++
    leBytes 8 (p.2.validToLsn.getD u64Max) ++ p.2.closedIntervals.flatMap (fun i => leBytes 8 i.1 ++ leBytes 8 i.2)

def versionBytes (v : EdgeVersion) : Bytes :=
  asBytes v.hypothesisId ++ leBytes 4 v.confidence.toNat ++ asBytes v.source ++ leBytes 4 v.polarity.toNat ++
    leBytes 8 v.validFromLsn ++ v.provenance.flatMap asBytes

def hashInput (g : TemporalGraph) : Bytes :=
  g.edges.entries.flatMap edgeBytes ++ g.versions.entries.flatMap (fun p => asBytes p.1 ++ p.2.flatMap versionBytes)

def stateHash (blake3 : Bytes → Digest) (g : TemporalGraph) : Digest := blake3 (hashInput g)

/-- The same hash, by whatever function, and the same reads as of any LSN. -/
structure Unchanged (env : Env) (g g' : TemporalGraph) : Prop where
  hash : ∀ blake3, stateHash blake3 g' = stateHash blake3 g
  reads : ∀ t, TemporalGraph.SameReads env t g' g

variable {env : Env} {g : TemporalGraph} {lsn : Nat} {m : Mutation}

theorem length_intervals : ∀ l : List (Nat × Nat), (l.flatMap (fun i => leBytes 8 i.1 ++ leBytes 8 i.2)).length = 16 * l.length
  | [] => rfl
  | i :: l => by
    rw [List.flatMap_cons, List.length_append, length_intervals l, List.length_append, length_leBytes, length_leBytes,
      List.length_cons]
    omega

theorem length_edgeBytes (p : Str × Edge) : (edgeBytes p).length = (asBytes p.1).length + (asBytes p.2.from_).length
    + (asBytes p.2.to_).length + (asBytes p.2.etype.key).length + 16 + 16 * p.2.closedIntervals.length := by
  simp only [edgeBytes, List.length_append, length_intervals, length_leBytes]

/-! ## One mutation again -/

namespace TemporalGraph

/-- The graph has seen the edge and the hypothesis of a mutation. -/
def Knows (g : TemporalGraph) : Mutation → Prop
  | .close _ => True
  | .assert edge version => (g.edges.get? edge.id).isSome ∧ ∃ vs, g.versions.get? edge.id = some vs ∧
      vs.Pairwise byHypothesis ∧ ∃ v ∈ vs, v.hypothesisId = version.hypothesisId

theorem versions_upsertEdge (edge : Edge) (v : EdgeVersion) : (g.upsertEdge edge [v]).versions
    = g.versions.alter edge.id (fun entry => some ((addVersion (entry.getD []) v).insertionSort byHypothesis)) := by
  unfold upsertEdge
  dsimp only
  split <;> rfl

theorem mem_addVersion {vs : List EdgeVersion} {v : EdgeVersion} :
    (∃ w ∈ addVersion vs v, w.hypothesisId = v.hypothesisId) ∧ ∀ w ∈ vs, w ∈ addVersion vs v := by
  unfold addVersion
  split
  · rename_i h
    obtain ⟨w, hw, heq⟩ := List.any_eq_true.1 h
    exact ⟨⟨w, hw, by simpa using heq⟩, fun w hw => hw⟩
  · exact ⟨⟨v, by simp, rfl⟩, fun w hw => List.mem_append_left _ hw⟩

theorem addVersion_of_known {vs : List EdgeVersion} {v : EdgeVersion} (h : ∃ w ∈ vs, w.hypothesisId = v.hypothesisId) :
    addVersion vs v = vs := by
  obtain ⟨w, hw, heq⟩ := h
  unfold addVersion
  rw [if_pos (List.any_eq_true.2 ⟨w, hw, by simpa using heq⟩)]

theorem byHypothesis_trans : ∀ a b c, byHypothesis a b → byHypothesis b c → byHypothesis a c := fun _ _ _ => le_trans

theorem sorted_insertionSort (vs : List EdgeVersion) : (vs.insertionSort byHypothesis).Pairwise byHypothesis := by
  have : Std.Total byHypothesis := ⟨fun a b => le_total a.hypothesisId b.hypothesisId⟩
  have : IsTrans EdgeVersion byHypothesis := ⟨byHypothesis_trans⟩
  exact List.pairwise_insertionSort byHypothesis vs

theorem knows_mutate_self (lsn : Nat) (m : Mutation) : (g.mutate lsn m).Knows m := by
  cases m with
  | close id => trivial
  | assert edge version =>
    refine ⟨?_, ?_⟩
    · rw [mutate, edges_upsertEdge, SortedMap.get?_insert, if_pos rfl]
      rfl
    · refine ⟨_, by rw [mutate, versions_upsertEdge, SortedMap.get?_alter, if_pos rfl], sorted_insertionSort _, ?_⟩
      obtain ⟨w, hw, heq⟩ := (@mem_addVersion ((g.versions.get? edge.id).getD []) version).1
      exact ⟨w, (List.perm_insertionSort byHypothesis _).mem_iff.2 hw, heq⟩

/-- What is known stays known. -/
theorem Knows.mutate (h : g.Knows m) (lsn : Nat) (m' : Mutation) : (g.mutate lsn m').Knows m := by
  cases m with
  | close id => trivial
  | assert edge version =>
    obtain ⟨hedge, vs, hvs, hsorted, v, hv, heq⟩ := h
    cases m' with
    | close j =>
      rw [TemporalGraph.mutate, closeEdge_eq]
      refine ⟨?_, vs, hvs, hsorted, v, hv, heq⟩
      rw [SortedMap.get?_alter]
      split
      · rename_i hid
        rw [← hid, Option.isSome_map]
        exact hedge
      · exact hedge
    | assert edge' version' =>
      rw [TemporalGraph.mutate]
      refine ⟨?_, ?_⟩
      · rw [edges_upsertEdge, SortedMap.get?_insert]
        split
        · rfl
        · exact hedge
      · rw [versions_upsertEdge, SortedMap.get?_alter]
        by_cases hid : edge.id = edge'.id
        · refine ⟨_, if_pos hid, sorted_insertionSort _, v, ?_, heq⟩
          rw [← hid, hvs, Option.getD_some]
          exact (List.perm_insertionSort byHypothesis _).mem_iff.2 (mem_addVersion.2 v hv)
        · exact ⟨vs, (if_neg hid).trans hvs, hsorted, v, hv, heq⟩

/-- **A known assert** touches its edge alone. -/
theorem upsertEdge_known {edge : Edge} {version : EdgeVersion} (h : g.Knows (.assert edge version)) :
    ∃ e, g.edges.get? edge.id = some e ∧ g.upsertEdge edge [version] = { g with
      edges := g.edges.insert edge.id (e.reopen edge)
      builtUntilLsn := if e.validToLsn.isSome then max g.builtUntilLsn edge.validFromLsn else g.builtUntilLsn } := by
  obtain ⟨hedge, vs, hvs, hsorted, hknown⟩ := h
  obtain ⟨e, he⟩ := Option.isSome_iff_exists.1 hedge
  have hversions : g.versions.alter edge.id (fun entry =>
      some (([version].foldl addVersion (entry.getD [])).insertionSort byHypothesis)) = g.versions := by
    ext1 j
    rw [SortedMap.get?_alter]
    split
    · rename_i hj
      rw [hj, hvs, Option.getD_some, List.foldl_cons, List.foldl_nil, addVersion_of_known hknown, hsorted.insertionSort_eq]
    · rfl
  refine ⟨e, he, ?_⟩
  unfold upsertEdge
  rw [hversions]
  dsimp only
  rw [he]

/-- Is the operation what the graph holds of the edge? -/
def Agrees (g : TemporalGraph) (m : Mutation) : Prop := ∀ id op, m.opOn id = some op → g.isOpen id = decide (op = .assert)

/-- **A known mutation that agrees with the graph changes nothing.** -/
theorem mutate_of_agrees (h : g.Knows m) (hagrees : g.Agrees m) : g.mutate lsn m = g := by
  cases m with
  | close id =>
    have hopen : g.isOpen id = false := hagrees id .close (if_pos rfl)
    show g.closeEdge id lsn = g
    unfold closeEdge
    cases hget : g.edges.get? id with
    | none => rfl
    | some e =>
      rw [isOpen, hget, Option.any_some] at hopen
      cases hto : e.validToLsn with
      | none =>
        rw [hto] at hopen
        cases hopen
      | some c =>
        have hsame : { e with validToLsn := some ((some c).getD lsn) } = e := by
          rw [Option.getD_some, ← hto]
        dsimp only
        rw [hto, hsame, SortedMap.insert_of_get? hget]
  | assert edge version =>
    have hopen : g.isOpen edge.id = true := hagrees edge.id .assert (if_pos rfl)
    obtain ⟨e, he, hupsert⟩ := upsertEdge_known h
    rw [isOpen, he, Option.any_some, Option.isNone_iff_eq_none] at hopen
    have hreopen : e.reopen edge = e := by
      unfold Edge.reopen
      rw [hopen]
    rw [TemporalGraph.mutate, hupsert, hreopen, hopen, SortedMap.insert_of_get? he]
    rfl

/-- How long the input of the state hash is. -/
def size (g : TemporalGraph) : Nat := (hashInput g).length

theorem size_insert {g' : TemporalGraph} {id : Str} {e e' : Edge} (hget : g.edges.get? id = some e)
    (hedges : g'.edges = g.edges.insert id e') (hversions : g'.versions = g.versions) :
    g'.size + (edgeBytes (id, e)).length = g.size + (edgeBytes (id, e')).length := by
  have hsum := SortedMap.sum_insert (fun p => (edgeBytes p).length) e' hget
  have hlength : ∀ m : SortedMap Str Edge, (m.entries.flatMap edgeBytes).length
      = (m.entries.map (fun p => (edgeBytes p).length)).sum := fun m => List.length_flatMap
  unfold size hashInput
  rw [List.length_append, List.length_append, hlength, hlength, hedges, hversions]
  omega

/-- Does the mutation open a closed edge again? -/
def reopens (g : TemporalGraph) : Mutation → Bool
  | .close _ => false
  | .assert edge _ => !g.isOpen edge.id

/-- **A known mutation makes the input longer exactly when it opens a closed edge again.** -/
theorem size_mutate (h : g.Knows m) (lsn : Nat) : (g.mutate lsn m).size = g.size + if g.reopens m then 16 else 0 := by
  cases m with
  | close id =>
    show (g.closeEdge id lsn).size = g.size
    unfold closeEdge
    cases hget : g.edges.get? id with
    | none => rfl
    | some e =>
      let closed : TemporalGraph := { g with edges := g.edges.insert id (e.close lsn) }
      have hsize : closed.size + _ = _ := size_insert hget rfl rfl
      rw [length_edgeBytes, length_edgeBytes] at hsize
      have hclose : (e.close lsn).from_ = e.from_ ∧ (e.close lsn).to_ = e.to_ ∧ (e.close lsn).etype = e.etype ∧
          (e.close lsn).closedIntervals = e.closedIntervals := ⟨rfl, rfl, rfl, rfl⟩
      simp only [hclose] at hsize
      exact Nat.add_right_cancel hsize
  | assert edge version =>
    obtain ⟨e, he, hupsert⟩ := upsertEdge_known h
    have hsize : (g.upsertEdge edge [version]).size + _ = _ := size_insert he (by rw [hupsert]) (by rw [hupsert])
    rw [length_edgeBytes, length_edgeBytes] at hsize
    rw [TemporalGraph.mutate, reopens, isOpen, he, Option.any_some]
    unfold Edge.reopen at hsize
    cases hto : e.validToLsn with
    | none =>
      rw [hto] at hsize
      exact Nat.add_right_cancel hsize
    | some c =>
      rw [hto] at hsize
      simp only [List.length_append, List.length_singleton] at hsize
      simp only [Option.isNone_some, Bool.not_false, if_true]
      omega

theorem isOpen_of_not_reopens {edge : Edge} {version : EdgeVersion} (h : g.reopens (.assert edge version) = false) :
    g.isOpen edge.id = true := by
  simpa [reopens] using h

/-! ## Any mutations again -/

def mutateAll (g : TemporalGraph) (steps : List (Nat × Mutation)) : TemporalGraph :=
  steps.foldl (fun g p => g.mutate p.1 p.2) g

/-- Known mutations, as the events of their LSNs make them. -/
def AllKnown (g : TemporalGraph) (steps : List (Nat × Mutation)) : Prop := ∀ p ∈ steps, g.Knows p.2 ∧ p.2.Fresh p.1

theorem AllKnown.tail {p : Nat × Mutation} {steps : List (Nat × Mutation)} (h : g.AllKnown (p :: steps)) :
    (g.mutate p.1 p.2).AllKnown steps := fun q hq =>
  ⟨(h q (List.mem_cons_of_mem p hq)).1.mutate p.1 p.2, (h q (List.mem_cons_of_mem p hq)).2⟩

theorem size_le_mutateAll : ∀ {steps : List (Nat × Mutation)} {g : TemporalGraph}, g.AllKnown steps →
    g.size ≤ (g.mutateAll steps).size
  | [], _, _ => Nat.le_refl _
  | p :: steps, g, h => by
    have hstep := size_mutate (h p List.mem_cons_self).1 p.1
    have hrest := size_le_mutateAll h.tail
    have hcons : (g.mutateAll (p :: steps)).size = ((g.mutate p.1 p.2).mutateAll steps).size := rfl
    omega

/-- Where the input keeps its length, no mutation opens an edge again. -/
theorem not_reopens_of_size {p : Nat × Mutation} {steps : List (Nat × Mutation)} (h : g.AllKnown (p :: steps))
    (hsize : (g.mutateAll (p :: steps)).size = g.size) :
    g.reopens p.2 = false ∧ ((g.mutate p.1 p.2).mutateAll steps).size = (g.mutate p.1 p.2).size := by
  have hstep := size_mutate (h p List.mem_cons_self).1 p.1
  have hrest := size_le_mutateAll h.tail
  have hcons : (g.mutateAll (p :: steps)).size = ((g.mutate p.1 p.2).mutateAll steps).size := rfl
  cases hre : g.reopens p.2 with
  | false =>
    rw [hre, if_neg Bool.false_ne_true] at hstep
    exact ⟨rfl, by omega⟩
  | true =>
    rw [hre, if_pos rfl] at hstep
    omega

theorem isOpen_close {id j : Str} (lsn : Nat) (h : g.isOpen id = false) : (g.mutate lsn (.close j)).isOpen id = false := by
  rw [isOpen_mutate (show (Mutation.close j).Fresh lsn from trivial), Mutation.opOn]
  split
  · rfl
  · exact h

/-- An edge that is closed stays closed, where none is opened again. -/
theorem isOpen_mutateAll {id : Str} : ∀ {steps : List (Nat × Mutation)} {g : TemporalGraph}, g.AllKnown steps →
    (g.mutateAll steps).size = g.size → g.isOpen id = false → (g.mutateAll steps).isOpen id = false
  | [], _, _, _, hopen => hopen
  | (lsn, .close j) :: steps, g, h, hsize, hopen => by
    have hlater : ((g.mutate lsn (.close j)).mutateAll steps).isOpen id = false :=
      isOpen_mutateAll h.tail (not_reopens_of_size h hsize).2 (isOpen_close lsn hopen)
    exact hlater
  | (lsn, .assert edge version) :: steps, g, h, hsize, hopen => by
    obtain ⟨hre, hrest⟩ := not_reopens_of_size h hsize
    have hne : edge.id ≠ id := by
      rintro rfl
      rw [isOpen_of_not_reopens hre] at hopen
      cases hopen
    have hnext : (g.mutate lsn (.assert edge version)).isOpen id = false := by
      rw [isOpen_mutate (h _ List.mem_cons_self).2, Mutation.opOn, if_neg hne]
      exact hopen
    have hlater : ((g.mutate lsn (.assert edge version)).mutateAll steps).isOpen id = false :=
      isOpen_mutateAll h.tail hrest hnext
    exact hlater

/-- **Known mutations that change neither the length of the input nor what is open agree with the graph**, each of them. -/
theorem agrees_of_unchanged : ∀ {steps : List (Nat × Mutation)} {g : TemporalGraph}, g.AllKnown steps →
    (g.mutateAll steps).size = g.size → (∀ id, (g.mutateAll steps).isOpen id = g.isOpen id) → ∀ p ∈ steps, g.Agrees p.2
  | [], _, _, _, _ => fun p hp => absurd hp List.not_mem_nil
  | p :: steps, g, h, hsize, hopen => by
    obtain ⟨hre, hrest⟩ := not_reopens_of_size h hsize
    have hfirst : g.Agrees p.2 := by
      intro id op hop
      obtain ⟨lsn, m⟩ := p
      cases m with
      | close j =>
        dsimp only [Mutation.opOn] at hop
        split at hop
        · rename_i hj
          cases hop
          subst hj
          have hclosed : (g.mutate lsn (.close j)).isOpen j = false := by
            rw [isOpen_mutate (show (Mutation.close j).Fresh lsn from trivial), Mutation.opOn, if_pos rfl]
            rfl
          have hlater : ((g.mutate lsn (.close j)).mutateAll steps).isOpen j = false := isOpen_mutateAll h.tail hrest hclosed
          exact (hopen j).symm.trans hlater
        · cases hop
      | assert edge version =>
        dsimp only [Mutation.opOn] at hop
        split at hop
        · rename_i hj
          cases hop
          exact hj ▸ isOpen_of_not_reopens hre
        · cases hop
    have hsame : g.mutate p.1 p.2 = g := mutate_of_agrees (h p List.mem_cons_self).1 hfirst
    intro q hq
    rcases List.mem_cons.1 hq with rfl | hq
    · exact hfirst
    · have htail := h.tail
      rw [hsame] at htail hrest
      refine agrees_of_unchanged htail hrest (fun id => ?_) q hq
      have hcons : g.mutateAll (p :: steps) = (g.mutate p.1 p.2).mutateAll steps := rfl
      rw [← hopen id, hcons, hsame]

theorem mutateAll_of_agrees : ∀ {steps : List (Nat × Mutation)} {g : TemporalGraph}, g.AllKnown steps →
    (∀ p ∈ steps, g.Agrees p.2) → g.mutateAll steps = g
  | [], _, _, _ => rfl
  | p :: steps, g, h, hagrees => by
    have hsame : g.mutate p.1 p.2 = g := mutate_of_agrees (h p List.mem_cons_self).1 (hagrees p List.mem_cons_self)
    have htail := h.tail
    rw [hsame] at htail
    have hcons : g.mutateAll (p :: steps) = (g.mutate p.1 p.2).mutateAll steps := rfl
    rw [hcons, hsame]
    exact mutateAll_of_agrees htail (fun q hq => hagrees q (List.mem_cons_of_mem p hq))

/-! ## Events again -/

variable (env) in
/-- The mutations of some events, in order. -/
def stepsOf (log : List (Nat × Episode)) : List (Nat × Mutation) :=
  log.flatMap (fun r => (mutations env r.1 r.2).map (r.1, ·))

variable {log again : List (Nat × Episode)}

theorem mem_stepsOf {p : Nat × Mutation} : p ∈ stepsOf env log ↔ ∃ r ∈ log, p.1 = r.1 ∧ p.2 ∈ mutations env r.1 r.2 := by
  unfold stepsOf
  rw [List.mem_flatMap]
  constructor
  · rintro ⟨r, hr, hp⟩
    obtain ⟨m, hm, rfl⟩ := List.mem_map.1 hp
    exact ⟨r, hr, rfl, hm⟩
  · rintro ⟨r, hr, hlsn, hm⟩
    exact ⟨r, hr, List.mem_map.2 ⟨p.2, hm, by rw [← hlsn]⟩⟩

/-- The watermark is no concern of a mutation. -/
theorem mutate_watermark (w : Nat) (lsn : Nat) (m : Mutation) :
    ({ g with watermark := w } : TemporalGraph).mutate lsn m = { g.mutate lsn m with watermark := w } := by
  cases m with
  | close id =>
    show ({ g with watermark := w } : TemporalGraph).closeEdge id lsn = { g.closeEdge id lsn with watermark := w }
    rw [closeEdge_eq, closeEdge_eq]
  | assert edge version =>
    show ({ g with watermark := w } : TemporalGraph).upsertEdge edge [version]
      = { g.upsertEdge edge [version] with watermark := w }
    unfold upsertEdge
    dsimp only
    split <;> rfl

theorem mutateAll_watermark (w : Nat) : ∀ (steps : List (Nat × Mutation)) (g : TemporalGraph),
    ({ g with watermark := w } : TemporalGraph).mutateAll steps = { g.mutateAll steps with watermark := w }
  | [], _ => rfl
  | p :: steps, g => by
    show (({ g with watermark := w } : TemporalGraph).mutate p.1 p.2).mutateAll steps
      = { (g.mutate p.1 p.2).mutateAll steps with watermark := w }
    rw [mutate_watermark, mutateAll_watermark w steps]

/-- **Events are their mutations**, and they raise the watermark. -/
theorem foldl_applyEpisode : ∀ (log : List (Nat × Episode)) (g : TemporalGraph), log.foldl (applyEpisode env) g
    = { g.mutateAll (stepsOf env log) with watermark := log.foldl (fun w r => max w r.1) g.watermark }
  | [], _ => rfl
  | r :: log, g => by
    have hkeep : ∀ (ms : List Mutation) (g : TemporalGraph), (ms.foldl (mutate r.1) g).watermark = g.watermark := by
      intro ms
      induction ms with
      | nil => exact fun _ => rfl
      | cons m ms ih =>
        intro g
        rw [List.foldl_cons, ih]
        have hone := congrArg TemporalGraph.watermark (mutate_watermark (g := g) g.watermark r.1 m)
        exact hone
    have hmap : ∀ ms : List Mutation, g.mutateAll (ms.map (r.1, ·)) = ms.foldl (mutate r.1) g := fun ms => by
      rw [mutateAll, List.foldl_map]
    have hsteps : g.mutateAll (stepsOf env (r :: log))
        = ((mutations env r.1 r.2).foldl (mutate r.1) g).mutateAll (stepsOf env log) := by
      rw [← hmap, stepsOf, List.flatMap_cons, mutateAll, List.foldl_append]
      rfl
    rw [List.foldl_cons, foldl_applyEpisode log, hsteps, applyEpisode]
    dsimp only
    rw [mutateAll_watermark, hkeep]
    rfl

theorem knows_watermark (w : Nat) (m : Mutation) : ({ g with watermark := w } : TemporalGraph).Knows m ↔ g.Knows m := by
  cases m <;> exact Iff.rfl

/-- What was applied is known. -/
theorem knows_mutateAll : ∀ {steps : List (Nat × Mutation)} {g : TemporalGraph} {p : Nat × Mutation}, p ∈ steps →
    (g.mutateAll steps).Knows p.2
  | q :: steps, g, p, hp => by
    have hkeep : ∀ (steps : List (Nat × Mutation)) (g : TemporalGraph), g.Knows p.2 → (g.mutateAll steps).Knows p.2 := by
      intro steps
      induction steps with
      | nil => exact fun _ h => h
      | cons q steps ih => exact fun g h => ih _ (h.mutate q.1 q.2)
    rcases List.mem_cons.1 hp with rfl | hp
    · exact hkeep steps _ (knows_mutate_self p.1 p.2)
    · exact knows_mutateAll (g := g.mutate q.1 q.2) hp

theorem allKnown_ofLog (h : ∀ r ∈ again, r ∈ log) : (ofLog env log).AllKnown (stepsOf env again) := by
  intro p hp
  obtain ⟨r, hr, hlsn, hm⟩ := mem_stepsOf.1 hp
  constructor
  · rw [ofLog, foldl_applyEpisode, knows_watermark]
    exact knows_mutateAll (mem_stepsOf.2 ⟨r, h r hr, hlsn, hm⟩)
  · rw [hlsn]
    exact fresh_of_mem_mutations hm

theorem le_watermark {r : Nat × Episode} (hr : r ∈ log) : r.1 ≤ (ofLog env log).watermark := by
  rw [ofLog, foldl_applyEpisode]
  rw [← List.foldl_map (f := Prod.fst) (g := max)]
  exact (le_foldl_max _ _).2 r.1 (List.mem_map_of_mem hr)

theorem foldl_max_of_le {w : Nat} : ∀ {log : List (Nat × Episode)}, (∀ r ∈ log, r.1 ≤ w) →
    log.foldl (fun w r => max w r.1) w = w
  | [], _ => rfl
  | r :: log, h => by
    rw [List.foldl_cons, Nat.max_eq_left (h r List.mem_cons_self)]
    exact foldl_max_of_le (fun r' hr' => h r' (List.mem_cons_of_mem r hr'))

/-- The graph after a second delivery. -/
theorem redelivered_eq (h : ∀ r ∈ again, r ∈ log) :
    again.foldl (applyEpisode env) (ofLog env log) = (ofLog env log).mutateAll (stepsOf env again) := by
  rw [foldl_applyEpisode, foldl_max_of_le (fun r hr => le_watermark (h r hr))]
  have hsame := mutateAll_watermark (ofLog env log).watermark (stepsOf env again) (ofLog env log)
  exact hsame.symm

end TemporalGraph

open TemporalGraph

/-- **The condition on an event**: what it does to an edge is the last thing the log does to it. -/
def DoneLast (env : Env) (log : List (Nat × Episode)) (r : Nat × Episode) : Prop :=
  ∀ m ∈ mutations env r.1 r.2, ∀ id op, m.opOn id = some op → (history env id log).getLast? = some op

variable {log again : List (Nat × Episode)}

theorem isOpen_ofLog (id : Str) : (ofLog env log).isOpen id = decide ((history env id log).getLast? = some .assert) := by
  have hempty : ({} : TemporalGraph).Settled (ofLog env log).watermark := by
    intro id e he
    cases he
  exact (settled_log id log {} hempty (fun r hr => le_watermark hr)).2.trans (foldl_opens _)

theorem agrees_iff {r : Nat × Episode} (hr : r ∈ log) :
    (∀ m ∈ mutations env r.1 r.2, (ofLog env log).Agrees m) ↔ DoneLast env log r := by
  refine forall_congr' (fun m => forall_congr' (fun hm => forall_congr' (fun id => forall_congr' (fun op => ?_))))
  refine forall_congr' (fun hop => ?_)
  rw [isOpen_ofLog]
  -- the operation itself is in the edge's history
  have hmem : op ∈ history env id log :=
    List.mem_flatMap.2 ⟨r, hr, List.mem_filterMap.2 ⟨m, hm, hop⟩⟩
  obtain ⟨last, hlast⟩ := Option.ne_none_iff_exists'.1 (mt List.getLast?_eq_none_iff.1 (List.ne_nil_of_mem hmem))
  rw [hlast]
  cases op <;> cases last <;> simp

theorem aliveAt_of_settled {t : Nat} (h : g.Settled t) (id : Str) : g.aliveAt id t = g.isOpen id := by
  unfold aliveAt isOpen
  cases hget : g.edges.get? id with
  | none => rfl
  | some e =>
    have hsettled := h id e hget
    have hclosed : e.closedIntervals.any (fun i => decide (i.1 ≤ t) && decide (t < i.2)) = false :=
      List.any_eq_false.2 fun i hi => by simp [Nat.not_lt.2 (hsettled.closed i hi)]
    rw [Option.any_some, Option.any_some, Edge.aliveAt, hclosed, Bool.or_false]
    cases hto : e.validToLsn with
    | none => simp [hsettled.start]
    | some c => simp [Nat.not_lt.2 (hsettled.stop c hto)]

/-- Two inputs that every function hashes alike are one. -/
theorem hashInput_eq {g g' : TemporalGraph} (h : ∀ blake3, stateHash blake3 g' = stateHash blake3 g) : hashInput g' = hashInput g := by
  have hsep := h (fun input => if input = hashInput g then Digest.replicate 1 else Digest.replicate 0)
  unfold stateHash at hsep
  by_contra hne
  dsimp only at hsep
  rw [if_neg hne, if_pos rfl] at hsep
  exact absurd hsep (by decide)

/-- **When a second delivery is harmless**: for every log and all events of it, exactly if each of them does to an edge what
the log does to it last.  The whole graph is then the same. -/
theorem redelivery_iff (env : Env) (h : ∀ r ∈ again, r ∈ log) :
    (Unchanged env (ofLog env log) (again.foldl (applyEpisode env) (ofLog env log)) ↔ ∀ r ∈ again, DoneLast env log r) ∧
    ((∀ r ∈ again, DoneLast env log r) → again.foldl (applyEpisode env) (ofLog env log) = ofLog env log) := by
  have hknown := @allKnown_ofLog env _ _ h
  have hsame : (∀ r ∈ again, DoneLast env log r) → again.foldl (applyEpisode env) (ofLog env log) = ofLog env log := by
    intro hdone
    rw [redelivered_eq h]
    refine mutateAll_of_agrees hknown (fun p hp => ?_)
    obtain ⟨r, hr, -, hm⟩ := mem_stepsOf.1 hp
    exact (agrees_iff (h r hr)).2 (hdone r hr) p.2 hm
  refine ⟨⟨fun hunchanged => ?_, fun hdone => ?_⟩, hsame⟩
  · have hempty : ({} : TemporalGraph).Settled (ofLog env log).watermark := by
      intro id e he
      cases he
    have hsettled : (ofLog env log).Settled (ofLog env log).watermark :=
      (settled_log [] log {} hempty (fun r hr => le_watermark hr)).1
    have hopen : ∀ id, (again.foldl (applyEpisode env) (ofLog env log)).isOpen id = (ofLog env log).isOpen id := by
      intro id
      have hsettled' := (@settled_log env _ id again _ hsettled (fun r hr => le_watermark (h r hr))).1
      rw [← aliveAt_of_settled hsettled', ← aliveAt_of_settled hsettled]
      exact (hunchanged.reads _).alive id
    have hsize := congrArg List.length (hashInput_eq hunchanged.hash)
    rw [redelivered_eq h] at hopen hsize
    intro r hr
    refine (agrees_iff (h r hr)).1 (fun m hm => ?_)
    exact agrees_of_unchanged hknown hsize hopen (r.1, m) (mem_stepsOf.2 ⟨r, hr, rfl, hm⟩)
  · rw [hsame hdone]
    exact ⟨fun _ => rfl, fun t => .refl _⟩

/-- The two asserts of `reopeningLog`, again. -/
theorem redelivery_iff_sample :
    (Unchanged sampleEnv (ofLog sampleEnv reopeningLog)
        ([(1, edgeEvent "assert"), (9, edgeEvent "assert")].foldl (applyEpisode sampleEnv) (ofLog sampleEnv reopeningLog)) ↔
      ∀ r ∈ [(1, edgeEvent "assert"), (9, edgeEvent "assert")], DoneLast sampleEnv reopeningLog r) ∧
    ((∀ r ∈ [(1, edgeEvent "assert"), (9, edgeEvent "assert")], DoneLast sampleEnv reopeningLog r) →
      [(1, edgeEvent "assert"), (9, edgeEvent "assert")].foldl (applyEpisode sampleEnv) (ofLog sampleEnv reopeningLog)
        = ofLog sampleEnv reopeningLog) :=
  redelivery_iff sampleEnv (by decide)

/-- An edge, asserted and retracted. -/
def retractedLog : List (Nat × Episode) := [(1, edgeEvent "assert"), (5, edgeEvent "retract")]

/-- Of the edges: whether each lives as of 5, and how many lives it had before. -/
def livesOf (g : TemporalGraph) : List (Bool × Nat) :=
  g.edges.entries.map (fun p => (p.2.aliveAt 5, p.2.closedIntervals.length))

set_option maxRecDepth 4000 in
/-- **A retracted edge is opened again, and closed again**: the state hash covers a life that never was. -/
theorem redelivery_adds_a_life :
    livesOf (ofLog sampleEnv retractedLog) = [(false, 0)] ∧
    livesOf (retractedLog.foldl (applyEpisode sampleEnv) (ofLog sampleEnv retractedLog)) = [(false, 1)] ∧
    livesOf ([(1, edgeEvent "assert")].foldl (applyEpisode sampleEnv) (ofLog sampleEnv retractedLog)) = [(true, 1)] ∧
    ¬Unchanged sampleEnv (ofLog sampleEnv retractedLog)
      ([(1, edgeEvent "assert")].foldl (applyEpisode sampleEnv) (ofLog sampleEnv retractedLog)) := by
  refine ⟨by decide +kernel, by decide +kernel, by decide +kernel, fun h => ?_⟩
  have halive := (h.reads 5).alive (edgeId "Alfa".toList "Maria".toList .socioDe)
  exact absurd halive (by decide +kernel)

end Temporal
end Heraclitus
