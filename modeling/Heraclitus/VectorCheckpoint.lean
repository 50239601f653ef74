import Heraclitus.VectorComplete
/-!
# VectorCheckpoint — saved and loaded (`heraclitus-index-vector/src/lib.rs`, `save_checkpoint` and `load_checkpoint`)

A checkpoint holds all of the index but how far the levels were drawn.  A loaded index goes on from the seed, so it is the index
of the uninterrupted run exactly when the levels drawn again are the ones that would have come.
-/
namespace Heraclitus
namespace VectorIndex

variable {P D F E Sig : Type} [LinearOrder D] {S : Host P D F Sig} {v v' w : VectorIndex P E Sig}
variable {e : E} {lsn id l n ep r : Nat} {point query : P}

/-! ## The draws -/

def setRng (v : VectorIndex P E Sig) (r : Nat) : VectorIndex P E Sig := { v with rng := r }

theorem searchLoop_setRng (query : P) (level ef : Nat) (filter : Option (Finset Nat)) :
    ∀ fuel, (v.setRng r).searchLoop S query level ef filter fuel = v.searchLoop S query level ef filter fuel
  | 0 => by
    funext f
    rfl
  | fuel + 1 => by
    funext f
    rw [searchLoop, searchLoop, searchLoop_setRng query level ef filter fuel]
    rfl

theorem searchLayer_setRng (query : P) (entry level ef : Nat) (filter : Option (Finset Nat)) :
    (v.setRng r).searchLayer S query entry level ef filter = v.searchLayer S query entry level ef filter := by
  rw [searchLayer, searchLayer, searchLoop_setRng]
  rfl

theorem descend_setRng (query : P) (pick : Nat → Nat → Option Nat) : ∀ (levels : List Nat) (ep : Nat),
    (v.setRng r).descend S query pick levels ep = v.descend S query pick levels ep
  | [], _ => rfl
  | l :: levels, ep => by
    rw [descend, descend]
    refine Option.bind_congr (fun l _ => ?_)
    rw [searchLayer_setRng]
    exact Option.bind_congr (fun best _ => descend_setRng query pick levels _)

theorem backLink_setRng : backLink S id l (v.setRng r) n = (backLink S id l v n).map (·.setRng r) := by
  unfold backLink
  rw [Option.map_bind]
  refine Option.bind_congr (fun node _ => ?_)
  have hm : (v.setRng r).m = v.m := rfl
  dsimp only [Function.comp]
  rw [hm]
  cases node.neighbors[l]? with
  | none => rfl
  | some list =>
    dsimp only
    split
    · split
      · rw [Option.map_map]
        rfl
      · rfl
    · rfl

theorem backLinks_setRng : ∀ (sel : List Nat) (v : VectorIndex P E Sig),
    sel.foldlM (backLink S id l) (v.setRng r) = (sel.foldlM (backLink S id l) v).map (·.setRng r)
  | [], _ => rfl
  | n :: sel, v => by
    rw [List.foldlM_cons, List.foldlM_cons, backLink_setRng]
    cases backLink S id l v n with
    | none => rfl
    | some v => exact backLinks_setRng sel v

theorem connectLevel_setRng (v : VectorIndex P E Sig) : connectLevel S id point (v.setRng r) ep l =
    (connectLevel S id point v ep l).map (fun x => (x.1.setRng r, x.2)) := by
  unfold connectLevel
  rw [searchLayer_setRng, Option.map_bind]
  refine Option.bind_congr (fun neighbors _ => ?_)
  dsimp only [Function.comp]
  show (((select id v.m neighbors).foldlM (backLink S id l) (v.setRng r)).bind _) = _
  rw [backLinks_setRng, Option.map_bind, Option.bind_map]
  refine Option.bind_congr (fun w _ => ?_)
  dsimp only [Function.comp]
  rw [Option.map_bind]
  refine Option.bind_congr (fun node _ => ?_)
  dsimp only [Function.comp]
  split <;> rfl

theorem connect_setRng (id : Nat) (point : P) (r : Nat) : ∀ (levels : List Nat) (x : VectorIndex P E Sig × Nat),
    connect S id point levels (x.1.setRng r, x.2) = (connect S id point levels x).map (fun x => (x.1.setRng r, x.2))
  | [], _ => rfl
  | l :: levels, x => by
    rw [connect, connect, connectLevel_setRng]
    cases connectLevel S id point x.1 x.2 l with
    | none => rfl
    | some y => exact connect_setRng id point r levels y

theorem search_setRng (query : P) (k ef : Nat) (filter : Option (Finset Nat)) :
    (v.setRng r).search S query k ef filter = v.search S query k ef filter := by
  unfold search
  cases hentry : v.entry with
  | none =>
    have hentry' : (v.setRng r).entry = none := hentry
    rw [hentry']
  | some ep =>
    have hentry' : (v.setRng r).entry = some ep := hentry
    rw [hentry']
    refine Option.bind_congr (fun node _ => ?_)
    rw [descend_setRng]
    refine Option.bind_congr (fun ep _ => ?_)
    rw [searchLayer_setRng]
    rfl

section Insert

variable [DecidableEq E]

/-- With the same level drawn, an insertion does the same wherever in the draws the index stands. -/
theorem insert_setRng (hnew : v.byEvent e = none) (hlevel : S.level v.m r = S.level v.m v.rng) :
    (v.setRng r).insert S e lsn point = (v.insert S e lsn point).map (·.setRng (r + 1)) := by
  have hdraw : (v.setRng r).randomLevel S = v.randomLevel S := hlevel
  unfold VectorIndex.insert
  have hnew' : (v.setRng r).byEvent e = none := hnew
  rw [hnew, hnew', hdraw]
  dsimp only [Option.isSome_none]
  rw [if_neg Bool.false_ne_true, if_neg Bool.false_ne_true]
  by_cases hfit : v.randomLevel S + 1 < 2 ^ 64
  · rw [if_pos hfit, if_pos hfit]
    have hpush : (v.setRng r).pushNode e lsn point (v.randomLevel S) =
        (v.pushNode e lsn point (v.randomLevel S)).setRng (r + 1) := rfl
    rw [hpush]
    cases hentry : v.entry with
    | none =>
      have h₁ : (v.pushNode e lsn point (v.randomLevel S)).entry = none := hentry
      have h₂ : ((v.pushNode e lsn point (v.randomLevel S)).setRng (r + 1)).entry = none := hentry
      rw [h₁, h₂]
      rfl
    | some ep =>
      have h₁ : (v.pushNode e lsn point (v.randomLevel S)).entry = some ep := hentry
      have h₂ : ((v.pushNode e lsn point (v.randomLevel S)).setRng (r + 1)).entry = some ep := hentry
      have happroach : ((v.pushNode e lsn point (v.randomLevel S)).setRng (r + 1)).approach S point (v.randomLevel S) ep =
          (v.pushNode e lsn point (v.randomLevel S)).approach S point (v.randomLevel S) ep := by
        unfold approach
        refine Option.bind_congr (fun node _ => ?_)
        rw [descend_setRng]
        rfl
      rw [h₁, h₂]
      dsimp only
      rw [happroach, Option.map_bind]
      refine Option.bind_congr (fun x _ => ?_)
      have hconnect := connect_setRng (S := S) (v.nodes.length % 2 ^ 32) point (r + 1)
        (List.range (min (v.randomLevel S) x.1 + 1)).reverse (v.pushNode e lsn point (v.randomLevel S), x.2)
      dsimp only at hconnect
      dsimp only [Function.comp]
      show Option.map _ (connect S (v.nodes.length % 2 ^ 32) point _ _) = _
      rw [hconnect, Option.map_map, Option.map_map]
      refine congrArg (fun f => Option.map f _) (funext fun y => ?_)
      dsimp only [Function.comp]
      split <;> rfl
  · rw [if_neg hfit, if_neg hfit]
    rfl

end Insert

/-! ## What an insertion leaves alone -/

theorem backLink_alike (h : backLink S id l v n = some v') : Alike v v' := by
  obtain ⟨node, -, h⟩ := Option.bind_eq_some_iff.1 h
  split at h
  · cases h
    exact .refl v
  · dsimp only at h
    split at h
    · split at h
      · obtain ⟨nb, -, rfl⟩ := Option.map_eq_some_iff.1 h
        exact alike_setList v n l _
      · cases h
        exact alike_setList v n l _
    · cases h

theorem backLinks_alike : ∀ {sel : List Nat} {v : VectorIndex P E Sig}, sel.foldlM (backLink S id l) v = some v' → Alike v v'
  | [], v, h => by
    cases h
    exact .refl _
  | n :: sel, v, h => by
    rw [List.foldlM_cons] at h
    obtain ⟨w, hw, h⟩ := Option.bind_eq_some_iff.1 h
    exact (backLink_alike hw).trans (backLinks_alike h)

theorem connectLevel_alike {y : VectorIndex P E Sig × Nat} (h : connectLevel S id point v ep l = some y) : Alike v y.1 := by
  obtain ⟨neighbors, -, h⟩ := Option.bind_eq_some_iff.1 h
  obtain ⟨w, hw, h⟩ := Option.bind_eq_some_iff.1 h
  obtain ⟨node, -, h⟩ := Option.bind_eq_some_iff.1 h
  split at h
  · cases h
    exact (backLinks_alike hw).trans (alike_setList w id l _)
  · cases h

theorem connect_alike : ∀ {levels : List Nat} {x y : VectorIndex P E Sig × Nat},
    connect S id point levels x = some y → Alike x.1 y.1
  | [], x, _, h => by
    cases h
    exact .refl x.1
  | l :: levels, x, _, h => by
    obtain ⟨z, hz, h⟩ := Option.bind_eq_some_iff.1 h
    exact (connectLevel_alike hz).trans (connect_alike h)

section Save

variable [DecidableEq E]

/-- **What an insertion can do**: nothing, or push a node whose level fits and change lists, and the entry point maybe. -/
theorem insert_cases (h : v.insert S e lsn point = some v') : (v.byEvent e).isSome = true ∧ v' = v ∨
    v.byEvent e = none ∧ v.randomLevel S + 1 < 2 ^ 64 ∧ ∃ w, Alike (v.pushNode e lsn point (v.randomLevel S)) w ∧
      (v' = { w with entry := some (v.nodes.length % 2 ^ 32) } ∨ v' = w) := by
  by_cases hknown : (v.byEvent e).isSome = true
  · rw [insert_known hknown] at h
    exact Or.inl ⟨hknown, (Option.some.inj h).symm⟩
  refine Or.inr ⟨Option.not_isSome_iff_eq_none.1 hknown, ?_⟩
  unfold VectorIndex.insert at h
  rw [if_neg hknown] at h
  dsimp only at h
  split at h
  · rename_i hlevel
    refine ⟨hlevel, ?_⟩
    split at h
    · cases h
      exact ⟨_, .refl _, Or.inl rfl⟩
    · obtain ⟨x, -, h⟩ := Option.bind_eq_some_iff.1 h
      obtain ⟨y, hy, rfl⟩ := Option.map_eq_some_iff.1 h
      refine ⟨y.1, connect_alike hy, ?_⟩
      split
      · exact Or.inl rfl
      · exact Or.inr rfl
  · cases h

/-! ## What a checkpoint holds -/

/-- What `load_checkpoint` checks, and the map it makes of the ids. -/
structure Saved (v : VectorIndex P E Sig) : Prop where
  ids : v.nodes.length = v.ids.length
  lsns : v.nodes.length = v.lsns.length
  layered : ∀ node ∈ v.nodes, node.level + 1 < 2 ^ 64 ∧ node.neighbors.length = node.level + 1
  entry : ∀ ep, v.entry = some ep → ep < v.nodes.length
  events : v.byEvent = eventMap v.ids

theorem saved_new (metric : Sig) : Saved (new metric : VectorIndex P E Sig) where
  ids := rfl
  lsns := rfl
  layered _ h := (List.not_mem_nil h).elim
  entry _ h := by cases h
  events := rfl

theorem eventMap_concat (ids : List E) (e : E) :
    eventMap (ids ++ [e]) = Function.update (eventMap ids) e (some (ids.length % 2 ^ 32)) := by
  rw [eventMap, List.zipIdx_append, List.foldl_append, Nat.zero_add]
  rfl

theorem layered_of_forall : ∀ {nodes : List (Node P)},
    (∀ node ∈ nodes, node.level + 1 < 2 ^ 64 ∧ node.neighbors.length = node.level + 1) → layered nodes = some true
  | [], _ => rfl
  | node :: nodes, h => by
    obtain ⟨hfit, hlength⟩ := h node (List.mem_cons_self ..)
    have hne : node.neighbors ≠ [] := fun hnil => by
      rw [hnil] at hlength
      cases hlength
    rw [layered, if_pos hfit, if_pos ⟨hlength, hne⟩]
    exact layered_of_forall (fun node hnode => h node (List.mem_cons_of_mem _ hnode))

/-- **A loaded index is the one saved, drawing from the seed again.** -/
theorem load_save (hs : Saved v) (fresh : VectorIndex P E Sig) :
    loadCheckpoint fresh (some v.saveCheckpoint) = some (true, v.setRng fresh.rng) := by
  have hcoherent : coherent v.saveCheckpoint = some true := by
    unfold coherent
    rw [if_pos ⟨hs.ids, hs.lsns⟩]
    have hlayered : layered v.saveCheckpoint.nodes = some true := layered_of_forall hs.layered
    rw [hlayered, Option.map_some, Bool.true_and]
    cases hentry : v.entry with
    | none =>
      have hnone : v.saveCheckpoint.entry = none := hentry
      rw [hnone]
    | some ep =>
      have hsome : v.saveCheckpoint.entry = some ep := hentry
      rw [hsome]
      exact congrArg some (decide_eq_true (hs.entry ep hentry))
  rw [loadCheckpoint, hcoherent, Option.map_some, if_pos rfl]
  have hevents : eventMap v.saveCheckpoint.ids = v.byEvent := hs.events.symm
  have htombstones : v.saveCheckpoint.tombstones.toFinset = v.tombstones := Finset.sort_toFinset v.tombstones (· ≤ ·)
  rw [hevents, htombstones]
  rfl

theorem Saved.insert (hs : Saved v) (h : v.insert S e lsn point = some v') : Saved v' := by
  rcases insert_cases h with ⟨-, rfl⟩ | ⟨-, hfit, w, halike, hv'⟩
  · exact hs
  have hlength : w.nodes.length = v.nodes.length + 1 := by
    rw [halike.length, pushNode, List.length_append, List.length_singleton]
  obtain ⟨hids, hlsns, hevents, hentry⟩ := halike.tables
  have hall : ∀ entry, (∀ ep, entry = some ep → ep < w.nodes.length) → Saved { w with entry := entry } := fun entry hlt => {
    ids := by
      dsimp only
      rw [hids, hlength, pushNode, List.length_append, List.length_singleton, hs.ids]
    lsns := by
      dsimp only
      rw [hlsns, hlength, pushNode, List.length_append, List.length_singleton, hs.lsns]
    layered := fun node hnode => by
      obtain ⟨node', hmem, hlevel, hlists⟩ := halike.mem hnode
      rw [hlevel, hlists]
      rcases mem_pushNode hmem with hold | ⟨hlevel', hlists'⟩
      · exact hs.layered node' hold
      · exact ⟨hlevel' ▸ hfit, by rw [hlevel', hlists']⟩
    entry := hlt
    events := by
      dsimp only
      rw [hevents, hids, pushNode]
      dsimp only
      rw [eventMap_concat, ← hs.events, hs.ids] }
  rcases hv' with rfl | rfl
  · refine hall _ (fun ep hep => ?_)
    obtain rfl := Option.some.inj hep
    have := Nat.mod_le v.nodes.length (2 ^ 32)
    omega
  · refine hall _ (fun ep hep => ?_)
    have := hs.entry ep (hentry ▸ hep)
    omega

theorem Saved.tombstoneEvent (hs : Saved v) (event : E) : Saved (v.tombstoneEvent event).2 := by
  unfold VectorIndex.tombstoneEvent
  split
  · exact ⟨hs.ids, hs.lsns, hs.layered, hs.entry, hs.events⟩
  · exact hs

theorem Saved.setRng (hs : Saved v) (r : Nat) : Saved (v.setRng r) := ⟨hs.ids, hs.lsns, hs.layered, hs.entry, hs.events⟩

end Save

/-! ## Runs with interruptions -/

inductive Op (P E : Type) where
  | call (c : Call P E)
  | reload

/-- The same nodes and entry point, and the same answers. -/
structure Same (S : Host P D F Sig) (u w : VectorIndex P E Sig) : Prop where
  nodes : u.nodes = w.nodes
  entry : u.entry = w.entry
  search : ∀ query k ef filter, u.search S query k ef filter = w.search S query k ef filter

/-- The sequence without its interruptions. -/
def calls : List (Op P E) → List (Call P E)
  | [] => []
  | .call c :: ops => c :: calls ops
  | .reload :: ops => calls ops

def levels (v : VectorIndex P E Sig) : List Nat := v.nodes.map (·.level)

theorem Alike.levels (h : Alike v v') : v'.levels = v.levels := by
  have hlevels := congrArg (fun w : VectorIndex P E Sig => w.nodes.map (·.level)) h
  simp only [skeleton, List.map_map] at hlevels
  exact hlevels

section Reload

variable [DecidableEq E]

/-- A reload saves the index and loads it into a new one. -/
def opStep (S : Host P D F Sig) (v : VectorIndex P E Sig) : Op P E → Option (VectorIndex P E Sig)
  | .call c => step S v c
  | .reload => (loadCheckpoint (new v.metric) (some v.saveCheckpoint)).map (·.2)

/-- Each level drawn since the last reload, as number `r`, is the one that the whole sequence draws there; `seen` are the events
inserted so far, one draw each. -/
def Continues (S : Host P D F Sig) : List E → Nat → List (Op P E) → Prop
  | _, _, [] => True
  | seen, _, .reload :: ops => Continues S seen 0 ops
  | seen, r, .call (.tombstoneEvent _) :: ops => Continues S seen r ops
  | seen, r, .call (.insert e _ _) :: ops =>
    if e ∈ seen then Continues S seen r ops
    else S.level defaultM r = S.level defaultM seen.length ∧ Continues S (seen ++ [e]) (r + 1) ops

/-- An insertion of a new event, for the other tables. -/
theorem insert_new (hnew : v.byEvent e = none) (h : v.insert S e lsn point = some v') :
    v'.levels = v.levels ++ [v.randomLevel S] ∧ v'.m = v.m ∧ v'.rng = v.rng + 1 ∧ v'.ids = v.ids ++ [e] := by
  rcases insert_cases h with ⟨hknown, -⟩ | ⟨-, -, w, halike, hv'⟩
  · rw [hnew] at hknown
    cases hknown
  · have hlevels : w.levels = v.levels ++ [v.randomLevel S] := by
      rw [halike.levels, VectorIndex.levels, pushNode, List.map_append]
      rfl
    have hrng := congrArg VectorIndex.rng halike
    rcases hv' with rfl | rfl
    · exact ⟨hlevels, halike.m, hrng, halike.tables.1⟩
    · exact ⟨hlevels, halike.m, hrng, halike.tables.1⟩

/-- What was drawn stays. -/
theorem opStep_levels {op : Op P E} (hs : Saved v) (h : opStep S v op = some v') : Saved v' ∧ v.levels <+: v'.levels := by
  match op with
  | .call (.insert e lsn point) =>
    refine ⟨hs.insert h, ?_⟩
    rcases insert_cases h with ⟨-, rfl⟩ | ⟨hnew, -⟩
    · exact List.prefix_rfl
    · rw [(insert_new hnew h).1]
      exact List.prefix_append _ _
  | .call (.tombstoneEvent event) =>
    obtain rfl := Option.some.inj h
    refine ⟨hs.tombstoneEvent event, ?_⟩
    unfold VectorIndex.tombstoneEvent
    split <;> exact List.prefix_rfl
  | .reload =>
    rw [opStep, load_save hs, Option.map_some] at h
    obtain rfl := Option.some.inj h
    exact ⟨hs.setRng _, List.prefix_rfl⟩

theorem runs_levels : ∀ {ops : List (Op P E)} {v v' : VectorIndex P E Sig}, Saved v → runs (opStep S) v ops = some v' →
    v.levels <+: v'.levels
  | [], _, _, _, h => by
    cases h
    exact List.prefix_rfl
  | _ :: _, _, _, hs, h => by
    obtain ⟨w, hw, h⟩ := Option.bind_eq_some_iff.1 h
    obtain ⟨hsw, hpre⟩ := opStep_levels hs hw
    exact hpre.trans (runs_levels hsw h)

/-- A run without interruptions is one of the runs with them. -/
theorem runs_calls : ∀ (cs : List (Call P E)) (v : VectorIndex P E Sig),
    runs (opStep S) v (cs.map .call) = runs (step S) v cs
  | [], _ => rfl
  | _ :: cs, _ => Option.bind_congr (fun w _ => runs_calls cs w)

/-- An event is known when it is among the ids. -/
theorem Saved.known (hs : Saved v) (e : E) : v.byEvent e = none ↔ e ∉ v.ids := by
  rw [hs.events]
  clear hs
  induction v.ids using List.reverseRecOn with
  | nil => simp [eventMap]
  | append_singleton ids x ih =>
    rw [eventMap_concat]
    by_cases h : e = x
    · subst h
      simp
    · rw [Function.update_of_ne h, ih]
      simp [h]

/-- The interrupted run beside the whole one, from states that differ in the draws only. -/
theorem runs_iff : ∀ {ops : List (Op P E)} {v w : VectorIndex P E Sig} {r : Nat}, Saved v → v.m = defaultM →
    v.rng = v.ids.length → runs (step S) v (calls ops) = some w →
    ((∃ u, runs (opStep S) (v.setRng r) ops = some u ∧ Same S u w) ↔ Continues S v.ids r ops)
  | [], v, w, r, _, _, _, h => by
    cases h
    exact ⟨fun _ => trivial, fun _ => ⟨_, rfl, rfl, rfl, fun _ _ _ _ => search_setRng ..⟩⟩
  | .reload :: ops, v, w, r, hs, hm, hrng, h => by
    have hload : opStep S (v.setRng r) .reload = some (v.setRng 0) := by
      rw [opStep, load_save (hs.setRng r), Option.map_some]
      rfl
    rw [runs, hload, Option.bind_some, Continues]
    exact runs_iff hs hm hrng h
  | .call (.tombstoneEvent event) :: ops, v, w, r, hs, hm, hrng, h => by
    have hboth : ∀ v : VectorIndex P E Sig, ((v.setRng r).tombstoneEvent event).2 = (v.tombstoneEvent event).2.setRng r :=
      fun v => by
        unfold VectorIndex.tombstoneEvent
        cases hevent : v.byEvent event with
        | none =>
          have h : (v.setRng r).byEvent event = none := hevent
          rw [h]
        | some id =>
          have h : (v.setRng r).byEvent event = some id := hevent
          rw [h]
          rfl
    have hkept : (v.tombstoneEvent event).2.m = v.m ∧ (v.tombstoneEvent event).2.rng = v.rng ∧
        (v.tombstoneEvent event).2.ids = v.ids := by
      unfold VectorIndex.tombstoneEvent
      split <;> exact ⟨rfl, rfl, rfl⟩
    rw [runs, opStep, step, Option.bind_some, hboth, Continues, ← hkept.2.2]
    refine runs_iff (hs.tombstoneEvent event) (hkept.1.trans hm) ?_ h
    rw [hkept.2.1, hkept.2.2, hrng]
  | .call (.insert e lsn point) :: ops, v, w, r, hs, hm, hrng, h => by
    obtain ⟨v₁, hv₁, h⟩ := Option.bind_eq_some_iff.1 h
    have hv₁ : v.insert S e lsn point = some v₁ := hv₁
    rw [runs, opStep, step, Continues]
    by_cases hin : e ∈ v.ids
    · have hknown : (v.byEvent e).isSome = true := by
        rw [Option.isSome_iff_ne_none]
        exact fun hnone => (hs.known e).1 hnone hin
      rw [VectorIndex.insert_known hknown] at hv₁
      obtain rfl := Option.some.inj hv₁
      have hknown' : ((v.setRng r).byEvent e).isSome = true := hknown
      rw [VectorIndex.insert_known hknown', Option.bind_some, if_pos hin]
      exact runs_iff hs hm hrng h
    · have hnew : v.byEvent e = none := (hs.known e).2 hin
      obtain ⟨hlevels, hm₁, hrng₁, hids₁⟩ := insert_new hnew hv₁
      rw [if_neg hin]
      by_cases hlevel : S.level defaultM r = S.level defaultM v.ids.length
      · -- the level drawn is the same, and so is the index
        have hsame : S.level v.m r = S.level v.m v.rng := by rw [hm, hrng, hlevel]
        rw [insert_setRng hnew hsame, hv₁, Option.map_some, Option.bind_some, ← hids₁]
        refine (runs_iff (hs.insert hv₁) (hm₁.trans hm) ?_ h).trans (iff_and_self.2 (fun _ => hlevel))
        rw [hrng₁, hids₁, hrng, List.length_append, List.length_singleton]
      · -- another level, which stays with the node
        refine ⟨?_, fun hc => absurd hc.1 hlevel⟩
        rintro ⟨u, hu, hsame⟩
        obtain ⟨u₁, hu₁, hu⟩ := Option.bind_eq_some_iff.1 hu
        have hnew' : (v.setRng r).byEvent e = none := hnew
        have hlevels' : u₁.levels = v.levels ++ [S.level v.m r] := (insert_new hnew' hu₁).1
        have hpre := runs_levels (S := S) (hs.insert hv₁) (by rw [runs_calls]; exact h)
        have hpre' := runs_levels ((hs.setRng r).insert hu₁) hu
        have heq : u.levels = w.levels := by rw [VectorIndex.levels, hsame.nodes, VectorIndex.levels]
        rw [hlevels] at hpre
        rw [hlevels', heq] at hpre'
        have htake := (List.prefix_of_prefix_length_le hpre' hpre (by simp)).eq_of_length (by simp)
        have hlast : S.level v.m r = S.level v.m v.rng := List.singleton_inj.1 (List.append_cancel_left htake)
        rw [hm, hrng] at hlast
        exact absurd hlast hlevel

/-- **An interrupted run ends in the index of the uninterrupted one exactly when the levels drawn since each reload are those that
the whole sequence draws.** -/
theorem interrupted_iff (metric : Sig) (ops : List (Op P E)) {w : VectorIndex P E Sig}
    (h : runs (step S) (new metric) (calls ops) = some w) :
    (∃ u, runs (opStep S) (new metric) ops = some u ∧ Same S u w) ↔ Continues S [] 0 ops :=
  runs_iff (r := 0) (saved_new metric) rfl rfl h

end Reload

/-- Two points, a reload, and a third point whose level comes out the same. -/
theorem interrupted_line : ∃ w, runs (step line) (new () : VectorIndex Nat Nat Unit) [.insert 7 0 10, .insert 8 1 20,
    .tombstoneEvent 7, .insert 9 2 30] = some w ∧ ∃ u, runs (opStep line) (new ()) [.call (.insert 7 0 10),
      .call (.insert 8 1 20), .call (.tombstoneEvent 7), .reload, .call (.insert 9 2 30)] = some u ∧ Same line u w := by
  have hsome : (runs (step line) (new () : VectorIndex Nat Nat Unit) [.insert 7 0 10, .insert 8 1 20, .tombstoneEvent 7,
      .insert 9 2 30]).isSome = true := by decide +kernel
  obtain ⟨w, hw⟩ := Option.isSome_iff_exists.1 hsome
  exact ⟨w, hw, (interrupted_iff () [.call (.insert 7 0 10), .call (.insert 8 1 20), .call (.tombstoneEvent 7), .reload,
    .call (.insert 9 2 30)] hw).2 (by simp [Continues, line, defaultM])⟩

/-- **A vector that comes after a reload gets the level that the first one had.** -/
theorem reload_draws_again : ∃ w, runs (step line) (new () : VectorIndex Nat Nat Unit) [.insert 7 0 10, .insert 8 1 20] = some w ∧
    ¬∃ u, runs (opStep line) (new ()) [.call (.insert 7 0 10), .reload, .call (.insert 8 1 20)] = some u ∧ Same line u w := by
  have hwhole : (runs (step line) (new () : VectorIndex Nat Nat Unit) [.insert 7 0 10, .insert 8 1 20]).map levels =
      some [0, 1] := by decide +kernel
  have hpieces : (runs (opStep line) (new () : VectorIndex Nat Nat Unit) [.call (.insert 7 0 10), .reload,
      .call (.insert 8 1 20)]).map levels = some [0, 0] := by decide +kernel
  obtain ⟨w, hw, hlevels⟩ := Option.map_eq_some_iff.1 hwhole
  refine ⟨w, hw, ?_⟩
  rintro ⟨u, hu, hsame⟩
  rw [hu, Option.map_some, levels, hsame.nodes, ← levels, hlevels] at hpieces
  exact absurd hpieces (by decide)

end VectorIndex
end Heraclitus
