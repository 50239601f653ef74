import Heraclitus.Lib.Fallible
import Heraclitus.VectorSearch
/-!
# VectorInsert — what an insertion does to the lists

Connecting a level leaves everything but that level's lists alone: the new node's list becomes the ids selected, and each of those
gets a link back, its list cut when it was full.
-/
namespace Heraclitus
namespace VectorIndex

open Relation (ReflTransGen)

variable {P D F E Sig : Type} [LinearOrder D] {S : Host P D F Sig} {v v' u : VectorIndex P E Sig} {A : Set Nat}
variable {query point : P} {id ep level l n : Nat} {sel : List Nat}

def listAt (v : VectorIndex P E Sig) (i l : Nat) : Option (List Nat) := (v.nodes[i]?).bind (fun node => node.neighbors[l]?)

/-- The index with its lists emptied. -/
def skeleton (v : VectorIndex P E Sig) : VectorIndex P E Sig :=
  { v with nodes := v.nodes.map (fun node => { node with neighbors := node.neighbors.map (fun _ => []) }) }

/-- Only the lists differ. -/
def Alike (v v' : VectorIndex P E Sig) : Prop := skeleton v' = skeleton v

theorem Alike.refl (v : VectorIndex P E Sig) : Alike v v := rfl

theorem Alike.trans (h : Alike v u) (h' : Alike u v') : Alike v v' := Eq.trans h' h

theorem Alike.m (h : Alike v v') : v'.m = v.m := by
  have hm := congrArg VectorIndex.m h
  exact hm

theorem Alike.tombstones (h : Alike v v') : v'.tombstones = v.tombstones := by
  have htombstones := congrArg VectorIndex.tombstones h
  exact htombstones

theorem Alike.efConstruction (h : Alike v v') : v'.efConstruction = v.efConstruction := by
  have hef := congrArg VectorIndex.efConstruction h
  exact hef

theorem Alike.tables (h : Alike v v') :
    v'.ids = v.ids ∧ v'.lsns = v.lsns ∧ v'.byEvent = v.byEvent ∧ v'.entry = v.entry := by
  have hids := congrArg VectorIndex.ids h
  have hlsns := congrArg VectorIndex.lsns h
  have hevents := congrArg VectorIndex.byEvent h
  have hentry := congrArg VectorIndex.entry h
  exact ⟨hids, hlsns, hevents, hentry⟩

theorem Alike.node (h : Alike v v') {i : Nat} {node : Node P} (hnode : v.nodes[i]? = some node) :
    ∃ node', v'.nodes[i]? = some node' ∧ node'.point = node.point ∧ node'.level = node.level ∧
      node'.neighbors.length = node.neighbors.length := by
  have hbare := congrArg (fun w : VectorIndex P E Sig => w.nodes[i]?) h
  simp only [skeleton, List.getElem?_map, hnode, Option.map_some] at hbare
  obtain ⟨node', hnode', heq⟩ := Option.map_eq_some_iff.1 hbare
  have hpoint := congrArg Node.point heq
  have hlevel := congrArg Node.level heq
  have hlists := congrArg (fun w : Node P => w.neighbors.length) heq
  simp only [List.length_map] at hlists
  exact ⟨node', hnode', hpoint, hlevel, hlists⟩

theorem Alike.symm (h : Alike v v') : Alike v' v := Eq.symm h

theorem Alike.length (h : Alike v v') : v'.nodes.length = v.nodes.length := by
  have hlength := congrArg (fun w : VectorIndex P E Sig => w.nodes.length) h
  simpa only [skeleton, List.length_map] using hlength

theorem listAt_eq_some {i : Nat} {list : List Nat} :
    v.listAt i l = some list ↔ ∃ node, v.nodes[i]? = some node ∧ node.neighbors[l]? = some list := Option.bind_eq_some_iff

theorem isSome_listAt {i : Nat} :
    (v.listAt i l).isSome = true ↔ ∃ node, v.nodes[i]? = some node ∧ l < node.neighbors.length := by
  rw [listAt]
  cases v.nodes[i]? <;> simp

theorem Alike.isSome_listAt (h : Alike v v') (i l : Nat) : (v'.listAt i l).isSome = (v.listAt i l).isSome := by
  rw [Bool.eq_iff_iff, VectorIndex.isSome_listAt, VectorIndex.isSome_listAt]
  constructor
  · rintro ⟨node, hnode, hl⟩
    obtain ⟨node', hnode', -, -, hlength⟩ := h.symm.node hnode
    exact ⟨node', hnode', hlength ▸ hl⟩
  · rintro ⟨node, hnode, hl⟩
    obtain ⟨node', hnode', -, -, hlength⟩ := h.node hnode
    exact ⟨node', hnode', hlength ▸ hl⟩

theorem closed_iff : Closed v A ↔ ∀ i ∈ A, (v.listAt i 0).isSome = true ∧
    ∀ l list, v.listAt i l = some list → ∀ j ∈ list, j ∈ A := by
  refine forall₂_congr (fun i _ => ?_)
  rw [isSome_listAt]
  constructor
  · rintro ⟨node, hnode, hne, hlists⟩
    refine ⟨⟨node, hnode, List.length_pos_iff.2 hne⟩, fun l list hlist => ?_⟩
    rw [listAt, hnode, Option.bind_some] at hlist
    exact hlists list (List.mem_of_getElem? hlist)
  · rintro ⟨⟨node, hnode, hpos⟩, hlists⟩
    refine ⟨node, hnode, List.length_pos_iff.1 hpos, fun list hlist => ?_⟩
    obtain ⟨l, hl⟩ := List.mem_iff_getElem?.1 hlist
    exact hlists l list (by rw [listAt, hnode, Option.bind_some, hl])

/-- Searches of a level read lists up to that level only. -/
theorem Alike.layer (h : Alike v v') {i : Nat} (hsame : ∀ l ≤ level, v'.listAt i l = v.listAt i l) :
    v'.layer level i = v.layer level i := by
  cases hnode : v.nodes[i]? with
  | none =>
    have hnone : v'.nodes[i]? = none := by
      rw [List.getElem?_eq_none_iff, h.length]
      exact List.getElem?_eq_none_iff.1 hnode
    rw [VectorIndex.layer, VectorIndex.layer, hnode, hnone]
  | some node =>
    obtain ⟨node', hnode', -, -, hlength⟩ := h.node hnode
    have hlist := hsame (min level (node.neighbors.length - 1)) (Nat.min_le_left _ _)
    rw [listAt, listAt, hnode, hnode', Option.bind_some, Option.bind_some] at hlist
    have hnil : node'.neighbors = [] ↔ node.neighbors = [] := by
      rw [← List.length_eq_zero_iff, hlength, List.length_eq_zero_iff]
    simp only [VectorIndex.layer, hnode, hnode', Option.bind_some, hnil, hlength, hlist]

theorem Alike.link (h : Alike v v') (hsame : ∀ l ≤ level, ∀ i, v'.listAt i l = v.listAt i l) :
    Link v' level = Link v level := by
  funext i j
  rw [Link, Link, h.layer (fun l hl => hsame l hl i)]

/-! ## One list -/

theorem listAt_setList (v : VectorIndex P E Sig) (n l : Nat) (list : List Nat) (i l' : Nat) :
    (v.setList n l list).listAt i l' = if i = n ∧ l' = l then (v.listAt i l').map (fun _ => list) else v.listAt i l' := by
  simp only [listAt, setList, List.getElem?_modify]
  cases v.nodes[i]? with
  | none => simp
  | some node =>
    by_cases hi : n = i
    · subst hi
      by_cases hl : l = l'
      · subst hl
        by_cases hlt : l < node.neighbors.length
        · simp [hlt]
        · simp [Nat.not_lt.1 hlt]
      · simp [hl, Ne.symm hl]
    · simp [hi, Ne.symm hi]

theorem alike_setList (v : VectorIndex P E Sig) (n l : Nat) (list : List Nat) : Alike v (v.setList n l list) := by
  have hnodes : (v.nodes.modify n (fun node => { node with neighbors := node.neighbors.set l list })).map
      (fun node => { node with neighbors := node.neighbors.map (fun _ => []) }) =
      v.nodes.map (fun node => { node with neighbors := node.neighbors.map (fun _ => ([] : List Nat)) }) := by
    apply List.ext_getElem?
    intro i
    rw [List.getElem?_map, List.getElem?_map, List.getElem?_modify]
    cases v.nodes[i]? with
    | none => rfl
    | some node =>
      by_cases hi : n = i
      · simp [hi, List.map_const']
      · simp [hi]
  rw [Alike, skeleton, skeleton, setList, hnodes]

/-! ## Links back -/

/-- The link to the new node is in a list of the level, and the list has lost members only if it was full. -/
def Relinked (v v' : VectorIndex P E Sig) (id l i : Nat) : Prop :=
  ∀ list', v'.listAt i l = some list' → ∃ list, v.listAt i l = some list ∧ (∀ j ∈ list', j ∈ list ∨ j = id) ∧
    (list.length < v.m * 2 → list' = list ++ [id])

theorem sortByDist_perm (np : P) (nb : List Nat) (h : ∀ a ∈ nb, ∃ d, v.dist S a np = some d) :
    ∃ nb', v.sortByDist S np nb = some nb' ∧ nb'.Perm nb := by
  obtain ⟨keyed, hkeyed, hall⟩ := mapM_eq_some_of_forall (f := fun a => (v.dist S a np).map (fun d => (⟨d, a⟩ : Candidate D)))
    (R := fun a c => c.id = a) (fun a ha => by
      obtain ⟨d, hd⟩ := h a ha
      exact ⟨⟨d, a⟩, by rw [hd, Option.map_some], rfl⟩)
  have hids : keyed.map (·.id) = nb := by
    clear hkeyed h
    induction hall with
    | nil => rfl
    | cons hid _ ih => rw [List.map_cons, hid, ih]
  refine ⟨_, by rw [sortByDist, hkeyed, Option.map_some], ?_⟩
  rw [← hids]
  exact (List.perm_insertionSort _ keyed).map _

/-- One link back. -/
theorem backLink_relinked (hA : Closed v A) (hn : n ∈ A) (hid : id ∈ A) (hm : v.m * 2 < 2 ^ 64) :
    ∃ v', backLink S id l v n = some v' ∧ Alike v v' ∧ (∀ i l', i = n ∧ l' = l ∨ v'.listAt i l' = v.listAt i l') ∧
      Relinked v v' id l n := by
  obtain ⟨node, hnode, hne, hlists⟩ := hA n hn
  cases hlist : node.neighbors[l]? with
  | none =>
    refine ⟨v, by rw [backLink, hnode, Option.bind_some, hlist], .refl v, fun _ _ => Or.inr rfl, fun list' h => ?_⟩
    rw [listAt, hnode, Option.bind_some, hlist] at h
    cases h
  | some list =>
    have hold : v.listAt n l = some list := by rw [listAt, hnode, Option.bind_some, hlist]
    have hset : ∀ nb, Alike v (v.setList n l nb) ∧
        (∀ i l', i = n ∧ l' = l ∨ (v.setList n l nb).listAt i l' = v.listAt i l') ∧
        (v.setList n l nb).listAt n l = some nb := fun nb => by
      refine ⟨alike_setList v n l nb, fun i l' => ?_, ?_⟩
      · rw [listAt_setList]
        by_cases h : i = n ∧ l' = l
        · exact Or.inl h
        · exact Or.inr (if_neg h)
      · rw [listAt_setList, if_pos ⟨rfl, rfl⟩, hold, Option.map_some]
    have hback : ∀ nb, (∀ j ∈ nb, j ∈ list ∨ j = id) → (list.length < v.m * 2 → nb = list ++ [id]) →
        Relinked v (v.setList n l nb) id l n := fun nb hsub hkeep list' h => by
      obtain rfl : nb = list' := Option.some.inj ((hset nb).2.2.symm.trans h)
      exact ⟨list, hold, hsub, hkeep⟩
    have hmem : ∀ j ∈ list ++ [id], j ∈ list ∨ j = id := fun j hj => by
      rw [List.mem_append, List.mem_singleton] at hj
      exact hj
    by_cases hfull : v.m * 2 < (list ++ [id]).length
    · obtain ⟨nb, hnb, hperm⟩ := sortByDist_perm (S := S) (v := v) node.point (list ++ [id]) (fun a ha => by
        refine (hA.closedAt 0).dist node.point ?_
        rcases hmem a ha with ha | rfl
        · exact hlists list (List.mem_of_getElem? hlist) a ha
        · exact hid)
      refine ⟨_, by rw [backLink, hnode, Option.bind_some, hlist]; dsimp only; rw [if_pos hm, if_pos hfull, hnb,
        Option.map_some], (hset _).1, (hset _).2.1, hback _ (fun j hj => ?_) (fun hlt => ?_)⟩
      · exact hmem j (hperm.mem_iff.1 (List.mem_of_mem_take hj))
      · rw [List.length_append, List.length_singleton] at hfull
        omega
    · exact ⟨_, by rw [backLink, hnode, Option.bind_some, hlist]; dsimp only; rw [if_pos hm, if_neg hfull], (hset _).1,
        (hset _).2.1, hback _ hmem (fun _ => rfl)⟩

/-- Lists that gain members of a closed set only leave it closed. -/
theorem Closed.of_alike (hA : Closed v A) (h : Alike v v') (hlists : ∀ i ∈ A, ∀ l list', v'.listAt i l = some list' →
    ∀ j ∈ list', j ∈ A ∨ ∃ list, v.listAt i l = some list ∧ j ∈ list) : Closed v' A := by
  rw [closed_iff] at hA ⊢
  refine fun i hi => ⟨by rw [h.isSome_listAt]; exact (hA i hi).1, fun l list' hlist' j hj => ?_⟩
  rcases hlists i hi l list' hlist' j hj with hin | ⟨list, hlist, hin⟩
  · exact hin
  · exact (hA i hi).2 l list hlist j hin

/-- The links back of all the ids selected. -/
theorem backLinks_relinked (hid : id ∈ A) : ∀ {sel : List Nat} {v : VectorIndex P E Sig}, Closed v A → v.m * 2 < 2 ^ 64 →
    (∀ n ∈ sel, n ∈ A) → sel.Nodup → ∃ v', sel.foldlM (backLink S id l) v = some v' ∧ Alike v v' ∧ Closed v' A ∧
      (∀ i l', i ∈ sel ∧ l' = l ∨ v'.listAt i l' = v.listAt i l') ∧ ∀ i ∈ sel, Relinked v v' id l i
  | [], v, hA, _, _, _ => ⟨v, rfl, .refl v, hA, fun _ _ => Or.inr rfl, fun _ hi => (List.not_mem_nil hi).elim⟩
  | n :: sel, v, hA, hm, hsel, hnodup => by
    obtain ⟨hn, hnodup⟩ := List.nodup_cons.1 hnodup
    obtain ⟨w, hw, halike, hsame, hrelinked⟩ := backLink_relinked (S := S) (l := l) hA (hsel n (List.mem_cons_self ..)) hid hm
    have hAw : Closed w A := hA.of_alike halike (fun i _ l' list' hlist' j hj => by
      rcases hsame i l' with ⟨rfl, rfl⟩ | heq
      · obtain ⟨list, hlist, hsub, -⟩ := hrelinked list' hlist'
        rcases hsub j hj with hj | rfl
        · exact Or.inr ⟨list, hlist, hj⟩
        · exact Or.inl hid
      · exact Or.inr ⟨list', heq ▸ hlist', hj⟩)
    obtain ⟨v', hv', halike', hA', hsame', hrelinked'⟩ := backLinks_relinked hid hAw (halike.m ▸ hm)
      (fun i hi => hsel i (List.mem_cons_of_mem _ hi)) hnodup
    refine ⟨v', by rw [List.foldlM_cons, hw]; exact hv', halike.trans halike', hA', fun i l' => ?_, fun i hi => ?_⟩
    · rcases hsame' i l' with ⟨hi, hl⟩ | heq'
      · exact Or.inl ⟨List.mem_cons_of_mem _ hi, hl⟩
      · rcases hsame i l' with ⟨rfl, hl⟩ | heq
        · exact Or.inl ⟨List.mem_cons_self .., hl⟩
        · exact Or.inr (heq'.trans heq)
    · rcases List.mem_cons.1 hi with rfl | hi
      · -- later links leave this list alone
        have heq : v'.listAt i l = w.listAt i l := (hsame' i l).resolve_left (fun h => hn h.1)
        exact fun list' hlist' => hrelinked list' (heq ▸ hlist')
      · have heq : w.listAt i l = v.listAt i l := (hsame i l).resolve_left (fun h => hn (h.1 ▸ hi))
        intro list' hlist'
        obtain ⟨list, hlist, hrest⟩ := hrelinked' i hi list' hlist'
        exact ⟨list, heq ▸ hlist, by rw [← halike.m]; exact hrest⟩

/-! ## One level -/

/-- What is selected at a level: nodes that the search can reach and that are not tombstoned, and some if there are any. -/
structure Chosen (v : VectorIndex P E Sig) (id l ep : Nat) (sel : List Nat) : Prop where
  nodup : sel.Nodup
  member : ∀ x ∈ sel, ReflTransGen (Link v l) ep x ∧ x ≠ id ∧ x ∉ v.tombstones
  nonempty : 0 < v.m → 1 < v.efConstruction → sel = [] →
    ∀ x, ReflTransGen (Link v l) ep x → x ∉ v.tombstones → x = id

/-- The new node has the ids selected as its list, and they a link back. -/
structure Joined (v v' : VectorIndex P E Sig) (id l : Nat) (sel : List Nat) : Prop where
  own : v'.listAt id l = some sel
  others : ∀ i, i ≠ id → i ∉ sel → v'.listAt i l = v.listAt i l
  back : ∀ i ∈ sel, Relinked v v' id l i

theorem passes_none (v : VectorIndex P E Sig) (x : Nat) : v.passes none x = true ↔ x ∉ v.tombstones := by
  simp [passes]

theorem Found.chosen {out : List (Candidate D)} (h : Found S v point l v.efConstruction none ep out) :
    Chosen v id l ep (select id v.m out) where
  nodup := by
    have hsub : ((out.filter (fun c => c.id ≠ id)).take v.m).Sublist out := (List.take_sublist _ _).trans List.filter_sublist
    exact (hsub.map _).nodup h.nodup
  member x hx := by
    obtain ⟨c, hc, rfl⟩ := List.mem_map.1 hx
    have hc := List.mem_filter.1 (List.mem_of_mem_take hc)
    obtain ⟨hreach, hpass, -⟩ := h.sound c hc.1
    exact ⟨hreach, of_decide_eq_true hc.2, (passes_none v c.id).1 hpass⟩
  nonempty hm hef hnil x hx hlive := by
    have hfilter : out.filter (fun c => c.id ≠ id) = [] := by
      rcases List.take_eq_nil_iff.1 (List.map_eq_nil_iff.1 hnil) with h0 | h0
      · omega
      · exact h0
    have hids : ∀ c ∈ out, c.id = id := fun c hc => by
      have := List.filter_eq_nil_iff.1 hfilter c hc
      simpa using this
    have hshort : out.length < v.efConstruction := by
      rcases out with _ | ⟨a, _ | ⟨b, out⟩⟩
      · exact Nat.lt_trans Nat.zero_lt_one hef
      · exact hef
      · have hnodup := h.nodup
        rw [List.map_cons, List.map_cons, hids a (by simp), hids b (by simp)] at hnodup
        exact absurd (List.mem_cons_self ..) (List.nodup_cons.1 hnodup).1
    obtain ⟨c, hc, rfl⟩ := h.complete hshort x hx ((passes_none v x).2 hlive)
    exact hids c hc

theorem connectLevel_joined {B : Set Nat} (point : P) (hA : Closed v A) (hB : ClosedAt v l B) (hBA : B ⊆ A) (hep : ep ∈ B)
    (hid : id ∈ A) (hm : v.m * 2 < 2 ^ 64) (hl : (v.listAt id l).isSome = true) : ∃ v' ep' sel,
      connectLevel S id point v ep l = some (v', ep') ∧ ep' ∈ B ∧ Alike v v' ∧ Closed v' A ∧
      (∀ i l', l' ≠ l → v'.listAt i l' = v.listAt i l') ∧ Joined v v' id l sel ∧ Chosen v id l ep sel := by
  obtain ⟨out, hout, -, hfound⟩ := searchLayer_found (S := S) hB hep point v.efConstruction none
  have hchosen : Chosen v id l ep (select id v.m out) := hfound.chosen
  have hselA : ∀ x ∈ select id v.m out, x ∈ A := fun x hx => hBA (hB.reach hep (hchosen.member x hx).1)
  obtain ⟨w, hw, halike, hAw, hsame, hrelinked⟩ := backLinks_relinked (S := S) (l := l) hid hA hm hselA hchosen.nodup
  have hown : (w.listAt id l).isSome = true := by rw [halike.isSome_listAt, hl]
  obtain ⟨node, hnode, hlt⟩ := isSome_listAt.1 hown
  have hset := listAt_setList w id l (select id v.m out)
  have hother : ∀ i l', ¬(i = id ∧ l' = l) → (w.setList id l (select id v.m out)).listAt i l' = w.listAt i l' :=
    fun i l' h => by rw [hset, if_neg h]
  have hself : (w.setList id l (select id v.m out)).listAt id l = some (select id v.m out) := by
    obtain ⟨list, hlist⟩ := Option.isSome_iff_exists.1 hown
    rw [hset, if_pos ⟨rfl, rfl⟩, hlist, Option.map_some]
  refine ⟨w.setList id l (select id v.m out), _, select id v.m out, ?_, hB.reach hep hfound.first,
    halike.trans (alike_setList w id l _), ?_, fun i l' hl' => ?_, ?_, hchosen⟩
  · rw [connectLevel, hout, Option.bind_some]
    dsimp only
    rw [hw, Option.bind_some, hnode, Option.bind_some, if_pos hlt]
  · refine hAw.of_alike (alike_setList w id l _) (fun i _ l' list' hlist' j hj => ?_)
    by_cases h : i = id ∧ l' = l
    · obtain ⟨rfl, rfl⟩ := h
      obtain rfl : select i v.m out = list' := Option.some.inj (hself.symm.trans hlist')
      exact Or.inl (hselA j hj)
    · exact Or.inr ⟨list', hother i l' h ▸ hlist', hj⟩
  · rw [hother i l' (fun h => hl' h.2)]
    exact (hsame i l').resolve_left (fun h => hl' h.2)
  · exact {
      own := hself
      others := fun i hi hsel => by
        rw [hother i l (fun h => hi h.1)]
        exact (hsame i l).resolve_left (fun h => hsel h.1)
      back := fun i hi list' hlist' => by
        rw [hother i l (fun h => (hchosen.member i hi).2.1 h.1)] at hlist'
        exact hrelinked i hi list' hlist' }

/-! ## All levels -/

/-- Changes at higher levels do not touch what is chosen. -/
theorem Chosen.of_alike (h : Chosen v' id l ep sel) (halike : Alike v v') (hlink : Link v' l = Link v l) :
    Chosen v id l ep sel where
  nodup := h.nodup
  member x hx := by
    rw [← hlink, ← halike.tombstones]
    exact h.member x hx
  nonempty := by
    rw [← hlink, ← halike.tombstones, ← halike.m, ← halike.efConstruction]
    exact h.nonempty

theorem connect_joined {B : Nat → Set Nat} (hB : Antitone B) (hBA : ∀ l, B l ⊆ A) (hid : id ∈ A) (point : P) :
    ∀ {k : Nat} {v : VectorIndex P E Sig} {ep : Nat}, Closed v A → (∀ l < k, ClosedAt v l (B l)) → ep ∈ B (k - 1) →
    v.m * 2 < 2 ^ 64 → (∀ l < k, (v.listAt id l).isSome = true) →
    ∃ (v' : VectorIndex P E Sig) (ep' : Nat) (sel : Nat → List Nat),
      connect S id point (List.range k).reverse (v, ep) = some (v', ep') ∧ Alike v v' ∧ Closed v' A ∧
      (∀ i l, k ≤ l → v'.listAt i l = v.listAt i l) ∧
      ∀ l < k, Joined v v' id l (sel l) ∧ ∃ ep' ∈ B l, Chosen v id l ep' (sel l)
  | 0, v, ep, hA, _, _, _, _ => ⟨v, ep, fun _ => [], rfl, .refl v, hA, fun _ _ _ => rfl, fun _ hl => (Nat.not_lt_zero _ hl).elim⟩
  | k + 1, v, ep, hA, hclosed, hep, hm, hlists => by
    have hep : ep ∈ B k := hep
    obtain ⟨w, ep₁, s, hw, hep₁, halike, hAw, hsame, hjoined, hchosen⟩ := connectLevel_joined (S := S) point hA
      (hclosed k (Nat.lt_succ_self k)) (hBA k) hep hid hm (hlists k (Nat.lt_succ_self k))
    have hsameLow : ∀ l < k, ∀ l' ≤ l, ∀ i, w.listAt i l' = v.listAt i l' := fun l hl l' hl' i => hsame i l' (by omega)
    obtain ⟨v', ep', sel, hv', halike', hA', hsame', hlevels⟩ := connect_joined hB hBA hid point (k := k) hAw
      (fun l hl i hi => by
        rw [halike.layer (fun l' hl' => hsameLow l hl l' hl' i)]
        exact hclosed l (Nat.lt_succ_of_lt hl) i hi)
      (hB (Nat.sub_le k 1) hep₁) (halike.m ▸ hm) (fun l hl => by
        rw [halike.isSome_listAt]
        exact hlists l (Nat.lt_succ_of_lt hl))
    refine ⟨v', ep', fun l => if l = k then s else sel l, ?_, halike.trans halike', hA', fun i l hl => ?_, fun l hl => ?_⟩
    · rw [List.range_succ, List.reverse_append, List.reverse_singleton, List.singleton_append, connect]
      dsimp only
      rw [hw, Option.bind_some, hv']
    · rw [hsame' i l (by omega), hsame i l (by omega)]
    · rcases Nat.eq_or_lt_of_le (Nat.lt_succ_iff.1 hl) with rfl | hlt
      · -- the level just connected: the rest leaves it alone
        dsimp only
        rw [if_pos rfl]
        refine ⟨⟨?_, fun i hi hs => ?_, fun i hi list' hlist' => ?_⟩, ep, hep, hchosen⟩
        · rw [hsame' _ _ (Nat.le_refl _), hjoined.own]
        · rw [hsame' _ _ (Nat.le_refl _), hjoined.others i hi hs]
        · exact hjoined.back i hi list' (hsame' i l (Nat.le_refl _) ▸ hlist')
      · -- a level below, as it was before
        dsimp only
        rw [if_neg (Nat.ne_of_lt hlt)]
        obtain ⟨hj, ep₂, hep₂, hc⟩ := hlevels l hlt
        have hlist : ∀ i, w.listAt i l = v.listAt i l := fun i => hsame i l (Nat.ne_of_lt hlt)
        refine ⟨⟨hj.own, fun i hi hs => ?_, fun i hi list' hlist' => ?_⟩, ep₂, hep₂,
          hc.of_alike halike (halike.link (hsameLow l hlt))⟩
        · rw [hj.others i hi hs, hlist]
        · obtain ⟨list, h, hrest⟩ := hj.back i hi list' hlist'
          exact ⟨list, hlist i ▸ h, by rw [← halike.m]; exact hrest⟩

/-- One index after another with a node connected at the levels up to `top`. -/
structure Grown (B : Nat → Set Nat) (v v' : VectorIndex P E Sig) (id top : Nat) (sel : Nat → List Nat) : Prop where
  alike : Alike v v'
  upper : ∀ i l, top < l → v'.listAt i l = v.listAt i l
  joined : ∀ l ≤ top, Joined v v' id l (sel l)
  chosen : ∀ l ≤ top, ∃ ep ∈ B l, Chosen v id l ep (sel l)

/-- Where the members of a list come from. -/
theorem Grown.mem {B : Nat → Set Nat} {top : Nat} {sel : Nat → List Nat} (h : Grown B v v' id top sel) {i j : Nat}
    {list' : List Nat} (hlist' : v'.listAt i l = some list') (hj : j ∈ list') :
    (∃ list, v.listAt i l = some list ∧ j ∈ list) ∨ l ≤ top ∧ (i = id ∧ j ∈ sel l ∨ i ∈ sel l ∧ j = id) := by
  by_cases hl : l ≤ top
  · have hjoined := h.joined l hl
    by_cases hi : i = id
    · subst hi
      obtain rfl : sel l = list' := Option.some.inj (hjoined.own.symm.trans hlist')
      exact Or.inr ⟨hl, Or.inl ⟨rfl, hj⟩⟩
    · by_cases hsel : i ∈ sel l
      · obtain ⟨list, hlist, hsub, -⟩ := hjoined.back i hsel list' hlist'
        rcases hsub j hj with hj | rfl
        · exact Or.inl ⟨list, hlist, hj⟩
        · exact Or.inr ⟨hl, Or.inr ⟨hsel, rfl⟩⟩
      · exact Or.inl ⟨list', hjoined.others i hi hsel ▸ hlist', hj⟩
  · exact Or.inl ⟨list', h.upper i l (by omega) ▸ hlist', hj⟩

/-! ## The whole insertion -/

section Push

variable (v) (e : E) (lsn : Nat) [DecidableEq E]

theorem nodes_pushNode_lt {i : Nat} (hi : i < v.nodes.length) : (v.pushNode e lsn point level).nodes[i]? = v.nodes[i]? :=
  List.getElem?_append_left hi

theorem nodes_pushNode_self : (v.pushNode e lsn point level).nodes[v.nodes.length]? =
    some { point := point, level := level, neighbors := List.replicate (level + 1) [] } := List.getElem?_concat_length

theorem listAt_pushNode_lt {i : Nat} (hi : i < v.nodes.length) :
    (v.pushNode e lsn point level).listAt i l = v.listAt i l := by
  rw [listAt, nodes_pushNode_lt v e lsn hi, listAt]

theorem listAt_pushNode_self : (v.pushNode e lsn point level).listAt v.nodes.length l =
    if l ≤ level then some [] else none := by
  rw [listAt, nodes_pushNode_self, Option.bind_some, List.getElem?_replicate]
  by_cases h : l ≤ level
  · rw [if_pos h, if_pos (by omega)]
  · rw [if_neg h, if_neg (by omega)]

theorem link_pushNode {i : Nat} (hi : i < v.nodes.length) :
    Link (v.pushNode e lsn point level) l i = Link v l i := by
  funext j
  rw [Link, Link, layer, layer, nodes_pushNode_lt v e lsn hi]

variable {v} {e lsn}

theorem Closed.pushNode (hA : Closed v A) : Closed (v.pushNode e lsn point level) A := fun i hi => by
  rw [nodes_pushNode_lt v e lsn ((hA.closedAt 0).lt hi)]
  exact hA i hi

/-- The new node leads nowhere yet. -/
theorem Closed.pushNode_insert (hA : Closed v A) :
    Closed (v.pushNode e lsn point level) (Insert.insert v.nodes.length A) := by
  intro i hi
  rcases hi with rfl | hi
  · refine ⟨_, nodes_pushNode_self v e lsn, by simp, fun list hlist j hj => ?_⟩
    rw [List.eq_of_mem_replicate hlist] at hj
    exact (List.not_mem_nil hj).elim
  · have hold : Closed (v.pushNode e lsn point level) A := hA.pushNode
    obtain ⟨node, hnode, hne, hlists⟩ := hold i hi
    exact ⟨node, hnode, hne, fun list hlist j hj => Or.inr (hlists list hlist j hj)⟩

end Push

variable [DecidableEq E] {e : E} {lsn : Nat}

theorem insert_known (h : (v.byEvent e).isSome = true) : v.insert S e lsn point = some v := by
  rw [VectorIndex.insert, if_pos h]

theorem insert_first (hnew : v.byEvent e = none) (hroom : v.nodes.length < 2 ^ 32) (hlevel : v.randomLevel S + 1 < 2 ^ 64)
    (hentry : v.entry = none) : v.insert S e lsn point =
      some { v.pushNode e lsn point (v.randomLevel S) with entry := some v.nodes.length } := by
  rw [VectorIndex.insert, hnew]
  dsimp only [Option.isSome_none]
  rw [if_neg Bool.false_ne_true, if_pos hlevel, Nat.mod_eq_of_lt hroom]
  unfold pushNode
  rw [hentry]

theorem descending_levels (a b : Nat) : (List.range' (a + 1) (b - a)).reverse.Pairwise (· > ·) := by
  rw [List.pairwise_reverse]
  exact List.pairwise_lt_range'

/-- **An insertion, in full**: the node is pushed and, level by level from the lower of its own and the entry point's, joined to
nodes that a search can reach.  `B l` are nodes that a search of level `l` stays among. -/
theorem insert_grown {B : Nat → Set Nat} {node : Node P} (e : E) (lsn : Nat) (point : P) (hA : Closed v A) (hB : Antitone B) (hBA : ∀ l, B l ⊆ A)
    (hclosed : ∀ l, ∀ i ∈ B l, ∃ node, v.nodes[i]? = some node ∧ ClosedAt v (min l node.level) (B l))
    (hclosed' : ∀ l ≤ node.level, ClosedAt v l (B l))
    (hentry : v.entry = some ep) (hnode : v.nodes[ep]? = some node) (hep : ep ∈ B node.level) (hnew : v.byEvent e = none)
    (hroom : v.nodes.length < 2 ^ 32) (hm : v.m * 2 < 2 ^ 64) (hlevel : v.randomLevel S + 1 < 2 ^ 64) :
    ∃ (ep₀ : Nat) (w : VectorIndex P E Sig) (ep₁ : Nat) (sel : Nat → List Nat),
      (v.pushNode e lsn point (v.randomLevel S)).approach S point (v.randomLevel S) ep = some (node.level, ep₀) ∧
      connect S v.nodes.length point (List.range (min (v.randomLevel S) node.level + 1)).reverse
        (v.pushNode e lsn point (v.randomLevel S), ep₀) = some (w, ep₁) ∧
      v.insert S e lsn point = some (if node.level < v.randomLevel S then { w with entry := some v.nodes.length } else w) ∧
      Closed w (Insert.insert v.nodes.length A) ∧
      Grown B (v.pushNode e lsn point (v.randomLevel S)) w v.nodes.length (min (v.randomLevel S) node.level) sel := by
  have hlt : ∀ {l i}, i ∈ B l → i < v.nodes.length := fun hi => (hA.closedAt 0).lt (hBA _ hi)
  have hat : ∀ {l l'}, ClosedAt v l (B l') → ClosedAt (v.pushNode e lsn point (v.randomLevel S)) l (B l') := fun h i hi => by
    rw [layer, nodes_pushNode_lt v e lsn (hlt hi)]
    exact h i hi
  have hunode : (v.pushNode e lsn point (v.randomLevel S)).nodes[ep]? = some node := by
    rw [nodes_pushNode_lt v e lsn (hlt hep), hnode]
  have hpick : ∀ l, ∀ i ∈ B l, ∃ l',
      ((v.pushNode e lsn point (v.randomLevel S)).nodes[i]?).map (fun node => min l node.level) = some l' ∧
        ClosedAt (v.pushNode e lsn point (v.randomLevel S)) l' (B l) := fun l i hi => by
    obtain ⟨node', hnode', hstay⟩ := hclosed l i hi
    exact ⟨_, by rw [nodes_pushNode_lt v e lsn (hlt hi), hnode', Option.map_some], hat hstay⟩
  obtain ⟨ep₀, hdescend, hep₀⟩ := descend_mem (S := S) (b := min (v.randomLevel S) node.level) hB point
    (descending_levels (v.randomLevel S) node.level) (fun l hl => by
      rw [List.mem_reverse, List.mem_range'_1] at hl
      omega) (Nat.min_le_right _ _) (fun l _ => hpick l) hep
  obtain ⟨w, ep₁, sel, hw, halike, hAw, hupper, hlower⟩ := connect_joined (S := S) (A := Insert.insert v.nodes.length A) hB
    (fun l i hi => Or.inr (hBA l hi)) (Set.mem_insert ..) point (k := min (v.randomLevel S) node.level + 1)
    hA.pushNode_insert (fun l hl => hat (hclosed' l (by omega))) hep₀ hm (fun l hl => by
      rw [listAt_pushNode_self, if_pos (by omega)]
      rfl)
  have happroach : (v.pushNode e lsn point (v.randomLevel S)).approach S point (v.randomLevel S) ep =
      some (node.level, ep₀) := by
    rw [approach, hunode, Option.bind_some, hdescend, Option.map_some]
  refine ⟨ep₀, w, ep₁, sel, happroach, hw, ?_, hAw, halike, fun i l hl => hupper i l (by omega),
    fun l hl => (hlower l (by omega)).1, fun l hl => (hlower l (by omega)).2⟩
  rw [VectorIndex.insert, hnew]
  dsimp only [Option.isSome_none]
  rw [if_neg Bool.false_ne_true, if_pos hlevel, Nat.mod_eq_of_lt hroom]
  have hpushed : (v.pushNode e lsn point (v.randomLevel S)).entry = some ep := hentry
  rw [hpushed]
  dsimp only
  rw [happroach, Option.bind_some]
  dsimp only
  rw [hw, Option.map_some]

end VectorIndex
end Heraclitus
