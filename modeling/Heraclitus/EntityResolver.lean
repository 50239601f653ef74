import Heraclitus.Episode
/-!
# EntityResolver — which keys are one entity, and since when (`heraclitus-index-graph/src/entity.rs`)

An event mentions a key, merges the groups of two keys or splits a key off its group.  Every assignment of a key to an
entity is an interval of LSNs, so a key is resolved as of any LSN.
-/
namespace Heraclitus
namespace Entity

structure EntityInterval where
  entityId : Str
  validFromLsn : Nat
  validToLsn : Option Nat
  deriving DecidableEq

def EntityInterval.aliveAt (iv : EntityInterval) (t : Nat) : Bool :=
  decide (iv.validFromLsn ≤ t) && iv.validToLsn.all (fun stop => decide (t < stop))

/-- A set of keys. -/
abbrev KeySet := SortedMap Str Unit

structure EntityResolver where
  mappings : SortedMap Str (List EntityInterval) := .empty
  mentions : SortedMap Str KeySet := .empty
  canonical : SortedMap Str Str := .empty
  groups : SortedMap Str KeySet := .empty
  watermark : Nat := 0

namespace EntityResolver

/-- `entry(k).or_default().insert(x)`. -/
def addTo (m : SortedMap Str KeySet) (k x : Str) : SortedMap Str KeySet :=
  m.alter k (fun set => some ((set.getD .empty).insert x ()))

/-- `entry(key).or_default().push(..)` of an open interval. -/
def pushOpen (m : SortedMap Str (List EntityInterval)) (key id : Str) (lsn : Nat) : SortedMap Str (List EntityInterval) :=
  m.alter key (fun ivs => some (ivs.getD [] ++ [⟨id, lsn, none⟩]))

def ensureCanonical (s : EntityResolver) (key : Str) (lsn : Nat) : EntityResolver :=
  if s.canonical.contains key then s
  else { s with
    canonical := s.canonical.insert key key
    groups := addTo s.groups key key
    mappings := pushOpen s.mappings key key lsn }

def recordMention (s : EntityResolver) (key : Str) (lsn : Nat) (event : Str) : EntityResolver :=
  let s := s.ensureCanonical key lsn
  { s with mentions := addTo s.mentions key event }

/-- The last interval, closed if it is open. -/
def closeLast (t : Nat) : List EntityInterval → List EntityInterval
  | [] => []
  | [iv] => [if iv.validToLsn = none then { iv with validToLsn := some t } else iv]
  | iv :: next :: ivs => iv :: closeLast t (next :: ivs)

def closeOpen (s : EntityResolver) (key : Str) (t : Nat) : EntityResolver :=
  { s with mappings := s.mappings.alter key (fun ivs => ivs.map (closeLast t)) }

/-- The key's open interval ends, and one of the entity `id` begins. -/
def reassign (s : EntityResolver) (key id : Str) (lsn : Nat) : EntityResolver :=
  let s := s.closeOpen key lsn
  { s with mappings := pushOpen s.mappings key id lsn, canonical := s.canonical.insert key id }

/-- One turn of the loop in `merge_keys`. -/
def repoint (surv : Str) (lsn : Nat) (s : EntityResolver) (key : Str) : EntityResolver :=
  let s := s.reassign key surv lsn
  { s with groups := addTo s.groups surv key }

/-- The survivor of a merge is the smaller id.  The members of the other group are moved to it. -/
def mergeKeys (s : EntityResolver) (a b : Str) (lsn : Nat) : EntityResolver :=
  let s := (s.ensureCanonical a lsn).ensureCanonical b lsn
  match s.canonical.get? a, s.canonical.get? b with
  | some ca, some cb =>
    if ca = cb then s
    else
      let surv := if ca ≤ cb then ca else cb
      let other := if ca ≤ cb then cb else ca
      let members := ((s.groups.get? other).getD .empty).entries.map Prod.fst
      let s := members.foldl (repoint surv lsn) s
      { s with groups := s.groups.erase other }
  | _, _ => s

/-- `{key}@{lsn}`. -/
def splitId (key : Str) (lsn : Nat) : Str := key ++ '@' :: (toString lsn).toList

def splitKey (s : EntityResolver) (key : Str) (lsn : Nat) : EntityResolver :=
  match s.canonical.get? key with
  | none => s
  | some old =>
    let newId := splitId key lsn
    if old = newId then s
    else
      let s := s.reassign key newId lsn
      let groups := s.groups.alter old (fun g => g.map (·.erase key))
      { s with groups := addTo groups newId key }

/-- What the resolver takes from an event. -/
inductive Signal where
  | merge (a b : Str)
  | split (key : Str)
  | mention (key : Str)
  | other
  deriving DecidableEq

def signal (e : Episode) : Signal :=
  let op := e.attrs.get? "er_op".toList
  if op = some "merge".toList then
    match e.attrs.get? "er_a".toList, e.attrs.get? "er_b".toList with
    | some a, some b => .merge a b
    | _, _ => .other
  else if op = some "split".toList then
    match e.attrs.get? "er_key".toList with
    | some key => .split key
    | none => .other
  else
    match e.attrs.get? "entity_key".toList with
    | some key => .mention key
    | none => .other

variable (ulidText : Nat → Str)

def applyEpisode (s : EntityResolver) (lsn : Nat) (e : Episode) : EntityResolver :=
  let s := match signal e with
    | .merge a b => s.mergeKeys a b lsn
    | .split key => s.splitKey key lsn
    | .mention key => s.recordMention key lsn (ulidText e.id)
    | .other => s
  { s with watermark := max s.watermark lsn }

/-- The resolver built from a log. -/
def replay (events : List (Nat × Episode)) : EntityResolver :=
  events.foldl (fun s p => s.applyEpisode ulidText p.1 p.2) {}

/-- The entity of a key as of an LSN. -/
def resolve (s : EntityResolver) (key : Str) (asOf : Nat) : Option Str :=
  (s.mappings.get? key).bind (fun ivs => (ivs.find? (·.aliveAt asOf)).map (·.entityId))

end EntityResolver

/-! ## Timelines

A key's intervals are told by the moments at which it was assigned: each interval ends where the next begins. -/

open EntityResolver

/-- To which entity, and since which LSN. -/
abbrev Change := Str × Nat

def intervals : List Change → List EntityInterval
  | [] => []
  | [c] => [⟨c.1, c.2, none⟩]
  | c :: next :: cs => ⟨c.1, c.2, some next.2⟩ :: intervals (next :: cs)

/-- In the order of their LSNs. -/
def Sorted (cs : List Change) : Prop := cs.Pairwise (fun a b => a.2 ≤ b.2)

/-- The changes up to an LSN. -/
def upTo (t : Nat) (cs : List Change) : List Change := cs.filter (fun c => decide (c.2 ≤ t))

/-- **A new assignment** closes the open interval and begins another. -/
theorem intervals_concat (id : Str) (lsn : Nat) : ∀ cs : List Change,
    closeLast lsn (intervals cs) ++ [⟨id, lsn, none⟩] = intervals (cs ++ [(id, lsn)])
  | [] => rfl
  | [_] => rfl
  | [_, _] => rfl
  | c :: next :: third :: cs => by
    have ih := intervals_concat id lsn (next :: third :: cs)
    rw [intervals] at ih
    rw [intervals, intervals, closeLast, List.cons_append, ih]
    rfl

theorem upTo_eq_nil {t : Nat} {c : Change} {cs : List Change} (hs : Sorted (c :: cs)) (h : t < c.2) : upTo t (c :: cs) = [] := by
  refine List.filter_eq_nil_iff.2 (fun d hd => ?_)
  have hle : c.2 ≤ d.2 := by
    rcases List.mem_cons.1 hd with rfl | hd
    · exact Nat.le_refl _
    · exact (List.pairwise_cons.1 hs).1 d hd
  simp
  omega

/-- **The interval that is alive at `t` is that of the last change up to `t`.** -/
theorem find?_intervals (t : Nat) : ∀ {cs : List Change}, Sorted cs →
    ((intervals cs).find? (·.aliveAt t)).map (·.entityId) = (upTo t cs).getLast?.map Prod.fst
  | [], _ => rfl
  | [c], _ => by
    by_cases h : c.2 ≤ t <;> simp [intervals, upTo, EntityInterval.aliveAt, h]
  | c :: next :: cs, hs => by
    have hnext : Sorted (next :: cs) := (List.pairwise_cons.1 hs).2
    have hle : c.2 ≤ next.2 := (List.pairwise_cons.1 hs).1 next List.mem_cons_self
    have ih := find?_intervals t hnext
    rw [intervals, List.find?_cons]
    by_cases hlt : t < next.2
    · have hnone := upTo_eq_nil hnext hlt
      rw [hnone] at ih
      have hcons : upTo t (c :: next :: cs) = if c.2 ≤ t then [c] else [] := by
        have : upTo t (c :: next :: cs) = if c.2 ≤ t then c :: upTo t (next :: cs) else upTo t (next :: cs) := by
          unfold upTo
          rw [List.filter_cons]
          simp
        rw [this, hnone]
      rw [hcons]
      by_cases h : c.2 ≤ t
      · simp [EntityInterval.aliveAt, h, hlt]
      · simp only [EntityInterval.aliveAt, h, decide_false, Bool.false_and, if_false]
        exact ih
    · have hdead : EntityInterval.aliveAt ⟨c.1, c.2, some next.2⟩ t = false := by
        simp [EntityInterval.aliveAt, hlt]
      have hc : c.2 ≤ t := by omega
      have hn : next.2 ≤ t := by omega
      rw [hdead, ih]
      have hcons : upTo t (c :: next :: cs) = c :: next :: upTo t cs := by simp [upTo, hc, hn]
      have hcons' : upTo t (next :: cs) = next :: upTo t cs := by simp [upTo, hn]
      rw [hcons, hcons', List.getLast?_cons_cons]

/-- **A timeline**: each interval ends where the next begins, they are in order, at most one is alive at any LSN and exactly
one is open. -/
structure IsTimeline (ivs : List EntityInterval) : Prop where
  contiguous : ivs.IsChain (fun a b => a.validToLsn = some b.validFromLsn)
  ordered : ivs.Pairwise (fun a b => a.validFromLsn ≤ b.validFromLsn)
  disjoint : ∀ t, (ivs.filter (·.aliveAt t)).length ≤ 1
  oneOpen : (ivs.filter (fun iv => iv.validToLsn.isNone)).length = 1

theorem mem_intervals : ∀ {cs : List Change} {iv : EntityInterval}, iv ∈ intervals cs → ∃ c ∈ cs, iv.validFromLsn = c.2
  | [c], iv, h => by
    rw [intervals, List.mem_singleton] at h
    exact ⟨c, List.mem_cons_self, by rw [h]⟩
  | c :: next :: cs, iv, h => by
    rw [intervals] at h
    rcases List.mem_cons.1 h with rfl | h
    · exact ⟨c, List.mem_cons_self, rfl⟩
    · obtain ⟨d, hd, hfrom⟩ := mem_intervals h
      exact ⟨d, List.mem_cons_of_mem c hd, hfrom⟩

theorem contiguous_intervals : ∀ cs : List Change,
    (intervals cs).IsChain (fun a b => a.validToLsn = some b.validFromLsn)
  | [] => .nil
  | [_] => .singleton _
  | [_, _] => .cons_cons rfl (.singleton _)
  | _ :: next :: third :: cs => .cons_cons rfl (contiguous_intervals (next :: third :: cs))

theorem ordered_intervals : ∀ {cs : List Change}, Sorted cs →
    (intervals cs).Pairwise (fun a b => a.validFromLsn ≤ b.validFromLsn)
  | [], _ => .nil
  | [_], _ => List.pairwise_singleton _ _
  | c :: next :: cs, hs => by
    obtain ⟨hc, hnext⟩ := List.pairwise_cons.1 hs
    refine List.pairwise_cons.2 ⟨fun iv hiv => ?_, ordered_intervals hnext⟩
    obtain ⟨d, hd, hfrom⟩ := mem_intervals hiv
    rw [hfrom]
    exact hc d hd

theorem disjoint_intervals (t : Nat) : ∀ {cs : List Change}, Sorted cs → ((intervals cs).filter (·.aliveAt t)).length ≤ 1
  | [], _ => Nat.zero_le 1
  | [_], _ => List.length_filter_le _ _
  | c :: next :: cs, hs => by
    obtain ⟨-, hnext⟩ := List.pairwise_cons.1 hs
    rw [intervals, List.filter_cons]
    split
    · rename_i halive
      -- the first interval is alive, so the others have not begun
      have hlt : t < next.2 := by
        simp only [EntityInterval.aliveAt, Option.all_some, Bool.and_eq_true, decide_eq_true_eq] at halive
        exact halive.2
      have hnone : (intervals (next :: cs)).filter (·.aliveAt t) = [] := by
        refine List.filter_eq_nil_iff.2 (fun iv hiv => ?_)
        obtain ⟨d, hd, hfrom⟩ := mem_intervals hiv
        have hle : next.2 ≤ d.2 := by
          rcases List.mem_cons.1 hd with rfl | hd
          · exact Nat.le_refl _
          · exact (List.pairwise_cons.1 hnext).1 d hd
        simp only [EntityInterval.aliveAt, hfrom, Bool.and_eq_true, decide_eq_true_eq]
        omega
      rw [hnone]
      exact Nat.le_refl 1
    · exact disjoint_intervals t hnext

theorem oneOpen_intervals : ∀ {cs : List Change}, cs ≠ [] →
    ((intervals cs).filter (fun iv => iv.validToLsn.isNone)).length = 1
  | [_], _ => rfl
  | c :: next :: cs, _ => by
    rw [intervals, List.filter_cons]
    exact oneOpen_intervals (List.cons_ne_nil next cs)

theorem isTimeline_intervals {cs : List Change} (hs : Sorted cs) (hne : cs ≠ []) : IsTimeline (intervals cs) where
  contiguous := contiguous_intervals cs
  ordered := ordered_intervals hs
  disjoint := fun t => disjoint_intervals t hs
  oneOpen := oneOpen_intervals hne

/-! ## What the operations do to every key -/

/-- The intervals of a key, and the entity it belongs to now, are told by `cs`. -/
structure Tracks (s : EntityResolver) (key : Str) (cs : List Change) : Prop where
  mappings : s.mappings.get? key = if cs = [] then none else some (intervals cs)
  canonical : s.canonical.get? key = cs.getLast?.map Prod.fst

/-- **Everything a step at `lsn` can do**: keys are assigned anew. -/
def Advances (lsn : Nat) (s s' : EntityResolver) : Prop :=
  ∀ key cs, Tracks s key cs → ∃ ids : List Str, Tracks s' key (cs ++ ids.map (·, lsn))

theorem Advances.refl (lsn : Nat) (s : EntityResolver) : Advances lsn s s := fun key cs h => ⟨[], by simpa using h⟩

theorem Advances.trans {lsn : Nat} {s s' s'' : EntityResolver} (h : Advances lsn s s') (h' : Advances lsn s' s'') :
    Advances lsn s s'' := fun key cs ht => by
  obtain ⟨ids, hids⟩ := h key cs ht
  obtain ⟨ids', hids'⟩ := h' key _ hids
  refine ⟨ids ++ ids', ?_⟩
  rwa [List.map_append, ← List.append_assoc]

/-- What does not touch the mappings and the assignments. -/
theorem Advances.of_eq {lsn : Nat} {s s' : EntityResolver} (hm : s'.mappings = s.mappings)
    (hc : s'.canonical = s.canonical) : Advances lsn s s' := fun key cs h =>
  ⟨[], by simpa using { mappings := hm ▸ h.mappings, canonical := hc ▸ h.canonical }⟩

theorem Tracks.getD {s : EntityResolver} {key : Str} {cs : List Change} (h : Tracks s key cs) :
    (s.mappings.get? key).getD [] = intervals cs := by
  rw [h.mappings]
  split
  · rename_i hnil
    rw [hnil]
    rfl
  · rfl

theorem advances_reassign (s : EntityResolver) (key id : Str) (lsn : Nat) : Advances lsn s (s.reassign key id lsn) := by
  intro k cs h
  by_cases hk : k = key
  · subst hk
    refine ⟨[id], ?_, ?_⟩
    · rw [reassign, pushOpen, SortedMap.get?_alter, if_pos rfl, closeOpen, SortedMap.get?_alter, if_pos rfl,
        List.map_singleton, if_neg (by simp), ← intervals_concat, ← h.getD]
      cases s.mappings.get? k <;> rfl
    · simp [reassign, closeOpen]
  · refine ⟨[], ?_, ?_⟩
    · rw [reassign, pushOpen, SortedMap.get?_alter, if_neg hk, closeOpen, SortedMap.get?_alter, if_neg hk, List.map_nil,
        List.append_nil]
      exact h.mappings
    · simpa [reassign, closeOpen, hk] using h.canonical

theorem advances_ensureCanonical (s : EntityResolver) (key : Str) (lsn : Nat) : Advances lsn s (s.ensureCanonical key lsn) := by
  rw [ensureCanonical]
  split
  · exact .refl lsn s
  · rename_i hnot
    intro k cs h
    by_cases hk : k = key
    · subst hk
      -- a key that was not seen has no intervals
      have hnil : cs = [] := by
        rw [SortedMap.contains, h.canonical] at hnot
        simpa using hnot
      subst hnil
      refine ⟨[k], ?_, ?_⟩
      · rw [pushOpen, SortedMap.get?_alter, if_pos rfl, h.getD]
        rfl
      · simp
    · refine ⟨[], ?_, ?_⟩
      · rw [pushOpen, SortedMap.get?_alter, if_neg hk, List.map_nil, List.append_nil]
        exact h.mappings
      · simpa [hk] using h.canonical

theorem advances_repoint (surv : Str) (lsn : Nat) (s : EntityResolver) (key : Str) :
    Advances lsn s (repoint surv lsn s key) :=
  (advances_reassign s key surv lsn).trans (.of_eq rfl rfl)

theorem advances_foldl_repoint (surv : Str) (lsn : Nat) : ∀ (members : List Str) (s : EntityResolver),
    Advances lsn s (members.foldl (repoint surv lsn) s)
  | [], s => .refl lsn s
  | key :: members, s => (advances_repoint surv lsn s key).trans (advances_foldl_repoint surv lsn members _)

theorem advances_mergeKeys (s : EntityResolver) (a b : Str) (lsn : Nat) : Advances lsn s (s.mergeKeys a b lsn) := by
  have hensure := (advances_ensureCanonical s a lsn).trans (advances_ensureCanonical (s.ensureCanonical a lsn) b lsn)
  unfold mergeKeys
  dsimp only
  split
  · split
    · exact hensure
    · exact hensure.trans ((advances_foldl_repoint _ lsn _ _).trans (.of_eq rfl rfl))
  · exact hensure

theorem advances_splitKey (s : EntityResolver) (key : Str) (lsn : Nat) : Advances lsn s (s.splitKey key lsn) := by
  unfold splitKey
  split
  · exact .refl lsn s
  · dsimp only
    split
    · exact .refl lsn s
    · exact (advances_reassign s key _ lsn).trans (.of_eq rfl rfl)

variable (ulidText : Nat → Str)

/-- **One event.** -/
theorem advances_applyEpisode (s : EntityResolver) (lsn : Nat) (e : Episode) :
    Advances lsn s (s.applyEpisode ulidText lsn e) := by
  unfold applyEpisode
  dsimp only
  cases signal e with
  | merge a b => exact (advances_mergeKeys s a b lsn).trans (.of_eq rfl rfl)
  | split key => exact (advances_splitKey s key lsn).trans (.of_eq rfl rfl)
  | mention key => exact (advances_ensureCanonical s key lsn).trans (.of_eq rfl rfl)
  | other => exact .of_eq rfl rfl

/-- **Any events**: what they add carries their LSNs, in their order. -/
theorem tracks_foldl : ∀ (events : List (Nat × Episode)) (s : EntityResolver) (key : Str) (cs : List Change),
    (events.map Prod.fst).Pairwise (· < ·) → Tracks s key cs →
    ∃ more, Tracks (events.foldl (fun s p => s.applyEpisode ulidText p.1 p.2) s) key (cs ++ more) ∧ Sorted more ∧
      ∀ c ∈ more, c.2 ∈ events.map Prod.fst
  | [], s, key, cs, _, h => ⟨[], by simpa using h, .nil, fun c hc => absurd hc List.not_mem_nil⟩
  | p :: events, s, key, cs, hlsns, h => by
    rw [List.map_cons, List.pairwise_cons] at hlsns
    obtain ⟨ids, hids⟩ := advances_applyEpisode ulidText s p.1 p.2 key cs h
    obtain ⟨more, hmore, hsorted, hmem⟩ := tracks_foldl events _ key _ hlsns.2 hids
    have hfirst : ∀ c ∈ ids.map (·, p.1), c.2 = p.1 := fun c hc => by
      obtain ⟨id, -, rfl⟩ := List.mem_map.1 hc
      rfl
    refine ⟨ids.map (·, p.1) ++ more, ?_, List.pairwise_append.2 ⟨?_, hsorted, fun a ha b hb => ?_⟩, fun c hc => ?_⟩
    · rwa [← List.append_assoc]
    · exact List.pairwise_of_forall_mem_list (fun a ha b hb => by rw [hfirst a ha, hfirst b hb])
    · rw [hfirst a ha]
      exact Nat.le_of_lt (hlsns.1 b.2 (hmem b hb))
    · rw [List.map_cons, List.mem_cons]
      rcases List.mem_append.1 hc with hc | hc
      · exact .inl (hfirst c hc)
      · exact .inr (hmem c hc)

theorem resolve_eq {s : EntityResolver} {key : Str} {cs : List Change} (h : Tracks s key cs) (hs : Sorted cs) (t : Nat) :
    s.resolve key t = (upTo t cs).getLast?.map Prod.fst := by
  have hget : s.resolve key t = (((s.mappings.get? key).getD []).find? (·.aliveAt t)).map (·.entityId) := by
    rw [resolve]
    cases s.mappings.get? key <;> rfl
  rw [hget, h.getD, find?_intervals t hs]

/-! ## The history of a key -/

theorem filter_append_filter {t : Nat} : ∀ {events : List (Nat × Episode)}, (events.map Prod.fst).Pairwise (· < ·) →
    events = events.filter (fun p => decide (p.1 ≤ t)) ++ events.filter (fun p => decide (t < p.1))
  | [], _ => rfl
  | p :: events, h => by
    rw [List.map_cons, List.pairwise_cons] at h
    have ih := filter_append_filter (t := t) h.2
    by_cases hp : p.1 ≤ t
    · rw [List.filter_cons_of_pos (by simpa using hp), List.filter_cons_of_neg (by simpa using hp), List.cons_append, ← ih]
    · have hnone : events.filter (fun p => decide (p.1 ≤ t)) = [] := by
        refine List.filter_eq_nil_iff.2 (fun q hq => ?_)
        have := h.1 q.1 (List.mem_map_of_mem hq)
        simp
        omega
      rw [List.filter_cons_of_neg (by simpa using hp), List.filter_cons_of_pos (by simpa using Nat.lt_of_not_le hp), hnone,
        List.nil_append]
      rw [hnone, List.nil_append] at ih
      exact congrArg (p :: ·) ih

theorem tracks_empty (key : Str) : Tracks {} key [] := ⟨rfl, rfl⟩

/-- The changes of a key up to `t`, and those that later events made. -/
theorem tracks_replay {events : List (Nat × Episode)} (hlsns : (events.map Prod.fst).Pairwise (· < ·)) (key : Str) (t : Nat) :
    ∃ cs more, Tracks (replay ulidText (events.filter (fun p => decide (p.1 ≤ t)))) key cs ∧
      Tracks (replay ulidText events) key (cs ++ more) ∧ Sorted (cs ++ more) ∧ (∀ c ∈ cs, c.2 ≤ t) ∧ ∀ c ∈ more, t < c.2 := by
  have hsplit := filter_append_filter (t := t) hlsns
  have hsub : ∀ q : Nat × Episode → Bool, ((events.filter q).map Prod.fst).Pairwise (· < ·) := fun q =>
    hlsns.sublist (List.filter_sublist.map _)
  obtain ⟨cs, hcs, hsorted, hmem⟩ := tracks_foldl ulidText _ {} key [] (hsub (fun p => decide (p.1 ≤ t))) (tracks_empty key)
  rw [List.nil_append] at hcs
  obtain ⟨more, hmore, hsorted', hmem'⟩ := tracks_foldl ulidText _ _ key cs (hsub (fun p => decide (t < p.1))) hcs
  have hle : ∀ c ∈ cs, c.2 ≤ t := fun c hc => by
    obtain ⟨p, hp, heq⟩ := List.mem_map.1 (hmem c hc)
    rw [← heq]
    simpa using (List.mem_filter.1 hp).2
  have hgt : ∀ c ∈ more, t < c.2 := fun c hc => by
    obtain ⟨p, hp, heq⟩ := List.mem_map.1 (hmem' c hc)
    rw [← heq]
    simpa using (List.mem_filter.1 hp).2
  refine ⟨cs, more, hcs, ?_, List.pairwise_append.2 ⟨hsorted, hsorted', fun a ha b hb => ?_⟩, hle, hgt⟩
  · have hreplay : replay ulidText events = (events.filter (fun p => decide (t < p.1))).foldl
        (fun s p => s.applyEpisode ulidText p.1 p.2) (replay ulidText (events.filter (fun p => decide (p.1 ≤ t)))) := by
      conv_lhs => rw [hsplit]
      rw [replay, List.foldl_append]
      rfl
    rw [hreplay]
    exact hmore
  · exact Nat.le_trans (hle a ha) (Nat.le_of_lt (hgt b hb))

/-- As of `t`, a key is resolved as it was after the events up to `t`. -/
theorem resolve_replay {events : List (Nat × Episode)} (hlsns : (events.map Prod.fst).Pairwise (· < ·)) (key : Str) (t : Nat) :
    (replay ulidText events).resolve key t
      = (replay ulidText (events.filter (fun p => decide (p.1 ≤ t)))).canonical.get? key := by
  obtain ⟨cs, more, hcs, hall, hsorted, hle, hgt⟩ := tracks_replay ulidText hlsns key t
  have hupTo : upTo t (cs ++ more) = cs := by
    unfold upTo
    rw [List.filter_append, List.filter_eq_self.2 (fun c hc => by simpa using hle c hc),
      List.filter_eq_nil_iff.2 (fun c hc => by simpa using hgt c hc), List.append_nil]
  rw [resolve_eq hall hsorted, hupTo, hcs.canonical]

/-- **The history of every key is a timeline**, and resolving a key as of `t` is resolving it, at any later moment, on the
resolver built from the events up to `t`. -/
theorem history_isTimeline {events : List (Nat × Episode)} (hlsns : (events.map Prod.fst).Pairwise (· < ·)) :
    (∀ key ivs, (replay ulidText events).mappings.get? key = some ivs → IsTimeline ivs) ∧
    ∀ key t now, t ≤ now → (replay ulidText events).resolve key t
      = (replay ulidText (events.filter (fun p => decide (p.1 ≤ t)))).resolve key now := by
  constructor
  · intro key ivs hivs
    obtain ⟨cs, hcs, hsorted, -⟩ := tracks_foldl ulidText events {} key [] hlsns (tracks_empty key)
    rw [List.nil_append] at hcs
    have hmappings : (replay ulidText events).mappings.get? key = _ := hcs.mappings
    rw [hivs] at hmappings
    split at hmappings
    · cases hmappings
    · rename_i hne
      cases hmappings
      exact isTimeline_intervals hsorted hne
  · intro key t now hnow
    have hsub : ((events.filter (fun p => decide (p.1 ≤ t))).map Prod.fst).Pairwise (· < ·) :=
      hlsns.sublist (List.filter_sublist.map _)
    have hsame : (events.filter (fun p => decide (p.1 ≤ t))).filter (fun p => decide (p.1 ≤ now))
        = events.filter (fun p => decide (p.1 ≤ t)) := by
      refine List.filter_eq_self.2 (fun p hp => ?_)
      have := (List.mem_filter.1 hp).2
      simp at this ⊢
      omega
    rw [resolve_replay ulidText hlsns, resolve_replay ulidText hsub, hsame]

/-- An event with the given attributes. -/
def eventWith (id : Nat) (attrs : List (String × String)) : Episode :=
  { Episode.new id "ag".toList .observation [] with
    attrs := attrs.foldl (fun m p => m.insert p.1.toList p.2.toList) .empty }

/-- A key is mentioned, merged with another, merged again and split off twice. -/
def splitStory : List (Nat × Episode) :=
  [(0, eventWith 1 [("entity_key", "a")]), (1, eventWith 2 [("er_op", "merge"), ("er_a", "a"), ("er_b", "b")]),
    (3, eventWith 3 [("er_op", "merge"), ("er_a", "b"), ("er_b", "a")]),
    (4, eventWith 4 [("er_op", "split"), ("er_key", "b")]), (7, eventWith 5 [("er_op", "split"), ("er_key", "b")])]

theorem splitStory_isTimeline :
    (∀ key ivs, (replay (fun _ => []) splitStory).mappings.get? key = some ivs → IsTimeline ivs) ∧
    ∀ key t now, t ≤ now → (replay (fun _ => []) splitStory).resolve key t
      = (replay (fun _ => []) (splitStory.filter (fun p => decide (p.1 ≤ t)))).resolve key now :=
  history_isTimeline (fun _ => []) (by decide)

end Entity
end Heraclitus
