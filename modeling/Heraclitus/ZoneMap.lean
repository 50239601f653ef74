import Heraclitus.Episode
/-!
# ZoneMap — least and greatest values of a segment (`heraclitus-log/src/zone_map.rs`)

A zone map keeps, of some columns of a list of events, the least and the greatest value.  A predicate may skip the list
when no value between the two can satisfy it; it then skips no event that it accepts (`mayMatch_build`).
-/
namespace Heraclitus

structure ZoneMap where
  count : Nat := 0
  lsn : Option (Nat × Nat) := none
  tsHlc : Option (Nat × Nat) := none
  agent : Option (Str × Str) := none
  session : Option (Str × Str) := none
  attrs : SortedMap Str (Str × Str) := .empty
  deriving DecidableEq

section Bounds

variable {τ : Type} [LinearOrder τ]

def foldMinMax (slot : Option (τ × τ)) (v : τ) : Option (τ × τ) :=
  match slot with
  | none => some (v, v)
  | some (lo, hi) => some (if v < lo then v else lo, if hi < v then v else hi)

/-- Do the bounds meet the range from `start` to `stop`, both included? -/
def overlaps (slot : Option (τ × τ)) (start stop : τ) : Bool := slot.any (fun b => decide (b.1 ≤ stop) && decide (start ≤ b.2))

/-- A value between the bounds. -/
def Between (slot : Option (τ × τ)) (v : τ) : Prop := ∃ b, slot = some b ∧ b.1 ≤ v ∧ v ≤ b.2

theorem between_foldMinMax (slot : Option (τ × τ)) (v : τ) : Between (foldMinMax slot v) v := by
  unfold foldMinMax
  split
  · exact ⟨_, rfl, le_refl v, le_refl v⟩
  · refine ⟨_, rfl, ?_, ?_⟩ <;> dsimp only <;> split
    · exact le_refl v
    · exact le_of_not_gt ‹_›
    · exact le_refl v
    · exact le_of_not_gt ‹_›

theorem Between.foldMinMax {slot : Option (τ × τ)} {v : τ} (h : Between slot v) (w : τ) :
    Between (foldMinMax slot w) v := by
  obtain ⟨b, rfl, hlo, hhi⟩ := h
  refine ⟨_, rfl, ?_, ?_⟩ <;> dsimp only <;> split
  · exact (le_of_lt ‹_›).trans hlo
  · exact hlo
  · exact hhi.trans (le_of_lt ‹_›)
  · exact hhi

theorem Between.overlaps {slot : Option (τ × τ)} {v start stop : τ} (h : Between slot v) (hstart : start ≤ v) (hstop : v ≤ stop) :
    overlaps slot start stop = true := by
  obtain ⟨b, rfl, hlo, hhi⟩ := h
  simp [Heraclitus.overlaps, hlo.trans hstop, hstart.trans hhi]

end Bounds

namespace ZoneMap

/-- One event of the loop of `build`. -/
def add (z : ZoneMap) (event : Nat × Episode) : ZoneMap where
  count := z.count + 1
  lsn := foldMinMax z.lsn event.1
  tsHlc := foldMinMax z.tsHlc event.2.tsHlc
  agent := foldMinMax z.agent event.2.agentId
  session := foldMinMax z.session event.2.sessionId
  attrs := event.2.attrs.entries.foldl (fun attrs kv => attrs.alter kv.1 (fun bounds => foldMinMax bounds kv.2)) z.attrs

def build (events : List (Nat × Episode)) : ZoneMap := events.foldl add {}

def mayOverlapLsn (z : ZoneMap) (start stop : Nat) : Bool := overlaps z.lsn start stop

def mayOverlapTs (z : ZoneMap) (start stop : Nat) : Bool := overlaps z.tsHlc start stop

def mayContainAgent (z : ZoneMap) (agent : Str) : Bool := overlaps z.agent agent agent

def mayContainSession (z : ZoneMap) (session : Str) : Bool := overlaps z.session session session

def mayContainAttrEq (z : ZoneMap) (key value : Str) : Bool := overlaps (z.attrs.get? key) value value

end ZoneMap

/-- The predicates that are built from the `may_*` of a zone map. -/
inductive SkipPredicate where
  | lsnRange (start stop : Nat)
  | tsRange (start stop : Nat)
  | agent (agent : Str)
  | session (session : Str)
  | attrEq (key value : Str)
  | and (p q : SkipPredicate)
  | or (p q : SkipPredicate)

namespace SkipPredicate

def mayMatch (z : ZoneMap) : SkipPredicate → Bool
  | .lsnRange start stop => z.mayOverlapLsn start stop
  | .tsRange start stop => z.mayOverlapTs start stop
  | .agent a => z.mayContainAgent a
  | .session s => z.mayContainSession s
  | .attrEq key value => z.mayContainAttrEq key value
  | .and p q => p.mayMatch z && q.mayMatch z
  | .or p q => p.mayMatch z || q.mayMatch z

/-- The events a predicate is about. -/
def accepts (event : Nat × Episode) : SkipPredicate → Bool
  | .lsnRange start stop => decide (start ≤ event.1) && decide (event.1 ≤ stop)
  | .tsRange start stop => decide (start ≤ event.2.tsHlc) && decide (event.2.tsHlc ≤ stop)
  | .agent a => event.2.agentId == a
  | .session s => event.2.sessionId == s
  | .attrEq key value => event.2.attrs.get? key == some value
  | .and p q => p.accepts event && q.accepts event
  | .or p q => p.accepts event || q.accepts event

end SkipPredicate

/-! ## Soundness -/

namespace ZoneMap

/-- What `build` keeps from one event on: it is so of its zone map, and later events do not change it. -/
theorem build_of_add {P : ZoneMap → Prop} {event : Nat × Episode} (hadd : ∀ z : ZoneMap, P (z.add event))
    (hkeep : ∀ (z : ZoneMap) (later : Nat × Episode), P z → P (z.add later)) {events : List (Nat × Episode)} (h : event ∈ events) :
    P (build events) := by
  have hall : ∀ (l : List (Nat × Episode)) (z : ZoneMap), P z → P (l.foldl add z) := by
    intro l
    induction l with
    | nil => exact fun z hz => hz
    | cons later l ih => exact fun z hz => ih _ (hkeep z later hz)
  obtain ⟨before, after, rfl⟩ := List.append_of_mem h
  rw [build, List.foldl_append, List.foldl_cons]
  exact hall after _ (hadd _)

theorem between_attrs_keep {key value : Str} : ∀ (kvs : List (Str × Str)) (m : SortedMap Str (Str × Str)),
    Between (m.get? key) value →
    Between ((kvs.foldl (fun attrs kv => attrs.alter kv.1 (fun bounds => foldMinMax bounds kv.2)) m).get? key) value
  | [], _, h => h
  | kv :: kvs, m, h => by
    refine between_attrs_keep kvs _ ?_
    rw [SortedMap.get?_alter]
    by_cases hkey : key = kv.1
    · rw [if_pos hkey, ← hkey]
      exact h.foldMinMax kv.2
    · rw [if_neg hkey]
      exact h

theorem between_attrs {key value : Str} {kvs : List (Str × Str)} (h : (key, value) ∈ kvs) (m : SortedMap Str (Str × Str)) :
    Between ((kvs.foldl (fun attrs kv => attrs.alter kv.1 (fun bounds => foldMinMax bounds kv.2)) m).get? key) value := by
  obtain ⟨before, after, rfl⟩ := List.append_of_mem h
  rw [List.foldl_append, List.foldl_cons]
  refine between_attrs_keep after _ ?_
  rw [SortedMap.get?_alter, if_pos rfl]
  exact between_foldMinMax _ value

end ZoneMap

open ZoneMap in
/-- **A predicate skips no event that it accepts.** -/
theorem mayMatch_build {event : Nat × Episode} {events : List (Nat × Episode)} (h : event ∈ events) :
    ∀ p : SkipPredicate, p.accepts event = true → p.mayMatch (build events) = true
  | .lsnRange start stop, hp => by
    have hbetween : Between (build events).lsn event.1 :=
      build_of_add (P := fun z => Between z.lsn event.1) (fun z => between_foldMinMax _ _) (fun z later hz => hz.foldMinMax _) h
    simp only [SkipPredicate.accepts, Bool.and_eq_true, decide_eq_true_eq] at hp
    exact hbetween.overlaps hp.1 hp.2
  | .tsRange start stop, hp => by
    have hbetween : Between (build events).tsHlc event.2.tsHlc :=
      build_of_add (P := fun z => Between z.tsHlc event.2.tsHlc) (fun z => between_foldMinMax _ _) (fun z later hz => hz.foldMinMax _) h
    simp only [SkipPredicate.accepts, Bool.and_eq_true, decide_eq_true_eq] at hp
    exact hbetween.overlaps hp.1 hp.2
  | .agent a, hp => by
    have hbetween : Between (build events).agent event.2.agentId :=
      build_of_add (P := fun z => Between z.agent event.2.agentId) (fun z => between_foldMinMax _ _) (fun z later hz => hz.foldMinMax _) h
    rw [beq_iff_eq.1 hp] at hbetween
    exact hbetween.overlaps (le_refl _) (le_refl _)
  | .session s, hp => by
    have hbetween : Between (build events).session event.2.sessionId :=
      build_of_add (P := fun z => Between z.session event.2.sessionId) (fun z => between_foldMinMax _ _) (fun z later hz => hz.foldMinMax _) h
    rw [beq_iff_eq.1 hp] at hbetween
    exact hbetween.overlaps (le_refl _) (le_refl _)
  | .attrEq key value, hp => by
    have hmem : (key, value) ∈ event.2.attrs.entries := SortedMap.get?_eq_some.1 (beq_iff_eq.1 hp)
    have hbetween : Between ((build events).attrs.get? key) value :=
      build_of_add (P := fun z => Between (z.attrs.get? key) value) (fun z => between_attrs hmem z.attrs)
        (fun z later hz => between_attrs_keep _ z.attrs hz) h
    exact hbetween.overlaps (le_refl _) (le_refl _)
  | .and p q, hp => by
    simp only [SkipPredicate.accepts, Bool.and_eq_true] at hp
    simp [SkipPredicate.mayMatch, mayMatch_build h p hp.1, mayMatch_build h q hp.2]
  | .or p q, hp => by
    simp only [SkipPredicate.accepts, Bool.or_eq_true] at hp
    rcases hp with hp | hp
    · simp [SkipPredicate.mayMatch, mayMatch_build h p hp]
    · simp [SkipPredicate.mayMatch, mayMatch_build h q hp]

end Heraclitus
