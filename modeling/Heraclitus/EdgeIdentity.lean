import Heraclitus.TemporalAsOf
import Heraclitus.Lib.Separator
/-!
# EdgeIdentity — which relations share an edge (`edge_id`, `upsert_edge` and `close_edge` of `temporal.rs`)

The id of an edge joins the names of its ends and the key of its type with `->` and `#`.  Nothing keeps these out of a name,
and a relation whose names hold them shares its id, and with it its edge, with another one.
-/
namespace Heraclitus
namespace Temporal

/-- What an edge states. -/
structure Relation where
  from_ : Str
  to_ : Str
  etype : EdgeType
  deriving DecidableEq

def Relation.ident (r : Relation) : Str := edgeId r.from_ r.to_ r.etype

/-- The mutation asserts the relation or retracts it. -/
def Mutation.Concerns (r : Relation) : Mutation → Prop
  | .close id => id = r.ident
  | .assert edge _ => edge.id = r.ident

/-- What is claimed of a relation: no other has its id, and no assert or retract of it touches the edge of another. -/
def Relation.Apart (r : Relation) : Prop :=
  ∀ r' : Relation, r' ≠ r → r'.ident ≠ r.ident ∧ ∀ (g : TemporalGraph) (lsn : Nat) (m : Mutation), m.Concerns r →
    (g.mutate lsn m).edges.get? r'.ident = g.edges.get? r'.ident ∧
      (g.mutate lsn m).versions.get? r'.ident = g.versions.get? r'.ident

/-- **The condition**: no end has an arrow in its name; the name of the second one does not go on like the key of a custom
type; nor does the key of the type end with the key of another one. -/
structure Relation.Plain (r : Relation) : Prop where
  from_ : ¬"->".toList <:+: r.from_
  to_ : ¬"->".toList <:+: r.to_
  custom : ¬"#custom:".toList <:+: r.to_
  key : ∀ t : EdgeType, ¬('#' :: t.key <:+ r.etype.key)

variable {r r' : Relation} {t : EdgeType}

/-! ## Keys -/

theorem key_custom (n : Str) : (EdgeType.custom n).key = "custom:".toList ++ n := rfl

/-- A built-in type, by its key. -/
theorem custom_of_prefix (h : "custom:".toList <+: t.key) : ∃ n, t = .custom n := by
  cases t with
  | custom n => exact ⟨n, rfl⟩
  | fraudPartner => exact absurd h (by decide +kernel)
  | socioDe => exact absurd h (by decide +kernel)
  | pagou => exact absurd h (by decide +kernel)
  | similarA => exact absurd h (by decide +kernel)
  | notRelated => exact absurd h (by decide +kernel)

theorem EdgeType.key_injective : Function.Injective EdgeType.key := by
  intro a b h
  by_cases hcustom : "custom:".toList <+: a.key
  · obtain ⟨n, rfl⟩ := custom_of_prefix hcustom
    obtain ⟨m, rfl⟩ := custom_of_prefix (h ▸ hcustom)
    rw [key_custom, key_custom] at h
    rw [List.append_cancel_left h]
  · have hcustom' : ¬"custom:".toList <+: b.key := h ▸ hcustom
    cases a <;> cases b <;> first
      | rfl
      | exact absurd ⟨_, rfl⟩ hcustom
      | exact absurd ⟨_, rfl⟩ hcustom'
      | exact absurd h (by decide +kernel)

/-- Only a custom type has a `#` in its key, behind its name's beginning. -/
theorem custom_of_hash {z k : Str} (h : t.key = z ++ '#' :: k) : "custom:".toList <+: z := by
  have hmem : '#' ∈ t.key := by rw [h]; exact List.mem_append_right _ List.mem_cons_self
  cases t with
  | custom n =>
    rw [key_custom] at h
    rcases List.append_eq_append_iff.1 h with ⟨a, ha, -⟩ | ⟨a, ha, hrest⟩
    · exact ⟨a, ha.symm⟩
    · cases a with
      | nil => exact ⟨[], by rw [List.append_nil, ha, List.append_nil]⟩
      | cons c a =>
        obtain ⟨rfl, -⟩ := List.cons.inj hrest
        exact absurd (ha ▸ List.mem_append_right z List.mem_cons_self) (by decide +kernel : '#' ∉ "custom:".toList)
  | fraudPartner => exact absurd hmem (by decide +kernel)
  | socioDe => exact absurd hmem (by decide +kernel)
  | pagou => exact absurd hmem (by decide +kernel)
  | similarA => exact absurd hmem (by decide +kernel)
  | notRelated => exact absurd hmem (by decide +kernel)

/-! ## The id of a plain relation -/

theorem ident_eq (r : Relation) : r.ident = r.from_ ++ ("->".toList ++ (r.to_ ++ (['#'] ++ r.etype.key))) := by
  simp [Relation.ident, edgeId]

/-- An arrow behind the first end stands in the second one, or in the key. -/
theorem arrow_mem {z rest to_ k : Str} (h : to_ ++ (['#'] ++ k) = z ++ ("->".toList ++ rest)) :
    "->".toList <:+: to_ ∨ ∃ b, k = b ++ ("->".toList ++ rest) := by
  have harrow : "->".toList = ['-', '>'] := rfl
  rw [harrow] at h ⊢
  rcases List.append_eq_append_iff.1 h with ⟨a, -, ha⟩ | ⟨c, rfl, hc⟩
  · cases a with
    | nil => simp at ha
    | cons d a => exact .inr ⟨a, (List.cons.inj ha).2⟩
  · match c with
    | [] => simp at hc
    | [d] => simp at hc
    | d :: d' :: c =>
      simp only [List.cons_append, List.nil_append, List.cons.injEq] at hc
      obtain ⟨rfl, rfl, -⟩ := hc
      exact .inl ⟨z, c, by simp⟩

/-- **No other relation has the id of a plain one.** -/
theorem ident_eq_iff (h : r.Plain) : r'.ident = r.ident ↔ r' = r := by
  refine ⟨fun heq => ?_, fun heq => by rw [heq]⟩
  rw [ident_eq, ident_eq, eq_comm, append_separator_eq_iff (s := "->".toList) (unbordered_pair (by decide))] at heq
  rcases heq with ⟨hfrom, heq⟩ | ⟨z, -, heq⟩ | ⟨z, hz, -⟩
  · rw [append_separator_eq_iff (unbordered_singleton '#')] at heq
    rcases heq with ⟨hto, hkey⟩ | ⟨z, -, hkey⟩ | ⟨z, hto, hkey⟩
    · obtain ⟨from_, to_, etype⟩ := r
      obtain ⟨from', to', etype'⟩ := r'
      cases hfrom
      cases hto
      cases EdgeType.key_injective hkey
      rfl
    · exact absurd ⟨z, hkey.symm⟩ (h.key r'.etype)
    · obtain ⟨n, rfl⟩ := custom_of_hash hkey
      exact absurd ⟨r'.to_, n, by rw [hto]; simp⟩ h.custom
  · rcases arrow_mem heq with hto | ⟨b, hkey⟩
    · exact absurd hto h.to_
    · exact absurd ⟨b ++ ("->".toList ++ r'.to_), by rw [hkey]; simp⟩ (h.key r'.etype)
  · exact absurd ⟨r'.from_, z, by rw [hz]; simp⟩ h.from_

/-- **A relation that is not plain shares its id.** -/
theorem exists_ident_eq (h : ¬r.Plain) : ∃ r', r' ≠ r ∧ r'.ident = r.ident := by
  obtain ⟨from_, to_, etype⟩ := r
  have hne : ∀ {x : Str} {y z : Str}, z ≠ [] → x ≠ x ++ z ++ y := fun {x y z} hz heq => by
    have hlen := congrArg List.length heq
    have := List.length_pos_iff.2 hz
    simp only [List.length_append] at hlen
    omega
  by_cases hfrom : "->".toList <:+: from_
  · obtain ⟨a, b, rfl⟩ := hfrom
    refine ⟨⟨a, b ++ "->".toList ++ to_, etype⟩, fun heq => ?_, by simp [ident_eq]⟩
    exact hne (by decide) (congrArg Relation.from_ heq)
  by_cases hto : "->".toList <:+: to_
  · obtain ⟨a, b, rfl⟩ := hto
    refine ⟨⟨from_ ++ "->".toList ++ a, b, etype⟩, fun heq => ?_, by simp [ident_eq]⟩
    exact hne (by decide) (congrArg Relation.from_ heq).symm
  by_cases hcustom : "#custom:".toList <:+: to_
  · obtain ⟨a, b, rfl⟩ := hcustom
    refine ⟨⟨from_, a, .custom (b ++ '#' :: etype.key)⟩, fun heq => ?_, by simp [ident_eq, key_custom]⟩
    exact hne (by decide) (congrArg Relation.to_ heq)
  have hkey : ¬∀ t : EdgeType, ¬('#' :: t.key <:+ etype.key) := fun hkey => h ⟨hfrom, hto, hcustom, hkey⟩
  obtain ⟨t, ht⟩ := not_forall.1 hkey
  obtain ⟨a, ha⟩ := not_not.1 ht
  refine ⟨⟨from_, to_ ++ '#' :: a, t⟩, fun heq => ?_, by simp [ident_eq, ← ha]⟩
  have := hne (x := to_) (y := []) (List.cons_ne_nil '#' a)
  exact this ((congrArg Relation.to_ heq).symm.trans (List.append_nil _).symm)

/-! ## The edges of relations -/

theorem get?_mutate_of_ne {g : TemporalGraph} {lsn : Nat} {m : Mutation} (hm : m.Concerns r) {id : Str} (h : id ≠ r.ident) :
    (g.mutate lsn m).edges.get? id = g.edges.get? id ∧ (g.mutate lsn m).versions.get? id = g.versions.get? id := by
  cases m with
  | close j =>
    cases hm
    rw [TemporalGraph.mutate, TemporalGraph.closeEdge_eq]
    exact ⟨by rw [SortedMap.get?_alter, if_neg h], rfl⟩
  | assert edge version =>
    have hm : edge.id = r.ident := hm
    have hversions : (g.upsertEdge edge [version]).versions = g.versions.alter edge.id (fun entry =>
        some ((addVersion (entry.getD []) version).insertionSort byHypothesis)) := by
      unfold TemporalGraph.upsertEdge
      dsimp only
      split <;> rfl
    rw [TemporalGraph.mutate, TemporalGraph.edges_upsertEdge, hversions, hm]
    exact ⟨by rw [SortedMap.get?_insert, if_neg h], by rw [SortedMap.get?_alter, if_neg h]⟩

/-- **When a relation has an edge of its own.** -/
theorem apart_iff_plain (r : Relation) : r.Apart ↔ r.Plain := by
  constructor
  · intro h
    by_contra hplain
    obtain ⟨r', hne, hident⟩ := exists_ident_eq hplain
    exact (h r' hne).1 hident
  · intro h r' hne
    have hident : r'.ident ≠ r.ident := fun heq => hne ((ident_eq_iff h).1 heq)
    exact ⟨hident, fun g lsn m hm => get?_mutate_of_ne hm hident⟩

/-- The relations `(a->b, c)` and `(a, b->c)`. -/
def arrowInFrom : Relation := ⟨"a->b".toList, "c".toList, .pagou⟩

def arrowInTo : Relation := ⟨"a".toList, "b->c".toList, .pagou⟩

def relationAsserted (r : Relation) : Mutation :=
  .assert { id := r.ident, from_ := r.from_, to_ := r.to_, etype := r.etype, validFromLsn := 0, validToLsn := none,
            worldValidFrom := none, worldValidTo := none, closedIntervals := [] }
    { hypothesisId := r.ident, confidence := one, source := provenanceText, provenance := [], polarity := r.etype.polarity,
      validFromLsn := 0 }

/-- **Retracting one relation closes the edge of another.** -/
theorem retract_closes_another : arrowInTo ≠ arrowInFrom ∧ arrowInTo.ident = arrowInFrom.ident ∧
    (TemporalGraph.mutate 0 {} (relationAsserted arrowInFrom)).aliveAt arrowInFrom.ident 1 = true ∧
    ((TemporalGraph.mutate 0 {} (relationAsserted arrowInFrom)).mutate 1 (.close arrowInTo.ident)).aliveAt
      arrowInFrom.ident 1 = false ∧
    ¬arrowInFrom.Apart := by
  have hident : arrowInTo.ident = arrowInFrom.ident := by decide
  exact ⟨by decide, hident, by decide, by decide, fun h => (h arrowInTo (by decide)).1 hident⟩

end Temporal
end Heraclitus
