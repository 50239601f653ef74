import Heraclitus.AttrRange
import Mathlib.Data.List.Induction
/-!
# AttrOrder — the attribute index of events that come in any order (`heraclitus-index-attr`)

An index is the events that were delivered, not how: neither order nor repetition shows in it.  What a lookup finds is what
is filed under a key, and a key joins a name and a value: with the separator in one of them, or with an attribute under a
reserved name, it is also the key of something the event does not carry.
-/
namespace Heraclitus

theorem Postings.ext_mem {p q : Postings} (h : ∀ l, l ∈ p.lsns ↔ l ∈ q.lsns) : p = q := by
  have hnodup : ∀ r : Postings, r.lsns.Nodup := fun r => r.sorted.imp Nat.ne_of_lt
  have hperm : p.lsns.Perm q.lsns := (List.perm_ext_iff_of_nodup (hnodup p) (hnodup q)).2 h
  have heq : p.lsns = q.lsns := hperm.eq_of_pairwise (fun a b _ _ hab hba => absurd (Nat.lt_trans hab hba) (Nat.lt_irrefl _))
    p.sorted q.sorted
  cases p
  cases q
  cases heq
  rfl

namespace AttrIndex

variable {idx idx' : AttrIndex} {lsn l n : Nat} {key field : Str}

/-! ## An index is its postings -/

/-- No posting list, and no field of the ordered half, is empty. -/
structure Tidy (idx : AttrIndex) : Prop where
  exactPostings : ∀ key p, idx.exactPostings.get? key = some p → p.lsns ≠ []
  numPostings : ∀ field m n p, idx.numeric.get? field = some m → m.get? n = some p → p.lsns ≠ []
  fields : ∀ field m, idx.numeric.get? field = some m → ∃ n, (m.get? n).isSome

theorem insert_ne_nil (p : Postings) (lsn : Nat) : (p.insert lsn).lsns ≠ [] :=
  List.ne_nil_of_mem (Postings.mem_insert.2 (.inl rfl))

theorem entryInsert_ne_nil {κ : Type} [LinearOrder κ] {m : SortedMap κ Postings} {k : κ}
    (h : ∀ j p, m.get? j = some p → p.lsns ≠ []) : ∀ j p, (entryInsert m k lsn).get? j = some p → p.lsns ≠ [] := by
  intro j p hp
  rw [entryInsert, SortedMap.get?_alter] at hp
  by_cases hj : j = k
  · rw [if_pos hj] at hp
    cases hp
    exact insert_ne_nil _ lsn
  · rw [if_neg hj] at hp
    exact h j p hp

theorem Tidy.addExact (h : idx.Tidy) (key : Str) (lsn : Nat) : (idx.addExact key lsn).Tidy where
  exactPostings := entryInsert_ne_nil h.exactPostings
  numPostings := h.numPostings
  fields := h.fields

theorem Tidy.addNumeric (h : idx.Tidy) (field : Str) (n lsn : Nat) : (idx.addNumeric field n lsn).Tidy where
  exactPostings := h.exactPostings
  numPostings := by
    intro f m
    rw [AttrIndex.addNumeric, SortedMap.get?_alter]
    by_cases hf : f = field
    · rw [if_pos hf]
      intro j p hm hp
      cases hm
      refine entryInsert_ne_nil (fun i q hq => ?_) j p hp
      cases hget : idx.numeric.get? field with
      | none =>
        rw [hget] at hq
        cases hq
      | some m' =>
        rw [hget] at hq
        exact h.numPostings field m' i q hget hq
    · rw [if_neg hf]
      exact h.numPostings f m
  fields := by
    intro f m
    rw [AttrIndex.addNumeric, SortedMap.get?_alter]
    by_cases hf : f = field
    · rw [if_pos hf]
      intro hm
      cases hm
      refine ⟨n, ?_⟩
      rw [entryInsert, SortedMap.get?_alter, if_pos rfl]
      rfl
    · rw [if_neg hf]
      exact h.fields f m

variable {numKey : Str → Option Nat}

theorem Tidy.applyPseudo (h : idx.Tidy) (field text : Str) (lsn : Nat) : (AttrIndex.applyPseudo field text lsn idx).Tidy := by
  unfold AttrIndex.applyPseudo
  dsimp only
  split
  · exact h.addExact _ lsn
  · exact h

theorem Tidy.applyAttr (h : idx.Tidy) (lsn : Nat) (attr : Str × Str) : (AttrIndex.applyAttr numKey lsn idx attr).Tidy := by
  unfold AttrIndex.applyAttr
  dsimp only
  split
  · exact h
  · split
    · exact h.addExact _ lsn
    · exact (h.addExact _ lsn).addNumeric _ _ lsn

theorem Tidy.foldl (lsn : Nat) : ∀ {idx : AttrIndex} (attrs : List (Str × Str)), idx.Tidy →
    (attrs.foldl (AttrIndex.applyAttr numKey lsn) idx).Tidy
  | _, [], h => h
  | _, a :: attrs, h => Tidy.foldl lsn attrs (h.applyAttr lsn a)

theorem Tidy.apply (h : idx.Tidy) (lsn : Nat) (event : Episode) : (idx.apply numKey lsn event).Tidy := by
  have hattrs : Tidy (event.attrs.entries.foldl (AttrIndex.applyAttr numKey lsn) _) := Tidy.foldl lsn event.attrs.entries
    ((h.applyPseudo agentField event.agentId lsn).applyPseudo kindField event.kind.label lsn)
  exact ⟨hattrs.exactPostings, hattrs.numPostings, hattrs.fields⟩

theorem tidy_new : new.Tidy where
  exactPostings := by
    intro key p h
    cases h
  numPostings := by
    intro f m n p h
    cases h
  fields := by
    intro f m h
    cases h

/-- Two maps of postings with the same members. -/
theorem entries_ext {κ : Type} [LinearOrder κ] {m m' : SortedMap κ Postings} (h : ∀ k p, m.get? k = some p → p.lsns ≠ [])
    (h' : ∀ k p, m'.get? k = some p → p.lsns ≠ [])
    (hmem : ∀ k l, l ∈ ((m.get? k).map Postings.lsns).getD [] ↔ l ∈ ((m'.get? k).map Postings.lsns).getD []) : m = m' := by
  ext1 k
  specialize hmem k
  have hsome : ∀ p : Postings, p.lsns ≠ [] → ∃ l, l ∈ p.lsns := fun p hp => List.exists_mem_of_ne_nil p.lsns hp
  cases hm : m.get? k with
  | none =>
    cases hm' : m'.get? k with
    | none => rfl
    | some p' =>
      obtain ⟨l, hl⟩ := hsome p' (h' k p' hm')
      rw [hm, hm'] at hmem
      cases (hmem l).2 hl
  | some p =>
    cases hm' : m'.get? k with
    | none =>
      obtain ⟨l, hl⟩ := hsome p (h k p hm)
      rw [hm, hm'] at hmem
      cases (hmem l).1 hl
    | some p' =>
      rw [hm, hm'] at hmem
      exact congrArg some (Postings.ext_mem hmem)

/-- **An index is its postings**, its watermark and whether anything was applied. -/
theorem Tidy.ext (h : idx.Tidy) (h' : idx'.Tidy) (hpostings : ∀ key l, l ∈ idx.postings key ↔ l ∈ idx'.postings key)
    (hnum : ∀ field n l, l ∈ idx.numPostings field n ↔ l ∈ idx'.numPostings field n)
    (hwatermark : idx.watermark = idx'.watermark) (happlied : idx.applied = idx'.applied) : idx = idx' := by
  have hexact : idx.exactPostings = idx'.exactPostings := entries_ext h.exactPostings h'.exactPostings hpostings
  have hnumeric : idx.numeric = idx'.numeric := by
    ext1 field
    specialize hnum field
    simp only [AttrIndex.numPostings] at hnum
    have hnonempty : ∀ {i : AttrIndex}, i.Tidy → ∀ m, i.numeric.get? field = some m →
        ∃ n l, l ∈ (((some m).bind (·.get? n)).map Postings.lsns).getD [] := by
      intro i hi m hm
      obtain ⟨n, hn⟩ := hi.fields field m hm
      obtain ⟨p, hp⟩ := Option.isSome_iff_exists.1 hn
      obtain ⟨l, hl⟩ := List.exists_mem_of_ne_nil p.lsns (hi.numPostings field m n p hm hp)
      exact ⟨n, l, by rw [Option.bind_some, hp]; exact hl⟩
    cases hm : idx.numeric.get? field with
    | none =>
      cases hm' : idx'.numeric.get? field with
      | none => rfl
      | some m' =>
        obtain ⟨n, l, hl⟩ := hnonempty h' m' hm'
        rw [hm, hm'] at hnum
        cases (hnum n l).2 hl
    | some m =>
      cases hm' : idx'.numeric.get? field with
      | none =>
        obtain ⟨n, l, hl⟩ := hnonempty h m hm
        rw [hm, hm'] at hnum
        cases (hnum n l).1 hl
      | some m' =>
        rw [hm, hm'] at hnum
        exact congrArg some (entries_ext (fun n p => h.numPostings field m n p hm) (fun n p => h'.numPostings field m' n p hm')
          hnum)
  cases idx
  cases idx'
  cases hexact
  cases hnumeric
  cases hwatermark
  cases happlied
  rfl

/-! ## Deliveries -/

variable (numKey) in
/-- The index after the events of some LSNs of a log were delivered, in that order. -/
def delivered (log : Nat → Episode) (lsns : List Nat) : AttrIndex :=
  lsns.foldl (fun idx lsn => idx.apply numKey lsn (log lsn)) new

variable {log : Nat → Episode}

theorem delivered_concat (lsns : List Nat) (lsn : Nat) :
    delivered numKey log (lsns ++ [lsn]) = (delivered numKey log lsns).apply numKey lsn (log lsn) := by
  rw [delivered, List.foldl_append]
  rfl

theorem mem_postings_delivered (lsns : List Nat) : l ∈ (delivered numKey log lsns).postings key ↔ l ∈ lsns ∧ Files (log l) key := by
  induction lsns using List.reverseRecOn with
  | nil => simp [delivered, new, postings]
  | append_singleton lsns lsn ih =>
    rw [delivered_concat, mem_postings_apply, ih, List.mem_append, List.mem_singleton]
    constructor
    · rintro (⟨rfl, h⟩ | ⟨hl, h⟩)
      · exact ⟨.inr rfl, h⟩
      · exact ⟨.inl hl, h⟩
    · rintro ⟨hl | rfl, h⟩
      · exact .inr ⟨hl, h⟩
      · exact .inl ⟨rfl, h⟩

/-- Under what number of a field an event is filed. -/
def FilesNumber (numKey : Str → Option Nat) (event : Episode) (field : Str) (n : Nat) : Prop :=
  ∃ v, event.attrs.get? field = some v ∧ skipped (trim v) = false ∧ numKey (trim v) = some n

theorem mem_numPostings_delivered (lsns : List Nat) :
    l ∈ (delivered numKey log lsns).numPostings field n ↔ l ∈ lsns ∧ FilesNumber numKey (log l) field n := by
  induction lsns using List.reverseRecOn with
  | nil => simp [delivered, new, numPostings]
  | append_singleton lsns lsn ih =>
    rw [delivered_concat, mem_numPostings_apply, ih, List.mem_append, List.mem_singleton]
    constructor
    · rintro (⟨rfl, h⟩ | ⟨hl, h⟩)
      · exact ⟨.inr rfl, h⟩
      · exact ⟨.inl hl, h⟩
    · rintro ⟨hl | rfl, h⟩
      · exact .inr ⟨hl, h⟩
      · exact .inl ⟨rfl, h⟩

theorem tidy_delivered (lsns : List Nat) : (delivered numKey log lsns).Tidy := by
  induction lsns using List.reverseRecOn with
  | nil => exact tidy_new
  | append_singleton lsns lsn ih =>
    rw [delivered_concat]
    exact ih.apply lsn (log lsn)

/-- The watermark is the greatest LSN delivered. -/
theorem watermark_delivered_le {b : Nat} (lsns : List Nat) :
    (delivered numKey log lsns).watermark ≤ b ↔ ∀ l ∈ lsns, l ≤ b := by
  induction lsns using List.reverseRecOn with
  | nil => simp [delivered, new]
  | append_singleton lsns lsn ih =>
    rw [delivered_concat, watermark_apply, Nat.max_le, ih, List.forall_mem_append, List.forall_mem_singleton]

theorem applied_delivered (lsns : List Nat) : (delivered numKey log lsns).applied = !lsns.isEmpty := by
  induction lsns using List.reverseRecOn with
  | nil => rfl
  | append_singleton lsns lsn ih =>
    rw [delivered_concat]
    simp [apply]

/-- **Neither the order of the deliveries nor their number shows.** -/
theorem delivered_congr {lsns lsns' : List Nat} (h : ∀ l, l ∈ lsns' ↔ l ∈ lsns) :
    delivered numKey log lsns' = delivered numKey log lsns := by
  refine (tidy_delivered lsns').ext (tidy_delivered lsns) (fun key l => ?_) (fun field n l => ?_) ?_ ?_
  · rw [mem_postings_delivered, mem_postings_delivered, h]
  · rw [mem_numPostings_delivered, mem_numPostings_delivered, h]
  · refine eq_of_forall_ge_iff (fun b => ?_)
    rw [watermark_delivered_le, watermark_delivered_le]
    exact forall_congr' (fun l => by rw [h])
  · rw [applied_delivered, applied_delivered]
    congr 1
    rw [Bool.eq_iff_iff, List.isEmpty_iff, List.isEmpty_iff, List.eq_nil_iff_forall_not_mem, List.eq_nil_iff_forall_not_mem]
    exact forall_congr' (fun l => not_congr (h l))

/-! ## Lookups -/

/-- Is the value that of the event's agent, of its kind or of its attribute? -/
def Carries (event : Episode) (name value : Str) : Prop :=
  if name = agentField then trim event.agentId = value
  else if name = kindField then trim event.kind.label = value
  else ∃ v, event.attrs.get? name = some v ∧ trim v = value

/-- The values that the index takes under a name. -/
def Indexable (name value : Str) : Prop :=
  trim value = value ∧
    if name = agentField ∨ name = kindField then value ≠ [] ∧ utf8Len value ≤ maxValueLen else skipped value = false

/-- A lookup of an indexable value finds exactly the events that carry it. -/
def Exact (log : Nat → Episode) (lsns : List Nat) (idx : AttrIndex) : Prop :=
  ∀ name value, Indexable name value → ∀ l, l ∈ idx.lookup name value ↔ l ∈ lsns ∧ Carries (log l) name value

/-- The names and values under which an event is filed. -/
def FiledAs (event : Episode) (name value : Str) : Prop :=
  (name = agentField ∧ value = trim event.agentId ∧ value ≠ [] ∧ utf8Len value ≤ maxValueLen) ∨
  (name = kindField ∧ value = trim event.kind.label ∧ value ≠ [] ∧ utf8Len value ≤ maxValueLen) ∨
  ∃ v, event.attrs.get? name = some v ∧ value = trim v ∧ skipped value = false

/-- **The condition**: however the key of a filed name and value is read as a name and an indexable value, the event
carries them. -/
def Unmistakable (event : Episode) : Prop :=
  ∀ name value, FiledAs event name value → ∀ name' value', ikey name' value' = ikey name value → Indexable name' value' →
    Carries event name' value'

theorem files_iff (event : Episode) (key : Str) : Files event key ↔ ∃ name value, FiledAs event name value ∧ key = ikey name value := by
  constructor
  · rintro (⟨hne, hlen, rfl⟩ | ⟨hne, hlen, rfl⟩ | ⟨⟨name, v⟩, hmem, hskip, rfl⟩)
    · exact ⟨_, _, .inl ⟨rfl, rfl, hne, hlen⟩, rfl⟩
    · exact ⟨_, _, .inr (.inl ⟨rfl, rfl, hne, hlen⟩), rfl⟩
    · exact ⟨name, trim v, .inr (.inr ⟨v, SortedMap.get?_eq_some.2 hmem, rfl, hskip⟩), rfl⟩
  · rintro ⟨name, value, ⟨rfl, rfl, hne, hlen⟩ | ⟨rfl, rfl, hne, hlen⟩ | ⟨v, hget, rfl, hskip⟩, rfl⟩
    · exact .inl ⟨hne, hlen, rfl⟩
    · exact .inr (.inl ⟨hne, hlen, rfl⟩)
    · exact .inr (.inr ⟨(name, v), SortedMap.get?_eq_some.1 hget, hskip, rfl⟩)

/-- What an event carries, if it is indexable, is filed. -/
theorem Carries.filedAs {event : Episode} {name value : Str} (h : Carries event name value) (hin : Indexable name value) :
    FiledAs event name value := by
  obtain ⟨htrim, hbounds⟩ := hin
  unfold Carries at h
  by_cases hagent : name = agentField
  · rw [if_pos hagent] at h
    rw [if_pos (.inl hagent)] at hbounds
    exact .inl ⟨hagent, h.symm, hbounds⟩
  · rw [if_neg hagent] at h
    by_cases hkind : name = kindField
    · rw [if_pos hkind] at h
      rw [if_pos (.inr hkind)] at hbounds
      exact .inr (.inl ⟨hkind, h.symm, hbounds⟩)
    · rw [if_neg hkind] at h
      rw [if_neg (fun hor => hor.elim hagent hkind)] at hbounds
      obtain ⟨v, hget, rfl⟩ := h
      exact .inr (.inr ⟨v, hget, rfl, hbounds⟩)

theorem exact_iff (lsns : List Nat) : Exact log lsns (delivered numKey log lsns) ↔ ∀ l ∈ lsns, Unmistakable (log l) := by
  constructor
  · intro h l hl name value hfiled name' value' hkey hin
    refine ((h name' value' hin l).1 ?_).2
    rw [lookup, mem_postings_delivered]
    exact ⟨hl, (files_iff _ _).2 ⟨name, value, hfiled, hkey⟩⟩
  · intro h name value hin l
    rw [lookup, mem_postings_delivered, and_congr_right_iff]
    intro hl
    rw [files_iff]
    constructor
    · rintro ⟨name', value', hfiled, hkey⟩
      exact h l hl name' value' hfiled name value hkey hin
    · intro hcarries
      exact ⟨name, value, hcarries.filedAs hin, rfl⟩

/-- What is claimed of the index: it is the same however its events come, its posting lists ascend, and its lookups are
exact. -/
structure Faithful (numKey : Str → Option Nat) (log : Nat → Episode) (lsns : List Nat) : Prop where
  unordered : ∀ lsns', (∀ l, l ∈ lsns' ↔ l ∈ lsns) → delivered numKey log lsns' = delivered numKey log lsns
  ascending : ∀ key, ((delivered numKey log lsns).postings key).Pairwise (· < ·)
  exact_ : Exact log lsns (delivered numKey log lsns)

theorem postings_sorted (idx : AttrIndex) (key : Str) : (idx.postings key).Pairwise (· < ·) := by
  unfold postings
  cases idx.exactPostings.get? key with
  | none => exact .nil
  | some p => exact p.sorted

variable (numKey log) in
/-- **When the index is faithful**: for every log and all deliveries, exactly if every event delivered is unmistakable. -/
theorem faithful_iff (lsns : List Nat) : Faithful numKey log lsns ↔ ∀ l ∈ lsns, Unmistakable (log l) := by
  rw [← @exact_iff numKey]
  exact ⟨fun h => h.exact_, fun h => ⟨fun _ => delivered_congr, postings_sorted _, h⟩⟩

/-- An event of the agent `alice` with an attribute under the reserved name. -/
def aliceEvent : Episode :=
  { Episode.new 1 "alice".toList .observation [] with attrs := SortedMap.empty.insert agentField "bob".toList }

/-- **An attribute called `_agent` is filed as the agent.** -/
theorem attribute_poses_as_agent : 0 ∈ (delivered (fun _ => none) (fun _ => aliceEvent) [0]).lookup agentField "bob".toList ∧
    ¬Faithful (fun _ => none) (fun _ => aliceEvent) [0] := by
  have hlookup : 0 ∈ (delivered (fun _ => none) (fun _ => aliceEvent) [0]).lookup agentField "bob".toList := by
    decide +kernel
  refine ⟨hlookup, fun h => ?_⟩
  have hin : Indexable agentField "bob".toList := by
    refine ⟨by decide, ?_⟩
    rw [if_pos (.inl rfl)]
    decide
  have hcarries := ((h.exact_ agentField "bob".toList hin 0).1 hlookup).2
  unfold Carries at hcarries
  rw [if_pos rfl] at hcarries
  exact absurd hcarries (by decide)

end AttrIndex
end Heraclitus
