import Heraclitus.EntityResolver
import Heraclitus.Lib.Classes
import Heraclitus.Lib.Run
/-!
# EntityPartition — the classes that entity resolution stands for

A mention makes a key a class of its own, a merge unites two classes and a split sets a key apart.  The resolver tells the
classes apart by ids: the key itself for a new key, `key@lsn` for one that is split off.  It follows the partition as long as
no key carries an id at the moment it is given.
-/
namespace Heraclitus
namespace Entity

open EntityResolver

/-- What an event does to the classes. -/
def partitionStep (c : Classes Str) (e : Episode) : Classes Str :=
  match signal e with
  | .merge a b => ((c.appear a).appear b).unite a b
  | .split key => c.isolate key
  | .mention key => c.appear key
  | .other => c

/-- The classes after some events. -/
def partition (events : List (Nat × Episode)) : Classes Str := events.foldl (fun c p => partitionStep c p.2) .none

/-- Two keys are one entity as of `t`. -/
def SameEntity (s : EntityResolver) (t : Nat) (k₁ k₂ : Str) : Prop := ∃ id, s.resolve k₁ t = some id ∧ s.resolve k₂ t = some id

/-! ## Groups and ids -/

/-- The classes the resolver holds. -/
def classes (s : EntityResolver) : Classes Str := .ofLabels s.canonical.get?

def inGroup (groups : SortedMap Str KeySet) (id key : Str) : Prop := ((groups.get? id).getD .empty).get? key = some ()

/-- The group of an id is the keys that carry it. -/
def Grouped (s : EntityResolver) : Prop := ∀ id key, inGroup s.groups id key ↔ s.canonical.get? key = some id

theorem inGroup_addTo (groups : SortedMap Str KeySet) (k x id key : Str) :
    inGroup (addTo groups k x) id key ↔ (id = k ∧ key = x) ∨ inGroup groups id key := by
  unfold inGroup addTo
  rw [SortedMap.get?_alter]
  by_cases hid : id = k
  · subst hid
    rw [if_pos rfl, Option.getD_some, SortedMap.get?_insert]
    by_cases hkey : key = x <;> simp [hkey]
  · rw [if_neg hid]
    simp [hid]

theorem mem_members (groups : SortedMap Str KeySet) (id key : Str) :
    key ∈ ((groups.get? id).getD .empty).entries.map Prod.fst ↔ inGroup groups id key := by
  unfold inGroup
  rw [SortedMap.get?_eq_some, List.mem_map]
  constructor
  · rintro ⟨⟨k, u⟩, hmem, rfl⟩
    exact hmem
  · intro h
    exact ⟨_, h, rfl⟩

theorem canonical_ensureCanonical (s : EntityResolver) (key : Str) (lsn : Nat) (k : Str) :
    (s.ensureCanonical key lsn).canonical.get? k = if k = key then some ((s.canonical.get? key).getD key) else s.canonical.get? k := by
  rw [ensureCanonical]
  by_cases hseen : s.canonical.contains key = true
  · rw [if_pos hseen]
    obtain ⟨id, hid⟩ := Option.isSome_iff_exists.1 hseen
    by_cases hk : k = key <;> simp [hk, hid]
  · rw [if_neg hseen, SortedMap.get?_insert]
    have hnone : s.canonical.get? key = none := by simpa [SortedMap.contains] using hseen
    by_cases hk : k = key <;> simp [hk, hnone]

/-- No key carries the id. -/
def Unused (s : EntityResolver) (id : Str) : Prop := ∀ p ∈ s.canonical.entries, p.2 ≠ id

instance (s : EntityResolver) (id : Str) : Decidable (Unused s id) :=
  inferInstanceAs (Decidable (∀ p ∈ s.canonical.entries, p.2 ≠ id))

theorem Unused.ne {s : EntityResolver} {id : Str} (h : Unused s id) (k : Str) : s.canonical.get? k ≠ some id := fun hk =>
  h _ (SortedMap.get?_eq_some.1 hk) rfl

/-- What is known of the resolver after a step: the groups are those of the ids, and the classes are `c`. -/
structure Holds (s : EntityResolver) (c : Classes Str) : Prop where
  grouped : Grouped s
  classes : classes s = c

theorem Holds.seen {s : EntityResolver} {c : Classes Str} (h : Holds s c) (key : Str) :
    c.Seen key ↔ s.canonical.contains key = true := by
  rw [← h.classes]
  exact Classes.ofLabels_seen

/-- What touches neither the ids nor the groups. -/
theorem Holds.congr {s s' : EntityResolver} {c : Classes Str} (h : Holds s c) (hcanon : s'.canonical = s.canonical)
    (hgroups : s'.groups = s.groups) : Holds s' c where
  grouped := by
    intro id key
    rw [hgroups, hcanon]
    exact h.grouped id key
  classes := by
    unfold Entity.classes
    rw [hcanon]
    exact h.classes

/-! ## The operations -/

theorem holds_ensureCanonical {s : EntityResolver} {c : Classes Str} (h : Holds s c) (key : Str) (lsn : Nat)
    (hfresh : s.canonical.contains key = false → Unused s key) : Holds (s.ensureCanonical key lsn) (c.appear key) := by
  by_cases hseen : s.canonical.contains key = true
  · rw [ensureCanonical, if_pos hseen, Classes.appear_of_seen ((h.seen key).2 hseen)]
    exact h
  · have hcanon := canonical_ensureCanonical s key lsn
    have hnone : s.canonical.get? key = none := by simpa [SortedMap.contains] using hseen
    rw [hnone, Option.getD_none] at hcanon
    have hunused := hfresh (by simpa using hseen)
    refine ⟨fun id k => ?_, ?_⟩
    · have hgroups : (s.ensureCanonical key lsn).groups = addTo s.groups key key := by rw [ensureCanonical, if_neg hseen]
      rw [hgroups, inGroup_addTo, hcanon, h.grouped]
      by_cases hk : k = key
      · subst hk
        simp [hnone, eq_comm]
      · simp [hk]
    · rw [← h.classes]
      exact Classes.ofLabels_appear hnone hunused.ne hcanon

/-- The members of a group are pointed at another id. -/
theorem foldl_repoint (surv : Str) (lsn : Nat) : ∀ (keys : List Str) (s : EntityResolver),
    (∀ k, (keys.foldl (repoint surv lsn) s).canonical.get? k = if k ∈ keys then some surv else s.canonical.get? k) ∧
    ∀ id k, inGroup (keys.foldl (repoint surv lsn) s).groups id k ↔ (id = surv ∧ k ∈ keys) ∨ inGroup s.groups id k
  | [], s => by simp
  | key :: keys, s => by
    obtain ⟨hcanon, hgroups⟩ := foldl_repoint surv lsn keys (repoint surv lsn s key)
    have hone : ∀ k, (repoint surv lsn s key).canonical.get? k = if k = key then some surv else s.canonical.get? k := by
      intro k
      simp [repoint, reassign, closeOpen]
    have hgroup : ∀ id k, inGroup (repoint surv lsn s key).groups id k ↔ (id = surv ∧ k = key) ∨ inGroup s.groups id k := by
      intro id k
      exact inGroup_addTo s.groups surv key id k
    constructor
    · intro k
      rw [List.foldl_cons, hcanon, hone]
      by_cases hmem : k ∈ keys <;> by_cases hk : k = key <;> simp [hmem, hk]
    · intro id k
      rw [List.foldl_cons, hgroups, hgroup, List.mem_cons]
      tauto

/-- One id takes the place of another. -/
theorem holds_absorb {s : EntityResolver} {c : Classes Str} (h : Holds s c) {a b surv other : Str} (lsn : Nat)
    (ha : s.canonical.get? a = some surv) (hb : s.canonical.get? b = some other) (hne : surv ≠ other) :
    Holds (let s' := (((s.groups.get? other).getD .empty).entries.map Prod.fst).foldl (repoint surv lsn) s
      { s' with groups := s'.groups.erase other }) (c.unite a b) := by
  obtain ⟨hcanon, hgroups⟩ := foldl_repoint surv lsn (((s.groups.get? other).getD .empty).entries.map Prod.fst) s
  simp only [mem_members, h.grouped other] at hcanon hgroups
  refine ⟨fun id k => ?_, ?_⟩
  · have herase : ∀ groups : SortedMap Str KeySet, inGroup (groups.erase other) id k ↔ id ≠ other ∧ inGroup groups id k := by
      intro groups
      unfold inGroup
      rw [SortedMap.get?_erase]
      by_cases hid : id = other <;> simp [hid]
    dsimp only
    rw [herase, hgroups, h.grouped, hcanon]
    by_cases hk : s.canonical.get? k = some other
    · rw [if_pos hk, hk]
      simp only [Option.some.injEq, and_true]
      constructor
      · rintro ⟨hid, rfl | rfl⟩
        · rfl
        · exact absurd rfl hid
      · rintro rfl
        exact ⟨hne, .inl rfl⟩
    · rw [if_neg hk]
      simp only [hk, and_false, false_or, and_iff_right_iff_imp]
      rintro hid rfl
      exact hk hid
  · rw [← h.classes]
    exact Classes.ofLabels_unite ha hb hcanon

theorem holds_mergeKeys {s : EntityResolver} {c : Classes Str} (h : Holds s c) (a b : Str) (lsn : Nat)
    (ha : s.canonical.contains a = false → Unused s a) (hb : s.canonical.contains b = false → Unused s b) :
    Holds (s.mergeKeys a b lsn) (((c.appear a).appear b).unite a b) := by
  have h₁ := holds_ensureCanonical h a lsn ha
  have hcanon₁ := canonical_ensureCanonical s a lsn
  have h₂ : Holds ((s.ensureCanonical a lsn).ensureCanonical b lsn) ((c.appear a).appear b) := by
    refine holds_ensureCanonical h₁ b lsn (fun hnot => ?_)
    rw [SortedMap.contains, hcanon₁] at hnot
    by_cases hab : b = a
    · simp [hab] at hnot
    · rw [if_neg hab] at hnot
      intro p hp hid
      -- the only id that is new is that of `a`
      have hget := SortedMap.get?_eq_some.2 hp
      rw [hcanon₁, hid] at hget
      split at hget
      · cases hseen : s.canonical.get? a with
        | some id =>
          rw [hseen] at hget
          exact (hb hnot).ne a (hseen.trans hget)
        | none =>
          rw [hseen] at hget
          exact hab (Option.some.inj hget).symm
      · exact (hb hnot).ne _ hget
  have hcanon₂ := canonical_ensureCanonical (s.ensureCanonical a lsn) b lsn
  have hsome : ∀ k, k = a ∨ k = b → ∃ id, ((s.ensureCanonical a lsn).ensureCanonical b lsn).canonical.get? k = some id := by
    intro k hk
    rw [hcanon₂]
    by_cases hkb : k = b
    · exact ⟨_, if_pos hkb⟩
    · have hka : k = a := hk.resolve_right hkb
      rw [if_neg hkb, hcanon₁, if_pos hka]
      exact ⟨_, rfl⟩
  obtain ⟨ca, hca⟩ := hsome a (.inl rfl)
  obtain ⟨cb, hcb⟩ := hsome b (.inr rfl)
  unfold mergeKeys
  simp only [hca, hcb]
  by_cases heq : ca = cb
  · have hsame : ((c.appear a).appear b).same a b := by
      rw [← h₂.classes]
      exact ⟨ca, hca, heq ▸ hcb⟩
    rw [if_pos heq, Classes.unite_of_same hsame]
    exact h₂
  · rw [if_neg heq]
    by_cases hle : ca ≤ cb
    · rw [if_pos hle, if_pos hle]
      exact holds_absorb h₂ lsn hca hcb heq
    · rw [if_neg hle, if_neg hle, Classes.unite_comm]
      exact holds_absorb h₂ lsn hcb hca (Ne.symm heq)

theorem holds_splitKey {s : EntityResolver} {c : Classes Str} (h : Holds s c) (key : Str) (lsn : Nat)
    (hfresh : s.canonical.contains key = true → Unused s (splitId key lsn)) : Holds (s.splitKey key lsn) (c.isolate key) := by
  unfold splitKey
  cases hold : s.canonical.get? key with
  | none =>
    have hnot : ¬c.Seen key := by
      rw [h.seen, SortedMap.contains, hold]
      exact Bool.false_ne_true
    rw [Classes.isolate_of_not_seen hnot]
    exact h
  | some old =>
    have hseen : s.canonical.contains key = true := by rw [SortedMap.contains, hold]; rfl
    have hunused := (hfresh hseen).ne
    have hne : old ≠ splitId key lsn := fun he => hunused key (he ▸ hold)
    dsimp only
    rw [if_neg hne]
    have hcanon : ∀ k, (s.reassign key (splitId key lsn) lsn).canonical.get? k
        = if k = key then some (splitId key lsn) else s.canonical.get? k := fun k => by
      simp [reassign, closeOpen]
    refine ⟨fun id k => ?_, ?_⟩
    · have hleave : inGroup ((s.reassign key (splitId key lsn) lsn).groups.alter old (fun g => g.map (·.erase key))) id k
          ↔ inGroup s.groups id k ∧ ¬(id = old ∧ k = key) := by
        unfold inGroup
        rw [SortedMap.get?_alter]
        have hgroups : (s.reassign key (splitId key lsn) lsn).groups = s.groups := rfl
        rw [hgroups]
        by_cases hid : id = old
        · subst hid
          rw [if_pos rfl]
          cases s.groups.get? id with
          | none => simp
          | some g => by_cases hk : k = key <;> simp [hk]
        · simp [hid]
      rw [inGroup_addTo, hleave, h.grouped, hcanon]
      by_cases hk : k = key
      · subst hk
        rw [if_pos rfl, hold]
        simp only [and_true, Option.some.injEq]
        constructor
        · rintro (rfl | ⟨rfl, hno⟩)
          · rfl
          · exact absurd rfl hno
        · rintro rfl
          exact .inl rfl
      · simp [hk]
    · rw [← h.classes]
      exact Classes.ofLabels_isolate (Option.isSome_iff_exists.2 ⟨old, hold⟩) hunused hcanon

/-! ## Events -/

/-- The ids that an event at `lsn` gives to keys. -/
def givenIds (s : EntityResolver) (lsn : Nat) : Signal → List Str
  | .merge a b => [a, b].filter (fun key => !s.canonical.contains key)
  | .split key => if s.canonical.contains key then [splitId key lsn] else []
  | .mention key => if s.canonical.contains key then [] else [key]
  | .other => []

/-- **The condition**: no key carries an id that the event gives. -/
def GivesUnused (s : EntityResolver) (p : Nat × Episode) : Prop := ∀ id ∈ givenIds s p.1 (signal p.2), Unused s id

instance (s : EntityResolver) (p : Nat × Episode) : Decidable (GivesUnused s p) :=
  inferInstanceAs (Decidable (∀ id ∈ givenIds s p.1 (signal p.2), Unused s id))

variable (ulidText : Nat → Str)

def step (s : EntityResolver) (p : Nat × Episode) : Option EntityResolver := some (s.applyEpisode ulidText p.1 p.2)

/-- **One event.** -/
theorem holds_applyEpisode {s : EntityResolver} {c : Classes Str} (h : Holds s c) (p : Nat × Episode)
    (hok : GivesUnused s p) : Holds (s.applyEpisode ulidText p.1 p.2) (partitionStep c p.2) := by
  unfold GivesUnused at hok
  unfold applyEpisode partitionStep
  dsimp only
  cases hsig : signal p.2 with
  | merge a b =>
    rw [hsig] at hok
    have hnew : ∀ key, key = a ∨ key = b → s.canonical.contains key = false → Unused s key := by
      intro key hkey hnot
      refine hok key (List.mem_filter.2 ⟨?_, by rw [hnot]; rfl⟩)
      simpa using hkey
    exact (holds_mergeKeys h a b p.1 (hnew a (.inl rfl)) (hnew b (.inr rfl))).congr rfl rfl
  | split key =>
    rw [hsig] at hok
    refine (holds_splitKey h key p.1 (fun hseen => hok _ ?_)).congr rfl rfl
    rw [givenIds, if_pos hseen]
    exact List.mem_singleton_self _
  | mention key =>
    rw [hsig] at hok
    refine (holds_ensureCanonical h key p.1 (fun hnot => hok key ?_)).congr rfl rfl
    rw [givenIds, hnot]
    exact List.mem_singleton_self _
  | other => exact h.congr rfl rfl

theorem holds_empty : Holds {} .none where
  grouped := by
    intro id key
    simp [inGroup]
  classes := by
    ext a b
    refine ⟨fun hab => ?_, False.elim⟩
    obtain ⟨l, ha, -⟩ := hab
    cases ha

/-- **Any events.** -/
theorem holds_foldl : ∀ (events : List (Nat × Episode)) {s : EntityResolver} {c : Classes Str}, Holds s c →
    allOk (step ulidText) GivesUnused s events →
    Holds (events.foldl (fun s p => s.applyEpisode ulidText p.1 p.2) s) (events.foldl (fun c p => partitionStep c p.2) c)
  | [], _, _, h, _ => h
  | p :: events, _, _, h, hok =>
    holds_foldl events (holds_applyEpisode ulidText h p hok.1) (hok.2 _ rfl)

/-- The resolver follows the partition: as of every LSN, the keys of one entity are the keys of one class. -/
def FollowsPartition (events : List (Nat × Episode)) : Prop :=
  ∀ t k₁ k₂, SameEntity (replay ulidText events) t k₁ k₂ ↔ (partition (events.filter (fun p => decide (p.1 ≤ t)))).same k₁ k₂

/-- No id of a key that is split off is that of another key. -/
def SplitsApart (events : List (Nat × Episode)) : Prop :=
  ∀ p ∈ events, ∀ key, signal p.2 = .split key → ∀ other, other ≠ key → ¬SameEntity (replay ulidText events) p.1 key other

theorem followsPartition_of_fresh {events : List (Nat × Episode)} (hlsns : (events.map Prod.fst).Pairwise (· < ·))
    (hok : allOk (step ulidText) GivesUnused {} events) : FollowsPartition ulidText events := by
  intro t k₁ k₂
  have hsplit := filter_append_filter (t := t) hlsns
  rw [hsplit] at hok
  have h := (holds_foldl ulidText _ holds_empty (allOk_of_append hok)).classes
  unfold SameEntity partition
  rw [← h]
  simp only [resolve_replay ulidText hlsns]
  rfl

theorem splitsApart_of_fresh {events : List (Nat × Episode)} (hlsns : (events.map Prod.fst).Pairwise (· < ·))
    (hok : allOk (step ulidText) GivesUnused {} events) : SplitsApart ulidText events := by
  intro p hp key hsig other hne hsame
  obtain ⟨before, after, rfl⟩ := List.append_of_mem hp
  rw [followsPartition_of_fresh ulidText hlsns hok] at hsame
  -- the events up to this one end with it
  have hupTo : (before ++ p :: after).filter (fun q => decide (q.1 ≤ p.1)) = before ++ [p] := by
    rw [List.map_append, List.map_cons, List.pairwise_append, List.pairwise_cons] at hlsns
    obtain ⟨-, ⟨hafter, -⟩, hbefore⟩ := hlsns
    rw [List.filter_append, List.filter_cons_of_pos (by simp)]
    congr 1
    · refine List.filter_eq_self.2 (fun q hq => ?_)
      simpa using Nat.le_of_lt (hbefore q.1 (List.mem_map_of_mem hq) p.1 List.mem_cons_self)
    · congr 1
      refine List.filter_eq_nil_iff.2 (fun q hq => ?_)
      simpa using hafter q.1 (List.mem_map_of_mem hq)
  rw [hupTo, partition, List.foldl_append] at hsame
  have hstep : ∀ c : Classes Str, partitionStep c p.2 = c.isolate key := fun c => by
    unfold partitionStep
    rw [hsig]
  rw [List.foldl_cons, List.foldl_nil, hstep] at hsame
  rcases hsame with ⟨-, hno, -⟩ | ⟨-, -, heq⟩
  · exact hno rfl
  · exact hne heq

/-- **Entity resolution refines a partition**, in every run in which no key carries an id at the moment an event gives it:
as of every LSN the keys of one entity are those of one class, and a key that is split off shares its id with no other. -/
theorem refines_partition {events : List (Nat × Episode)} (hlsns : (events.map Prod.fst).Pairwise (· < ·))
    (hok : allOk (step ulidText) GivesUnused {} events) : FollowsPartition ulidText events ∧ SplitsApart ulidText events :=
  ⟨followsPartition_of_fresh ulidText hlsns hok, splitsApart_of_fresh ulidText hlsns hok⟩

theorem refines_partition_splitStory :
    FollowsPartition (fun _ => []) splitStory ∧ SplitsApart (fun _ => []) splitStory :=
  refines_partition (fun _ => []) (by decide) (by decide +kernel)

/-- A key is split off, and another key is called what it is called now. -/
def takenIdStory : List (Nat × Episode) :=
  [(0, eventWith 1 [("entity_key", "a")]), (1, eventWith 2 [("er_op", "split"), ("er_key", "a")]),
    (2, eventWith 3 [("entity_key", "a@1")])]

/-- **The id of a split is a key that may come.** -/
theorem taken_id_is_shared : (takenIdStory.map Prod.fst).Pairwise (· < ·) ∧ ¬FollowsPartition (fun _ => []) takenIdStory := by
  refine ⟨by decide, fun h => ?_⟩
  have hsame := (h 2 "a".toList "a@1".toList).1 ⟨"a@1".toList, by decide +kernel, by decide +kernel⟩
  have hall : takenIdStory.filter (fun p => decide (p.1 ≤ 2)) = takenIdStory := by decide
  have hsignals : takenIdStory.map (fun p => signal p.2)
      = [.mention "a".toList, .split "a".toList, .mention "a@1".toList] := by decide
  rw [hall] at hsame
  simp only [takenIdStory, List.map_cons, List.map_nil, List.cons.injEq, and_true] at hsignals
  obtain ⟨h₁, h₂, h₃⟩ := hsignals
  simp only [partition, takenIdStory, List.foldl_cons, List.foldl_nil, partitionStep, h₁, h₂, h₃] at hsame
  have hne : "a".toList ≠ "a@1".toList := by decide
  rcases hsame with (⟨-, hno, -⟩ | ⟨-, -, heq⟩) | ⟨heq, -⟩
  · exact hno rfl
  · exact hne heq.symm
  · exact hne heq

end Entity
end Heraclitus
