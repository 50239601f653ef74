import Heraclitus.AttrIndex
import Heraclitus.Lib.Separator
import Mathlib.Algebra.Ring.Nat
import Mathlib.Data.List.Induction
import Mathlib.Data.List.Nodup
/-!
# GraphIndex — parents, children and the attribute filter of events (`heraclitus-index-graph/src/lib.rs`, `dense_map.rs`)

Events are numbered as they come, in 32 bits, and filed under their attributes, each joined to its value by `=`.  What has a
number is not filed again.  The filter is exact while a joined attribute is read in one way only (`filters_exact_iff`).
-/
namespace Heraclitus

structure DenseEntityMap where
  forward : SortedMap Nat Nat := .empty
  backward : List Nat := []

namespace DenseEntityMap

def lookupId (m : DenseEntityMap) (id : Nat) : Option Nat := m.forward.get? id

def lookupEvent (m : DenseEntityMap) (internal : Nat) : Option Nat := m.backward[internal]?

/-- `get_or_alloc`: the number of an event is cut to 32 bits. -/
def getOrAlloc (m : DenseEntityMap) (id : Nat) : Nat × DenseEntityMap :=
  match m.forward.get? id with
  | some internal => (internal, m)
  | none => (m.backward.length % 2 ^ 32, ⟨m.forward.insert id (m.backward.length % 2 ^ 32), m.backward ++ [id]⟩)

end DenseEntityMap

/-- A bitmap of numbers, in their order. -/
abbrev Bitmap := Postings

structure GraphIndex where
  out : SortedMap Nat (List Nat) := .empty
  inn : SortedMap Nat (List Nat) := .empty
  attrIdx : SortedMap Str Bitmap := .empty
  dense : DenseEntityMap := {}
  lsnOf : SortedMap Nat Nat := .empty
  watermark : Nat := 0

namespace GraphIndex

/-- `entry(key).or_default().push(v)`. -/
def push (m : SortedMap Nat (List Nat)) (key v : Nat) : SortedMap Nat (List Nat) := m.alter key (fun o => some (o.getD [] ++ [v]))

def attrKey (key value : Str) : Str := key ++ "=".toList ++ value

def children (g : GraphIndex) (id : Nat) : List Nat := (g.out.get? id).getD []

def parents (g : GraphIndex) (id : Nat) : List Nat := (g.inn.get? id).getD []

def filterEq (g : GraphIndex) (key value : Str) : List Nat := ((g.attrIdx.get? (attrKey key value)).map Postings.lsns).getD []

def fileAttr (internal : Nat) (m : SortedMap Str Bitmap) (attr : Str × Str) : SortedMap Str Bitmap :=
  AttrIndex.entryInsert m (attrKey attr.1 attr.2) internal

def apply (g : GraphIndex) (lsn : Nat) (event : Episode) : GraphIndex :=
  if (g.dense.lookupId event.id).isSome then { g with watermark := max g.watermark lsn }
  else
    let (internal, dense) := g.dense.getOrAlloc event.id
    { out := event.parents.foldl (fun m parent => push m parent event.id) g.out
      inn := event.parents.foldl (fun m parent => push m event.id parent) g.inn
      attrIdx := event.attrs.entries.foldl (fileAttr internal) g.attrIdx
      dense := dense
      lsnOf := g.lsnOf.insert event.id lsn
      watermark := max g.watermark lsn }

def ofEvents (events : List (Nat × Episode)) : GraphIndex := events.foldl (fun g r => g.apply r.1 r.2) {}

/-- The events that a filter returns, by their numbers. -/
def filtered (g : GraphIndex) (key value : Str) : List Nat := (g.filterEq key value).filterMap g.dense.lookupEvent

/-! ## The first event of each id -/

def addFirst (firsts : List Episode) (r : Nat × Episode) : List Episode :=
  if firsts.any (fun f => f.id == r.2.id) then firsts else firsts ++ [r.2]

def firsts (events : List (Nat × Episode)) : List Episode := events.foldl addFirst []

variable {events : List (Nat × Episode)} {r : Nat × Episode} {f : Episode} {g : GraphIndex} {id n : Nat} {key value text : Str}

theorem firsts_concat (events : List (Nat × Episode)) (r : Nat × Episode) :
    firsts (events ++ [r]) = addFirst (firsts events) r := by
  rw [firsts, List.foldl_append]
  rfl

/-- An id has come, and nothing is added; or it is new. -/
theorem addFirst_cases (fs : List Episode) (r : Nat × Episode) :
    (addFirst fs r = fs ∧ ∃ f ∈ fs, f.id = r.2.id) ∨ (addFirst fs r = fs ++ [r.2] ∧ ∀ f ∈ fs, f.id ≠ r.2.id) := by
  unfold addFirst
  by_cases h : fs.any (fun f => f.id == r.2.id) = true
  · rw [if_pos h]
    exact .inl ⟨rfl, by simpa using h⟩
  · rw [if_neg h]
    exact .inr ⟨rfl, by simpa using h⟩

theorem nodup_firsts (events : List (Nat × Episode)) : ((firsts events).map Episode.id).Nodup := by
  induction events using List.reverseRecOn with
  | nil => exact List.nodup_nil
  | append_singleton events r ih =>
    rw [firsts_concat]
    rcases addFirst_cases (firsts events) r with ⟨h, -⟩ | ⟨h, hnew⟩
    · rwa [h]
    · rw [h, List.map_append, List.nodup_append]
      refine ⟨ih, List.nodup_singleton _, fun id hid id' hid' => ?_⟩
      obtain ⟨f, hf, rfl⟩ := List.mem_map.1 hid
      rw [List.mem_singleton.1 hid']
      exact hnew f hf

theorem mem_of_mem_firsts (h : f ∈ firsts events) : ∃ r ∈ events, r.2 = f := by
  induction events using List.reverseRecOn with
  | nil => cases h
  | append_singleton events r ih =>
    have hevents : f ∈ firsts events → ∃ r' ∈ events ++ [r], r'.2 = f := fun hf => by
      obtain ⟨r', hr', heq⟩ := ih hf
      exact ⟨r', List.mem_append_left _ hr', heq⟩
    rw [firsts_concat] at h
    rcases addFirst_cases (firsts events) r with ⟨hadd, -⟩ | ⟨hadd, -⟩
    · exact hevents (hadd ▸ h)
    · rw [hadd, List.mem_append, List.mem_singleton] at h
      rcases h with h | rfl
      · exact hevents h
      · exact ⟨r, by simp, rfl⟩

/-- Every event has a first one of its id. -/
theorem exists_first (h : r ∈ events) : ∃ f ∈ firsts events, f.id = r.2.id := by
  induction events using List.reverseRecOn with
  | nil => cases h
  | append_singleton events r' ih =>
    rw [firsts_concat]
    rcases List.mem_append.1 h with h | h
    · obtain ⟨f, hf, hid⟩ := ih h
      rcases addFirst_cases (firsts events) r' with ⟨hadd, -⟩ | ⟨hadd, -⟩
      · exact ⟨f, by rwa [hadd], hid⟩
      · exact ⟨f, by rw [hadd]; exact List.mem_append_left _ hf, hid⟩
    · cases List.mem_singleton.1 h
      rcases addFirst_cases (firsts events) r with ⟨hadd, hold⟩ | ⟨hadd, -⟩
      · rwa [hadd]
      · exact ⟨r.2, by simp [hadd], rfl⟩

theorem firsts_of_prefixed {events events' : List (Nat × Episode)} (h : events' <+: events) : firsts events' <+: firsts events := by
  obtain ⟨rest, rfl⟩ := h
  induction rest using List.reverseRecOn with
  | nil => rw [List.append_nil]
  | append_singleton rest r ih =>
    rw [← List.append_assoc, firsts_concat]
    rcases addFirst_cases (firsts (events' ++ rest)) r with ⟨hadd, -⟩ | ⟨hadd, -⟩
    · rwa [hadd]
    · rw [hadd]
      exact ih.trans (List.prefix_append _ _)

/-! ## What a run leaves -/

theorem ofEvents_concat (events : List (Nat × Episode)) (r : Nat × Episode) :
    ofEvents (events ++ [r]) = (ofEvents events).apply r.1 r.2 := by
  rw [ofEvents, List.foldl_append]
  rfl

/-- **The index is the first event of each id**: its number, its parents, and the texts of its attributes. -/
structure Holds (g : GraphIndex) (events : List (Nat × Episode)) : Prop where
  backward : g.dense.backward = (firsts events).map Episode.id
  known : ∀ id, (g.dense.lookupId id).isSome ↔ ∃ f ∈ firsts events, f.id = id
  bitmap : ∀ text n, n ∈ ((g.attrIdx.get? text).map Postings.lsns).getD [] ↔
    ∃ i f, (firsts events)[i]? = some f ∧ i % 2 ^ 32 = n ∧ ∃ attr ∈ f.attrs.entries, attrKey attr.1 attr.2 = text
  parents : ∀ id, g.parents id = (((firsts events).find? (fun f => f.id == id)).map Episode.parents).getD []
  watermark : ∀ r ∈ events, r.1 ≤ g.watermark

theorem mem_fileAttrs {internal : Nat} : ∀ (attrs : List (Str × Str)) (m : SortedMap Str Bitmap),
    n ∈ (((attrs.foldl (fileAttr internal) m).get? text).map Postings.lsns).getD [] ↔
      (n = internal ∧ ∃ attr ∈ attrs, attrKey attr.1 attr.2 = text) ∨ n ∈ ((m.get? text).map Postings.lsns).getD []
  | [], m => by simp
  | attr :: attrs, m => by
    rw [List.foldl_cons, mem_fileAttrs attrs, fileAttr, AttrIndex.mem_entryInsert, List.exists_mem_cons_iff, and_or_left,
      ← or_assoc, or_comm (a := n = internal ∧ ∃ x ∈ attrs, _), eq_comm (a := text)]

theorem get?_pushAll {id' : Nat} : ∀ (ps : List Nat) (m : SortedMap Nat (List Nat)),
    ((ps.foldl (fun m p => push m id p) m).get? id').getD [] = (m.get? id').getD [] ++ if id' = id then ps else []
  | [], m => by simp
  | p :: ps, m => by
    rw [List.foldl_cons, get?_pushAll ps, push, SortedMap.get?_alter]
    by_cases h : id' = id
    · subst h
      simp
    · simp [h]

theorem holds_ofEvents (events : List (Nat × Episode)) : (ofEvents events).Holds events := by
  induction events using List.reverseRecOn with
  | nil =>
    refine ⟨rfl, fun id => ?_, fun text n => ?_, fun id => rfl, fun r hr => absurd hr List.not_mem_nil⟩
    · simp [ofEvents, DenseEntityMap.lookupId, firsts]
    · simp [ofEvents, firsts]
  | append_singleton events r ih =>
    have hwatermark : ∀ r' ∈ events ++ [r], r'.1 ≤ max (ofEvents events).watermark r.1 := by
      intro r' hr'
      rcases List.mem_append.1 hr' with hr' | hr'
      · exact Nat.le_trans (ih.watermark r' hr') (Nat.le_max_left _ _)
      · cases List.mem_singleton.1 hr'
        exact Nat.le_max_right _ _
    rw [ofEvents_concat, apply]
    rcases addFirst_cases (firsts events) r with ⟨hadd, hold⟩ | ⟨hadd, hnew⟩
    · rw [if_pos ((ih.known r.2.id).2 hold)]
      rw [← firsts_concat] at hadd
      exact ⟨hadd ▸ ih.backward, hadd ▸ ih.known, hadd ▸ ih.bitmap, hadd ▸ ih.parents, hwatermark⟩
    · have hunknown : ¬((ofEvents events).dense.lookupId r.2.id).isSome = true := fun h => by
        obtain ⟨f, hf, hid⟩ := (ih.known r.2.id).1 h
        exact hnew f hf hid
      have hnone : (ofEvents events).dense.forward.get? r.2.id = none := by
        simpa [DenseEntityMap.lookupId] using hunknown
      have hlength : (ofEvents events).dense.backward.length = (firsts events).length := by
        rw [ih.backward, List.length_map]
      rw [if_neg hunknown, DenseEntityMap.getOrAlloc, hnone]
      dsimp only
      rw [← firsts_concat] at hadd
      refine ⟨?_, fun id => ?_, fun text n => ?_, fun id => ?_, hwatermark⟩
      · rw [hadd, List.map_append, ih.backward]
        rfl
      · have hknown := ih.known id
        rw [DenseEntityMap.lookupId] at hknown
        simp only [DenseEntityMap.lookupId, SortedMap.get?_insert, hadd, List.mem_append, List.mem_singleton, or_and_right,
          exists_or, exists_eq_left, ← hknown]
        by_cases hid : id = r.2.id
        · simp [hid]
        · simp [hid, Ne.symm hid]
      · rw [mem_fileAttrs, ih.bitmap, hadd, hlength]
        constructor
        · rintro (⟨rfl, hattr⟩ | ⟨i, f, hf, hi, hattr⟩)
          · exact ⟨_, r.2, by simp, rfl, hattr⟩
          · have hlt : i < (firsts events).length := (List.getElem?_eq_some_iff.1 hf).1
            exact ⟨i, f, by rw [List.getElem?_append_left hlt, hf], hi, hattr⟩
        · rintro ⟨i, f, hf, hi, hattr⟩
          by_cases hlt : i < (firsts events).length
          · rw [List.getElem?_append_left hlt] at hf
            exact .inr ⟨i, f, hf, hi, hattr⟩
          · rw [List.getElem?_append_right (Nat.not_lt.1 hlt), List.getElem?_singleton] at hf
            split at hf
            · rename_i hzero
              cases hf
              exact .inl ⟨by rw [← hi, show i = (firsts events).length by omega], hattr⟩
            · cases hf
      · show ((r.2.parents.foldl (fun m parent => push m r.2.id parent) (ofEvents events).inn).get? id).getD [] = _
        have hparents : ((ofEvents events).inn.get? id).getD []
            = (((firsts events).find? (fun f => f.id == id)).map Episode.parents).getD [] := ih.parents id
        rw [get?_pushAll, hparents, hadd, List.find?_append]
        by_cases hid : id = r.2.id
        · have hfind : (firsts events).find? (fun f => f.id == id) = none :=
            List.find?_eq_none.2 (fun f hf => by simpa [hid] using hnew f hf)
          rw [hfind]
          simp [hid]
        · rw [if_neg hid, List.append_nil, List.find?_cons_of_neg (by simpa using Ne.symm hid), List.find?_nil, Option.or_none]

/-! ## The filter -/

/-- A filter returns the events that carry the attribute, each once. -/
def FilterExact (events : List (Nat × Episode)) : Prop := ∀ key value,
  ((ofEvents events).filtered key value).Nodup ∧
    ∀ id, id ∈ (ofEvents events).filtered key value ↔ ∃ r ∈ events, r.2.id = id ∧ r.2.attrs.get? key = some value

/-- What is claimed: after every event the filters are exact, and an event that comes again changes nothing. -/
structure Faithful (events : List (Nat × Episode)) : Prop where
  exact_ : ∀ events', events' <+: events → FilterExact events'
  again : ∀ r ∈ events, (ofEvents events).apply r.1 r.2 = ofEvents events

/-- **The condition**: however the text of an attribute is read as a name and a value, the event carries them; a later event
of the same id brings no attribute; and an event that comes after 2^32 others has none. -/
structure Legible (events : List (Nat × Episode)) : Prop where
  read : ∀ f ∈ firsts events, ∀ attr ∈ f.attrs.entries, ∀ key value, attrKey key value = attrKey attr.1 attr.2 →
    f.attrs.get? key = some value
  later : ∀ r ∈ events, ∀ f ∈ firsts events, f.id = r.2.id → ∀ key value, r.2.attrs.get? key = some value →
    f.attrs.get? key = some value
  dense : ∀ i f, (firsts events)[i]? = some f → 2 ^ 32 ≤ i → f.attrs.entries = []

theorem Holds.mem_filtered (h : g.Holds events) : id ∈ g.filtered key value ↔ ∃ n f, (firsts events)[n]? = some f ∧ f.id = id ∧
    ∃ i f', (firsts events)[i]? = some f' ∧ i % 2 ^ 32 = n ∧ ∃ attr ∈ f'.attrs.entries, attrKey attr.1 attr.2 = attrKey key value := by
  rw [filtered, List.mem_filterMap]
  simp only [filterEq, h.bitmap, DenseEntityMap.lookupEvent, h.backward, List.getElem?_map, Option.map_eq_some_iff]
  constructor
  · rintro ⟨n, hn, f, hf, hid⟩
    exact ⟨n, f, hf, hid, hn⟩
  · rintro ⟨n, f, hf, hid, hn⟩
    exact ⟨n, hn, f, hf, hid⟩

theorem Holds.nodup_filtered (h : g.Holds events) (key value : Str) : (g.filtered key value).Nodup := by
  have hnodup : (g.filterEq key value).Nodup := by
    unfold filterEq
    cases g.attrIdx.get? (attrKey key value) with
    | none => exact List.nodup_nil
    | some p => exact p.sorted.imp Nat.ne_of_lt
  refine hnodup.filterMap (fun n n' id hn hn' => ?_)
  have hback : g.dense.backward.Nodup := h.backward ▸ nodup_firsts events
  obtain ⟨hlt, hn⟩ := List.getElem?_eq_some_iff.1 hn
  obtain ⟨hlt', hn'⟩ := List.getElem?_eq_some_iff.1 hn'
  exact (hback.getElem_inj_iff).1 (hn.trans hn'.symm)

/-- Two first events of one id are one. -/
theorem firsts_unique {i j : Nat} {f f' : Episode} (hi : (firsts events)[i]? = some f) (hj : (firsts events)[j]? = some f')
    (hid : f.id = f'.id) : i = j := by
  have hi' : ((firsts events).map Episode.id)[i]? = some f'.id := by rw [List.getElem?_map, hi, Option.map_some, hid]
  have hj' : ((firsts events).map Episode.id)[j]? = some f'.id := by rw [List.getElem?_map, hj, Option.map_some]
  obtain ⟨hlt, hi'⟩ := List.getElem?_eq_some_iff.1 hi'
  obtain ⟨hlt', hj'⟩ := List.getElem?_eq_some_iff.1 hj'
  exact ((nodup_firsts events).getElem_inj_iff).1 (hi'.trans hj'.symm)

theorem Legible.exact_ (h : Legible events) : FilterExact events := by
  intro key value
  have hholds := holds_ofEvents events
  refine ⟨hholds.nodup_filtered key value, fun id => ?_⟩
  rw [hholds.mem_filtered]
  constructor
  · rintro ⟨n, f, hf, rfl, i, f', hf', hi, attr, hattr, htext⟩
    have hlt : i < 2 ^ 32 := by
      by_contra hle
      rw [h.dense i f' hf' (Nat.not_lt.1 hle)] at hattr
      cases hattr
    have hin : n = i := by omega
    subst hin
    cases hf.symm.trans hf'
    have hmem : f ∈ firsts events := List.mem_of_getElem? hf
    obtain ⟨r, hr, rfl⟩ := mem_of_mem_firsts hmem
    exact ⟨r, hr, rfl, h.read _ hmem attr hattr key value htext.symm⟩
  · rintro ⟨r, hr, rfl, hget⟩
    obtain ⟨f, hf, hid⟩ := exists_first hr
    obtain ⟨i, hi⟩ := List.getElem?_of_mem hf
    have hattr : (key, value) ∈ f.attrs.entries := SortedMap.get?_eq_some.1 (h.later r hr f hf hid key value hget)
    have hlt : i < 2 ^ 32 := by
      by_contra hle
      rw [h.dense i f hi (Nat.not_lt.1 hle)] at hattr
      cases hattr
    exact ⟨i, f, hi, hid, i, f, hi, Nat.mod_eq_of_lt hlt, _, hattr, rfl⟩

theorem Legible.prefixed {events' : List (Nat × Episode)} (h : Legible events) (hp : events' <+: events) : Legible events' where
  read f hf := h.read f ((firsts_of_prefixed hp).subset hf)
  later r hr f hf := h.later r (hp.subset hr) f ((firsts_of_prefixed hp).subset hf)
  dense i f hf := by
    obtain ⟨hlt, hi⟩ := List.getElem?_eq_some_iff.1 hf
    exact h.dense i f (by rw [List.prefix_iff_getElem?.1 (firsts_of_prefixed hp) i hlt, hi])

/-- What one more event needs. -/
theorem Legible.concat (h : Legible events) (hexact : FilterExact (events ++ [r])) : Legible (events ++ [r]) := by
  have hholds := holds_ofEvents (events ++ [r])
  rcases addFirst_cases (firsts events) r with ⟨hadd, f, hf, hid⟩ | ⟨hadd, hnew⟩
  · rw [← firsts_concat] at hadd
    refine ⟨hadd ▸ h.read, fun r' hr' f' hf' hid' key value hget => ?_, hadd ▸ h.dense⟩
    rw [hadd] at hf'
    rcases List.mem_append.1 hr' with hr' | hr'
    · exact h.later r' hr' f' hf' hid' key value hget
    · cases List.mem_singleton.1 hr'
      have hmem := ((hexact key value).2 r.2.id).2 ⟨r, by simp, rfl, hget⟩
      obtain ⟨n, f₁, hf₁, hid₁, i, f₂, hf₂, hi, attr, hattr, htext⟩ := hholds.mem_filtered.1 hmem
      rw [hadd] at hf₁ hf₂
      have hlt : i < 2 ^ 32 := by
        by_contra hle
        rw [h.dense i f₂ hf₂ (Nat.not_lt.1 hle)] at hattr
        cases hattr
      have hin : n = i := by omega
      subst hin
      cases hf₁.symm.trans hf₂
      obtain ⟨j, hj⟩ := List.getElem?_of_mem hf'
      have hjn := firsts_unique hj hf₁ (hid'.trans hid₁.symm)
      subst hjn
      cases hj.symm.trans hf₁
      exact h.read f' hf' attr hattr key value htext.symm
  · rw [← firsts_concat] at hadd
    have hlast : (firsts (events ++ [r]))[(firsts events).length]? = some r.2 := by simp [hadd]
    have hcases : ∀ f ∈ firsts (events ++ [r]), f ∈ firsts events ∨ f = r.2 := fun f hf => by
      rwa [hadd, List.mem_append, List.mem_singleton] at hf
    have hfresh : ∀ r' ∈ events, r'.2.id ≠ r.2.id := fun r' hr' heq => by
      obtain ⟨f, hf, hid⟩ := exists_first hr'
      exact hnew f hf (hid.trans heq)
    have hdense : 2 ^ 32 ≤ (firsts events).length → r.2.attrs.entries = [] := by
      intro hle
      by_contra hne
      obtain ⟨⟨key, value⟩, hattr⟩ := List.exists_mem_of_ne_nil _ hne
      have hmem := ((hexact key value).2 r.2.id).2 ⟨r, by simp, rfl, SortedMap.get?_eq_some.2 hattr⟩
      obtain ⟨n, f₁, hf₁, hid₁, i, f₂, -, hi, -⟩ := hholds.mem_filtered.1 hmem
      have := firsts_unique hf₁ hlast hid₁
      omega
    refine ⟨fun f hf attr hattr key value htext => ?_, fun r' hr' f hf hid key value hget => ?_, fun i f hf hle => ?_⟩
    · rcases hcases f hf with hf | rfl
      · exact h.read f hf attr hattr key value htext
      · have hlt : (firsts events).length < 2 ^ 32 := by
          by_contra hle
          rw [hdense (Nat.not_lt.1 hle)] at hattr
          cases hattr
        have hmem : r.2.id ∈ (ofEvents (events ++ [r])).filtered key value :=
          hholds.mem_filtered.2 ⟨_, r.2, hlast, rfl, _, r.2, hlast, Nat.mod_eq_of_lt hlt, attr, hattr, htext.symm⟩
        obtain ⟨r', hr', hid, hget⟩ := ((hexact key value).2 r.2.id).1 hmem
        rcases List.mem_append.1 hr' with hr' | hr'
        · exact absurd hid (hfresh r' hr')
        · cases List.mem_singleton.1 hr'
          exact hget
    · rcases hcases f hf with hf | rfl
      · rcases List.mem_append.1 hr' with hr' | hr'
        · exact h.later r' hr' f hf hid key value hget
        · cases List.mem_singleton.1 hr'
          exact absurd hid (hnew f hf)
      · rcases List.mem_append.1 hr' with hr' | hr'
        · exact absurd hid.symm (hfresh r' hr')
        · cases List.mem_singleton.1 hr'
          exact hget
    · by_cases hlt : i < (firsts events).length
      · rw [hadd, List.getElem?_append_left hlt] at hf
        exact h.dense i f hf hle
      · have hi : i = (firsts events).length := by
          have := (List.getElem?_eq_some_iff.1 hf).1
          rw [hadd, List.length_append, List.length_singleton] at this
          omega
        subst hi
        cases hf.symm.trans hlast
        exact hdense hle

theorem legible_of_exact (h : ∀ events', events' <+: events → FilterExact events') : Legible events := by
  induction events using List.reverseRecOn with
  | nil =>
    refine ⟨fun f hf => absurd hf List.not_mem_nil, fun r hr => absurd hr List.not_mem_nil, fun i f hf => ?_⟩
    simp [firsts] at hf
  | append_singleton events r ih =>
    exact (ih (fun events' hp => h events' (hp.trans (List.prefix_append _ _)))).concat (h _ (List.prefix_refl _))

/-- **An event that comes again changes nothing.** -/
theorem apply_again (h : r ∈ events) : (ofEvents events).apply r.1 r.2 = ofEvents events := by
  have hholds := holds_ofEvents events
  rw [apply, if_pos ((hholds.known r.2.id).2 (exists_first h)), Nat.max_eq_left (hholds.watermark r h)]

/-- **When the filters are exact**: for every sequence of events, in each of its states. -/
theorem filters_exact_iff (events : List (Nat × Episode)) : Faithful events ↔ Legible events :=
  ⟨fun h => legible_of_exact h.exact_, fun h => ⟨fun _ hp => (h.prefixed hp).exact_, fun _ => apply_again⟩⟩

/-- An event with the attribute `a=b`. -/
def equalsEvent : Episode :=
  { Episode.new 1 "etl".toList .observation [] with attrs := SortedMap.empty.insert "a=b".toList "c".toList }

/-- **An attribute called `a=b` is found under `a`.** -/
theorem filter_finds_another : 1 ∈ (ofEvents [(0, equalsEvent)]).filtered "a".toList "b=c".toList ∧
    equalsEvent.attrs.get? "a".toList = none ∧ ¬Faithful [(0, equalsEvent)] := by
  have hmem : 1 ∈ (ofEvents [(0, equalsEvent)]).filtered "a".toList "b=c".toList := by decide +kernel
  have hnone : equalsEvent.attrs.get? "a".toList = none := by decide +kernel
  refine ⟨hmem, hnone, fun h => ?_⟩
  obtain ⟨r, hr, -, hget⟩ := ((h.exact_ _ (List.prefix_refl _) "a".toList "b=c".toList).2 1).1 hmem
  cases List.mem_singleton.1 hr
  cases hnone.symm.trans hget

end GraphIndex
end Heraclitus
