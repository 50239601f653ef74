import Heraclitus.Lib.SortedMap
import Mathlib.Data.List.Nodup
/-!
# Table — stores that are read and written by key, and loops that fill them

A map, and a map of maps, are tables.  A loop over bindings with distinct keys that writes some of them leaves, at each key, what
was written there or else what was there before.
-/
namespace Heraclitus

/-- A store with its laws: a key that is written holds what was written, and no other key changes. -/
structure Table (σ κ β : Type) where
  get : σ → κ → Option β
  put : σ → κ → β → σ
  get_put : ∀ s k v, get (put s k v) k = some v
  get_put_of_ne : ∀ s k v j, j ≠ k → get (put s k v) j = get s j

namespace Table

variable {σ κ α β : Type}

/-- What `f` makes of a binding is written under its key, if it makes something. -/
def fill (T : Table σ κ β) (f : α → Option β) (l : List (κ × α)) (s : σ) : σ :=
  l.foldl (fun s e => match f e.2 with
    | some v => T.put s e.1 v
    | none => s) s

variable {T : Table σ κ β} {f : α → Option β} {l : List (κ × α)} {k : κ}

theorem fill_cons (e : κ × α) (l : List (κ × α)) (s : σ) : T.fill f (e :: l) s =
    T.fill f l (match f e.2 with
      | some v => T.put s e.1 v
      | none => s) := rfl

theorem get_fill_of_notMem : ∀ {l : List (κ × α)} (s : σ), k ∉ l.map Prod.fst → T.get (T.fill f l s) k = T.get s k
  | [], _, _ => rfl
  | e :: l, s, h => by
    rw [List.map_cons, List.mem_cons, not_or] at h
    rw [fill_cons, get_fill_of_notMem _ h.2]
    split
    · exact T.get_put_of_ne _ _ _ _ h.1
    · rfl

theorem get_fill_of_mem {a : α} : ∀ {l : List (κ × α)} (s : σ), (l.map Prod.fst).Nodup → (k, a) ∈ l →
    T.get (T.fill f l s) k = (f a).or (T.get s k)
  | e :: l, s, hnodup, hmem => by
    rw [List.map_cons, List.nodup_cons] at hnodup
    rw [fill_cons]
    rcases List.mem_cons.1 hmem with rfl | hmem
    · rw [get_fill_of_notMem _ hnodup.1]
      dsimp only
      split
      · rename_i v hv
        rw [T.get_put, hv]
        rfl
      · rename_i hv
        rw [hv]
        rfl
    · have hne : k ≠ e.1 := fun heq => hnodup.1 (heq ▸ List.mem_map_of_mem hmem)
      rw [get_fill_of_mem _ hnodup.2 hmem]
      split
      · rw [T.get_put_of_ne _ _ _ _ hne]
      · rfl

/-- **A filled table**, read by what the bindings hold. -/
theorem get_fill (T : Table σ κ β) (f : α → Option β) {look : κ → Option α}
    (hnodup : (l.map Prod.fst).Nodup) (hmem : ∀ k a, (k, a) ∈ l ↔ look k = some a) (s : σ)
    (k : κ) : T.get (T.fill f l s) k = ((look k).bind f).or (T.get s k) := by
  cases hlook : look k with
  | some a => exact get_fill_of_mem s hnodup ((hmem k a).2 hlook)
  | none =>
    refine get_fill_of_notMem s (fun h => ?_)
    obtain ⟨⟨j, a⟩, ha, rfl⟩ := List.mem_map.1 h
    rw [(hmem j a).1 ha] at hlook
    cases hlook

/-- A loop that stops at the first binding of which `f` makes nothing. -/
def fillAll (T : Table σ κ β) (f : α → Option β) (l : List (κ × α)) (s : σ) : Option σ :=
  l.foldlM (fun s e => (f e.2).map (T.put s e.1)) s

/-- **The loop that may stop** fills the table unless it stops. -/
theorem fillAll_eq : ∀ (l : List (κ × α)) (s : σ), T.fillAll f l s =
    if ∀ e ∈ l, (f e.2).isSome then some (T.fill f l s) else none
  | [], s => by
    rw [if_pos (fun e he => absurd he List.not_mem_nil)]
    rfl
  | e :: l, s => by
    rw [fillAll, List.foldlM_cons, fill_cons]
    cases hf : f e.2 with
    | none =>
      rw [if_neg]
      · rfl
      · intro h
        have := h e List.mem_cons_self
        rw [hf] at this
        cases this
    | some v =>
      have ih := fillAll_eq l (T.put s e.1 v)
      rw [fillAll] at ih
      rw [Option.map_some]
      show l.foldlM _ (T.put s e.1 v) = _
      rw [ih]
      have hall : (∀ x ∈ e :: l, (f x.2).isSome) ↔ ∀ x ∈ l, (f x.2).isSome := by
        rw [List.forall_mem_cons, hf]
        exact and_iff_right rfl
      simp only [hall]

theorem fillAll_append (l l' : List (κ × α)) (s : σ) : T.fillAll f (l ++ l') s = (T.fillAll f l s).bind (T.fillAll f l') :=
  List.foldlM_append

end Table

namespace SortedMap

variable {κ ι β γ : Type} [LinearOrder κ] [LinearOrder ι]

def table : Table (SortedMap κ β) κ β where
  get := get?
  put := insert
  get_put m k v := by rw [get?_insert, if_pos rfl]
  get_put_of_ne m k v j hj := by rw [get?_insert, if_neg hj]

theorem keys_nodup (m : SortedMap κ β) : (m.entries.map Prod.fst).Nodup :=
  (List.pairwise_map.2 m.sorted).imp ne_of_lt

theorem get?_fill_empty (f : γ → Option β) (m : SortedMap κ γ) (k : κ) :
    (table.fill f m.entries empty).get? k = (m.get? k).bind f :=
  (Table.get_fill table f (keys_nodup m) (fun _ _ => get?_eq_some.symm) empty k).trans Option.or_none

/-- Each value becomes its image. -/
def mapVal (f : β → γ) (m : SortedMap κ β) : SortedMap κ γ :=
  ⟨m.entries.map (fun e => (e.1, f e.2)), List.pairwise_map.2 m.sorted⟩

@[simp] theorem get?_mapVal (f : β → γ) (m : SortedMap κ β) (k : κ) : (m.mapVal f).get? k = (m.get? k).map f := by
  have hfind : ∀ l : List (κ × β), find k (l.map (fun e => (e.1, f e.2))) = (find k l).map f := by
    intro l
    induction l with
    | nil => rfl
    | cons e l ih =>
      rw [List.map_cons]
      unfold find
      split
      · rfl
      · split
        · rfl
        · exact ih
  exact hfind m.entries

/-- The bindings of a map of maps. -/
def flat (m : SortedMap κ (SortedMap ι β)) : List ((κ × ι) × β) :=
  m.entries.flatMap (fun e => e.2.entries.map (fun kv => ((e.1, kv.1), kv.2)))

def get2? (m : SortedMap κ (SortedMap ι β)) (k : κ × ι) : Option β := (m.get? k.1).bind (·.get? k.2)

/-- `entry(k).or_default()` and an insertion into it. -/
def put2 (m : SortedMap κ (SortedMap ι β)) (k : κ × ι) (v : β) : SortedMap κ (SortedMap ι β) :=
  m.alter k.1 (fun o => some ((o.getD .empty).insert k.2 v))

theorem get2?_put2 (m : SortedMap κ (SortedMap ι β)) (k : κ × ι) (v : β) : (m.put2 k v).get2? k = some v := by
  unfold get2? put2
  rw [get?_alter, if_pos rfl, Option.bind_some, get?_insert, if_pos rfl]

theorem get2?_put2_of_ne (m : SortedMap κ (SortedMap ι β)) (k : κ × ι) (v : β) (j : κ × ι) (h : j ≠ k) :
    (m.put2 k v).get2? j = m.get2? j := by
  unfold get2? put2
  rw [get?_alter]
  by_cases hj : j.1 = k.1
  · have hne : j.2 ≠ k.2 := fun heq => h (Prod.ext hj heq)
    rw [if_pos hj, Option.bind_some, get?_insert, if_neg hne, hj]
    cases m.get? k.1 <;> rfl
  · rw [if_neg hj]

def table2 : Table (SortedMap κ (SortedMap ι β)) (κ × ι) β := ⟨get2?, put2, get2?_put2, get2?_put2_of_ne⟩

theorem mem_flat {m : SortedMap κ (SortedMap ι β)} {k : κ × ι} {v : β} : (k, v) ∈ m.flat ↔ m.get2? k = some v := by
  obtain ⟨a, i⟩ := k
  unfold flat get2?
  rw [List.mem_flatMap, Option.bind_eq_some_iff]
  constructor
  · rintro ⟨⟨b, n⟩, hmem, hkv⟩
    obtain ⟨⟨j, w⟩, hentry, heq⟩ := List.mem_map.1 hkv
    cases heq
    exact ⟨n, get?_eq_some.2 hmem, get?_eq_some.2 hentry⟩
  · rintro ⟨n, hget, hentry⟩
    exact ⟨(a, n), get?_eq_some.1 hget, List.mem_map.2 ⟨(i, v), get?_eq_some.1 hentry, rfl⟩⟩

theorem flat_nodup (m : SortedMap κ (SortedMap ι β)) : (m.flat.map Prod.fst).Nodup := by
  unfold flat
  rw [List.map_flatMap, List.nodup_flatMap]
  constructor
  · intro e _
    rw [List.map_map]
    refine (List.pairwise_map.2 (e.2.sorted.imp (fun hab heq => ?_)))
    exact (ne_of_lt hab) (Prod.mk.inj heq).2
  · refine m.sorted.imp (fun hab => ?_)
    intro k hk hk'
    obtain ⟨x, hx, rfl⟩ := List.mem_map.1 hk
    obtain ⟨y, hy, heq⟩ := List.mem_map.1 hk'
    obtain ⟨z, -, rfl⟩ := List.mem_map.1 hx
    obtain ⟨w, -, rfl⟩ := List.mem_map.1 hy
    exact (ne_of_lt hab) (Prod.mk.inj heq).1.symm

theorem get2?_fill_empty (f : γ → Option β) (m : SortedMap κ (SortedMap ι γ)) (k : κ × ι) :
    (table2.fill f m.flat empty).get2? k = (m.get2? k).bind f :=
  (Table.get_fill table2 f (flat_nodup m) (fun _ _ => mem_flat) empty k).trans Option.or_none

/-- No map in a map of maps is empty. -/
def Full (m : SortedMap κ (SortedMap ι β)) : Prop := ∀ k n, m.get? k = some n → ∃ i, (n.get? i).isSome

theorem Full.put2 {m : SortedMap κ (SortedMap ι β)} (h : m.Full) (k : κ × ι) (v : β) : (m.put2 k v).Full := by
  intro j n hn
  rw [SortedMap.put2, get?_alter] at hn
  split at hn
  · cases hn
    exact ⟨k.2, by rw [get?_insert, if_pos rfl]; rfl⟩
  · exact h j n hn

theorem full_empty : (empty : SortedMap κ (SortedMap ι β)).Full := by
  intro k n h
  cases h

theorem Full.fill {f : γ → Option β} : ∀ (l : List ((κ × ι) × γ)) {m : SortedMap κ (SortedMap ι β)}, m.Full →
    (table2.fill f l m).Full
  | [], _, h => h
  | e :: l, m, h => by
    rw [Table.fill_cons]
    split
    · exact Full.fill l (h.put2 e.1 _)
    · exact Full.fill l h

/-- Full maps of maps are equal if their bindings are. -/
theorem Full.ext {m n : SortedMap κ (SortedMap ι β)} (hm : m.Full) (hn : n.Full) (h : ∀ k, m.get2? k = n.get2? k) : m = n := by
  have hsub : ∀ {m n : SortedMap κ (SortedMap ι β)}, m.Full → (∀ k, m.get2? k = n.get2? k) → ∀ k a, m.get? k = some a →
      ∃ b, n.get? k = some b := by
    intro m n hm h k a ha
    obtain ⟨i, hi⟩ := hm k a ha
    have hk := h (k, i)
    unfold get2? at hk
    rw [ha, Option.bind_some] at hk
    rw [hk] at hi
    obtain ⟨v, hv⟩ := Option.isSome_iff_exists.1 hi
    obtain ⟨b, hb, -⟩ := Option.bind_eq_some_iff.1 hv
    exact ⟨b, hb⟩
  ext1 k
  cases ha : m.get? k with
  | none =>
    cases hb : n.get? k with
    | none => rfl
    | some b =>
      obtain ⟨a, ha'⟩ := hsub hn (fun k => (h k).symm) k b hb
      rw [ha] at ha'
      cases ha'
  | some a =>
    obtain ⟨b, hb⟩ := hsub hm h k a ha
    rw [hb]
    congr 1
    ext1 i
    have hi := h (k, i)
    unfold get2? at hi
    rwa [ha, hb] at hi

/-- `entry(k).or_default()`. -/
def ensure (m : SortedMap κ (SortedMap ι β)) (k : κ) : SortedMap κ (SortedMap ι β) := m.alter k (fun o => some (o.getD .empty))

/-- The bindings of one map of a map of maps. -/
def under (k : κ) (n : SortedMap ι β) : List ((κ × ι) × β) := n.entries.map (fun kv => ((k, kv.1), kv.2))

theorem put2_ensure (m : SortedMap κ (SortedMap ι β)) (k : κ) (i : ι) (v : β) : (m.ensure k).put2 (k, i) v = m.put2 (k, i) v := by
  ext1 j
  unfold put2 ensure
  by_cases hj : j = k
  · subst hj
    simp [get?_alter]
  · simp [get?_alter, hj]

/-- **A loop over the maps of a full map of maps**, each of which is opened first, is the loop over its bindings. -/
theorem foldlM_under {f : γ → Option β} {m : SortedMap κ (SortedMap ι γ)} (h : m.Full) (s : SortedMap κ (SortedMap ι β)) :
    m.entries.foldlM (fun s e => table2.fillAll f (under e.1 e.2) (s.ensure e.1)) s = table2.fillAll f m.flat s := by
  have hone : ∀ e ∈ m.entries, ∀ s : SortedMap κ (SortedMap ι β),
      table2.fillAll f (under e.1 e.2) (s.ensure e.1) = table2.fillAll f (under e.1 e.2) s := by
    rintro ⟨k, n⟩ he s
    obtain ⟨i, hi⟩ := h k n (get?_eq_some.2 he)
    obtain ⟨v, hv⟩ := Option.isSome_iff_exists.1 hi
    have hne : n.entries ≠ [] := List.ne_nil_of_mem (get?_eq_some.1 hv)
    unfold under
    dsimp only
    cases hn : n.entries with
    | nil => exact absurd hn hne
    | cons kv l =>
      rw [List.map_cons]
      unfold Table.fillAll
      rw [List.foldlM_cons, List.foldlM_cons]
      congr 1
      cases f kv.2 with
      | none => rfl
      | some w => exact congrArg some (put2_ensure s k kv.1 w)
  have hall : ∀ (l : List (κ × SortedMap ι γ)), (∀ e ∈ l, e ∈ m.entries) → ∀ s : SortedMap κ (SortedMap ι β),
      l.foldlM (fun s e => table2.fillAll f (under e.1 e.2) (s.ensure e.1)) s =
        table2.fillAll f (l.flatMap (fun e => under e.1 e.2)) s := by
    intro l
    induction l with
    | nil => exact fun _ _ => rfl
    | cons e l ih =>
      intro hl s
      rw [List.foldlM_cons, hone e (hl e List.mem_cons_self), List.flatMap_cons, Table.fillAll_append]
      refine Option.bind_congr (fun s' _ => ?_)
      exact ih (fun x hx => hl x (List.mem_cons_of_mem e hx)) s'
  exact hall m.entries (fun _ he => he) s

end SortedMap
end Heraclitus
