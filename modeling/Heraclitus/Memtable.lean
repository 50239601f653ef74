import Heraclitus.Episode
import Heraclitus.Lib.Run
import Mathlib.Data.List.TakeWhile
import Mathlib.Logic.Function.Basic
/-!
# Memtable — the tail in memory and who names whom (`heraclitus-memtable/src/lib.rs`)

A queue of entries and, for every parent, the ids that name it.  Leaving the queue, by the cap or below a watermark, takes an id
from its parents whatever entry put it there, and pruning stops at the first entry above the watermark.  So the two agree exactly
as long as no entry leaves before one that shares its id and a parent, and the queue is in order around each watermark.
-/
namespace Heraclitus

structure Memtable where
  cap : Nat
  entries : List (Nat × Episode)
  adjacency : Nat → Option (List Nat)

namespace Memtable

def new (cap : Nat) : Memtable := { cap := cap, entries := [], adjacency := fun _ => none }

/-- `adjacency.entry(parent).or_default().push(id)`. -/
def pushChild (id : Nat) (adjacency : Nat → Option (List Nat)) (parent : Nat) : Nat → Option (List Nat) :=
  Function.update adjacency parent (some ((adjacency parent).getD [] ++ [id]))

/-- An id leaves the row of a parent, and an empty row leaves the map. -/
def forgetChild (id : Nat) (adjacency : Nat → Option (List Nat)) (parent : Nat) : Nat → Option (List Nat) :=
  match adjacency parent with
  | none => adjacency
  | some children =>
    let children := children.filter (fun c => c ≠ id)
    Function.update adjacency parent (if children = [] then none else some children)

def forgetAdjacency (adjacency : Nat → Option (List Nat)) (evicted : Episode) : Nat → Option (List Nat) :=
  evicted.parents.foldl (forgetChild evicted.id) adjacency

/-- The front entries leave while there are more than the cap. -/
def evict (cap : Nat) : List (Nat × Episode) → (Nat → Option (List Nat)) → List (Nat × Episode) × (Nat → Option (List Nat))
  | [], adjacency => ([], adjacency)
  | x :: entries, adjacency =>
    if cap < (x :: entries).length then evict cap entries (forgetAdjacency adjacency x.2) else (x :: entries, adjacency)

def apply (m : Memtable) (lsn : Nat) (episode : Episode) : Memtable :=
  let adjacency := episode.parents.foldl (pushChild episode.id) m.adjacency
  let rest := evict m.cap (m.entries ++ [(lsn, episode)]) adjacency
  { m with entries := rest.1, adjacency := rest.2 }

/-- The front entries leave while they are at or below the watermark. -/
def prune (watermark : Nat) : List (Nat × Episode) → (Nat → Option (List Nat)) →
    List (Nat × Episode) × (Nat → Option (List Nat))
  | [], adjacency => ([], adjacency)
  | x :: entries, adjacency =>
    if x.1 ≤ watermark then prune watermark entries (forgetAdjacency adjacency x.2) else (x :: entries, adjacency)

def pruneBelow (m : Memtable) (watermark : Nat) : Memtable :=
  let rest := prune watermark m.entries m.adjacency
  { m with entries := rest.1, adjacency := rest.2 }

def clear (m : Memtable) : Memtable := { m with entries := [], adjacency := fun _ => none }

def childrenOf (m : Memtable) (id : Nat) : List Nat := (m.adjacency id).getD []

inductive Call where
  | apply (lsn : Nat) (episode : Episode)
  | pruneBelow (watermark : Nat)
  | clear

def step (m : Memtable) : Call → Memtable
  | .apply lsn episode => m.apply lsn episode
  | .pruneBelow watermark => m.pruneBelow watermark
  | .clear => m.clear

/-! ## What is asked of a call, and when it is met -/

/-- Each row holds the ids of the entries that name the parent. -/
def Exact (adjacency : Nat → Option (List Nat)) (entries : List (Nat × Episode)) : Prop :=
  ∀ p id, id ∈ (adjacency p).getD [] ↔ ∃ x ∈ entries, x.2.id = id ∧ p ∈ x.2.parents

/-- The overlay after a call: the children of a parent are the ids of the resident entries that name it, the cap holds, and
pruning leaves what is above the watermark and nothing else. -/
structure Holds (m : Memtable) (c : Call) : Prop where
  children : ∀ p id, id ∈ (m.step c).childrenOf p ↔ ∃ x ∈ (m.step c).entries, x.2.id = id ∧ p ∈ x.2.parents
  bounded : (m.step c).entries.length ≤ m.cap
  pruned : ∀ w, c = .pruneBelow w → (∀ x ∈ (m.step c).entries, w < x.1) ∧
    (m.step c).entries.filter (fun x => decide (w < x.1)) = m.entries.filter (fun x => decide (w < x.1))

/-- Two entries with one id and a parent in common. -/
def Shares (x y : Nat × Episode) : Prop := x.2.id = y.2.id ∧ ∃ p ∈ x.2.parents, p ∈ y.2.parents

/-- No entry leaves that shares its id and a parent with one that stays, and no entry at or below a watermark stands behind one
above it. -/
def Meets (m : Memtable) : Call → Prop
  | .apply lsn episode =>
    let queue := m.entries ++ [(lsn, episode)]
    ∀ x ∈ queue.take (queue.length - m.cap), ∀ y ∈ queue.drop (queue.length - m.cap), ¬Shares x y
  | .pruneBelow w => m.entries.Pairwise (fun x y => y.1 ≤ w → x.1 ≤ w) ∧
    ∀ x ∈ m.entries, x.1 ≤ w → ∀ y ∈ m.entries, w < y.1 → ¬Shares x y
  | .clear => True

/-! ## Rows -/

variable {adjacency : Nat → Option (List Nat)} {entries gone stay : List (Nat × Episode)} {p id w cap : Nat}

theorem mem_foldl_pushChild (child : Nat) : ∀ (parents : List Nat) (adjacency : Nat → Option (List Nat)),
    id ∈ (parents.foldl (pushChild child) adjacency p).getD [] ↔ id ∈ (adjacency p).getD [] ∨ id = child ∧ p ∈ parents
  | [], adjacency => by simp
  | parent :: parents, adjacency => by
    rw [List.foldl_cons, mem_foldl_pushChild child parents, pushChild]
    by_cases h : p = parent
    · subst h
      simp
      tauto
    · simp [h]

theorem mem_forgetChild (child parent : Nat) :
    id ∈ (forgetChild child adjacency parent p).getD [] ↔ id ∈ (adjacency p).getD [] ∧ ¬(id = child ∧ p = parent) := by
  unfold forgetChild
  cases hrow : adjacency parent with
  | none =>
    by_cases h : p = parent
    · subst h
      simp [hrow]
    · simp [h]
  | some children =>
    dsimp only
    by_cases h : p = parent
    · subst h
      by_cases hempty : children.filter (fun c => decide (c ≠ child)) = []
      · have hall : ∀ c ∈ children, c = child := by simpa [List.filter_eq_nil_iff] using hempty
        rw [Function.update_self, if_pos hempty, hrow]
        simpa using hall id
      · rw [Function.update_self, if_neg hempty, hrow]
        simp [List.mem_filter]
    · simp [h]

theorem mem_forgetAdjacency (e : Episode) :
    id ∈ (forgetAdjacency adjacency e p).getD [] ↔ id ∈ (adjacency p).getD [] ∧ ¬(id = e.id ∧ p ∈ e.parents) := by
  have hfold : ∀ (parents : List Nat) (adjacency : Nat → Option (List Nat)),
      id ∈ (parents.foldl (forgetChild e.id) adjacency p).getD [] ↔
        id ∈ (adjacency p).getD [] ∧ ¬(id = e.id ∧ p ∈ parents) := by
    intro parents
    induction parents with
    | nil => simp
    | cons parent parents ih =>
      intro adjacency
      rw [List.foldl_cons, ih, mem_forgetChild, List.mem_cons]
      tauto
  exact hfold e.parents adjacency

/-- The rows after some entries have left. -/
def letGo (gone : List (Nat × Episode)) (adjacency : Nat → Option (List Nat)) : Nat → Option (List Nat) :=
  gone.foldl (fun adjacency x => forgetAdjacency adjacency x.2) adjacency

theorem mem_letGo : ∀ (gone : List (Nat × Episode)) (adjacency : Nat → Option (List Nat)),
    id ∈ (letGo gone adjacency p).getD [] ↔
      id ∈ (adjacency p).getD [] ∧ ∀ x ∈ gone, ¬(id = x.2.id ∧ p ∈ x.2.parents)
  | [], adjacency => by simp [letGo]
  | x :: gone, adjacency => by
    have hcons : letGo (x :: gone) adjacency = letGo gone (forgetAdjacency adjacency x.2) := rfl
    rw [hcons, mem_letGo gone, mem_forgetAdjacency, List.forall_mem_cons, and_assoc]

/-- **Letting entries go is exact just when none of them shares its id and a parent with one that stays.** -/
theorem exact_letGo (h : Exact adjacency (gone ++ stay)) :
    Exact (letGo gone adjacency) stay ↔ ∀ x ∈ gone, ∀ y ∈ stay, ¬Shares x y := by
  constructor
  · rintro hexact x hx y hy ⟨hid, p, hpx, hpy⟩
    have hmem := (hexact p y.2.id).2 ⟨y, hy, rfl, hpy⟩
    exact ((mem_letGo gone adjacency).1 hmem).2 x hx ⟨hid.symm, hpx⟩
  · intro hshares p id
    rw [mem_letGo, h p id]
    constructor
    · rintro ⟨⟨x, hx, hid, hp⟩, hgone⟩
      rcases List.mem_append.1 hx with hx | hx
      · exact absurd ⟨hid.symm, hp⟩ (hgone x hx)
      · exact ⟨x, hx, hid, hp⟩
    · rintro ⟨y, hy, hid, hp⟩
      refine ⟨⟨y, List.mem_append_right _ hy, hid, hp⟩, fun x hx hxp => ?_⟩
      exact hshares x hx y hy ⟨hxp.1.symm.trans hid.symm, p, hxp.2, hp⟩

theorem exact_push (lsn : Nat) (episode : Episode) (h : Exact adjacency entries) :
    Exact (episode.parents.foldl (pushChild episode.id) adjacency) (entries ++ [(lsn, episode)]) := by
  intro p id
  rw [mem_foldl_pushChild, h p id]
  constructor
  · rintro (⟨x, hx, hid, hp⟩ | ⟨rfl, hp⟩)
    · exact ⟨x, List.mem_append_left _ hx, hid, hp⟩
    · exact ⟨_, List.mem_append_right _ (List.mem_singleton_self _), rfl, hp⟩
  · rintro ⟨x, hx, hid, hp⟩
    rcases List.mem_append.1 hx with hx | hx
    · exact .inl ⟨x, hx, hid, hp⟩
    · rw [List.mem_singleton.1 hx] at hid hp
      exact .inr ⟨hid.symm, hp⟩

/-! ## The loops -/

theorem evict_eq : ∀ (entries : List (Nat × Episode)) (adjacency : Nat → Option (List Nat)),
    evict cap entries adjacency
      = (entries.drop (entries.length - cap), letGo (entries.take (entries.length - cap)) adjacency)
  | [], adjacency => by simp [evict, letGo]
  | x :: entries, adjacency => by
    rw [evict]
    by_cases h : cap < (x :: entries).length
    · have hlen : (x :: entries).length - cap = entries.length - cap + 1 := by
        rw [List.length_cons] at h ⊢
        omega
      rw [if_pos h, evict_eq entries, hlen]
      rfl
    · rw [if_neg h, Nat.sub_eq_zero_of_le (Nat.not_lt.1 h)]
      rfl

theorem prune_eq : ∀ (entries : List (Nat × Episode)) (adjacency : Nat → Option (List Nat)),
    prune w entries adjacency = (entries.dropWhile (fun x => decide (x.1 ≤ w)),
      letGo (entries.takeWhile (fun x => decide (x.1 ≤ w))) adjacency)
  | [], adjacency => rfl
  | x :: entries, adjacency => by
    rw [prune]
    by_cases h : x.1 ≤ w
    · rw [if_pos h, prune_eq entries, List.dropWhile_cons_of_pos (by simpa using h), List.takeWhile_cons_of_pos (by simpa using h)]
      rfl
    · rw [if_neg h, List.dropWhile_cons_of_neg (by simpa using h), List.takeWhile_cons_of_neg (by simpa using h)]
      rfl

/-- Pruning leaves no entry below just when the queue is in order around the watermark. -/
theorem above_dropWhile_iff : ∀ entries : List (Nat × Episode),
    (∀ x ∈ entries.dropWhile (fun x => decide (x.1 ≤ w)), w < x.1) ↔
      entries.Pairwise (fun x y => y.1 ≤ w → x.1 ≤ w)
  | [] => by simp
  | x :: entries => by
    rw [List.pairwise_cons]
    by_cases h : x.1 ≤ w
    · rw [List.dropWhile_cons_of_pos (by simpa using h), above_dropWhile_iff entries]
      exact ⟨fun hrest => ⟨fun _ _ _ => h, hrest⟩, And.right⟩
    · rw [List.dropWhile_cons_of_neg (by simpa using h), List.forall_mem_cons]
      constructor
      · rintro ⟨-, hrest⟩
        have habove : ∀ y ∈ entries, ¬y.1 ≤ w := fun y hy => Nat.not_le.2 (hrest y hy)
        exact ⟨fun y hy hle => absurd hle (habove y hy),
          List.pairwise_of_forall_mem_list fun y _ z hz hle => absurd hle (habove z hz)⟩
      · rintro ⟨hhead, -⟩
        exact ⟨Nat.not_le.1 h, fun y hy => Nat.not_le.1 fun hle => h (hhead y hy hle)⟩

theorem le_of_mem_takeWhile {x : Nat × Episode} (h : x ∈ entries.takeWhile (fun x => decide (x.1 ≤ w))) : x.1 ≤ w := by
  simpa using List.mem_takeWhile_imp h

/-- **Nothing above the watermark is pruned.** -/
theorem filter_dropWhile (entries : List (Nat × Episode)) :
    (entries.dropWhile (fun x => decide (x.1 ≤ w))).filter (fun x => decide (w < x.1))
      = entries.filter (fun x => decide (w < x.1)) := by
  have hgone : (entries.takeWhile (fun x => decide (x.1 ≤ w))).filter (fun x => decide (w < x.1)) = [] :=
    List.filter_eq_nil_iff.2 fun x hx => by simpa using le_of_mem_takeWhile hx
  conv_rhs => rw [← List.takeWhile_append_dropWhile (p := fun x : Nat × Episode => decide (x.1 ≤ w)) (l := entries)]
  rw [List.filter_append, hgone, List.nil_append]

/-! ## Runs -/

/-- What holds between two calls. -/
structure Inv (m : Memtable) : Prop where
  exact : Exact m.adjacency m.entries
  bounded : m.entries.length ≤ m.cap

theorem step_cap (m : Memtable) (c : Call) : (m.step c).cap = m.cap := by cases c <;> rfl

variable {m : Memtable}

/-- **A call does what is asked of it exactly if it meets the condition.** -/
theorem Inv.holds_iff (h : Inv m) (c : Call) : Holds m c ↔ Meets m c := by
  cases c with
  | clear =>
    refine ⟨fun _ => trivial, fun _ => ⟨fun p id => by simp [step, clear, childrenOf], Nat.zero_le _, fun _ h => nomatch h⟩⟩
  | apply lsn episode =>
    have hpush := exact_push lsn episode h.exact
    have hstep : m.step (.apply lsn episode) = { m with
        entries := (m.entries ++ [(lsn, episode)]).drop ((m.entries ++ [(lsn, episode)]).length - m.cap)
        adjacency := letGo ((m.entries ++ [(lsn, episode)]).take ((m.entries ++ [(lsn, episode)]).length - m.cap))
          (episode.parents.foldl (pushChild episode.id) m.adjacency) } := by
      rw [step, Memtable.apply, evict_eq]
    rw [← List.take_append_drop ((m.entries ++ [(lsn, episode)]).length - m.cap) (m.entries ++ [(lsn, episode)])] at hpush
    refine Iff.trans ⟨fun hholds => ?_, fun hexact => ⟨?_, ?_, fun _ h => nomatch h⟩⟩ (exact_letGo hpush)
    · have := hholds.children
      rwa [hstep] at this
    · rw [hstep]
      exact hexact
    · rw [hstep, List.length_drop]
      omega
  | pruneBelow w =>
    have hsplit := List.takeWhile_append_dropWhile (p := fun x : Nat × Episode => decide (x.1 ≤ w)) (l := m.entries)
    have hexact := h.exact
    rw [← hsplit] at hexact
    have hstep : m.step (.pruneBelow w) = { m with
        entries := m.entries.dropWhile (fun x => decide (x.1 ≤ w))
        adjacency := letGo (m.entries.takeWhile (fun x => decide (x.1 ≤ w))) m.adjacency } := by
      rw [step, pruneBelow, prune_eq]
    have hmem : ∀ x, x ∈ m.entries ↔ x ∈ m.entries.takeWhile (fun x => decide (x.1 ≤ w)) ∨
        x ∈ m.entries.dropWhile (fun x => decide (x.1 ≤ w)) := fun x => by
      rw [← List.mem_append, hsplit]
    constructor
    · intro hholds
      have habove := (hholds.pruned w rfl).1
      have hshares := hholds.children
      rw [hstep] at habove hshares
      refine ⟨(above_dropWhile_iff _).1 habove, fun x hx hlow y hy hhigh => ?_⟩
      have hx' := ((hmem x).1 hx).resolve_right fun hx => absurd (habove x hx) (Nat.not_lt.2 hlow)
      have hy' := ((hmem y).1 hy).resolve_left fun hy => absurd (le_of_mem_takeWhile hy) (Nat.not_le.2 hhigh)
      exact (exact_letGo hexact).1 hshares x hx' y hy'
    · rintro ⟨horder, hshares⟩
      have habove := (above_dropWhile_iff _).2 horder
      refine ⟨?_, ?_, ?_⟩
      · rw [hstep]
        exact (exact_letGo hexact).2 fun x hx y hy =>
          hshares x ((hmem x).2 (.inl hx)) (le_of_mem_takeWhile hx) y ((hmem y).2 (.inr hy)) (habove y hy)
      · rw [hstep]
        exact Nat.le_trans (List.dropWhile_sublist _).length_le h.bounded
      · intro w' hw'
        cases hw'
        rw [hstep]
        exact ⟨habove, filter_dropWhile m.entries⟩

theorem Inv.step {c : Call} (h : Holds m c) : Inv (m.step c) :=
  ⟨h.children, by rw [step_cap]; exact h.bounded⟩

/-- **The overlay does what is asked of it in every call of a run exactly if every call meets the condition.** -/
theorem overlay_exact_iff (cap : Nat) (calls : List Call) :
    allOk (fun m c => some (m.step c)) Holds (new cap) calls ↔ allOk (fun m c => some (m.step c)) Meets (new cap) calls := by
  refine allOk_iff (I := Inv) (fun m c h => h.holds_iff c) (fun m c m' _ hholds hstep => ?_)
    ⟨fun p id => by simp [new], Nat.zero_le _⟩
  cases hstep
  exact .step hholds

/-- An episode of a run, with one parent. -/
def sample (id : Nat) : Episode := { Episode.new id [] .observation [] with parents := [9] }

/-- An entry that arrived late stays below the watermark, and a second delivery is forgotten with the first. -/
theorem late_and_repeated :
    ¬allOk (fun m c => some (m.step c)) Holds (new 8) [.apply 5 (sample 1), .apply 3 (sample 2), .pruneBelow 4] ∧
    ¬allOk (fun m c => some (m.step c)) Holds (new 2) [.apply 1 (sample 1), .apply 2 (sample 2), .apply 3 (sample 1)] := by
  constructor
  · rintro ⟨-, h⟩
    obtain ⟨-, h⟩ := h _ rfl
    obtain ⟨h, -⟩ := h _ rfl
    exact absurd ((h.pruned 4 rfl).1 (3, sample 2) (by decide)) (by decide)
  · rintro ⟨-, h⟩
    obtain ⟨-, h⟩ := h _ rfl
    obtain ⟨h, -⟩ := h _ rfl
    exact absurd ((h.children 9 1).2 ⟨(3, sample 1), by decide, rfl, by decide⟩) (by decide)

end Memtable
end Heraclitus
