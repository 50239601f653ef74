import Heraclitus.Episode
/-!
# AttrIndex — the inverted index of attributes (`heraclitus-index-attr`)

`field → value → LSNs`, with two pseudo-attributes, plus an ordered index of the values that read as finite numbers.
Values that are too common or too long are left out of both.  `numKey` is `str::parse::<f64>` followed, on a finite
number, by the order-preserving `CanonicalKeyCodec::encode_f64`.
-/
namespace Heraclitus

/-- LSNs in strictly increasing order. -/
structure Postings where
  lsns : List Nat
  sorted : lsns.Pairwise (· < ·)
  deriving DecidableEq

namespace Postings

def empty : Postings := ⟨[], List.Pairwise.nil⟩

def insertList (lsn : Nat) : List Nat → List Nat
  | [] => [lsn]
  | x :: xs => if lsn = x then x :: xs else if lsn < x then lsn :: x :: xs else x :: insertList lsn xs

theorem mem_insertList {lsn l : Nat} : ∀ {xs : List Nat}, l ∈ insertList lsn xs ↔ l = lsn ∨ l ∈ xs
  | [] => by simp [insertList]
  | x :: xs => by
    unfold insertList
    split
    · rename_i h
      rw [h, List.mem_cons]
      tauto
    · split
      · exact List.mem_cons
      · rw [List.mem_cons, mem_insertList, List.mem_cons]
        tauto

theorem insertList_sorted {lsn : Nat} : ∀ {xs : List Nat}, xs.Pairwise (· < ·) → (insertList lsn xs).Pairwise (· < ·)
  | [], _ => List.pairwise_singleton _ _
  | x :: xs, h => by
    obtain ⟨hx, hxs⟩ := List.pairwise_cons.1 h
    unfold insertList
    split
    · exact h
    · rename_i hne
      split
      · rename_i hlt
        refine List.pairwise_cons.2 ⟨fun y hy => ?_, h⟩
        rcases List.mem_cons.1 hy with rfl | hy
        · exact hlt
        · exact Nat.lt_trans hlt (hx y hy)
      · rename_i hlt
        refine List.pairwise_cons.2 ⟨fun y hy => ?_, insertList_sorted hxs⟩
        rcases mem_insertList.1 hy with rfl | hy
        · exact Nat.lt_of_le_of_ne (Nat.not_lt.1 hlt) (Ne.symm hne)
        · exact hx y hy

/-- `insert_sorted`: binary search, and insertion where the search failed. -/
def insert (p : Postings) (lsn : Nat) : Postings := ⟨insertList lsn p.lsns, insertList_sorted p.sorted⟩

theorem mem_insert {p : Postings} {lsn l : Nat} : l ∈ (p.insert lsn).lsns ↔ l = lsn ∨ l ∈ p.lsns := mem_insertList

end Postings

/-- Separator between field and value in an index key. -/
def sep : Char := '\x1f'

def skipValues : List Str := ["", "0", "-1", "nao", "sim", "true", "false", "null", "none"].map String.toList

def maxValueLen : Nat := 80

def ikey (field value : Str) : Str := field ++ sep :: value

/-- The value filter of `apply`, on a trimmed value. -/
def skipped (v : Str) : Bool := decide (utf8Len v > maxValueLen) || skipValues.contains (toAsciiLowercase v)

/-- `Snapshot`, which is all an `AttrIndex` holds. -/
structure AttrIndex where
  watermark : Nat := 0
  applied : Bool := false
  exactPostings : SortedMap Str Postings := .empty
  numeric : SortedMap Str (SortedMap Nat Postings) := .empty
  deriving DecidableEq

namespace AttrIndex

def new : AttrIndex := {}

def isEmpty (idx : AttrIndex) : Bool := idx.exactPostings.isEmpty

/-- The postings of an index key, in LSN order. -/
def postings (idx : AttrIndex) (key : Str) : List Nat := ((idx.exactPostings.get? key).map Postings.lsns).getD []

def lookup (idx : AttrIndex) (field value : Str) : List Nat := idx.postings (ikey field value)

/-- `entry(key).or_default()` and an `insert_sorted` into it. -/
def entryInsert {κ : Type} [LinearOrder κ] (m : SortedMap κ Postings) (key : κ) (lsn : Nat) : SortedMap κ Postings :=
  m.alter key (fun p => some ((p.getD .empty).insert lsn))

def addExact (idx : AttrIndex) (key : Str) (lsn : Nat) : AttrIndex :=
  { idx with exactPostings := entryInsert idx.exactPostings key lsn }

def addNumeric (idx : AttrIndex) (field : Str) (n : Nat) (lsn : Nat) : AttrIndex :=
  { idx with numeric := idx.numeric.alter field (fun m => some (entryInsert (m.getD .empty) n lsn)) }

variable (numKey : Str → Option Nat)

/-- A pseudo-attribute (`_agent`, `_kind`): trimmed, kept unless empty or too long. -/
def applyPseudo (field text : Str) (lsn : Nat) (idx : AttrIndex) : AttrIndex :=
  let a := trim text
  if a ≠ [] ∧ utf8Len a ≤ maxValueLen then idx.addExact (ikey field a) lsn else idx

def applyAttr (lsn : Nat) (idx : AttrIndex) (attr : Str × Str) : AttrIndex :=
  let v := trim attr.2
  if skipped v then idx
  else match numKey v with
    | none => idx.addExact (ikey attr.1 v) lsn
    | some n => (idx.addExact (ikey attr.1 v) lsn).addNumeric attr.1 n lsn

def agentField : Str := "_agent".toList

def kindField : Str := "_kind".toList

def apply (idx : AttrIndex) (lsn : Nat) (event : Episode) : AttrIndex :=
  let idx := applyPseudo agentField event.agentId lsn idx
  let idx := applyPseudo kindField event.kind.label lsn idx
  let idx := event.attrs.entries.foldl (applyAttr numKey lsn) idx
  { idx with watermark := max idx.watermark lsn, applied := true }

end AttrIndex

/-! ## What one event adds -/

/-- The index keys under which `apply` files an event. -/
def Files (event : Episode) (key : Str) : Prop :=
  (trim event.agentId ≠ [] ∧ utf8Len (trim event.agentId) ≤ maxValueLen
      ∧ key = ikey AttrIndex.agentField (trim event.agentId))
    ∨ (trim event.kind.label ≠ [] ∧ utf8Len (trim event.kind.label) ≤ maxValueLen
      ∧ key = ikey AttrIndex.kindField (trim event.kind.label))
    ∨ ∃ attr ∈ event.attrs.entries, skipped (trim attr.2) = false ∧ key = ikey attr.1 (trim attr.2)

namespace AttrIndex

variable {numKey : Str → Option Nat} {idx : AttrIndex} {lsn l : Nat} {key : Str}

theorem mem_entryInsert {κ : Type} [LinearOrder κ] {m : SortedMap κ Postings} {k j : κ} :
    l ∈ (((entryInsert m k lsn).get? j).map Postings.lsns).getD []
      ↔ (l = lsn ∧ j = k) ∨ l ∈ ((m.get? j).map Postings.lsns).getD [] := by
  unfold entryInsert
  rw [SortedMap.get?_alter]
  by_cases hj : j = k
  · subst hj
    rw [if_pos rfl, Option.map_some, Option.getD_some, Postings.mem_insert]
    cases m.get? j <;> simp [Postings.empty]
  · rw [if_neg hj]
    simp [hj]

theorem mem_postings_addExact {k : Str} :
    l ∈ (idx.addExact k lsn).postings key ↔ (l = lsn ∧ key = k) ∨ l ∈ idx.postings key :=
  mem_entryInsert

@[simp] theorem postings_addNumeric {field : Str} {n : Nat} :
    (idx.addNumeric field n lsn).postings key = idx.postings key := rfl

theorem mem_postings_applyPseudo {field text : Str} : l ∈ (applyPseudo field text lsn idx).postings key ↔
    (l = lsn ∧ trim text ≠ [] ∧ utf8Len (trim text) ≤ maxValueLen ∧ key = ikey field (trim text))
      ∨ l ∈ idx.postings key := by
  unfold applyPseudo
  dsimp only
  split
  · rename_i h
    rw [mem_postings_addExact]
    tauto
  · rename_i h
    tauto

theorem mem_postings_applyAttr {attr : Str × Str} : l ∈ (applyAttr numKey lsn idx attr).postings key ↔
    (l = lsn ∧ skipped (trim attr.2) = false ∧ key = ikey attr.1 (trim attr.2)) ∨ l ∈ idx.postings key := by
  unfold applyAttr
  dsimp only
  split
  · rename_i h
    simp [h]
  · rename_i h
    have hs : skipped (trim attr.2) = false := by simpa using h
    split
    · rw [mem_postings_addExact, hs]
      tauto
    · rw [postings_addNumeric, mem_postings_addExact, hs]
      tauto

theorem mem_postings_foldl : ∀ (attrs : List (Str × Str)) (idx : AttrIndex),
    l ∈ (attrs.foldl (applyAttr numKey lsn) idx).postings key ↔
      (l = lsn ∧ ∃ attr ∈ attrs, skipped (trim attr.2) = false ∧ key = ikey attr.1 (trim attr.2))
        ∨ l ∈ idx.postings key
  | [], _ => by simp
  | a :: attrs, idx => by
    rw [List.foldl_cons, mem_postings_foldl attrs, mem_postings_applyAttr, List.exists_mem_cons_iff, and_or_left,
      ← or_assoc, or_comm (a := l = lsn ∧ ∃ x ∈ attrs, _)]

/-- **`apply` files the LSN under the event's keys and touches nothing else.** -/
theorem mem_postings_apply {event : Episode} :
    l ∈ (idx.apply numKey lsn event).postings key ↔ (l = lsn ∧ Files event key) ∨ l ∈ idx.postings key := by
  unfold apply
  show l ∈ postings (event.attrs.entries.foldl (applyAttr numKey lsn) (applyPseudo kindField event.kind.label lsn
    (applyPseudo agentField event.agentId lsn idx))) key ↔ _
  rw [mem_postings_foldl, mem_postings_applyPseudo, mem_postings_applyPseudo]
  unfold Files
  rw [and_or_left, and_or_left]
  constructor
  · rintro (h | h | h | h)
    exacts [.inl (.inr (.inr h)), .inl (.inr (.inl h)), .inl (.inl h), .inr h]
  · rintro ((h | h | h) | h)
    exacts [.inr (.inr (.inl h)), .inr (.inl h), .inl h, .inr (.inr (.inr h))]

theorem watermark_foldl (attrs : List (Str × Str)) (idx : AttrIndex) :
    (attrs.foldl (applyAttr numKey lsn) idx).watermark = idx.watermark := by
  induction attrs generalizing idx with
  | nil => rfl
  | cons a attrs ih =>
    rw [List.foldl_cons, ih]
    unfold applyAttr
    dsimp only
    split
    · rfl
    · split <;> rfl

@[simp] theorem watermark_apply {event : Episode} :
    (idx.apply numKey lsn event).watermark = max idx.watermark lsn := by
  have hpseudo : ∀ field text idx, (applyPseudo field text lsn idx).watermark = idx.watermark := fun field text idx => by
    unfold applyPseudo
    dsimp only
    split <;> rfl
  unfold apply
  dsimp only
  rw [watermark_foldl, hpseudo, hpseudo]

end AttrIndex

/-- A key made of separator-free parts determines them. -/
theorem ikey_inj {f v field value : Str} (hfield : sep ∉ field) (hvalue : sep ∉ value)
    (h : ikey f v = ikey field value) : f = field ∧ v = value := by
  unfold ikey at h
  have hcount : f.count sep = 0 := by
    have := congrArg (List.count sep) h
    simp only [List.count_append, List.count_cons_self, List.count_eq_zero_of_not_mem hfield,
      List.count_eq_zero_of_not_mem hvalue] at this
    omega
  have hf : sep ∉ f := List.count_eq_zero.1 hcount
  have htake : ∀ l r : Str, sep ∉ l → (l ++ sep :: r).takeWhile (fun c => c != sep) = l := fun l r hl => by
    have hne : ∀ c ∈ l, (c != sep) = true := fun c hc => by
      rw [bne_iff_ne]
      rintro rfl
      exact hl hc
    rw [List.takeWhile_append_of_pos hne]
    simp
  have hfield' : f = field := by rw [← htake f v hf, h, htake field value hfield]
  subst hfield'
  simpa using h

end Heraclitus
