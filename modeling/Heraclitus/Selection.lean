import Heraclitus.Lib.Bitset
import Heraclitus.Lib.F64Quotient
import Mathlib.Data.Finset.Filter
import Mathlib.Data.Finset.SDiff
import Mathlib.Data.Finset.Range
import Mathlib.Data.List.Sort
/-!
# Selection — selected rows, by bits or by their numbers (`hume-kernel/src/selection.rs`)

A selection of rows is a bitmap where it is dense, and else a list of numbers, of 16 bits where the domain fits them.  What is
built in any way, out of bits, out of numbers or by set operations, has the one form that its set has over its domain.
-/
namespace Heraclitus
namespace Selection

open Bitset

inductive Rep where
  | bitmap (words : List UInt64)
  | index16 (v : List UInt16)
  | index32 (v : List UInt32)
  deriving DecidableEq

structure SelectionVector where
  len : Nat
  rep : Rep
  deriving DecidableEq

def bitmapDensityThreshold : F64 := F64.quarter

def index16MaxDomain : Nat := 1 <<< 16

def wordsFor (len : Nat) : Nat := (len + 63) / 64

def clearTail (words : List UInt64) (len : Nat) : List UInt64 :=
  let rem := len % 64
  if rem ≠ 0 then words.modify (words.length - 1) (fun last => last &&& ((1 <<< UInt64.ofNat rem) - 1)) else words

/-- `words[i / 64] |= 1 << (i % 64)` for every index; a word that is not there panics. -/
def setBits : List UInt64 → List UInt32 → Option (List UInt64)
  | words, [] => some words
  | words, i :: indices =>
    if i.toNat / 64 < words.length then
      setBits (words.modify (i.toNat / 64) (fun w => w ||| 1 <<< UInt64.ofNat (i.toNat % 64))) indices
    else none

def countOnes (w : UInt64) : Nat := (List.range 64).countP w.toBitVec.getLsbD

/-- Whether the rows that survive are at least a quarter of the domain. -/
def dense (selected len : Nat) : Bool := bitmapDensityThreshold.le (if len = 0 then ⟨0⟩ else F64.quotient selected len)

namespace SelectionVector

def isIndex (s : SelectionVector) : Bool :=
  match s.rep with
  | .bitmap _ => false
  | .index16 _ | .index32 _ => true

def selected (s : SelectionVector) : Nat :=
  match s.rep with
  | .bitmap words => (words.map countOnes).sum
  | .index16 v => v.length
  | .index32 v => v.length

def toIndices (s : SelectionVector) : List UInt32 :=
  match s.rep with
  | .bitmap words => words.zipIdx.flatMap (fun r => (onesLoop 64 r.1).map (fun bit => UInt32.ofNat (r.2 * 64 + bit)))
  | .index16 v => v.map UInt16.toUInt32
  | .index32 v => v

def toBitmap (s : SelectionVector) : Option (List UInt64) :=
  match s.rep with
  | .bitmap words => some words
  | .index16 _ | .index32 _ => setBits (List.replicate (wordsFor s.len) 0) s.toIndices

def optimized (s : SelectionVector) : Option SelectionVector :=
  if dense s.selected s.len then s.toBitmap.map (fun words => ⟨s.len, .bitmap words⟩)
  else if s.len ≤ index16MaxDomain then some ⟨s.len, .index16 (s.toIndices.map UInt32.toUInt16)⟩
  else some ⟨s.len, .index32 s.toIndices⟩

/-- A bitmap of another length is cut or filled up with zeros. -/
def fromBitmap (len : Nat) (words : List UInt64) : Option SelectionVector :=
  optimized ⟨len, .bitmap (clearTail (words.take (wordsFor len) ++ List.replicate (wordsFor len - words.length) 0) len)⟩

def fromIndices (len : Nat) (indices : List UInt32) : Option SelectionVector :=
  if indices.all (fun i => i.toNat < len) then
    (setBits (List.replicate (wordsFor len) 0) indices).bind (fun words => fromBitmap len words)
  else none

def fromSortedIndices (len : Nat) (sorted : List UInt32) : Option SelectionVector :=
  if dense sorted.length len then
    (setBits (List.replicate (wordsFor len) 0) sorted).map (fun words => ⟨len, .bitmap words⟩)
  else if len ≤ index16MaxDomain then some ⟨len, .index16 (sorted.map UInt32.toUInt16)⟩
  else some ⟨len, .index32 sorted⟩

/-- The merge of two sorted lists that keeps what both have. -/
def merge : List UInt32 → List UInt32 → List UInt32
  | [], _ => []
  | _, [] => []
  | x :: a, y :: b =>
    if x < y then merge a (y :: b)
    else if y < x then merge (x :: a) b
    else x :: merge a b

def zipWords (s other : SelectionVector) (op : UInt64 → UInt64 → UInt64) : Option SelectionVector :=
  if s.len = other.len then
    s.toBitmap.bind fun a => other.toBitmap.bind fun b =>
      if a.length ≤ b.length then optimized ⟨s.len, .bitmap (clearTail (List.zipWith op a b) s.len)⟩ else none
  else none

/-- `None` is a panic: the domains differ. -/
def and (s other : SelectionVector) : Option SelectionVector :=
  if s.len = other.len then
    if s.isIndex && other.isIndex then fromSortedIndices s.len (merge s.toIndices other.toIndices)
    else s.zipWords other (· &&& ·)
  else none

def or (s other : SelectionVector) : Option SelectionVector := s.zipWords other (· ||| ·)

def not (s : SelectionVector) : Option SelectionVector :=
  s.toBitmap.bind fun words => optimized ⟨s.len, .bitmap (clearTail (words.map (fun w => ~~~w)) s.len)⟩

end SelectionVector

open SelectionVector

/-! ## The form of a set -/

variable {len : Nat} {A B : Finset Nat} {s t : SelectionVector} {words : List UInt64}

/-- The rows of a set, in order. -/
def rows (len : Nat) (A : Finset Nat) : List Nat := (List.range len).filter (· ∈ A)

/-- Words for the domain, with the bits of the set and no other. -/
structure Clean (len : Nat) (A : Finset Nat) (words : List UInt64) : Prop where
  length : words.length = wordsFor len
  bits : ∀ p, bit words p = decide (p < len ∧ p ∈ A)

/-- **The form of a set over a domain.** -/
def Represents (len : Nat) (A : Finset Nat) : SelectionVector → Prop
  | ⟨l, .bitmap words⟩ => l = len ∧ dense (rows len A).length len = true ∧ Clean len A words
  | ⟨l, .index16 v⟩ => l = len ∧ dense (rows len A).length len = false ∧ len ≤ index16MaxDomain ∧
      v.map UInt16.toNat = rows len A
  | ⟨l, .index32 v⟩ => l = len ∧ dense (rows len A).length len = false ∧ index16MaxDomain < len ∧
      v.map UInt32.toNat = rows len A

theorem mem_rows {p : Nat} : p ∈ rows len A ↔ p < len ∧ p ∈ A := by simp [rows]

theorem rows_pairwise (len : Nat) (A : Finset Nat) : (rows len A).Pairwise (· < ·) := List.pairwise_lt_range.filter _

theorem Clean.members_eq (h : Clean len A words) : Bitset.members words = rows len A := by
  have hlen : 64 * words.length = len + (64 * wordsFor len - len) := by
    rw [h.length, wordsFor]
    omega
  have htail : ∀ p ∈ (List.range (64 * wordsFor len - len)).map (len + ·), ¬bit words p = true := fun p hp => by
    obtain ⟨j, -, rfl⟩ := List.mem_map.1 hp
    simp [h.bits]
  have hhead : ∀ p ∈ List.range len, bit words p = decide (p ∈ A) := fun p hp => by simp [h.bits, List.mem_range.1 hp]
  rw [Bitset.members, hlen, List.range_add, List.filter_append, List.filter_eq_nil_iff.2 htail, List.append_nil, rows,
    List.filter_congr hhead]

/-- **A set has one form.** -/
theorem Represents.unique (hs : Represents len A s) (ht : Represents len A t) : s = t := by
  have h16 : ∀ {v v' : List UInt16}, v.map UInt16.toNat = v'.map UInt16.toNat → v = v' := fun h =>
    List.map_injective_iff.2 (fun _ _ => UInt16.toNat_inj.1) h
  have h32 : ∀ {v v' : List UInt32}, v.map UInt32.toNat = v'.map UInt32.toNat → v = v' := fun h =>
    List.map_injective_iff.2 (fun _ _ => UInt32.toNat_inj.1) h
  obtain ⟨l, w | v | v⟩ := s <;> obtain ⟨l', w' | v' | v'⟩ := t <;> simp only [Represents] at hs ht <;>
    obtain ⟨rfl, hd, hs⟩ := hs <;> obtain ⟨rfl, hd', ht⟩ := ht
  · rw [Bitset.ext (hs.length.trans ht.length.symm) (fun p => (hs.bits p).trans (ht.bits p).symm)]
  · rw [hd] at hd'
    exact nomatch hd'
  · rw [hd] at hd'
    exact nomatch hd'
  · rw [hd] at hd'
    exact nomatch hd'
  · rw [h16 (hs.2.trans ht.2.symm)]
  · exact absurd hs.1 (Nat.not_le.2 ht.1)
  · rw [hd] at hd'
    exact nomatch hd'
  · exact absurd ht.1 (Nat.not_le.2 hs.1)
  · rw [h32 (hs.2.trans ht.2.symm)]

/-- The rows are the only list in order with these members. -/
theorem eq_rows {l : List Nat} (h : l.Pairwise (· < ·)) (hmem : ∀ p, p ∈ l ↔ p < len ∧ p ∈ A) : l = rows len A :=
  h.eq_of_mem_iff (rows_pairwise len A) fun p => (hmem p).trans mem_rows.symm

/-! ## Conversions -/

theorem map_toNat_ofNat {l : List Nat} (h : ∀ p ∈ l, p < 2 ^ 32) : (l.map UInt32.ofNat).map UInt32.toNat = l := by
  rw [List.map_map]
  refine (List.map_congr_left fun p hp => ?_).trans (List.map_id l)
  exact UInt32.toNat_ofNat_of_lt' (h p hp)

theorem map_toUInt32 (v : List UInt16) : (v.map UInt16.toUInt32).map UInt32.toNat = v.map UInt16.toNat := by
  rw [List.map_map]
  exact List.map_congr_left fun x _ => UInt16.toNat_toUInt32 x

theorem map_toUInt16 {v : List UInt32} (h : ∀ x ∈ v, x.toNat < 2 ^ 16) :
    (v.map UInt32.toUInt16).map UInt16.toNat = v.map UInt32.toNat := by
  rw [List.map_map]
  exact List.map_congr_left fun x hx => (UInt32.toNat_toUInt16 x).trans (Nat.mod_eq_of_lt (h x hx))

theorem toIndices_bitmap (l : Nat) (words : List UInt64) :
    toIndices ⟨l, .bitmap words⟩ = (Bitset.members words).map UInt32.ofNat := by
  rw [members_eq_flatMap, List.map_flatMap]
  simp only [toIndices, List.map_map, Nat.mul_comm 64]
  rfl

theorem selected_bitmap (l : Nat) (words : List UInt64) : selected ⟨l, .bitmap words⟩ = (Bitset.members words).length := by
  have hword : ∀ w : UInt64, countOnes w = (onesLoop 64 w).length := fun w => by
    rw [onesLoop_word, countOnes, List.countP_eq_length_filter]
  have hfst : words.zipIdx.map (fun r => countOnes r.1) = words.map countOnes := by
    rw [show (fun r : UInt64 × Nat => countOnes r.1) = countOnes ∘ Prod.fst from rfl, ← List.map_map, List.zipIdx_map_fst]
  rw [members_eq_flatMap, List.length_flatMap]
  simp only [List.length_map, ← hword]
  rw [hfst]
  rfl

theorem length_wordsFor (len : Nat) : len ≤ 64 * wordsFor len ∧ 64 * wordsFor len < len + 64 := by
  unfold wordsFor
  omega

/-- **Clearing the tail leaves the bits of the domain.** -/
theorem bit_clearTail (h : words.length = wordsFor len) (p : Nat) :
    bit (clearTail words len) p = (bit words p && decide (p < len)) := by
  have hlen := length_wordsFor len
  unfold clearTail
  dsimp only
  by_cases hrem : len % 64 = 0
  · rw [if_neg (by omega)]
    by_cases hp : p < len
    · simp [hp]
    · rw [bit_of_length_le (by omega), Bool.false_and]
  · have hlast : words.length = words.length - 1 + 1 := by omega
    rw [if_pos hrem, bit_mask_last (Nat.mod_lt len (by decide)) hlast]
    congr 2
    exact propext (by omega)

theorem length_clearTail (words : List UInt64) (len : Nat) : (clearTail words len).length = words.length := by
  unfold clearTail
  by_cases hrem : len % 64 ≠ 0 <;> simp [hrem]

/-- Words of the right number are clean once the tail is cleared. -/
theorem clean_clearTail (h : words.length = wordsFor len) (hbits : ∀ p < len, bit words p = decide (p ∈ A)) :
    Clean len A (clearTail words len) := by
  refine ⟨(length_clearTail words len).trans h, fun p => ?_⟩
  rw [bit_clearTail h]
  by_cases hp : p < len
  · simp [hp, hbits p hp]
  · simp [hp]

/-- **Setting bits adds the numbers**, as long as their words are there. -/
theorem setBits_eq : ∀ {indices : List UInt32} {words : List UInt64}, (∀ i ∈ indices, i.toNat / 64 < words.length) →
    ∃ words', setBits words indices = some words' ∧ words'.length = words.length ∧
      ∀ p, bit words' p = (bit words p || decide (p ∈ indices.map UInt32.toNat))
  | [], words, _ => ⟨words, rfl, rfl, fun p => by simp⟩
  | i :: indices, words, h => by
    have hi := h i List.mem_cons_self
    obtain ⟨words', heq, hlen, hbits⟩ := @setBits_eq indices
      (words.modify (i.toNat / 64) (fun w => w ||| 1 <<< UInt64.ofNat (i.toNat % 64)))
      (fun j hj => by rw [List.length_modify]; exact h j (List.mem_cons_of_mem _ hj))
    refine ⟨words', by rw [setBits, if_pos hi, heq], by rw [hlen, List.length_modify], fun p => ?_⟩
    rw [hbits, bit_insert hi, Bool.or_assoc]
    simp

theorem setBits_zeros {indices : List UInt32} (h : ∀ p, p ∈ indices.map UInt32.toNat ↔ p < len ∧ p ∈ A) :
    ∃ words, setBits (List.replicate (wordsFor len) 0) indices = some words ∧ Clean len A words := by
  have hlen := length_wordsFor len
  have hword : ∀ i ∈ indices, i.toNat / 64 < (List.replicate (wordsFor len) (0 : UInt64)).length := fun i hi => by
    have := ((h i.toNat).1 (List.mem_map_of_mem hi)).1
    rw [List.length_replicate]
    omega
  obtain ⟨words, heq, hlen', hbits⟩ := setBits_eq hword
  refine ⟨words, heq, hlen'.trans List.length_replicate, fun p => ?_⟩
  rw [hbits, bit_zeros, Bool.false_or, decide_eq_decide]
  exact h p

/-! ## The constructors -/

variable (hlen : len ≤ 2 ^ 32)

include hlen

theorem lt_of_mem_rows {p : Nat} (h : p ∈ rows len A) : p < 2 ^ 32 := by
  have := (mem_rows.1 h).1
  omega

theorem Represents.toIndices (h : Represents len A s) : s.toIndices.map UInt32.toNat = rows len A := by
  obtain ⟨l, words | v | v⟩ := s
  · obtain ⟨-, -, hclean⟩ := h
    rw [toIndices_bitmap, hclean.members_eq, map_toNat_ofNat fun p hp => lt_of_mem_rows hlen hp]
  · obtain ⟨-, -, -, hv⟩ := h
    exact (map_toUInt32 v).trans hv
  · obtain ⟨-, -, -, hv⟩ := h
    exact hv

omit hlen in
/-- What is sparse is represented by its numbers. -/
theorem represents_sparse {v : List UInt32} (hsparse : dense (rows len A).length len = false)
    (hv : v.map UInt32.toNat = rows len A) :
    ∃ s, (if len ≤ index16MaxDomain then some ⟨len, .index16 (v.map UInt32.toUInt16)⟩
      else some ⟨len, .index32 v⟩ : Option SelectionVector) = some s ∧ Represents len A s := by
  by_cases hdomain : len ≤ index16MaxDomain
  · have hsmall : ∀ x ∈ v, x.toNat < 2 ^ 16 := fun x hx => by
      have := (mem_rows.1 (hv ▸ List.mem_map_of_mem hx)).1
      exact Nat.lt_of_lt_of_le this hdomain
    exact ⟨_, if_pos hdomain, rfl, hsparse, hdomain, (map_toUInt16 hsmall).trans hv⟩
  · exact ⟨_, if_neg hdomain, rfl, hsparse, Nat.not_le.1 hdomain, hv⟩

/-- **Choosing the form anew gives the one of the set.** -/
theorem optimized_clean (h : Clean len A words) : ∃ s, optimized ⟨len, .bitmap words⟩ = some s ∧ Represents len A s := by
  have hsel : selected ⟨len, .bitmap words⟩ = (rows len A).length := by rw [selected_bitmap, h.members_eq]
  unfold optimized
  rw [hsel]
  by_cases hd : dense (rows len A).length len = true
  · exact ⟨_, if_pos hd, rfl, hd, h⟩
  · rw [if_neg hd]
    refine represents_sparse (Bool.eq_false_iff.2 hd) ?_
    rw [toIndices_bitmap, h.members_eq, map_toNat_ofNat fun p hp => lt_of_mem_rows hlen hp]

theorem fromBitmap_eq (words : List UInt64) : ∃ s, fromBitmap len words = some s ∧
    Represents len ((Finset.range len).filter (fun p => bit words p = true)) s := by
  refine optimized_clean hlen (clean_clearTail ?_ fun p hp => ?_)
  · rw [List.length_append, List.length_take, List.length_replicate]
    omega
  · have hword : p / 64 < wordsFor len := by
      have := length_wordsFor len
      omega
    rw [bit_append_zeros, bit_take hword]
    simp [hp]

theorem fromBitmap_clean (h : Clean len A words) : ∃ s, fromBitmap len words = some s ∧ Represents len A s := by
  refine optimized_clean hlen (clean_clearTail ?_ fun p hp => ?_)
  · rw [h.length, List.take_of_length_le (Nat.le_of_eq h.length), Nat.sub_self, List.replicate_zero, List.append_nil, h.length]
  · rw [bit_append_zeros, List.take_of_length_le (Nat.le_of_eq h.length), h.bits]
    simp [hp]

theorem fromIndices_eq {indices : List UInt32} (h : ∀ i ∈ indices, i.toNat < len) :
    ∃ s, fromIndices len indices = some s ∧ Represents len (indices.map UInt32.toNat).toFinset s := by
  have hmem : ∀ p, p ∈ indices.map UInt32.toNat ↔ p < len ∧ p ∈ (indices.map UInt32.toNat).toFinset := fun p => by
    rw [List.mem_toFinset]
    refine ⟨fun hp => ⟨?_, hp⟩, And.right⟩
    obtain ⟨i, hi, rfl⟩ := List.mem_map.1 hp
    exact h i hi
  obtain ⟨words, heq, hclean⟩ := setBits_zeros hmem
  rw [fromIndices, if_pos (by simpa using h), heq]
  exact fromBitmap_clean hlen hclean

omit hlen in
theorem fromSortedIndices_eq {sorted : List UInt32} (h : sorted.map UInt32.toNat = rows len A) :
    ∃ s, fromSortedIndices len sorted = some s ∧ Represents len A s := by
  have hlength : sorted.length = (rows len A).length := by rw [← h, List.length_map]
  unfold fromSortedIndices
  rw [hlength]
  by_cases hd : dense (rows len A).length len = true
  · obtain ⟨words, heq, hclean⟩ := setBits_zeros (A := A) (fun p => by rw [h]; exact mem_rows)
    rw [if_pos hd, heq]
    exact ⟨_, rfl, rfl, hd, hclean⟩
  · rw [if_neg hd]
    exact represents_sparse (Bool.eq_false_iff.2 hd) h

/-! ## The operations -/

theorem Represents.toBitmap (h : Represents len A s) : ∃ words, s.toBitmap = some words ∧ Clean len A words := by
  have hrows := h.toIndices hlen
  obtain ⟨l, words | v | v⟩ := s
  · exact ⟨words, rfl, h.2.2⟩
  · obtain ⟨rfl, -⟩ := h
    exact setBits_zeros (fun p => by rw [hrows]; exact mem_rows)
  · obtain ⟨rfl, -⟩ := h
    exact setBits_zeros (fun p => by rw [hrows]; exact mem_rows)

omit hlen in
theorem Represents.len_eq (h : Represents len A s) : s.len = len := by
  obtain ⟨l, words | v | v⟩ := s <;> exact h.1

/-- **An operation on words is the operation on sets.** -/
theorem zipWords_eq {op : UInt64 → UInt64 → UInt64} {f : Bool → Bool → Bool} {C : Finset Nat} (hf : f false false = false)
    (hop : ∀ x y j, j < 64 → (op x y).toBitVec.getLsbD j = f (x.toBitVec.getLsbD j) (y.toBitVec.getLsbD j))
    (hC : ∀ p, f (decide (p ∈ A)) (decide (p ∈ B)) = decide (p ∈ C)) (hs : Represents len A s) (ht : Represents len B t) :
    ∃ u, s.zipWords t op = some u ∧ Represents len C u := by
  obtain ⟨a, ha, hcleanA⟩ := hs.toBitmap hlen
  obtain ⟨b, hb, hcleanB⟩ := ht.toBitmap hlen
  have hab : a.length = b.length := hcleanA.length.trans hcleanB.length.symm
  rw [zipWords, if_pos (hs.len_eq.trans ht.len_eq.symm), ha, hb, Option.bind_some, Option.bind_some,
    if_pos (Nat.le_of_eq hab), hs.len_eq]
  refine optimized_clean hlen (clean_clearTail ?_ fun p hp => ?_)
  · rw [List.length_zipWith, ← hab, Nat.min_self, hcleanA.length]
  · rw [bit_zipWith op f hf hop hab, hcleanA.bits, hcleanB.bits, ← hC p]
    simp [hp]

theorem or_eq (hs : Represents len A s) (ht : Represents len B t) : ∃ u, s.or t = some u ∧ Represents len (A ∪ B) u :=
  zipWords_eq hlen (f := Bool.or) rfl (fun x y j _ => by rw [UInt64.toBitVec_or, BitVec.getLsbD_or])
    (fun p => by simp [Finset.mem_union]) hs ht

theorem not_eq (hs : Represents len A s) : ∃ u, s.not = some u ∧ Represents len (Finset.range len \ A) u := by
  obtain ⟨words, hw, hclean⟩ := hs.toBitmap hlen
  rw [SelectionVector.not, hw, Option.bind_some, hs.len_eq]
  refine optimized_clean hlen (clean_clearTail ?_ fun p hp => ?_)
  · rw [List.length_map, hclean.length]
  · have hword : p < 64 * words.length := by
      have := length_wordsFor len
      rw [hclean.length]
      omega
    rw [bit_complement hword, hclean.bits]
    simp [hp]

omit hlen in
theorem mem_of_mem_merge : ∀ {a b : List UInt32} {x : UInt32}, x ∈ merge a b → x ∈ a ∧ x ∈ b := by
  intro a b
  fun_induction merge a b with
  | case1 => simp
  | case2 => simp
  | case3 x a y b _ ih => exact fun h => ⟨List.mem_cons_of_mem x (ih h).1, (ih h).2⟩
  | case4 x a y b _ _ ih => exact fun h => ⟨(ih h).1, List.mem_cons_of_mem y (ih h).2⟩
  | case5 x a y b hxy hyx ih =>
    obtain rfl : x = y := UInt32.le_antisymm (UInt32.not_lt.1 hyx) (UInt32.not_lt.1 hxy)
    intro z hz
    rcases List.mem_cons.1 hz with rfl | hz
    · exact ⟨List.mem_cons_self, List.mem_cons_self⟩
    · exact ⟨List.mem_cons_of_mem x (ih hz).1, List.mem_cons_of_mem x (ih hz).2⟩

omit hlen in
/-- Nothing is lost in the merge, since what is passed over is below the other head. -/
theorem mem_merge : ∀ {a b : List UInt32}, a.Pairwise (· < ·) → b.Pairwise (· < ·) → ∀ {z : UInt32}, z ∈ a → z ∈ b →
    z ∈ merge a b := by
  intro a b
  fun_induction merge a b with
  | case1 => exact fun _ _ _ ha _ => absurd ha List.not_mem_nil
  | case2 => exact fun _ _ _ _ hb => absurd hb List.not_mem_nil
  | case3 x a y b hxy ih =>
    intro ha hb z hza hzb
    rcases List.mem_cons.1 hza with rfl | hza
    · rcases List.mem_cons.1 hzb with rfl | hzb
      · exact absurd hxy (UInt32.lt_irrefl _)
      · exact absurd (UInt32.lt_trans hxy (List.rel_of_pairwise_cons hb hzb)) (UInt32.lt_irrefl _)
    · exact ih ha.of_cons hb hza hzb
  | case4 x a y b _ hyx ih =>
    intro ha hb z hza hzb
    rcases List.mem_cons.1 hzb with rfl | hzb
    · rcases List.mem_cons.1 hza with rfl | hza
      · exact absurd hyx (UInt32.lt_irrefl _)
      · exact absurd (UInt32.lt_trans hyx (List.rel_of_pairwise_cons ha hza)) (UInt32.lt_irrefl _)
    · exact ih ha hb.of_cons hza hzb
  | case5 x a y b hxy hyx ih =>
    obtain rfl : x = y := UInt32.le_antisymm (UInt32.not_lt.1 hyx) (UInt32.not_lt.1 hxy)
    intro ha hb z hza hzb
    rcases List.mem_cons.1 hza with rfl | hza
    · exact List.mem_cons_self
    · rcases List.mem_cons.1 hzb with rfl | hzb
      · exact List.mem_cons_self
      · exact List.mem_cons_of_mem _ (ih ha.of_cons hb.of_cons hza hzb)

omit hlen in
theorem pairwise_merge : ∀ {a b : List UInt32}, a.Pairwise (· < ·) → (merge a b).Pairwise (· < ·) := by
  intro a b
  fun_induction merge a b with
  | case1 => exact fun _ => .nil
  | case2 => exact fun _ => .nil
  | case3 x a y b _ ih => exact fun ha => ih ha.of_cons
  | case4 x a y b _ _ ih => exact ih
  | case5 x a y b _ _ ih =>
    exact fun ha => .cons (fun z hz => List.rel_of_pairwise_cons ha (mem_of_mem_merge hz).1) (ih ha.of_cons)

omit hlen in
theorem pairwise_of_map {v : List UInt32} (h : (v.map UInt32.toNat).Pairwise (· < ·)) : v.Pairwise (· < ·) :=
  (List.pairwise_map.1 h).imp UInt32.lt_iff_toNat_lt.2

theorem merge_rows (hs : Represents len A s) (ht : Represents len B t) :
    (merge s.toIndices t.toIndices).map UInt32.toNat = rows len (A ∩ B) := by
  have hrows := hs.toIndices hlen
  have hrows' := ht.toIndices hlen
  have ha : s.toIndices.Pairwise (· < ·) := pairwise_of_map (hrows ▸ rows_pairwise len A)
  have hb : t.toIndices.Pairwise (· < ·) := pairwise_of_map (hrows' ▸ rows_pairwise len B)
  refine eq_rows (List.pairwise_map.2 ((pairwise_merge ha).imp UInt32.lt_iff_toNat_lt.1)) fun p => ?_
  rw [Finset.mem_inter]
  constructor
  · intro hp
    obtain ⟨x, hx, rfl⟩ := List.mem_map.1 hp
    have hA := mem_rows.1 (hrows ▸ List.mem_map_of_mem (mem_of_mem_merge hx).1)
    have hB := mem_rows.1 (hrows' ▸ List.mem_map_of_mem (mem_of_mem_merge hx).2)
    exact ⟨hA.1, hA.2, hB.2⟩
  · rintro ⟨hp, hA, hB⟩
    obtain ⟨x, hx, rfl⟩ := List.mem_map.1 (hrows.symm ▸ mem_rows.2 ⟨hp, hA⟩)
    obtain ⟨y, hy, hxy⟩ := List.mem_map.1 (hrows'.symm ▸ mem_rows.2 ⟨hp, hB⟩)
    rw [UInt32.toNat_inj.1 hxy] at hy
    exact List.mem_map_of_mem (mem_merge ha hb hx hy)

theorem and_eq (hs : Represents len A s) (ht : Represents len B t) : ∃ u, s.and t = some u ∧ Represents len (A ∩ B) u := by
  rw [SelectionVector.and, if_pos (hs.len_eq.trans ht.len_eq.symm)]
  by_cases hsparse : (s.isIndex && t.isIndex) = true
  · rw [if_pos hsparse, hs.len_eq]
    exact fromSortedIndices_eq (merge_rows hlen hs ht)
  · rw [if_neg hsparse]
    exact zipWords_eq hlen (f := Bool.and) rfl (fun x y j _ => by rw [UInt64.toBitVec_and, BitVec.getLsbD_and])
      (fun p => by simp [Finset.mem_inter]) hs ht

omit hlen

/-! ## Expressions -/

/-- How selections are built. -/
inductive Expr where
  | indices (l : List UInt32)
  | bitmap (words : List UInt64)
  | sorted (l : List UInt32)
  | and (a b : Expr)
  | or (a b : Expr)
  | not (a : Expr)

def Expr.eval (len : Nat) : Expr → Option SelectionVector
  | indices l => fromIndices len l
  | bitmap words => fromBitmap len words
  | sorted l => fromSortedIndices len l
  | and a b => (a.eval len).bind fun s => (b.eval len).bind fun t => s.and t
  | or a b => (a.eval len).bind fun s => (b.eval len).bind fun t => s.or t
  | not a => (a.eval len).bind SelectionVector.not

/-- The set an expression stands for. -/
def Expr.denote (len : Nat) : Expr → Finset Nat
  | indices l => (l.map UInt32.toNat).toFinset
  | bitmap words => (Finset.range len).filter (fun p => bit words p = true)
  | sorted l => (l.map UInt32.toNat).toFinset
  | and a b => a.denote len ∩ b.denote len
  | or a b => a.denote len ∪ b.denote len
  | not a => Finset.range len \ a.denote len

/-- The indices lie in the domain, and where they have to be sorted they are. -/
def Expr.Valid (len : Nat) : Expr → Prop
  | indices l => ∀ i ∈ l, i.toNat < len
  | bitmap _ => True
  | sorted l => l.Pairwise (· < ·) ∧ ∀ i ∈ l, i.toNat < len
  | and a b => a.Valid len ∧ b.Valid len
  | or a b => a.Valid len ∧ b.Valid len
  | not a => a.Valid len

/-- **An expression gives the form of its set.** -/
theorem Expr.represents (hlen : len ≤ 2 ^ 32) : ∀ {e : Expr}, e.Valid len →
    ∃ s, e.eval len = some s ∧ Represents len (e.denote len) s
  | indices l, h => fromIndices_eq hlen h
  | bitmap words, _ => fromBitmap_eq hlen words
  | sorted l, h => by
    refine fromSortedIndices_eq (eq_rows (List.pairwise_map.2 (h.1.imp UInt32.lt_iff_toNat_lt.1)) fun p => ?_)
    rw [denote, List.mem_toFinset]
    refine ⟨fun hp => ⟨?_, hp⟩, And.right⟩
    obtain ⟨i, hi, rfl⟩ := List.mem_map.1 hp
    exact h.2 i hi
  | and a b, h => by
    obtain ⟨s, hs, hrs⟩ := a.represents hlen h.1
    obtain ⟨t, ht, hrt⟩ := b.represents hlen h.2
    rw [eval, hs, ht]
    exact and_eq hlen hrs hrt
  | or a b, h => by
    obtain ⟨s, hs, hrs⟩ := a.represents hlen h.1
    obtain ⟨t, ht, hrt⟩ := b.represents hlen h.2
    rw [eval, hs, ht]
    exact or_eq hlen hrs hrt
  | not a, h => by
    obtain ⟨s, hs, hrs⟩ := a.represents hlen h
    rw [eval, hs]
    exact not_eq hlen hrs

theorem Expr.lt_of_mem_denote : ∀ {e : Expr} {p : Nat}, e.Valid len → p ∈ e.denote len → p < len
  | indices l, p, h, hp => by
    obtain ⟨i, hi, rfl⟩ := List.mem_map.1 (List.mem_toFinset.1 hp)
    exact h i hi
  | bitmap _, _, _, hp => Finset.mem_range.1 (Finset.mem_filter.1 hp).1
  | sorted l, p, h, hp => by
    obtain ⟨i, hi, rfl⟩ := List.mem_map.1 (List.mem_toFinset.1 hp)
    exact h.2 i hi
  | and a _, _, h, hp => a.lt_of_mem_denote h.1 (Finset.mem_inter.1 hp).1
  | or a b, _, h, hp => (Finset.mem_union.1 hp).elim (a.lt_of_mem_denote h.1) (b.lt_of_mem_denote h.2)
  | not _, _, _, hp => Finset.mem_range.1 (Finset.mem_sdiff.1 hp).1

/-- **Selections are set algebra with one form for each set**: what an expression builds has the numbers of its set, in order,
and two expressions build equal selections exactly if they stand for the same set. -/
theorem selection_algebra (hlen : len ≤ 2 ^ 32) {e : Expr} (he : e.Valid len) :
    ∃ s, e.eval len = some s ∧ s.toIndices.Pairwise (· < ·) ∧ (∀ i ∈ s.toIndices, i.toNat < len) ∧
      (∀ p, p ∈ s.toIndices.map UInt32.toNat ↔ p ∈ e.denote len) ∧
      ∀ e' : Expr, e'.Valid len → ∀ s', e'.eval len = some s' → (s = s' ↔ e.denote len = e'.denote len) := by
  obtain ⟨s, hs, hrep⟩ := e.represents hlen he
  have hrows := hrep.toIndices hlen
  have hmem : ∀ p, p ∈ s.toIndices.map UInt32.toNat ↔ p ∈ e.denote len := fun p => by
    rw [hrows, mem_rows]
    exact ⟨And.right, fun hp => ⟨e.lt_of_mem_denote he hp, hp⟩⟩
  refine ⟨s, hs, pairwise_of_map (hrows ▸ rows_pairwise len _), fun i hi => ?_, hmem, fun e' he' s' hs' => ?_⟩
  · exact e.lt_of_mem_denote he ((hmem _).1 (List.mem_map_of_mem hi))
  · obtain ⟨t, ht, hrep'⟩ := e'.represents hlen he'
    obtain rfl : t = s' := Option.some.inj (ht.symm.trans hs')
    constructor
    · rintro rfl
      have hsame : rows len (e.denote len) = rows len (e'.denote len) := hrows.symm.trans (hrep'.toIndices hlen)
      refine Finset.ext fun p => ⟨fun hp => ?_, fun hp => ?_⟩
      · exact (mem_rows.1 (hsame ▸ mem_rows.2 ⟨e.lt_of_mem_denote he hp, hp⟩)).2
      · exact (mem_rows.1 (hsame.symm ▸ mem_rows.2 ⟨e'.lt_of_mem_denote he' hp, hp⟩)).2
    · intro hsame
      rw [← hsame] at hrep'
      exact hrep.unique hrep'

/-- Two lists are merged, and the complement in 70 rows has the last word's tail cleared. -/
theorem seventy_rows : ∃ s, (Expr.not (.and (.indices [69, 3]) (.sorted [69]))).eval 70 = some s ∧
    3 ∈ s.toIndices.map UInt32.toNat ∧ 69 ∉ s.toIndices.map UInt32.toNat ∧ 70 ∉ s.toIndices.map UInt32.toNat := by
  obtain ⟨s, hs, -, -, hmem, -⟩ := @selection_algebra 70 (by decide)
    (.not (.and (.indices [69, 3]) (.sorted [69]))) (by simp [Expr.Valid])
  exact ⟨s, hs, (hmem 3).2 (by decide), fun h => absurd ((hmem 69).1 h) (by decide), fun h => absurd ((hmem 70).1 h) (by decide)⟩

end Selection
end Heraclitus
