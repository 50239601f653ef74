import Heraclitus.Lib.TopK
import Heraclitus.TextIndex
import Mathlib.Algebra.BigOperators.Group.List.Basic
import Mathlib.Algebra.Order.Field.Basic
import Mathlib.Algebra.Order.BigOperators.Group.List
/-!
# Recall — the ranked text search of the query backend (`heraclitus-query/src/backend.rs`)

One cursor for each word of the query walks the word's postings.  The document at the lowest LSN is scored and the cursors that
stand on it advance, until the cursors that are left cannot reach the lowest of the `k` scores kept in a heap.  Scores are exact.
-/
namespace Heraclitus
namespace Recall

variable {R : Type} [Field R] [LinearOrder R]

structure PostingCursor (R : Type) where
  slice : List (Nat × Nat)
  cursor : Nat
  idf : R
  maxTermScore : R

namespace PostingCursor

def new (slice : List (Nat × Nat)) (idf : R) : PostingCursor R :=
  { slice := slice, cursor := 0, idf := idf, maxTermScore := ((slice.map Prod.snd).foldl max 0 : Nat) * idf }

def currentLsn (c : PostingCursor R) : Option Nat := (c.slice[c.cursor]?).map Prod.fst

def currentTf (c : PostingCursor R) : Nat := ((c.slice[c.cursor]?).map Prod.snd).getD 0

def advanceTo (target : Nat) (c : PostingCursor R) : PostingCursor R :=
  { c with cursor := c.cursor + ((c.slice.drop c.cursor).takeWhile (fun e => decide (e.1 < target))).length }

/-- `cursor += 1` where it stands on the pivot. -/
def stepAt (pivot : Nat) (c : PostingCursor R) : PostingCursor R :=
  if c.currentLsn = some pivot then { c with cursor := c.cursor + 1 } else c

end PostingCursor

structure MinScoreEntry (R : Type) where
  score : R
  lsn : Nat

/-- The order in which the heap pops: the lowest score first, among equal ones the lowest LSN. -/
def MinScoreEntry.pops (a b : MinScoreEntry R) : Prop := a.score < b.score ∨ a.score = b.score ∧ a.lsn ≤ b.lsn

instance : DecidableRel (MinScoreEntry.pops (R := R)) := fun a b =>
  inferInstanceAs (Decidable (a.score < b.score ∨ a.score = b.score ∧ a.lsn ≤ b.lsn))

/-- The locals of the search loop; the heap is listed in the order in which it pops. -/
structure Search (R : Type) where
  cursors : List (PostingCursor R)
  topK : List (MinScoreEntry R) := []
  scores : SortedMap Nat R := .empty
  threshold : R

def PostingCursor.lower (m : Option Nat) (c : PostingCursor R) : Option Nat :=
  match c.currentLsn with
  | none => m
  | some l => some (m.elim l (fun m => min m l))

/-- The lowest current LSN. -/
def minLsn (cursors : List (PostingCursor R)) : Option Nat := cursors.foldl PostingCursor.lower none

/-- The upper bounds of the live cursors are added until they reach the threshold. -/
def metThreshold (threshold : R) : List (PostingCursor R) → R → Bool
  | [], _ => false
  | c :: cursors, bound =>
    if c.currentLsn.isSome then
      if threshold ≤ bound + c.maxTermScore then true else metThreshold threshold cursors (bound + c.maxTermScore)
    else metThreshold threshold cursors bound

def totalScore (pivot : Nat) (cursors : List (PostingCursor R)) : R :=
  cursors.foldl (fun t c => if c.currentLsn = some pivot then t + c.currentTf * c.idf else t) 0

/-- The scored document enters the heap or not; `none` is the `unwrap` of a `peek` into an empty heap. -/
def offer (k : Nat) (heap : List (MinScoreEntry R)) (entry : MinScoreEntry R) : Option (List (MinScoreEntry R)) :=
  if heap.length < k then some (heap.orderedInsert MinScoreEntry.pops entry)
  else
    match heap with
    | [] => none
    | low :: rest => some (if low.score < entry.score then rest.orderedInsert MinScoreEntry.pops entry else low :: rest)

/-- `current_threshold` after the document: again a `peek` that is unwrapped. -/
def thresholdOf (k : Nat) (heap : List (MinScoreEntry R)) : Option R :=
  if k ≤ heap.length then heap.head?.map MinScoreEntry.score else some 0

inductive Turn (R : Type) where
  | done
  | panicked
  | next (s : Search R)

/-- One turn of the loop. -/
def turn (k : Nat) (s : Search R) : Turn R :=
  match minLsn s.cursors with
  | none => .done
  | some pivot =>
    if metThreshold s.threshold s.cursors 0 then
      if s.cursors.any (fun c => decide (c.currentLsn = some pivot)) then
        match offer k s.topK ⟨totalScore pivot s.cursors, pivot⟩ with
        | none => .panicked
        | some heap =>
          match thresholdOf k heap with
          | none => .panicked
          | some threshold =>
            .next { cursors := s.cursors.map (PostingCursor.stepAt pivot), topK := heap
                    scores := s.scores.insert pivot (totalScore pivot s.cursors), threshold := threshold }
      else .next { s with cursors := s.cursors.map (PostingCursor.advanceTo (pivot + 1)) }
    else .done

/-- `sort_by` of the candidates: the highest score first, among equal ones the highest LSN. -/
def candidateLe (a b : Nat × R) : Bool := decide (b.2 < a.2) || (decide (a.2 = b.2) && decide (b.1 ≤ a.1))

/-- The postings the cursors have not read yet. -/
def remaining (cursors : List (PostingCursor R)) : Nat := (cursors.map (fun c => c.slice.length - c.cursor)).sum

section Turn

omit [Field R] [LinearOrder R]

/-- `m` is the lowest number with `P`, if there is one. -/
def Lowest (P : Nat → Prop) : Option Nat → Prop
  | none => ∀ l, ¬P l
  | some q => P q ∧ ∀ l, P l → q ≤ l

theorem Lowest.congr {P Q : Nat → Prop} (h : ∀ l, P l ↔ Q l) : ∀ {m : Option Nat}, Lowest P m → Lowest Q m
  | none, hm => fun l hl => hm l ((h l).2 hl)
  | some q, hm => ⟨(h q).1 hm.1, fun l hl => hm.2 l ((h l).2 hl)⟩

theorem lowest_lower (P : Nat → Prop) {m : Option Nat} (h : Lowest P m) (c : PostingCursor R) :
    Lowest (fun l => P l ∨ c.currentLsn = some l) (PostingCursor.lower m c) := by
  unfold PostingCursor.lower
  cases hc : c.currentLsn with
  | none => exact h.congr (fun l => by simp)
  | some l =>
    cases m with
    | none =>
      refine ⟨.inr rfl, fun l' hl' => ?_⟩
      rcases hl' with hl' | hl'
      · exact absurd hl' (h l')
      · exact Nat.le_of_eq (Option.some.inj hl')
    | some q =>
      refine ⟨?_, fun l' hl' => ?_⟩
      · rcases Nat.le_total q l with hle | hle
        · exact .inl (by simpa [Nat.min_eq_left hle] using h.1)
        · exact .inr (by simp [Nat.min_eq_right hle])
      · rcases hl' with hl' | hl'
        · exact Nat.le_trans (Nat.min_le_left q l) (h.2 l' hl')
        · exact Nat.le_trans (Nat.min_le_right q l) (Nat.le_of_eq (Option.some.inj hl'))

theorem lowest_foldl : ∀ (cursors : List (PostingCursor R)) (P : Nat → Prop) (m : Option Nat), Lowest P m →
    Lowest (fun l => P l ∨ ∃ c ∈ cursors, c.currentLsn = some l) (cursors.foldl PostingCursor.lower m)
  | [], P, m, h => h.congr (fun l => by simp)
  | c :: cursors, P, m, h => by
    refine (lowest_foldl cursors _ _ (lowest_lower P h c)).congr (fun l => ?_)
    rw [List.exists_mem_cons_iff, or_assoc]

/-- **The pivot** is the lowest LSN a cursor stands on. -/
theorem lowest_minLsn (cursors : List (PostingCursor R)) :
    Lowest (fun l => ∃ c ∈ cursors, c.currentLsn = some l) (minLsn cursors) :=
  (lowest_foldl cursors (fun _ => False) none (fun _ h => h)).congr (fun l => by simp)

theorem PostingCursor.cursor_lt {c : PostingCursor R} {l : Nat} (h : c.currentLsn = some l) : c.cursor < c.slice.length := by
  obtain ⟨e, he, -⟩ := Option.map_eq_some_iff.1 h
  exact (List.getElem?_eq_some_iff.1 he).1

theorem exists_on_pivot {cursors : List (PostingCursor R)} {pivot : Nat} (h : minLsn cursors = some pivot) :
    ∃ c ∈ cursors, c.currentLsn = some pivot := by
  have hlow := lowest_minLsn cursors
  rw [h] at hlow
  exact hlow.1

theorem minLsn_le {cursors : List (PostingCursor R)} {q : Nat} (h : minLsn cursors = some q) {c : PostingCursor R}
    (hc : c ∈ cursors) (l : Nat) (hlsn : c.currentLsn = some l) : q ≤ l := by
  have hlow := lowest_minLsn cursors
  rw [h] at hlow
  exact hlow.2 l ⟨c, hc, hlsn⟩

theorem minLsn_none {cursors : List (PostingCursor R)} (h : minLsn cursors = none) {c : PostingCursor R}
    (hc : c ∈ cursors) : c.currentLsn = none := by
  have hlow := lowest_minLsn cursors
  rw [h] at hlow
  exact Option.eq_none_iff_forall_ne_some.2 (fun l hl => hlow l ⟨c, hc, hl⟩)

/-- The cursors that stand on the pivot have read one more posting. -/
theorem remaining_stepAt {cursors : List (PostingCursor R)} {pivot : Nat} (h : ∃ c ∈ cursors, c.currentLsn = some pivot) :
    remaining (cursors.map (PostingCursor.stepAt pivot)) < remaining cursors := by
  have hle : ∀ c : PostingCursor R, (c.stepAt pivot).slice.length - (c.stepAt pivot).cursor ≤ c.slice.length - c.cursor := by
    intro c
    unfold PostingCursor.stepAt
    split
    · exact Nat.sub_le_sub_left (Nat.le_succ _) _
    · exact Nat.le_refl _
  obtain ⟨c, hc, hon⟩ := h
  unfold remaining
  rw [List.map_map]
  refine List.sum_lt_sum _ _ (fun c _ => hle c) ⟨c, hc, ?_⟩
  have := PostingCursor.cursor_lt hon
  simp only [Function.comp_apply, PostingCursor.stepAt, if_pos hon]
  omega

end Turn

/-- A turn in which the document at the pivot is scored. -/
structure Evaluates (k : Nat) (s : Search R) (pivot : Nat) (s' : Search R) : Prop where
  lowest : minLsn s.cursors = some pivot
  met : metThreshold s.threshold s.cursors 0 = true
  offered : offer k s.topK ⟨totalScore pivot s.cursors, pivot⟩ = some s'.topK
  threshold : thresholdOf k s'.topK = some s'.threshold
  cursors : s'.cursors = s.cursors.map (PostingCursor.stepAt pivot)
  scores : s'.scores = s.scores.insert pivot (totalScore pivot s.cursors)

/-- A turn that goes on has scored a document: the branch that only advances is never taken. -/
theorem turn_next {k : Nat} {s s' : Search R} (h : turn k s = .next s') : ∃ pivot, Evaluates k s pivot s' := by
  unfold turn at h
  split at h
  · cases h
  · rename_i pivot hpivot
    have hany : s.cursors.any (fun c => decide (c.currentLsn = some pivot)) = true := by
      obtain ⟨c, hc, hon⟩ := exists_on_pivot hpivot
      exact List.any_eq_true.2 ⟨c, hc, decide_eq_true hon⟩
    rw [if_pos hany] at h
    split at h
    · rename_i hmet
      split at h
      · cases h
      · rename_i heap hoffer
        split at h
        · cases h
        · rename_i threshold hthr
          cases h
          exact ⟨pivot, hpivot, hmet, hoffer, hthr, rfl, rfl⟩
    · cases h

theorem turn_done {k : Nat} {s : Search R} (h : turn k s = .done) :
    minLsn s.cursors = none ∨ metThreshold s.threshold s.cursors 0 = false := by
  unfold turn at h
  split at h
  · rename_i hnone
    exact .inl hnone
  · split at h
    · split at h
      · split at h
        · cases h
        · split at h <;> cases h
      · cases h
    · rename_i hmet
      exact .inr (Bool.eq_false_iff.2 hmet)

omit [Field R] in
theorem offer_eq_none {k : Nat} {heap : List (MinScoreEntry R)} {entry : MinScoreEntry R} (h : offer k heap entry = none) :
    k = 0 := by
  unfold offer at h
  split at h
  · cases h
  · rename_i hlen
    split at h
    · exact Nat.le_zero.1 (Nat.not_lt.1 hlen)
    · cases h

omit [LinearOrder R] in
theorem thresholdOf_eq_none {k : Nat} {heap : List (MinScoreEntry R)} (h : thresholdOf k heap = none) : k = 0 := by
  unfold thresholdOf at h
  split at h
  · rename_i hlen
    rw [Option.map_eq_none_iff, List.head?_eq_none_iff] at h
    rw [h] at hlen
    exact Nat.le_zero.1 hlen
  · cases h

/-- **Only a search for no result at all can panic.** -/
theorem turn_panicked {k : Nat} {s : Search R} (h : turn k s = .panicked) : k = 0 := by
  unfold turn at h
  split at h
  · cases h
  · split at h
    · split at h
      · split at h
        · rename_i hoffer
          exact offer_eq_none hoffer
        · split at h
          · rename_i hthr
            exact thresholdOf_eq_none hthr
          · cases h
      · cases h
    · cases h

/-- And it does, at the first document it scores. -/
theorem turn_zero {s : Search R} {pivot : Nat} (hlow : minLsn s.cursors = some pivot)
    (hmet : metThreshold s.threshold s.cursors 0 = true) (hempty : s.topK = []) : turn 0 s = .panicked := by
  have hany : s.cursors.any (fun c => decide (c.currentLsn = some pivot)) = true := by
    obtain ⟨c, hc, hon⟩ := exists_on_pivot hlow
    exact List.any_eq_true.2 ⟨c, hc, decide_eq_true hon⟩
  unfold turn
  rw [hlow, hempty]
  dsimp only
  rw [if_pos hmet, if_pos hany]
  rfl

/-- The loop; `none` is a panic. -/
def loop (k : Nat) (s : Search R) : Option (Search R) :=
  match _h : turn k s with
  | .done => some s
  | .panicked => none
  | .next s' => loop k s'
  termination_by remaining s.cursors
  decreasing_by
    obtain ⟨pivot, hev⟩ := turn_next _h
    rw [hev.cursors]
    exact remaining_stepAt (exists_on_pivot hev.lowest)

/-- What a cursor adds to the score of the document at `l`. -/
def PostingCursor.tfAt (l : Nat) (c : PostingCursor R) : Nat := (SortedMap.find l c.slice).getD 0

def scoreAt (cursors : List (PostingCursor R)) (l : Nat) : R := (cursors.map (fun c => (c.tfAt l : R) * c.idf)).sum

/-- A cursor that has read its postings below `p`. -/
structure Reads (p : Nat) (c : PostingCursor R) : Prop where
  sorted : c.slice.Pairwise (fun a b => a.1 < b.1)
  positive : ∀ e ∈ c.slice, 0 < e.2
  bounded : ∀ e ∈ c.slice, (e.2 : R) * c.idf ≤ c.maxTermScore
  idf_pos : 0 < c.idf
  read : ∀ e ∈ c.slice.take c.cursor, e.1 < p
  unread : ∀ e ∈ c.slice.drop c.cursor, p ≤ e.1

section Reads

variable {p l q : Nat} {c : PostingCursor R}

omit [Field R] [LinearOrder R] in
theorem drop_cursor (c : PostingCursor R) : c.currentLsn = none ∧ c.slice.drop c.cursor = [] ∨
    ∃ e rest, c.slice.drop c.cursor = e :: rest ∧ c.slice.drop (c.cursor + 1) = rest
      ∧ c.slice.take (c.cursor + 1) = c.slice.take c.cursor ++ [e] ∧ c.currentLsn = some e.1 ∧ c.currentTf = e.2 := by
  by_cases h : c.cursor < c.slice.length
  · refine .inr ⟨c.slice[c.cursor], c.slice.drop (c.cursor + 1), ?_, rfl, ?_, ?_, ?_⟩
    · exact List.drop_eq_getElem_cons h
    · exact (List.take_append_getElem h).symm
    · rw [PostingCursor.currentLsn, List.getElem?_eq_getElem h]
      rfl
    · rw [PostingCursor.currentTf, List.getElem?_eq_getElem h]
      rfl
  · have hle := Nat.not_lt.1 h
    refine .inl ⟨?_, List.drop_eq_nil_of_le hle⟩
    rw [PostingCursor.currentLsn, List.getElem?_eq_none hle]
    rfl

theorem Reads.mem_unread (h : Reads p c) {e : Nat × Nat} (he : e ∈ c.slice) (hp : p ≤ e.1) :
    e ∈ c.slice.drop c.cursor := by
  rw [← List.take_append_drop c.cursor c.slice, List.mem_append] at he
  exact he.resolve_left (fun hread => absurd (h.read e hread) (Nat.not_lt.2 hp))

theorem Reads.current_le (h : Reads p c) {e : Nat × Nat} (he : e ∈ c.slice.drop c.cursor) :
    ∃ l, c.currentLsn = some l ∧ l ≤ e.1 ∧ (l = e.1 → c.currentTf = e.2) := by
  rcases drop_cursor c with ⟨-, hnil⟩ | ⟨f, rest, hdrop, -, -, hlsn, htf⟩
  · rw [hnil] at he
    cases he
  · have hsorted := h.sorted.sublist (List.drop_sublist c.cursor c.slice)
    rw [hdrop] at he hsorted
    refine ⟨f.1, hlsn, ?_⟩
    rcases List.mem_cons.1 he with rfl | he
    · exact ⟨Nat.le_refl _, fun _ => htf⟩
    · have hlt := (List.pairwise_cons.1 hsorted).1 e he
      exact ⟨Nat.le_of_lt hlt, fun heq => absurd heq (Nat.ne_of_lt hlt)⟩

theorem Reads.mem_of_tfAt (h : Reads p c) (hne : c.tfAt l ≠ 0) : (l, c.tfAt l) ∈ c.slice := by
  unfold PostingCursor.tfAt at hne ⊢
  cases hfind : SortedMap.find l c.slice with
  | none =>
    rw [hfind] at hne
    exact absurd rfl hne
  | some n => exact (SortedMap.find_eq_some h.sorted).1 hfind

/-- **At the lowest LSN the cursors stand on**, a cursor that does not stand there adds nothing. -/
theorem Reads.tfAt_eq (h : Reads p c) (hp : p ≤ l) (hlow : ∀ l', c.currentLsn = some l' → l ≤ l') :
    c.tfAt l = if c.currentLsn = some l then c.currentTf else 0 := by
  by_cases hne : c.tfAt l = 0
  · rw [hne]
    split
    · rename_i hon
      rcases drop_cursor c with ⟨hnone, -⟩ | ⟨e, rest, hdrop, -, -, hlsn, htf⟩
      · rw [hnone] at hon
        cases hon
      · have he : e ∈ c.slice := List.mem_of_mem_drop (hdrop ▸ List.mem_cons_self)
        have hl : e.1 = l := Option.some.inj (hlsn.symm.trans hon)
        have hfind : SortedMap.find l c.slice = some e.2 := (SortedMap.find_eq_some h.sorted).2 (hl ▸ he)
        rw [PostingCursor.tfAt, hfind, Option.getD_some] at hne
        exact absurd (h.positive e he) (by omega)
    · rfl
  · obtain ⟨l', hlsn, hle, htf⟩ := h.current_le (h.mem_unread (h.mem_of_tfAt hne) hp)
    have hl : l' = l := Nat.le_antisymm hle (hlow l' hlsn)
    rw [if_pos (hl ▸ hlsn), htf hl]

theorem Reads.stepAt (h : Reads p c) (hp : p ≤ q) (hlow : ∀ l', c.currentLsn = some l' → q ≤ l') :
    Reads (q + 1) (c.stepAt q) := by
  unfold PostingCursor.stepAt
  split
  · rename_i hon
    rcases drop_cursor c with ⟨hnone, -⟩ | ⟨e, rest, hdrop, hdrop', htake, hlsn, -⟩
    · rw [hnone] at hon
      cases hon
    · have hl : e.1 = q := Option.some.inj (hlsn.symm.trans hon)
      have hsorted := h.sorted.sublist (List.drop_sublist c.cursor c.slice)
      rw [hdrop, List.pairwise_cons] at hsorted
      refine ⟨h.sorted, h.positive, h.bounded, h.idf_pos, fun f hf => ?_, fun f hf => ?_⟩
      · rw [htake] at hf
        rcases List.mem_append.1 hf with hf | hf
        · exact Nat.lt_succ_of_lt (Nat.lt_of_lt_of_le (h.read f hf) hp)
        · rw [List.mem_singleton.1 hf, hl]
          exact Nat.lt_succ_self q
      · rw [hdrop'] at hf
        have := hsorted.1 f hf
        omega
  · rename_i hoff
    refine ⟨h.sorted, h.positive, h.bounded, h.idf_pos, fun f hf => ?_, fun f hf => ?_⟩
    · exact Nat.lt_succ_of_lt (Nat.lt_of_lt_of_le (h.read f hf) hp)
    · obtain ⟨l', hlsn, hle, -⟩ := h.current_le hf
      rcases Nat.eq_or_lt_of_le (hlow l' hlsn) with rfl | hlt
      · exact absurd hlsn hoff
      · exact Nat.lt_of_lt_of_le hlt hle

end Reads

section Scores

variable {p l q : Nat} {cursors : List (PostingCursor R)}

omit [LinearOrder R] in
theorem totalScore_foldl : ∀ (cursors : List (PostingCursor R)) (t : R),
    cursors.foldl (fun t c => if c.currentLsn = some q then t + (c.currentTf : R) * c.idf else t) t
      = t + (cursors.map (fun c => if c.currentLsn = some q then (c.currentTf : R) * c.idf else 0)).sum
  | [], t => (add_zero t).symm
  | c :: cursors, t => by
    rw [List.foldl_cons, totalScore_foldl cursors, List.map_cons, List.sum_cons, ← add_assoc]
    congr 1
    split
    · rfl
    · exact (add_zero t).symm

/-- **The document at the pivot gets its whole score.** -/
theorem totalScore_eq (hreads : ∀ c ∈ cursors, Reads p c) (hp : p ≤ q) (hlow : minLsn cursors = some q) :
    totalScore q cursors = scoreAt cursors q := by
  rw [totalScore, totalScore_foldl, zero_add, scoreAt]
  congr 1
  refine List.map_congr_left (fun c hc => ?_)
  rw [(hreads c hc).tfAt_eq hp (minLsn_le hlow hc)]
  split
  · rfl
  · rw [Nat.cast_zero, zero_mul]

theorem scoreAt_eq_zero (hreads : ∀ c ∈ cursors, Reads p c) (hp : p ≤ l)
    (hlow : ∀ c ∈ cursors, ∀ l', c.currentLsn = some l' → l < l') : scoreAt cursors l = 0 := by
  refine List.sum_eq_zero (fun x hx => ?_)
  obtain ⟨c, hc, rfl⟩ := List.mem_map.1 hx
  rw [(hreads c hc).tfAt_eq hp (fun l' hl' => Nat.le_of_lt (hlow c hc l' hl')),
    if_neg (fun hon => absurd (hlow c hc l hon) (Nat.lt_irrefl l)), Nat.cast_zero, zero_mul]

omit [LinearOrder R] in
theorem scoreAt_stepAt (l : Nat) : scoreAt (cursors.map (PostingCursor.stepAt q)) l = scoreAt cursors l := by
  rw [scoreAt, scoreAt, List.map_map]
  congr 1
  refine List.map_congr_left (fun c _ => ?_)
  simp only [Function.comp_apply, PostingCursor.stepAt]
  split <;> rfl

/-- Where the bounds never reach the threshold, their sum stays below it. -/
theorem sum_lt_of_metThreshold {threshold : R} : ∀ {cursors : List (PostingCursor R)} {bound : R},
    metThreshold threshold cursors bound = false → (bound < threshold ∨ ∃ c ∈ cursors, c.currentLsn.isSome) →
      bound + (cursors.map (fun c => if c.currentLsn.isSome then c.maxTermScore else 0)).sum < threshold
  | [], bound, _, hlive => by
    rw [List.map_nil, List.sum_nil, add_zero]
    exact hlive.resolve_right (fun ⟨c, hc, _⟩ => absurd hc List.not_mem_nil)
  | c :: cursors, bound, h, hlive => by
    unfold metThreshold at h
    rw [List.map_cons, List.sum_cons, ← add_assoc]
    split at h
    · rename_i hc
      split at h
      · cases h
      · rename_i hlt
        rw [if_pos hc]
        exact sum_lt_of_metThreshold h (.inl (not_le.1 hlt))
    · rename_i hc
      rw [if_neg hc, add_zero]
      refine sum_lt_of_metThreshold h (hlive.imp_right (fun ⟨c', hc', hsome⟩ => ?_))
      rcases List.mem_cons.1 hc' with rfl | hc'
      · exact absurd hsome hc
      · exact ⟨c', hc', hsome⟩

variable [IsStrictOrderedRing R]

theorem Reads.term_nonneg {c : PostingCursor R} (h : Reads p c) (l : Nat) : 0 ≤ (c.tfAt l : R) * c.idf :=
  mul_nonneg (Nat.cast_nonneg _) (le_of_lt h.idf_pos)

theorem scoreAt_nonneg (hreads : ∀ c ∈ cursors, Reads p c) (l : Nat) : 0 ≤ scoreAt cursors l := by
  refine List.sum_nonneg (fun x hx => ?_)
  obtain ⟨c, hc, rfl⟩ := List.mem_map.1 hx
  exact (hreads c hc).term_nonneg l

theorem scoreAt_pos (hreads : ∀ c ∈ cursors, Reads p c) (hp : p ≤ q) (hlow : minLsn cursors = some q) :
    0 < scoreAt cursors q := by
  obtain ⟨c, hc, hon⟩ := exists_on_pivot hlow
  have hterm : 0 < (c.tfAt q : R) * c.idf := by
    rw [(hreads c hc).tfAt_eq hp (minLsn_le hlow hc), if_pos hon]
    rcases drop_cursor c with ⟨hnone, -⟩ | ⟨e, rest, hdrop, -, -, -, htf⟩
    · rw [hnone] at hon
      cases hon
    · rw [htf]
      refine mul_pos (Nat.cast_pos.2 ?_) (hreads c hc).idf_pos
      exact (hreads c hc).positive e (List.mem_of_mem_drop (hdrop ▸ List.mem_cons_self))
  refine lt_of_lt_of_le hterm (List.single_le_sum (fun x hx => ?_) _ (List.mem_map_of_mem hc))
  obtain ⟨c', hc', rfl⟩ := List.mem_map.1 hx
  exact (hreads c' hc').term_nonneg q

/-- **The bound of a term**: what a cursor can still add is at most its highest term score, and nothing once it is exhausted. -/
theorem Reads.term_le {c : PostingCursor R} (h : Reads p c) (hp : p ≤ l) :
    (c.tfAt l : R) * c.idf ≤ if c.currentLsn.isSome then c.maxTermScore else 0 := by
  by_cases hne : c.tfAt l = 0
  · rw [hne, Nat.cast_zero, zero_mul]
    split
    · rename_i hsome
      rcases drop_cursor c with ⟨hnone, -⟩ | ⟨e, rest, hdrop, -⟩
      · rw [hnone] at hsome
        cases hsome
      · have he : e ∈ c.slice := List.mem_of_mem_drop (hdrop ▸ List.mem_cons_self)
        exact le_trans (mul_nonneg (Nat.cast_nonneg _) (le_of_lt h.idf_pos)) (h.bounded e he)
    · exact le_refl _
  · have hmem := h.mem_of_tfAt hne
    obtain ⟨l', hlsn, -⟩ := h.current_le (h.mem_unread hmem hp)
    rw [hlsn, Option.isSome_some, if_pos rfl]
    exact h.bounded _ hmem

/-- **The search stops only when no document that is left reaches the threshold.** -/
theorem scoreAt_lt_threshold {threshold : R} (hreads : ∀ c ∈ cursors, Reads p c) (hlow : minLsn cursors = some q)
    (hmet : metThreshold threshold cursors 0 = false) (hl : p ≤ l) : scoreAt cursors l < threshold := by
  obtain ⟨c, hc, hon⟩ := exists_on_pivot hlow
  have hsum := sum_lt_of_metThreshold hmet (.inr ⟨c, hc, hon ▸ rfl⟩)
  rw [zero_add] at hsum
  exact lt_of_le_of_lt (List.sum_le_sum (fun c hc => (hreads c hc).term_le hl)) hsum

end Scores

section Heap

omit [Field R]

instance : Std.Total (MinScoreEntry.pops (R := R)) where
  total a b := by
    rcases lt_trichotomy a.score b.score with h | h | h
    · exact .inl (.inl h)
    · exact (Nat.le_total a.lsn b.lsn).imp (fun hle => .inr ⟨h, hle⟩) (fun hle => .inr ⟨h.symm, hle⟩)
    · exact .inr (.inl h)

instance : IsTrans (MinScoreEntry R) MinScoreEntry.pops where
  trans a b c hab hbc := by
    rcases hab with hab | ⟨hab, hlsn⟩
    · rcases hbc with hbc | ⟨hbc, -⟩
      · exact .inl (lt_trans hab hbc)
      · exact .inl (hbc ▸ hab)
    · rcases hbc with hbc | ⟨hbc, hlsn'⟩
      · exact .inl (hab ▸ hbc)
      · exact .inr ⟨hab.trans hbc, Nat.le_trans hlsn hlsn'⟩

theorem MinScoreEntry.pops.score_le {a b : MinScoreEntry R} (h : a.pops b) : a.score ≤ b.score :=
  h.elim le_of_lt (fun h => le_of_eq h.1)

theorem MinScoreEntry.pops.antisymm {a b : MinScoreEntry R} (h : a.pops b) (h' : b.pops a) : a = b := by
  have hscore : a.score = b.score := le_antisymm h.score_le h'.score_le
  have hlsn : a.lsn = b.lsn := by
    refine Nat.le_antisymm ?_ ?_
    · exact (h.resolve_left (fun hlt => absurd hscore (ne_of_lt hlt))).2
    · exact (h'.resolve_left (fun hlt => absurd hscore.symm (ne_of_lt hlt))).2
  cases a
  cases b
  cases hscore
  cases hlsn
  rfl

/-- The candidates are sorted the other way round. -/
theorem candidateLe_iff {a b : Nat × R} :
    candidateLe a b = true ↔ MinScoreEntry.pops ⟨b.2, b.1⟩ ⟨a.2, a.1⟩ := by
  rw [candidateLe, Bool.or_eq_true, Bool.and_eq_true, decide_eq_true_eq, decide_eq_true_eq, decide_eq_true_eq,
    MinScoreEntry.pops, eq_comm (a := a.2)]

theorem compares_candidateLe : Compares (candidateLe (R := R)) where
  trans a b c hab hbc := by
    rw [candidateLe_iff] at hab hbc ⊢
    exact trans_of MinScoreEntry.pops hbc hab
  total a b := by
    rw [Bool.or_eq_true, candidateLe_iff, candidateLe_iff]
    exact total_of MinScoreEntry.pops _ _
  antisymm a b hab hba := by
    rw [candidateLe_iff] at hab hba
    have heq := hba.antisymm hab
    exact Prod.ext (congrArg MinScoreEntry.lsn heq) (congrArg MinScoreEntry.score heq)

/-- The heap may lose its lowest entry, and may gain the new one. -/
theorem offer_spec {k : Nat} {heap heap' : List (MinScoreEntry R)} {entry : MinScoreEntry R}
    (h : offer k heap entry = some heap') :
    ∃ kept, kept.Sublist heap ∧ (heap' = kept ∨ heap' = kept.orderedInsert MinScoreEntry.pops entry) := by
  unfold offer at h
  split at h
  · cases h
    exact ⟨heap, List.Sublist.refl heap, .inr rfl⟩
  · split at h
    · cases h
    · rename_i low rest _
      cases h
      split
      · exact ⟨rest, List.sublist_cons_self low rest, .inr rfl⟩
      · exact ⟨low :: rest, List.Sublist.refl _, .inl rfl⟩

/-- **The heap stays what it is**: in pop order, with one entry a document, every one of them a document that was offered. -/
theorem offer_keeps {k : Nat} {heap heap' : List (MinScoreEntry R)} {entry : MinScoreEntry R}
    (h : offer k heap entry = some heap') (hsorted : heap.Pairwise MinScoreEntry.pops)
    (hdistinct : (heap.map MinScoreEntry.lsn).Nodup) (hfresh : ∀ e ∈ heap, e.lsn ≠ entry.lsn) :
    heap'.Pairwise MinScoreEntry.pops ∧ (heap'.map MinScoreEntry.lsn).Nodup ∧ ∀ e ∈ heap', e = entry ∨ e ∈ heap := by
  obtain ⟨kept, hsub, rfl | rfl⟩ := offer_spec h
  · exact ⟨hsorted.sublist hsub, hdistinct.sublist (hsub.map _), fun e he => .inr (hsub.subset he)⟩
  · refine ⟨(hsorted.sublist hsub).orderedInsert entry _, ?_, fun e he => ?_⟩
    · rw [((List.perm_orderedInsert _ entry kept).map _).nodup_iff, List.map_cons, List.nodup_cons]
      refine ⟨fun hmem => ?_, hdistinct.sublist (hsub.map _)⟩
      obtain ⟨e, he, heq⟩ := List.mem_map.1 hmem
      exact hfresh e (hsub.subset he) heq
    · exact ((List.mem_orderedInsert _).1 he).imp_right (fun hk => hsub.subset hk)

end Heap

theorem le_score_of_mem {k : Nat} {heap : List (MinScoreEntry R)} {threshold : R}
    (hsorted : heap.Pairwise MinScoreEntry.pops) (hthr : thresholdOf k heap = some threshold) (hk : k ≤ heap.length) : ∀ e ∈ heap, threshold ≤ e.score := by
  intro e he
  cases heap with
  | nil => cases he
  | cons low rest =>
    rw [thresholdOf, if_pos hk] at hthr
    cases hthr
    rcases List.mem_cons.1 he with rfl | he
    · exact le_refl _
    · exact ((List.pairwise_cons.1 hsorted).1 e he).score_le

/-- **The state of the search below `p`**: every document below `p` with a positive score has it recorded, and the heap holds some
of them. -/
structure Inv (k : Nat) (value : Nat → R) (p : Nat) (s : Search R) : Prop where
  reads : ∀ c ∈ s.cursors, Reads p c
  score : ∀ l, scoreAt s.cursors l = value l
  scored : ∀ l v, s.scores.get? l = some v ↔ l < p ∧ 0 < v ∧ v = value l
  sorted : s.topK.Pairwise MinScoreEntry.pops
  stored : ∀ e ∈ s.topK, s.scores.get? e.lsn = some e.score
  distinct : (s.topK.map MinScoreEntry.lsn).Nodup
  threshold : thresholdOf k s.topK = some s.threshold

section Run

variable [IsStrictOrderedRing R] {k p : Nat} {value : Nat → R} {s s' : Search R}

omit [IsStrictOrderedRing R] in
theorem Inv.le_pivot (h : Inv k value p s) {pivot : Nat} (hlow : minLsn s.cursors = some pivot) : p ≤ pivot := by
  obtain ⟨c, hc, hon⟩ := exists_on_pivot hlow
  rcases drop_cursor c with ⟨hnone, -⟩ | ⟨e, rest, hdrop, -, -, hlsn, -⟩
  · rw [hnone] at hon
    cases hon
  · rw [← Option.some.inj (hlsn.symm.trans hon)]
    exact (h.reads c hc).unread e (hdrop ▸ List.mem_cons_self)

/-- **A turn of the loop** moves the state of the search past the pivot. -/
theorem Inv.turn (h : Inv k value p s) {pivot : Nat} (hev : Evaluates k s pivot s') : Inv k value (pivot + 1) s' := by
  have hp := h.le_pivot hev.lowest
  have htotal : totalScore pivot s.cursors = value pivot :=
    (totalScore_eq h.reads hp hev.lowest).trans (h.score pivot)
  have hpos : 0 < value pivot := h.score pivot ▸ scoreAt_pos h.reads hp hev.lowest
  have hfresh : ∀ e ∈ s.topK, e.lsn < p := fun e he => ((h.scored e.lsn e.score).1 (h.stored e he)).1
  have hskipped : ∀ l, p ≤ l → l < pivot → value l = 0 := by
    intro l hl hlt
    rw [← h.score l]
    refine scoreAt_eq_zero h.reads hl (fun c hc l' hl' => ?_)
    exact Nat.lt_of_lt_of_le hlt (minLsn_le hev.lowest hc l' hl')
  obtain ⟨hsorted, hdistinct, hfrom⟩ := offer_keeps hev.offered h.sorted h.distinct
    (fun e he => Nat.ne_of_lt (Nat.lt_of_lt_of_le (hfresh e he) hp))
  refine ⟨?_, fun l => ?_, fun l v => ?_, hsorted, fun e he => ?_, hdistinct, hev.threshold⟩
  · rw [hev.cursors, List.forall_mem_map]
    exact fun c hc => (h.reads c hc).stepAt hp (minLsn_le hev.lowest hc)
  · rw [hev.cursors, scoreAt_stepAt, h.score l]
  · rw [hev.scores, SortedMap.get?_insert, htotal]
    by_cases hl : l = pivot
    · subst hl
      rw [if_pos rfl, Option.some.injEq]
      constructor
      · rintro rfl
        exact ⟨Nat.lt_succ_self l, hpos, rfl⟩
      · exact fun hv => hv.2.2.symm
    · rw [if_neg hl, h.scored]
      constructor
      · exact fun hv => ⟨by omega, hv.2⟩
      · rintro ⟨hlt, hv, heq⟩
        refine ⟨Nat.lt_of_not_le (fun hle => ?_), hv, heq⟩
        rw [heq, hskipped l hle (by omega)] at hv
        exact absurd hv (lt_irrefl 0)
  · rw [hev.scores, SortedMap.get?_insert]
    rcases hfrom e he with rfl | he
    · exact if_pos rfl
    · rw [if_neg (Nat.ne_of_lt (Nat.lt_of_lt_of_le (hfresh e he) hp))]
      exact h.stored e he

/-- **The whole loop** ends without a panic as soon as one result is asked for. -/
theorem Inv.loop (hk : 0 < k) (s : Search R) : ∀ {p : Nat}, Inv k value p s →
    ∃ s' p', loop k s = some s' ∧ Inv k value p' s' ∧ Recall.turn k s' = .done := by
  fun_induction Recall.loop k s with
  | case1 s hdone => exact fun h => ⟨s, _, rfl, h, hdone⟩
  | case2 s hpanic => exact absurd (turn_panicked hpanic) (Nat.ne_of_gt hk)
  | case3 s s' hnext ih =>
    intro p h
    obtain ⟨pivot, hev⟩ := turn_next hnext
    exact ih (h.turn hev)

/-- **What is left when the loop ends** cannot change the result: either nothing, or documents that `k` others precede. -/
theorem Inv.done (h : Inv k value p s) (hdone : Recall.turn k s = .done) : (∀ l, p ≤ l → value l = 0) ∨
    (k ≤ s.topK.length ∧ ∀ l, p ≤ l → ∀ e ∈ s.topK, value l < e.score) := by
  rcases turn_done hdone with hnone | hmet
  · refine .inl (fun l hl => ?_)
    rw [← h.score l]
    refine scoreAt_eq_zero h.reads hl (fun c hc l' hl' => ?_)
    rw [minLsn_none hnone hc] at hl'
    cases hl'
  · cases hlow : minLsn s.cursors with
    | none =>
      refine .inl (fun l hl => ?_)
      rw [← h.score l]
      refine scoreAt_eq_zero h.reads hl (fun c hc l' hl' => ?_)
      rw [minLsn_none hlow hc] at hl'
      cases hl'
    | some pivot =>
      have hlt : ∀ l, p ≤ l → value l < s.threshold := fun l hl =>
        h.score l ▸ scoreAt_lt_threshold h.reads hlow hmet hl
      have hfull : k ≤ s.topK.length := by
        by_contra hfree
        have hzero := h.threshold
        rw [thresholdOf, if_neg hfree, Option.some.injEq] at hzero
        have := hlt p (Nat.le_refl p)
        rw [← hzero, ← h.score p] at this
        exact absurd (scoreAt_nonneg h.reads p) (not_le.2 this)
      exact .inr ⟨hfull, fun l hl e he =>
        lt_of_lt_of_le (hlt l hl) (le_score_of_mem h.sorted h.threshold hfull e he)⟩

/-- **Early termination drops no result.** -/
theorem Inv.best_eq (h : Inv k value p s) (hdone : Recall.turn k s = .done) {all : List (Nat × R)} (hnodup : all.Nodup)
    (hall : ∀ x, x ∈ all ↔ 0 < x.2 ∧ x.2 = value x.1) :
    best candidateLe k s.scores.entries = best candidateLe k all := by
  have hperm : s.scores.entries.Perm (all.filter (fun x => decide (x.1 < p))) := by
    have hentries : s.scores.entries.Nodup := s.scores.sorted.imp (fun hlt heq => absurd (heq ▸ hlt) (Nat.lt_irrefl _))
    refine (List.perm_ext_iff_of_nodup hentries (hnodup.filter _)).2 (fun x => ?_)
    rw [← SortedMap.get?_eq_some, h.scored, List.mem_filter, hall, decide_eq_true_eq, and_comm]
  rw [best_perm compares_candidateLe hperm]
  rcases h.done hdone with hzero | ⟨hfull, hlt⟩
  · rw [List.filter_eq_self.2]
    intro x hx
    obtain ⟨hpos, heq⟩ := (hall x).1 hx
    refine decide_eq_true (Nat.lt_of_not_le (fun hle => ?_))
    rw [heq, hzero x.1 hle] at hpos
    exact absurd hpos (lt_irrefl 0)
  · refine best_filter compares_candidateLe (s.topK.map (fun e => (e.lsn, e.score))) ?_ ?_ ?_ ?_
    · refine List.Nodup.of_map Prod.fst ?_
      rw [List.map_map]
      exact h.distinct
    · intro x hx
      obtain ⟨e, he, rfl⟩ := List.mem_map.1 hx
      exact (hall _).2 ((h.scored _ _).1 (h.stored e he)).2
    · rw [List.length_map]
      exact hfull
    · intro x hx y hy hyp
      obtain ⟨e, he, rfl⟩ := List.mem_map.1 hx
      have hle : p ≤ y.1 := Nat.le_of_not_lt (of_decide_eq_false hyp)
      have hworse : y.2 < e.score := ((hall y).1 hy).2 ▸ hlt y.1 hle e he
      simp [candidateLe, not_lt.2 (le_of_lt hworse), ne_of_lt hworse]

end Run

end Recall
end Heraclitus
