import Heraclitus.Lib.Extrema
import Heraclitus.Recall
import Mathlib.Analysis.SpecialFunctions.Log.Basic
/-!
# RecallExact — the whole of `recall` against scoring every document (`heraclitus-query/src/backend.rs`)

The search answers what sorting all the scored documents answers, except that it asks an empty heap for its lowest entry when no
result is wanted, and that it makes room for as many entries as results are wanted.
-/
namespace Heraclitus
namespace Recall

variable {R : Type} [Field R] [LinearOrder R] {env : TextEnv}

/-- `&postings[..idx]`, where `idx` is what the binary search for the bound answers. -/
def activeSlice (postings : List (Nat × Nat)) (bound : Nat) : List (Nat × Nat) :=
  postings.take (match searchFirst (postings.map Prod.fst) bound with
    | .ok found => found
    | .error ins => ins)

/-- `(1.0 + ((total_docs - df + 0.5) / (df + 0.5))).ln().max(0.0001)`. -/
def idfOf (ln : R → R) (totalDocs df : Nat) : R :=
  max (ln (1 + ((totalDocs : R) - df + 1 / 2) / (df + 1 / 2))) (1 / 10000)

def cursorFor (ln : R → R) (t : TextInvertedIndex) (bound : Nat) (token : Str) : Option (PostingCursor R) :=
  match t.invertedText.get? token with
  | none => none
  | some postings =>
    if (activeSlice postings bound).isEmpty then none
    else
      some (PostingCursor.new (activeSlice postings bound)
        (idfOf ln (max t.totalDocs 1) (activeSlice postings bound).length))

/-- `BinaryHeap::with_capacity(k)` has room: sixteen bytes an entry, `isize::MAX` bytes at most. -/
def hasCapacity (k : Nat) : Prop := 16 * k ≤ 2 ^ 63 - 1

instance (k : Nat) : Decidable (hasCapacity k) := inferInstanceAs (Decidable (16 * k ≤ 2 ^ 63 - 1))

/-- `LogBackend::recall`; `none` is a panic. -/
def LogBackend.recall (be : LogBackend env) (ln : R → R) (text : Str) (k : Nat) (asOf : Option Nat) :
    Option (List (Nat × Episode × R)) :=
  let tokens := env.tokens text
  if tokens.isEmpty then some []
  else
    let cursors := tokens.filterMap (cursorFor ln be.sync.bundle.textIndex (be.resolveAsOfBound asOf))
    if cursors.isEmpty then some []
    else if hasCapacity k then
      (loop k { cursors := cursors, threshold := 0 }).map (fun s =>
        (best candidateLe k s.scores.entries).filterMap (fun c => (be.log[c.1]?).map (fun e => (c.1, e, c.2))))
    else none

variable (env)

/-- How many documents before the bound contain the word. -/
def documentFrequency (log : List Episode) (bound : Nat) (w : Str) : Nat :=
  ((number 0 log).filter (fun r => decide (r.1 < bound) && (env.words r.2).contains w)).length

/-- The score of a document: every word of the query, as often as the query has it, counts as often as the document has it. -/
def documentScore (ln : R → R) (log : List Episode) (bound : Nat) (tokens : List Str) (ep : Episode) : R :=
  (tokens.map (fun w => ((env.words ep).count w : R) * idfOf ln (max log.length 1) (documentFrequency env log bound w))).sum

/-- Every document before the bound that has a positive score. -/
def scoredDocuments (ln : R → R) (log : List Episode) (bound : Nat) (tokens : List Str) : List (Nat × Episode × R) :=
  (((number 0 log).filter (fun r => decide (r.1 < bound))).map
    (fun r => (r.1, r.2, documentScore env ln log bound tokens r.2))).filter (fun h => decide (0 < h.2.2))

def hitLe (a b : Nat × Episode × R) : Bool := candidateLe (a.1, a.2.2) (b.1, b.2.2)

/-- **What `recall` is for**: the `k` best of all scored documents. -/
def bestDocuments (ln : R → R) (log : List Episode) (bound : Nat) (tokens : List Str) (k : Nat) : List (Nat × Episode × R) :=
  best hitLe k (scoredDocuments env ln log bound tokens)

/-- The postings of a word before the bound. -/
def sliceOf (log : List Episode) (bound : Nat) (w : Str) : List (Nat × Nat) :=
  ((number 0 log).filterMap (posting env w)).filter (fun e => decide (e.1 < bound))

variable {env}

theorem take_eq_filter {α : Type} {p : α → Bool} {l : List α} {i : Nat} (hbefore : ∀ x ∈ l.take i, p x = true)
    (hafter : ∀ x ∈ l.drop i, p x = false) : l.take i = l.filter p := by
  conv_rhs => rw [← List.take_append_drop i l, List.filter_append, List.filter_eq_self.2 hbefore]
  rw [List.filter_eq_nil_iff.2 (fun x hx => by rw [hafter x hx]; exact Bool.false_ne_true), List.append_nil]

/-- The binary search cuts the postings at the bound. -/
theorem activeSlice_eq {postings : List (Nat × Nat)} (hsorted : postings.Pairwise (fun a b => a.1 < b.1)) (bound : Nat) :
    activeSlice postings bound = postings.filter (fun e => decide (e.1 < bound)) := by
  have hkeys : (postings.map Prod.fst).Pairwise (· ≤ ·) := List.pairwise_map.2 (hsorted.imp Nat.le_of_lt)
  unfold activeSlice
  cases hsearch : searchFirst (postings.map Prod.fst) bound with
  | ok i =>
    have hget := searchFirst_found hsearch
    rw [List.getElem?_map] at hget
    obtain ⟨e, he, heq⟩ := Option.map_eq_some_iff.1 hget
    obtain ⟨hi, rfl⟩ := List.getElem?_eq_some_iff.1 he
    have hsplit := hsorted
    rw [← List.take_append_drop i postings, List.drop_eq_getElem_cons hi, List.pairwise_append, List.pairwise_cons] at hsplit
    obtain ⟨-, ⟨hrest, -⟩, hcross⟩ := hsplit
    refine take_eq_filter (fun x hx => ?_) (fun x hx => ?_)
    · exact decide_eq_true (heq ▸ hcross x hx _ List.mem_cons_self)
    · rw [List.drop_eq_getElem_cons hi, List.mem_cons] at hx
      refine decide_eq_false (Nat.not_lt.2 ?_)
      rcases hx with rfl | hx
      · exact Nat.le_of_eq heq.symm
      · exact heq ▸ Nat.le_of_lt (hrest x hx)
  | error i =>
    obtain ⟨-, hbefore, hafter⟩ := searchFirst_absent hkeys hsearch
    rw [← List.map_take, List.forall_mem_map] at hbefore
    rw [← List.map_drop, List.forall_mem_map] at hafter
    exact take_eq_filter (fun x hx => decide_eq_true (hbefore x hx))
      (fun x hx => decide_eq_false (Nat.lt_asymm (hafter x hx)))

theorem mem_sliceOf {log : List Episode} {bound l n : Nat} {w : Str} : (l, n) ∈ sliceOf env log bound w ↔
    l < bound ∧ n ≠ 0 ∧ ∃ ep, log[l]? = some ep ∧ n = (env.words ep).count w := by
  rw [sliceOf, List.mem_filter, List.mem_filterMap, decide_eq_true_eq, and_comm]
  refine and_congr_right fun _ => ?_
  constructor
  · rintro ⟨⟨i, ep⟩, hmem, hposting⟩
    have hget := (mem_number.1 hmem).2
    unfold posting at hposting
    split at hposting
    · cases hposting
    · rename_i hne
      cases hposting
      exact ⟨hne, ep, hget, rfl⟩
  · rintro ⟨hne, ep, hget, rfl⟩
    exact ⟨(l, ep), mem_number.2 ⟨Nat.zero_le l, hget⟩, if_neg hne⟩

theorem sorted_sliceOf (log : List Episode) (bound : Nat) (w : Str) :
    (sliceOf env log bound w).Pairwise (fun a b => a.1 < b.1) := by
  have hsorted := @sorted_postings env log w
  rw [postings_indexOf] at hsorted
  exact hsorted.filter _

theorem length_sliceOf (log : List Episode) (bound : Nat) (w : Str) :
    (sliceOf env log bound w).length = documentFrequency env log bound w := by
  rw [sliceOf, documentFrequency]
  induction number 0 log with
  | nil => rfl
  | cons r records ih =>
    rw [List.filterMap_cons, List.filter_cons]
    by_cases hcount : (env.words r.2).count w = 0
    · have hnone : posting env w r = none := if_pos hcount
      have hmem : (env.words r.2).contains w = false := by
        rw [List.contains_eq_mem, decide_eq_false_iff_not]
        exact List.count_eq_zero.1 hcount
      rw [hnone, hmem, Bool.and_false]
      exact ih
    · have hsome : posting env w r = some (r.1, (env.words r.2).count w) := if_neg hcount
      have hmem : (env.words r.2).contains w = true := by
        rw [List.contains_eq_mem, decide_eq_true_eq]
        exact List.count_pos_iff.1 (Nat.pos_of_ne_zero hcount)
      rw [hsome, hmem, Bool.and_true, List.filter_cons]
      split
      · rw [List.length_cons, List.length_cons, ih]
      · exact ih

theorem cursorFor_indexOf (ln : R → R) (log : List Episode) (bound : Nat) (w : Str) :
    cursorFor ln (indexOf env log) bound w = if sliceOf env log bound w = [] then none
      else some (PostingCursor.new (sliceOf env log bound w) (idfOf ln (max log.length 1) (documentFrequency env log bound w))) := by
  have hslice : activeSlice ((indexOf env log).postings w) bound = sliceOf env log bound w := by
    rw [activeSlice_eq sorted_postings, postings_indexOf, sliceOf]
  unfold cursorFor
  rw [TextInvertedIndex.postings] at hslice
  cases hget : (indexOf env log).invertedText.get? w with
  | none =>
    rw [hget] at hslice
    rw [← hslice]
    rfl
  | some postings =>
    rw [hget, Option.getD_some] at hslice
    rw [← length_sliceOf, ← hslice, totalDocs_indexOf]
    dsimp only
    simp only [List.isEmpty_iff]

/-- The cursors of the query's words. -/
def cursorsOf (env : TextEnv) (ln : R → R) (log : List Episode) (bound : Nat) (tokens : List Str) : List (PostingCursor R) :=
  tokens.filterMap (cursorFor ln (indexOf env log) bound)

/-- What a word of the query adds to the score of the document at `l`. -/
theorem tf_sliceOf (log : List Episode) (bound : Nat) (w : Str) (l : Nat) :
    (SortedMap.find l (sliceOf env log bound w)).getD 0
      = if l < bound then (log[l]?).elim 0 (fun ep => (env.words ep).count w) else 0 := by
  have hsorted := @sorted_sliceOf env log bound w
  cases hfind : SortedMap.find l (sliceOf env log bound w) with
  | some n =>
    obtain ⟨hlt, -, ep, hget, rfl⟩ := mem_sliceOf.1 ((SortedMap.find_eq_some hsorted).1 hfind)
    rw [if_pos hlt, hget]
    rfl
  | none =>
    rw [Option.getD_none]
    split
    · rename_i hlt
      cases hget : log[l]? with
      | none => rfl
      | some ep =>
        by_contra hne
        have hmem := mem_sliceOf.2 ⟨hlt, fun h0 => hne h0.symm, ep, hget, rfl⟩
        rw [(SortedMap.find_eq_some hsorted).2 hmem] at hfind
        cases hfind
    · rfl

/-- The score of the document at `l`, if there is one before the bound. -/
def scoreBefore (env : TextEnv) (ln : R → R) (log : List Episode) (bound : Nat) (tokens : List Str) (l : Nat) : R :=
  if l < bound then (log[l]?).elim 0 (documentScore env ln log bound tokens) else 0

/-- **The cursors add up to the score of the document.** -/
theorem scoreAt_cursorsOf (ln : R → R) (log : List Episode) (bound : Nat) (tokens : List Str) (l : Nat) :
    scoreAt (cursorsOf env ln log bound tokens) l = scoreBefore env ln log bound tokens l := by
  have hsum : scoreAt (cursorsOf env ln log bound tokens) l
      = (tokens.map (fun w => (((SortedMap.find l (sliceOf env log bound w)).getD 0 : Nat) : R)
          * idfOf ln (max log.length 1) (documentFrequency env log bound w))).sum := by
    induction tokens with
    | nil => rfl
    | cons w tokens ih =>
      rw [scoreAt, cursorsOf] at ih
      rw [scoreAt, cursorsOf, List.filterMap_cons, cursorFor_indexOf, List.map_cons, List.sum_cons, ← ih]
      split
      · rename_i hnone
        split at hnone
        · rename_i hnil
          rw [hnil, SortedMap.find, Option.getD_none, Nat.cast_zero, zero_mul, zero_add]
        · cases hnone
      · rename_i c hsome
        split at hsome
        · cases hsome
        · cases hsome
          rw [List.map_cons, List.sum_cons]
          rfl
  rw [hsum, scoreBefore]
  by_cases hlt : l < bound
  · rw [if_pos hlt]
    cases hget : log[l]? with
    | none =>
      refine List.sum_eq_zero (fun x hx => ?_)
      obtain ⟨w, -, rfl⟩ := List.mem_map.1 hx
      rw [tf_sliceOf, if_pos hlt, hget, Option.elim_none, Nat.cast_zero, zero_mul]
    | some ep =>
      rw [Option.elim_some, documentScore]
      congr 1
      refine List.map_congr_left (fun w _ => ?_)
      rw [tf_sliceOf, if_pos hlt, hget, Option.elim_some]
  · rw [if_neg hlt]
    refine List.sum_eq_zero (fun x hx => ?_)
    obtain ⟨w, -, rfl⟩ := List.mem_map.1 hx
    rw [tf_sliceOf, if_neg hlt, Nat.cast_zero, zero_mul]

theorem mem_cursorsOf {ln : R → R} {log : List Episode} {bound : Nat} {tokens : List Str} {c : PostingCursor R} :
    c ∈ cursorsOf env ln log bound tokens ↔ ∃ w ∈ tokens, sliceOf env log bound w ≠ [] ∧
      c = PostingCursor.new (sliceOf env log bound w) (idfOf ln (max log.length 1) (documentFrequency env log bound w)) := by
  rw [cursorsOf, List.mem_filterMap]
  refine exists_congr fun w => and_congr_right fun _ => ?_
  rw [cursorFor_indexOf]
  split
  · rename_i hnil
    exact ⟨fun h => (by cases h), fun h => absurd hnil h.1⟩
  · rename_i hne
    rw [Option.some.injEq, eq_comm, and_iff_right hne]

theorem sliceOf_eq_nil {log : List Episode} {bound : Nat} {w : Str} :
    sliceOf env log bound w = [] ↔ ∀ r ∈ number 0 log, r.1 < bound → w ∉ env.words r.2 := by
  rw [List.eq_nil_iff_forall_not_mem]
  constructor
  · intro h r hr hlt hw
    refine h (r.1, (env.words r.2).count w) (mem_sliceOf.2 ⟨hlt, ?_, r.2, (mem_number.1 hr).2, rfl⟩)
    exact Nat.ne_of_gt (List.count_pos_iff.2 hw)
  · rintro h ⟨l, n⟩ hmem
    obtain ⟨hlt, hne, ep, hget, rfl⟩ := mem_sliceOf.1 hmem
    exact h (l, ep) (mem_number.2 ⟨Nat.zero_le l, hget⟩) hlt (List.count_pos_iff.1 (Nat.pos_of_ne_zero hne))

/-- **No cursor**: no document before the bound contains a word of the query. -/
theorem cursorsOf_eq_nil {ln : R → R} {log : List Episode} {bound : Nat} {tokens : List Str} :
    cursorsOf env ln log bound tokens = []
      ↔ ∀ r ∈ number 0 log, r.1 < bound → ∀ w ∈ tokens, w ∉ env.words r.2 := by
  rw [List.eq_nil_iff_forall_not_mem]
  constructor
  · intro h r hr hlt w hw hin
    refine h _ (mem_cursorsOf.2 ⟨w, hw, fun hnil => ?_, rfl⟩)
    exact sliceOf_eq_nil.1 hnil r hr hlt hin
  · intro h c hc
    obtain ⟨w, hw, hne, -⟩ := mem_cursorsOf.1 hc
    exact hne (sliceOf_eq_nil.2 (fun r hr hlt => h r hr hlt w hw))

theorem LogBackend.recall_eq (be : LogBackend env) (ln : R → R) (text : Str) (k : Nat) (asOf : Option Nat) :
    be.recall ln text k asOf =
      if cursorsOf env ln be.log (be.resolveAsOfBound asOf) (env.tokens text) = [] then some []
      else if hasCapacity k then
        (loop k { cursors := cursorsOf env ln be.log (be.resolveAsOfBound asOf) (env.tokens text), threshold := 0 }).map
          (fun s => (best candidateLe k s.scores.entries).filterMap
            (fun c => (be.log[c.1]?).map (fun e => (c.1, e, c.2))))
      else none := by
  unfold LogBackend.recall
  rw [be.sync_textIndex]
  dsimp only
  rw [← cursorsOf]
  by_cases htokens : env.tokens text = []
  · have hnil : cursorsOf env ln be.log (be.resolveAsOfBound asOf) (env.tokens text) = [] := by rw [htokens]; rfl
    rw [if_pos (List.isEmpty_iff.2 htokens), if_pos hnil]
  · rw [if_neg (fun h => htokens (List.isEmpty_iff.1 h))]
    simp only [List.isEmpty_iff]

section Exact

variable [IsStrictOrderedRing R] {ln : R → R} {log : List Episode} {bound : Nat} {tokens : List Str}

theorem idfOf_pos (ln : R → R) (totalDocs df : Nat) : 0 < idfOf ln totalDocs df :=
  lt_of_lt_of_le (by positivity) (le_max_right _ _)

/-- A fresh cursor over postings with positive counts has read nothing, and its bound holds. -/
theorem reads_new {slice : List (Nat × Nat)} {idf : R} (hsorted : slice.Pairwise (fun a b => a.1 < b.1))
    (hpositive : ∀ e ∈ slice, 0 < e.2) (hidf : 0 < idf) : Reads 0 (PostingCursor.new slice idf) where
  sorted := hsorted
  positive := hpositive
  bounded e he := by
    refine mul_le_mul_of_nonneg_right (Nat.cast_le.2 ?_) (le_of_lt hidf)
    exact (le_foldl_max _ 0).2 e.2 (List.mem_map_of_mem he)
  idf_pos := hidf
  read e he := absurd he List.not_mem_nil
  unread e _ := Nat.zero_le e.1

theorem reads_cursorsOf {c : PostingCursor R} (hc : c ∈ cursorsOf env ln log bound tokens) : Reads 0 c := by
  obtain ⟨w, -, -, rfl⟩ := mem_cursorsOf.1 hc
  refine reads_new (sorted_sliceOf log bound w) (fun e he => ?_) (idfOf_pos _ _ _)
  exact Nat.pos_of_ne_zero (mem_sliceOf.1 he).2.1

/-- The search before its first turn. -/
theorem inv_start {k : Nat} (hk : 0 < k) : Inv k (scoreBefore env ln log bound tokens) 0
    { cursors := cursorsOf env ln log bound tokens, threshold := 0 } where
  reads c hc := reads_cursorsOf hc
  score l := scoreAt_cursorsOf ln log bound tokens l
  scored l v := by
    rw [SortedMap.get?_empty]
    exact ⟨fun h => (by cases h), fun h => absurd h.1 (Nat.not_lt_zero l)⟩
  sorted := List.Pairwise.nil
  stored e he := absurd he List.not_mem_nil
  distinct := List.nodup_nil
  threshold := if_neg (Nat.not_le.2 hk)

def pairOf (h : Nat × Episode × R) : Nat × R := (h.1, h.2.2)

omit [IsStrictOrderedRing R] in
theorem mem_scoredDocuments {h : Nat × Episode × R} : h ∈ scoredDocuments env ln log bound tokens ↔
    h.1 < bound ∧ log[h.1]? = some h.2.1 ∧ h.2.2 = documentScore env ln log bound tokens h.2.1 ∧ 0 < h.2.2 := by
  obtain ⟨l, ep, v⟩ := h
  rw [scoredDocuments, List.mem_filter, List.mem_map, decide_eq_true_eq]
  constructor
  · rintro ⟨⟨r, hr, heq⟩, hpos⟩
    cases heq
    rw [List.mem_filter, decide_eq_true_eq] at hr
    exact ⟨hr.2, (mem_number.1 hr.1).2, rfl, hpos⟩
  · rintro ⟨hlt, hget, heq, hpos⟩
    dsimp only at heq hget hlt
    subst heq
    exact ⟨⟨(l, ep), List.mem_filter.2 ⟨mem_number.2 ⟨Nat.zero_le l, hget⟩, decide_eq_true hlt⟩, rfl⟩, hpos⟩

omit [IsStrictOrderedRing R] in
theorem mem_scored_iff (x : Nat × R) : x ∈ (scoredDocuments env ln log bound tokens).map pairOf ↔
    0 < x.2 ∧ x.2 = scoreBefore env ln log bound tokens x.1 := by
  obtain ⟨l, v⟩ := x
  rw [List.mem_map]
  constructor
  · rintro ⟨h, hmem, heq⟩
    cases heq
    obtain ⟨hlt, hget, hscore, hpos⟩ := mem_scoredDocuments.1 hmem
    refine ⟨hpos, ?_⟩
    change h.2.2 = scoreBefore env ln log bound tokens h.1
    rw [scoreBefore, if_pos hlt, hget]
    exact hscore
  · rintro ⟨hpos, hscore⟩
    rw [scoreBefore] at hscore
    dsimp only at hpos hscore
    split at hscore
    · rename_i hlt
      cases hget : log[l]? with
      | none =>
        rw [hget, Option.elim_none] at hscore
        exact absurd hpos (hscore ▸ lt_irrefl v)
      | some ep =>
        rw [hget, Option.elim_some] at hscore
        exact ⟨(l, ep, v), mem_scoredDocuments.2 ⟨hlt, hget, hscore, hpos⟩, rfl⟩
    · exact absurd hpos (hscore ▸ lt_irrefl v)

omit [IsStrictOrderedRing R] in
theorem nodup_scored : ((scoredDocuments env ln log bound tokens).map pairOf).Nodup := by
  have hrows : (((number 0 log).filter (fun r => decide (r.1 < bound))).map
      (fun r => (r.1, r.2, documentScore env ln log bound tokens r.2))).Pairwise (fun a b => a.1 < b.1) :=
    List.pairwise_map.2 ((number_pairwise log 0).filter _)
  have hkeys : (scoredDocuments env ln log bound tokens).Pairwise (fun a b => a.1 < b.1) := hrows.filter _
  refine List.pairwise_map.2 (hkeys.imp (fun {a b} hlt heq => ?_))
  exact absurd (congrArg Prod.fst heq) (Nat.ne_of_lt hlt)

omit [IsStrictOrderedRing R] in
/-- Reading the log gives every hit its episode back. -/
theorem filterMap_best (k : Nat) :
    (best candidateLe k ((scoredDocuments env ln log bound tokens).map pairOf)).filterMap
      (fun c => (log[c.1]?).map (fun e => (c.1, e, c.2))) = bestDocuments env ln log bound tokens k := by
  have hmap : (bestDocuments env ln log bound tokens k).map pairOf
      = best candidateLe k ((scoredDocuments env ln log bound tokens).map pairOf) := by
    rw [bestDocuments]
    exact map_best (f := pairOf) (fun _ _ _ _ => rfl) k
  rw [← hmap, List.filterMap_map]
  conv_rhs => rw [← List.filterMap_some (l := bestDocuments env ln log bound tokens k)]
  refine List.filterMap_congr (fun h hh => ?_)
  have hget := (mem_scoredDocuments.1 (mem_of_mem_best hh)).2.1
  simp only [Function.comp_apply, pairOf, hget, Option.map_some]

/-- A search that finds postings, and that room can be made for, answers the best documents. -/
theorem loop_exact {k : Nat} (hk : 0 < k) :
    (loop k { cursors := cursorsOf env ln log bound tokens, threshold := 0 }).map (fun s =>
      (best candidateLe k s.scores.entries).filterMap (fun c => (log[c.1]?).map (fun e => (c.1, e, c.2))))
        = some (bestDocuments env ln log bound tokens k) := by
  have hstart : Inv k (scoreBefore env ln log bound tokens) 0
      { cursors := cursorsOf env ln log bound tokens, threshold := 0 } := inv_start hk
  obtain ⟨s', p', hloop, hinv, hdone⟩ := hstart.loop hk
  rw [hloop, Option.map_some, hinv.best_eq hdone nodup_scored mem_scored_iff, filterMap_best]

/-- **No result wanted**: the first document scored is compared with the lowest of an empty heap. -/
theorem loop_zero (hne : cursorsOf env ln log bound tokens ≠ []) :
    loop 0 { cursors := cursorsOf env ln log bound tokens, threshold := 0 } = none := by
  have hreads : ∀ c ∈ cursorsOf env ln log bound tokens, Reads 0 c := fun c hc => reads_cursorsOf hc
  cases hlow : minLsn (cursorsOf env ln log bound tokens) with
  | none =>
    -- every cursor stands on its first posting
    obtain ⟨c, hc⟩ := List.exists_mem_of_ne_nil _ hne
    have hstands := minLsn_none hlow hc
    obtain ⟨w, -, hslice, rfl⟩ := mem_cursorsOf.1 hc
    rw [PostingCursor.currentLsn, Option.map_eq_none_iff, List.getElem?_eq_none_iff] at hstands
    exact absurd (List.eq_nil_of_length_eq_zero (Nat.le_zero.1 hstands)) hslice
  | some pivot =>
    have hmet : metThreshold (0 : R) (cursorsOf env ln log bound tokens) 0 = true := by
      by_contra hstop
      have hlt := scoreAt_lt_threshold hreads hlow (Bool.eq_false_iff.2 hstop) (Nat.zero_le 0)
      exact absurd (scoreAt_nonneg hreads 0) (not_le.2 hlt)
    have hturn := turn_zero (s := { cursors := cursorsOf env ln log bound tokens, threshold := 0 }) hlow hmet rfl
    unfold loop
    split
    · rename_i hdone
      rw [hturn] at hdone
      cases hdone
    · rfl
    · rename_i hnext
      rw [hturn] at hnext
      cases hnext

theorem hasCapacity_iff {k : Nat} : hasCapacity k ↔ k < 2 ^ 59 := by
  unfold hasCapacity
  omega

/-- **The ranked search is exact** for every log, query and bound, however far the bundle was behind: it answers the `k` best of
all scored documents.  It panics where there is a document to score and no result is wanted, or more than there can be room for. -/
theorem LogBackend.recall_exact_iff (be : LogBackend env) (ln : R → R) (text : Str) (k : Nat) (asOf : Option Nat) :
    be.recall ln text k asOf
        = some (bestDocuments env ln be.log (be.resolveAsOfBound asOf) (env.tokens text) k) ↔
      (0 < k ∧ k < 2 ^ 59) ∨
        ∀ r ∈ number 0 be.log, r.1 < be.resolveAsOfBound asOf → ∀ w ∈ env.tokens text, w ∉ env.words r.2 := by
  rw [be.recall_eq, ← @cursorsOf_eq_nil R _ _ env ln]
  by_cases hnil : cursorsOf env ln be.log (be.resolveAsOfBound asOf) (env.tokens text) = []
  · rw [if_pos hnil]
    have hnone : scoredDocuments env ln be.log (be.resolveAsOfBound asOf) (env.tokens text) = [] := by
      rw [← List.map_eq_nil_iff (f := pairOf), List.eq_nil_iff_forall_not_mem]
      intro x hx
      obtain ⟨hpos, hscore⟩ := (mem_scored_iff x).1 hx
      rw [← scoreAt_cursorsOf, hnil] at hscore
      exact absurd hpos (hscore ▸ lt_irrefl (0 : R))
    rw [bestDocuments, hnone]
    simp [best, hnil]
  · rw [if_neg hnil, or_iff_left hnil]
    constructor
    · intro h
      split at h
      · rename_i hcap
        refine ⟨Nat.pos_of_ne_zero (fun hk => ?_), hasCapacity_iff.1 hcap⟩
        rw [hk, loop_zero hnil] at h
        cases h
      · cases h
    · rintro ⟨hk, hcap⟩
      rw [if_pos (hasCapacity_iff.2 hcap), loop_exact hk]

end Exact

section Run

/-- The tables of the standard library on ASCII text. -/
def asciiEnv : TextEnv where
  utf8Lossy b := b.map (fun x => Char.ofNat x.toNat)
  toLowercase := toAsciiLowercase
  isAlphanumeric := Char.isAlphanum

/-- The word "rio", once and twice. -/
def twoDocuments : LogBackend asciiEnv :=
  .new [Episode.new 0 [] .observation [114, 105, 111], Episode.new 1 [] .observation [114, 105, 111, 32, 82, 105, 111]]
    (by decide)

theorem one_document_recalled : twoDocuments.recall Real.log "Rio".toList 1 none
    = some (bestDocuments asciiEnv Real.log twoDocuments.log (twoDocuments.resolveAsOfBound none)
        (asciiEnv.tokens "Rio".toList) 1) :=
  (twoDocuments.recall_exact_iff Real.log "Rio".toList 1 none).2 (.inl (by decide))

theorem recall_none_wanted_panics : twoDocuments.recall Real.log "Rio".toList 0 none = none ∧
    bestDocuments asciiEnv Real.log twoDocuments.log (twoDocuments.resolveAsOfBound none)
      (asciiEnv.tokens "Rio".toList) 0 = [] := by
  have hword : "rio".toList ∈ asciiEnv.tokens "Rio".toList := by decide
  have hin : "rio".toList ∈ asciiEnv.words (Episode.new 0 [] .observation [114, 105, 111]) := by decide
  have hne : cursorsOf asciiEnv Real.log twoDocuments.log (twoDocuments.resolveAsOfBound none)
      (asciiEnv.tokens "Rio".toList) ≠ [] := by
    rw [Ne, cursorsOf_eq_nil]
    intro h
    exact h (0, Episode.new 0 [] .observation [114, 105, 111]) List.mem_cons_self (by decide) _ hword hin
  refine ⟨?_, rfl⟩
  rw [LogBackend.recall_eq, if_neg hne, if_pos (by decide), loop_zero hne]
  rfl

end Run

end Recall
end Heraclitus
