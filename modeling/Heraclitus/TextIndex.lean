import Heraclitus.Episode
import Heraclitus.Lib.Pieces
import Heraclitus.Lib.SortedMap
import Heraclitus.LogSpec
/-!
# TextIndex — the inverted text index of the query backend (`heraclitus-query/src/backend.rs`)

The bundle is brought up to the head by the episodes appended since the last query.  Whatever the heads it was brought up to,
the postings of a word are the episodes that contain it, in LSN order, with the number of times they do.
-/
namespace Heraclitus
namespace Recall

/-- The Unicode tables and the lossy decoding of the standard library. -/
structure TextEnv where
  utf8Lossy : Bytes → Str
  toLowercase : Str → Str
  isAlphanumeric : Char → Bool

variable (env : TextEnv)

/-- `to_lowercase().split(|c| !c.is_alphanumeric()).filter(|s| !s.is_empty())`. -/
def TextEnv.tokens (text : Str) : List Str :=
  ((env.toLowercase text).splitOnP (fun c => !env.isAlphanumeric c)).filter (fun s => !s.isEmpty)

def TextEnv.words (ep : Episode) : List Str := env.tokens (env.utf8Lossy ep.content)

structure TextInvertedIndex where
  invertedText : SortedMap Str (List (Nat × Nat)) := .empty
  totalDocs : Nat := 0

/-- `*local_frequencies.entry(token).or_insert(0.0) += 1.0`, over a document. -/
def localFrequencies (words : List Str) : SortedMap Str Nat :=
  words.foldl (fun m w => m.alter w (fun n => some (n.getD 0 + 1))) .empty

def TextInvertedIndex.applyEpisode (t : TextInvertedIndex) (r : Nat × Episode) : TextInvertedIndex where
  totalDocs := t.totalDocs + 1
  invertedText := (localFrequencies (env.words r.2)).entries.foldl
    (fun m e => m.alter e.1 (fun postings => some (postings.getD [] ++ [(r.1, e.2)]))) t.invertedText

def TextInvertedIndex.postings (t : TextInvertedIndex) (w : Str) : List (Nat × Nat) := (t.invertedText.get? w).getD []

structure SnapshotBundle where
  lsn : Nat := 0
  textIndex : TextInvertedIndex := {}

/-- `sync_bundle`: the episodes from the bundle's LSN up to the head are added to it. -/
def syncBundle (log : List Episode) (b : SnapshotBundle) : SnapshotBundle :=
  if log.length ≤ b.lsn then b
  else
    { lsn := log.length
      textIndex := (scanCapped log b.lsn log.length u64Max).foldl
        (fun t r => if b.lsn ≤ r.1 ∧ r.1 < log.length then t.applyEpisode env r else t) b.textIndex }

/-- The index of a whole log. -/
def indexOf (log : List Episode) : TextInvertedIndex :=
  (number 0 log).foldl (TextInvertedIndex.applyEpisode env) {}

/-- The backend: its log and a bundle that covers the log up to some earlier head. -/
structure LogBackend where
  log : List Episode
  bundle : SnapshotBundle
  fits : log.length ≤ u64Max
  covers : bundle.lsn ≤ log.length
  indexed : bundle.textIndex = indexOf env (log.take bundle.lsn)

variable {env}

theorem find_localFrequencies (w : Str) : ∀ (words : List Str) (m : SortedMap Str Nat),
    (words.foldl (fun m w => m.alter w (fun n => some (n.getD 0 + 1))) m).get? w
      = if words.count w = 0 then m.get? w else some ((m.get? w).getD 0 + words.count w)
  | [], m => rfl
  | v :: words, m => by
    rw [List.foldl_cons, find_localFrequencies w words, SortedMap.get?_alter]
    by_cases hv : w = v
    · subst hv
      rw [if_pos rfl, List.count_cons_self, if_neg (Nat.succ_ne_zero _)]
      split
      · rename_i h
        rw [h]
      · rw [Option.getD_some]
        congr 1
        omega
    · rw [if_neg hv, List.count_cons_of_ne (fun h => hv h.symm)]

theorem get?_localFrequencies (words : List Str) (w : Str) :
    (localFrequencies words).get? w = if words.count w = 0 then none else some (words.count w) := by
  rw [localFrequencies, find_localFrequencies]
  split
  · rfl
  · rw [SortedMap.get?_empty, Option.getD_none, Nat.zero_add]

variable (env)

/-- What a document adds to the postings of a word. -/
def posting (w : Str) (r : Nat × Episode) : Option (Nat × Nat) :=
  if (env.words r.2).count w = 0 then none else some (r.1, (env.words r.2).count w)

variable {env}

theorem postings_applyEpisode (t : TextInvertedIndex) (r : Nat × Episode) (w : Str) :
    (t.applyEpisode env r).postings w = t.postings w ++ (posting env w r).toList := by
  have hfind : SortedMap.find w (localFrequencies (env.words r.2)).entries
      = (localFrequencies (env.words r.2)).get? w := rfl
  rw [TextInvertedIndex.postings, TextInvertedIndex.applyEpisode]
  dsimp only
  rw [SortedMap.get?_foldl_alter (fun n postings => some (postings.getD [] ++ [(r.1, n)])) w _ _
    (localFrequencies (env.words r.2)).sorted, hfind, get?_localFrequencies, posting]
  split
  · exact (List.append_nil _).symm
  · rfl

theorem postings_foldl (w : Str) : ∀ (records : List (Nat × Episode)) (t : TextInvertedIndex),
    (records.foldl (TextInvertedIndex.applyEpisode env) t).postings w
      = t.postings w ++ records.filterMap (posting env w)
  | [], t => (List.append_nil _).symm
  | r :: records, t => by
    rw [List.foldl_cons, postings_foldl w records, postings_applyEpisode, List.append_assoc]
    congr 1
    rw [List.filterMap_cons]
    cases posting env w r with
    | none => rfl
    | some p => rfl

/-- **The postings of a word** are the documents that contain it. -/
theorem postings_indexOf (log : List Episode) (w : Str) :
    (indexOf env log).postings w = (number 0 log).filterMap (posting env w) :=
  postings_foldl w _ _

theorem totalDocs_foldl : ∀ (records : List (Nat × Episode)) (t : TextInvertedIndex),
    (records.foldl (TextInvertedIndex.applyEpisode env) t).totalDocs = t.totalDocs + records.length
  | [], _ => rfl
  | r :: records, t => by
    rw [List.foldl_cons, totalDocs_foldl records, List.length_cons]
    simp only [TextInvertedIndex.applyEpisode]
    omega

theorem totalDocs_indexOf (log : List Episode) : (indexOf env log).totalDocs = log.length := by
  rw [indexOf, totalDocs_foldl, ← List.length_map Prod.snd, map_snd_number]
  exact Nat.zero_add _

theorem sorted_postings {log : List Episode} {w : Str} :
    ((indexOf env log).postings w).Pairwise (fun a b => a.1 < b.1) := by
  rw [postings_indexOf, List.pairwise_filterMap]
  refine (number_pairwise log 0).imp (fun {r s} hlt a ha b hb => ?_)
  unfold posting at ha hb
  split at ha
  · cases ha
  · split at hb
    · cases hb
    · cases ha
      cases hb
      exact hlt

/-- What is added window by window is the index of the whole log. -/
theorem indexOf_split (log : List Episode) (n : Nat) (hn : n ≤ log.length) :
    (number n (log.drop n)).foldl (TextInvertedIndex.applyEpisode env) (indexOf env (log.take n)) = indexOf env log := by
  have hnumber : number 0 log = number 0 (log.take n) ++ number n (log.drop n) := by
    conv_lhs => rw [← List.take_append_drop n log, number_append]
    rw [List.length_take, Nat.min_eq_left hn, Nat.zero_add]
  rw [indexOf, indexOf, hnumber, List.foldl_append]

/-- **A synced bundle is the index of the log**, whatever part of it the bundle held before. -/
theorem syncBundle_spec {log : List Episode} {b : SnapshotBundle} (hfits : log.length ≤ u64Max)
    (hcovers : b.lsn ≤ log.length) (hindexed : b.textIndex = indexOf env (log.take b.lsn)) :
    syncBundle env log b = { lsn := log.length, textIndex := indexOf env log } := by
  unfold syncBundle
  split
  · rename_i hle
    have hlsn : b.lsn = log.length := Nat.le_antisymm hcovers hle
    rw [hlsn, List.take_length] at hindexed
    cases b
    cases hlsn
    cases hindexed
    rfl
  · have hscan : scanCapped log b.lsn log.length u64Max = number b.lsn (log.drop b.lsn) := by
      rw [scanCapped, List.take_of_length_le]
      rw [List.length_drop]
      omega
    have hfold : (number b.lsn (log.drop b.lsn)).foldl
        (fun t r => if b.lsn ≤ r.1 ∧ r.1 < log.length then t.applyEpisode env r else t) b.textIndex
          = (number b.lsn (log.drop b.lsn)).foldl (TextInvertedIndex.applyEpisode env) b.textIndex := by
      refine List.foldl_ext _ _ _ (fun t r hr => ?_)
      obtain ⟨hle, hget⟩ := mem_number_drop.1 hr
      exact if_pos ⟨hle, (List.getElem?_eq_some_iff.1 hget).1⟩
    rw [hscan, hfold, hindexed, indexOf_split log b.lsn hcovers]

namespace LogBackend

/-- `LogBackend::new` over a log. -/
def new (log : List Episode) (fits : log.length ≤ u64Max) : LogBackend env where
  log := log
  bundle := {}
  fits := fits
  covers := Nat.zero_le _
  indexed := rfl

/-- An episode appended to the log behind the backend's back. -/
def append (be : LogBackend env) (ep : Episode) (fits : be.log.length < u64Max) : LogBackend env where
  log := be.log ++ [ep]
  bundle := be.bundle
  fits := by
    rw [List.length_append]
    exact fits
  covers := by
    rw [List.length_append]
    exact Nat.le_succ_of_le be.covers
  indexed := by
    rw [List.take_append_of_le_length be.covers, be.indexed]

/-- The backend after `sync_bundle`. -/
def sync (be : LogBackend env) : LogBackend env where
  log := be.log
  bundle := syncBundle env be.log be.bundle
  fits := be.fits
  covers := by
    rw [syncBundle_spec be.fits be.covers be.indexed]
  indexed := by
    rw [syncBundle_spec be.fits be.covers be.indexed, List.take_length]

theorem sync_textIndex (be : LogBackend env) : be.sync.bundle.textIndex = indexOf env be.log := by
  change (syncBundle env be.log be.bundle).textIndex = _
  rw [syncBundle_spec be.fits be.covers be.indexed]

/-- `resolve_as_of_bound`. -/
def resolveAsOfBound (be : LogBackend env) (asOf : Option Nat) : Nat := asOf.getD be.log.length

end LogBackend

end Recall
end Heraclitus
