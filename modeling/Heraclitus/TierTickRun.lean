import Heraclitus.TierTick
/-!
# TierTickRun — what a tick finds, over whole runs

After any run of appends, demotions and ticks, the object of a segment's latest receipt holds the records of the segment
that are still kept; the others were tombstoned.  From this, and from what a tick reads, follows when its count is right
(`countsRight_iff`).
-/
namespace Heraclitus
namespace Tier

open Legacy

variable {env : TickEnv}

/-! ## What a tick reads -/

theorem foldl_number {α β : Type} (f : β → α → β) : ∀ (l : List α) (n : Nat) (b : β),
    (number n l).foldl (fun b r => f b r.2) b = l.foldl f b
  | [], _, _ => rfl
  | a :: l, n, b => foldl_number f l (n + 1) (f b a)

theorem foldl_insert_spec (f : Episode → Option Nat) : ∀ (l : List Episode) (ids : List Nat), ids.Nodup →
    (l.foldl (fun ids e => (f e).elim ids (fun id => ids.insert id)) ids).Nodup ∧
      ∀ id, id ∈ l.foldl (fun ids e => (f e).elim ids (fun id => ids.insert id)) ids ↔ id ∈ ids ∨ ∃ e ∈ l, f e = some id
  | [], ids, h => ⟨h, by simp⟩
  | e :: l, ids, h => by
    rw [List.foldl_cons]
    cases hf : f e with
    | none =>
      obtain ⟨hnodup, hmem⟩ := foldl_insert_spec f l ids h
      refine ⟨hnodup, fun id => ?_⟩
      rw [Option.elim_none, hmem, List.exists_mem_cons_iff, hf]
      simp
    | some new =>
      obtain ⟨hnodup, hmem⟩ := foldl_insert_spec f l (ids.insert new) (h.insert)
      refine ⟨hnodup, fun id => ?_⟩
      rw [Option.elim_some, hmem, List.mem_insert_iff, List.exists_mem_cons_iff, hf, Option.some.injEq, eq_comm (a := new)]
      tauto

variable {log : Log} {segs : List (List Rec)} {act : List Rec}

/-- The receipts among the events. -/
def receiptsOf (env : TickEnv) (history : List Episode) : List DemotionReceipt := history.filterMap (receiptIn env)

theorem tombstonedIds_eq (h : Steady env.toEnv log segs act) (hS : IsBinarySearch env.binarySearch)
    (hhit : log.catalog.NoEmptyHit env.toEnv) : ∃ ids, tombstonedIds env log = .ok ids ∧ ids.Nodup ∧
      ∀ id, id ∈ ids ↔ Tombstoned env ((segs.flatten ++ act).map Rec.episode) id := by
  obtain ⟨hnodup, hmem⟩ := foldl_insert_spec (tombstoneOf env) ((segs.flatten ++ act).map Rec.episode) [] .nil
  refine ⟨_, ?_, hnodup, fun id => (hmem id).trans (by simp [Tombstoned])⟩
  rw [tombstonedIds, h.walk_eq hS hhit _ (Nat.le_refl _) (by decide) _ _ _ (Nat.sub_le _ _), foldlM_ok,
    List.drop_zero]
  exact congrArg Except.ok (foldl_number (fun ids e => (tombstoneOf env e).elim ids (fun id => ids.insert id)) _ 0 [])

theorem foldl_receipts (env : TickEnv) : ∀ (l : List Episode) (rs : List DemotionReceipt),
    l.foldl (fun rs e => rs ++ (receiptIn env e).toList) rs = rs ++ receiptsOf env l
  | [], rs => (List.append_nil rs).symm
  | e :: l, rs => by
    rw [List.foldl_cons, foldl_receipts env l]
    simp only [receiptsOf, List.filterMap_cons, List.append_assoc]
    cases receiptIn env e <;> rfl

theorem demotionReceipts_eq (h : Steady env.toEnv log segs act) (hS : IsBinarySearch env.binarySearch)
    (hhit : log.catalog.NoEmptyHit env.toEnv) :
    demotionReceipts env log = .ok (receiptsOf env ((segs.flatten ++ act).map Rec.episode)) := by
  rw [demotionReceipts, h.walk_eq hS hhit _ (Nat.le_refl _) (by decide) _ _ _ (Nat.sub_le _ _), foldlM_ok,
    List.drop_zero]
  exact congrArg Except.ok ((foldl_number (fun rs e => rs ++ (receiptIn env e).toList) _ 0 []).trans (foldl_receipts env _ []))

/-- The graph index has every event but the H-VM frames, under its LSN. -/
def Located (lsnOf : SortedMap Nat Nat) (history : List Episode) : Prop :=
  ∀ id l, lsnOf.get? id = some l ↔ ∃ e, history[l]? = some e ∧ isHvm e = false ∧ e.id = id

theorem Located.append {lsnOf : SortedMap Nat Nat} {history : List Episode} (h : Located lsnOf history) {e : Episode}
    (hid : ∀ e' ∈ history, e'.id ≠ e.id) : Located (indexApplied lsnOf (history.length, e)) (history ++ [e]) := by
  intro id l
  have hold : ∀ e', history[l]? = some e' → (history ++ [e])[l]? = some e' := fun e' he' => by
    rw [List.getElem?_append_left (List.getElem?_eq_some_iff.1 he').1, he']
  have hcases : ∀ e', (history ++ [e])[l]? = some e' → history[l]? = some e' ∨ l = history.length ∧ e' = e := by
    intro e' he'
    by_cases hl : l < history.length
    · exact .inl (by rwa [List.getElem?_append_left hl] at he')
    · have hlt := (List.getElem?_eq_some_iff.1 he').1
      rw [List.length_append, List.length_singleton] at hlt
      have hlen : l = history.length := by omega
      rw [hlen, List.getElem?_concat_length] at he'
      exact .inr ⟨hlen, (Option.some.inj he').symm⟩
  unfold indexApplied
  dsimp only
  by_cases hhvm : isHvm e = true
  · rw [if_pos hhvm, h]
    constructor
    · rintro ⟨e', he', hframe, heq⟩
      exact ⟨e', hold e' he', hframe, heq⟩
    · rintro ⟨e', he', hframe, heq⟩
      rcases hcases e' he' with he' | ⟨-, rfl⟩
      · exact ⟨e', he', hframe, heq⟩
      · rw [hhvm] at hframe
        cases hframe
  · have hnew : ¬(lsnOf.get? e.id).isSome = true := by
      intro hsome
      obtain ⟨k, hk⟩ := Option.isSome_iff_exists.1 hsome
      obtain ⟨e', he', -, heq⟩ := (h e.id k).1 hk
      exact hid e' (List.mem_of_getElem? he') heq
    rw [if_neg hhvm, if_neg hnew, SortedMap.get?_insert]
    by_cases heq : id = e.id
    · rw [if_pos heq, Option.some.injEq]
      constructor
      · rintro rfl
        exact ⟨e, List.getElem?_concat_length, by simpa using hhvm, heq.symm⟩
      · rintro ⟨e', he', -, heq'⟩
        rcases hcases e' he' with he' | ⟨hl, -⟩
        · exact absurd (heq'.trans heq) (hid e' (List.mem_of_getElem? he'))
        · exact hl.symm
    · rw [if_neg heq, h]
      constructor
      · rintro ⟨e', he', hframe, heq'⟩
        exact ⟨e', hold e' he', hframe, heq'⟩
      · rintro ⟨e', he', hframe, heq'⟩
        rcases hcases e' he' with he' | ⟨-, rfl⟩
        · exact ⟨e', he', hframe, heq'⟩
        · exact absurd heq'.symm heq

theorem Located.foldl : ∀ {lsnOf : SortedMap Nat Nat} {history : List Episode} (more : List Episode), Located lsnOf history →
    ((history ++ more).map Episode.id).Nodup →
    Located ((number history.length more).foldl indexApplied lsnOf) (history ++ more)
  | lsnOf, history, [], h, _ => by
    rw [List.append_nil]
    exact h
  | lsnOf, history, e :: more, h, hids => by
    have hcons : history ++ e :: more = history ++ [e] ++ more := by simp
    rw [hcons] at hids ⊢
    have hfresh : ∀ e' ∈ history, e'.id ≠ e.id := by
      intro e' he' heq
      rw [List.map_append, List.map_append, List.append_assoc, List.nodup_append'] at hids
      exact hids.2.2 (List.mem_map_of_mem he') (by simp [heq])
    have ih := (h.append hfresh).foldl more hids
    rw [List.length_append] at ih
    exact ih

/-! ## Objects -/

/-- A run of whole records is visited as it was written. -/
theorem visits_recordBytes {E : TierEnv} (tail : Bytes)
    (htail : ∀ lsn hlc payload n, decodeRecord E.toHashes formatVersion tail ≠ .record lsn hlc payload n) :
    ∀ (rs : List Rec) (lsn : Nat), (∀ r ∈ rs, r.Readable E.toEnv) → lsn + rs.length ≤ 2 ^ 64 →
      ∃ visited, Visits E formatVersion (recordBytes E.toEnv lsn rs ++ tail) visited ∧
        DecodeTo E formatVersion visited (number lsn (rs.map Rec.episode))
  | [], _, _, _ => ⟨[], .stop htail, .nil⟩
  | r :: rs, lsn, hread, hlsn => by
    have hr := hread r List.mem_cons_self
    rw [List.length_cons] at hlsn
    obtain ⟨visited, hvisits, hrows⟩ :=
      visits_recordBytes tail htail rs (lsn + 1) (fun q hq => hread q (List.mem_cons_of_mem r hq)) (by omega)
    have hdecode := decodeRecord_encodeRecord E.toHashes formatVersion r.episode.tsHlc
      (recordBytes E.toEnv (lsn + 1) rs ++ tail) (show lsn < 2 ^ 64 by omega) hr.bounded
    rw [recordBytes, List.append_assoc]
    refine ⟨_, .record hdecode ?_, .cons ⟨rfl, hr.decodes⟩ hrows⟩
    rw [List.drop_left' (length_bytes r lsn)]
    exact hvisits

/-- **The file of a sealed segment holds its records.** -/
theorem visits_sealedBytes {E : TierEnv} (i hlc count : Nat) (root : Digest) {lsn : Nat} {rs : List Rec}
    (hread : ∀ r ∈ rs, r.Readable E.toEnv) (hlsn : lsn + rs.length ≤ 2 ^ 64) : ∃ header visited,
      SegmentHeader.decode (sealedBytes E.toEnv i hlc lsn rs count root) = .ok header ∧
      Visits E header.version ((sealedBytes E.toEnv i hlc lsn rs count root).drop headerLen) visited ∧
      DecodeTo E header.version visited (number lsn (rs.map Rec.episode)) := by
  let written : SegmentHeader := { version := formatVersion, segmentId := i, createdHlc := hlc }
  obtain ⟨header, hheader, hversion⟩ := written.decode_encode (Nat.le_refl _)
  have hlen : written.encode.length = headerLen := SegmentHeader.length_encode _
  have hmoved : SegmentHeader.decode (written.encode.take headerLen
      ++ (recordBytes E.toEnv lsn rs ++ SegmentFooter.encode ⟨count, lsn, lsn + (rs.length - 1), root⟩))
      = SegmentHeader.decode written.encode := decode_header_append (Nat.le_of_eq hlen.symm)
  obtain ⟨visited, hvisits, hrows⟩ := visits_recordBytes (SegmentFooter.encode ⟨count, lsn, lsn + (rs.length - 1), root⟩)
    (footer_stops _) rs lsn hread hlsn
  rw [List.take_of_length_le (Nat.le_of_eq hlen), hheader] at hmoved
  refine ⟨header, visited, ?_, ?_, hversion ▸ hrows⟩
  · rw [sealedBytes, segmentBytes, List.append_assoc]
    exact hmoved
  · rw [sealedBytes, segmentBytes_drop, hversion]
    exact hvisits

/-! ### Paths -/

theorem toString_toList (n : Nat) : (toString n).toList = Nat.toDigits 10 n := by simp

theorem paddedId_digits (id : Nat) : ∀ c ∈ paddedId id, c.isDigit = true := by
  intro c hc
  rw [paddedId, toString_toList] at hc
  rcases List.mem_append.1 hc with hc | hc
  · rw [List.eq_of_mem_replicate hc]
    rfl
  · exact Nat.isDigit_of_mem_toDigits (by decide) (by decide) hc

theorem paddedId_injective {i j : Nat} (h : paddedId i = paddedId j) : i = j := by
  have hvalue : ∀ n, Nat.ofDigitChars 10 (paddedId n) 0 = n := by
    intro n
    rw [paddedId, toString_toList, Nat.ofDigitChars_append, Nat.ofDigitChars_replicate_zero, Nat.mul_zero,
      Nat.ofDigitChars_ten_toDigits]
  rw [← hvalue i, h, hvalue j]

/-- The name of an object of segment `i`: its digits are followed by something else. -/
theorem coldPath_injective {i j : Nat} {c d : Char} {ext ext' : Str} (hc : c.isDigit = false) (hd : d.isDigit = false)
    (h : coldPath i (c :: ext) = coldPath j (d :: ext')) : i = j ∧ c :: ext = d :: ext' := by
  have htake : ∀ (n : Nat) (c : Char) (ext : Str), c.isDigit = false →
      (paddedId n ++ c :: ext).takeWhile Char.isDigit = paddedId n := by
    intro n c ext hc
    rw [List.takeWhile_append_of_pos (paddedId_digits n)]
    simp [hc]
  unfold coldPath at h
  rw [List.append_assoc, List.append_assoc] at h
  have h := List.append_cancel_left h
  have hids : paddedId i = paddedId j := by rw [← htake i c ext hc, h, htake j d ext' hd]
  refine ⟨paddedId_injective hids, ?_⟩
  rw [hids] at h
  exact List.append_cancel_left h

theorem rsplitOnce_append {pat s rest : Str} (h : rsplitOnce pat s = some rest) : ∀ front : Str,
    rsplitOnce pat (front ++ s) = some rest
  | [] => h
  | c :: front => by rw [List.cons_append, rsplitOnce, rsplitOnce_append h front]

theorem rsplitOnce_eq_none : ∀ {s : Str}, '-' ∉ s → rsplitOnce "-c".toList s = none
  | [], _ => rfl
  | c :: s, h => by
    rw [rsplitOnce, rsplitOnce_eq_none (fun hmem => h (List.mem_cons_of_mem c hmem))]
    have hc : c ≠ '-' := fun heq => h (heq ▸ List.mem_cons_self)
    simp [List.isPrefixOf?, hc.symm]

/-- **The name of a compacted object says its number.** -/
theorem nextCompaction_compactPath {i g : Nat} (hg : g < 2 ^ 32) :
    nextCompaction (compactPath i g ".hrkl".toList) = (g + 1) % 2 ^ 32 := by
  have hrest : '-' ∉ 'c' :: ((toString g).toList ++ ".hrkl".toList) := by
    rw [toString_toList]
    intro hmem
    rcases List.mem_cons.1 hmem with hmem | hmem
    · exact absurd hmem (by decide)
    · rcases List.mem_append.1 hmem with hmem | hmem
      · exact absurd (Nat.isDigit_of_mem_toDigits (by decide) (by decide) hmem) (by decide)
      · exact absurd hmem (by decide)
  have hsplit : rsplitOnce "-c".toList ('-' :: 'c' :: ((toString g).toList ++ ".hrkl".toList))
      = some ((toString g).toList ++ ".hrkl".toList) := by
    rw [rsplitOnce, rsplitOnce_eq_none hrest]
    rfl
  have hpath : compactPath i g ".hrkl".toList
      = "cold/".toList ++ paddedId i ++ '-' :: 'c' :: ((toString g).toList ++ ".hrkl".toList) := by
    rw [compactPath, coldPath]
    exact congrArg _ (List.append_assoc _ _ _)
  have hback : List.isSuffixOf? ".hrkl".toList ((toString g).toList ++ ".hrkl".toList) = some (toString g).toList :=
    List.isSuffixOf?_eq_some_iff_append_eq.2 rfl
  unfold nextCompaction
  rw [hpath, rsplitOnce_append hsplit, Option.bind_some, hback]
  dsimp only
  rw [Option.bind_some, parseU64_toString (Nat.lt_trans hg (by decide)), Option.filter_some, if_pos (decide_eq_true hg), Option.getD_some]

theorem compactPath_injective {i g k : Nat} {ext : Str} (h : compactPath i g ext = compactPath i k ext) : g = k := by
  have hdigits : (toString g).toList = (toString k).toList :=
    List.append_cancel_left (List.append_cancel_right (List.append_cancel_left h))
  rw [toString_toList, toString_toList] at hdigits
  rw [← Nat.ofDigitChars_ten_toDigits (n := g), hdigits, Nat.ofDigitChars_ten_toDigits]

/-- Where the object of segment `i` can be: as it was demoted, or as a compaction left it. -/
inductive ObjectPath (i : Nat) : Str → Prop
  | demoted : ObjectPath i (coldPath i ".hrkl".toList)
  | compacted (g : Nat) : g < 2 ^ 32 → ObjectPath i (compactPath i g ".hrkl".toList)

/-- The paths of the objects of segment `i` begin with its number. -/
theorem ObjectPath.ne {i j : Nat} {path : Str} (h : ObjectPath i path) (hij : i ≠ j) {c : Char} {ext : Str}
    (hc : c.isDigit = false) : path ≠ coldPath j (c :: ext) := by
  cases h with
  | demoted => exact fun heq => hij (coldPath_injective (by decide) hc heq).1
  | compacted g hg => exact fun heq => hij (coldPath_injective (by decide) hc heq).1

theorem ObjectPath.ne_parquet {i : Nat} {path : Str} (h : ObjectPath i path) : path ≠ coldPath i ".parquet".toList := by
  cases h with
  | demoted => exact fun heq => absurd (coldPath_injective (by decide) (by decide) heq).2 (by decide)
  | compacted g hg =>
    exact fun heq => absurd (List.cons.inj (coldPath_injective (by decide) (by decide) heq).2).1 (by decide)

/-- **A compaction does not write over its source.** -/
theorem ObjectPath.newPath_ne {receipt : DemotionReceipt} (h : ObjectPath receipt.segmentId receipt.objectPath) :
    newPath receipt ".hrkl".toList ≠ receipt.objectPath := by
  intro heq
  unfold newPath at heq
  generalize hpath : receipt.objectPath = path at h heq
  cases h with
  | demoted => exact absurd (List.cons.inj (coldPath_injective (by decide) (by decide) heq).2).1 (by decide)
  | compacted g hg =>
    rw [nextCompaction_compactPath hg] at heq
    have := compactPath_injective heq
    omega

theorem ObjectPath.ne_newPath_parquet {receipt : DemotionReceipt} {path : Str} (h : ObjectPath receipt.segmentId path) :
    path ≠ newPath receipt ".parquet".toList := by
  intro heq
  have hlast := congrArg List.getLast? heq
  have hback : ∀ front ext : Str, (front ++ ext).getLast? = ext.getLast?.or front.getLast? := fun front ext => by simp
  have hright : (newPath receipt ".parquet".toList).getLast? = some 't' := by
    rw [newPath, compactPath, coldPath, ← List.append_assoc, hback]
    rfl
  have hleft : path.getLast? = some 'l' := by
    cases h with
    | demoted =>
      rw [coldPath, hback]
      rfl
    | compacted g hg =>
      rw [compactPath, coldPath, ← List.append_assoc, hback]
      rfl
  rw [hleft, hright] at hlast
  exact absurd (Option.some.inj hlast) (by decide)

/-! ### What demotions and compactions write -/

/-- The object at `path` is read as `rows`. -/
def Holds (E : TierEnv) (store : Store) (path : Str) (rows : List (Nat × Episode)) : Prop :=
  ∃ bytes, store.get? path = some bytes ∧ visitedEpisodes E bytes = .ok rows

theorem Holds.unique {E : TierEnv} {store : Store} {path : Str} {rows rows' : List (Nat × Episode)}
    (h : Holds E store path rows) (h' : Holds E store path rows') : rows = rows' := by
  obtain ⟨bytes, hget, hrows⟩ := h
  obtain ⟨bytes', hget', hrows'⟩ := h'
  cases hget.symm.trans hget'
  exact Except.ok.inj (hrows.symm.trans hrows')

theorem Holds.of_get? {E : TierEnv} {store store' : Store} {path : Str} {rows : List (Nat × Episode)}
    (h : Holds E store path rows) (hget : store'.get? path = store.get? path) : Holds E store' path rows := by
  obtain ⟨bytes, hbytes, hrows⟩ := h
  exact ⟨bytes, hget.trans hbytes, hrows⟩

/-- The receipt of a demotion of segment `i`, whose records are `count` from `lsn` on. -/
structure OfDemotion (i lsn count : Nat) (receipt : DemotionReceipt) : Prop where
  segmentId : receipt.segmentId = i
  objectPath : receipt.objectPath = coldPath i ".hrkl".toList
  recordCount : receipt.recordCount = count
  minLsn : receipt.minLsn = lsn
  maxLsn : receipt.maxLsn = lsn + (count - 1)
  compactedFrom : receipt.compactedFrom = none
  dropped : receipt.dropped = 0

/-- **A demotion of a sealed segment** writes its object, whatever comes of the mirror. -/
theorem demotePrepared_sealed (h : Steady env.toEnv log segs act) {i : Nat} {rs : List Rec} (hseg : segs[i]? = some rs)
    (store : Store) : ∃ res store', demotePrepared env.toTierEnv log store i = (res, store') ∧
      Holds env.toTierEnv store' (coldPath i ".hrkl".toList) (eventsOf segs i rs) ∧
      (∀ path, path ≠ coldPath i ".hrkl".toList → path ≠ coldPath i ".parquet".toList → store'.get? path = store.get? path) ∧
      ∀ receipt, res = .ok receipt → OfDemotion i (start segs i) rs.length receipt := by
  obtain ⟨c, hmem, hc⟩ := h.container hseg
  have hfind := find?_sealed h (List.mem_of_getElem? hmem)
  rw [hc.id] at hfind
  have hlsn := h.sealed_lsns hseg
  obtain ⟨hlc, count, root, -, hfile⟩ := hc.file
  obtain ⟨header, visited, hheader, hvisits, hrows⟩ := visits_sealedBytes i hlc count root
    (h.sealed_readable hseg) (Nat.le_of_lt hlsn)
  have hscan := scanAndRoot_of_visits hheader hvisits
  have hepisodes := visitedEpisodes_of_visits hheader hvisits hrows
  have hcount : visited.length = rs.length := by rw [hrows.length_eq, length_number, List.length_map]
  generalize sealedBytes env.toEnv i hlc (start segs i) rs count root = bytes at hfile hscan hepisodes
  have hframe : ∀ path, path ≠ coldPath i ".hrkl".toList →
      (store.insert (coldPath i ".hrkl".toList) bytes).get? path = store.get? path := by
    intro path hpath
    rw [SortedMap.get?_insert, if_neg hpath]
  have hobject : (store.insert (coldPath i ".hrkl".toList) bytes).get? (coldPath i ".hrkl".toList) = some bytes := by
    rw [SortedMap.get?_insert, if_pos rfl]
  rw [demotePrepared, hfind]
  dsimp only
  rw [hc.id, hfile]
  dsimp only
  rw [hscan, segmentToParquet, hepisodes]
  dsimp only
  cases hparquet : env.toParquet (number (start segs i) (rs.map Rec.episode)) with
  | error e =>
    refine ⟨_, _, rfl, ⟨bytes, hobject, hepisodes⟩, fun path hpath _ => hframe path hpath, fun receipt hok => ?_⟩
    cases hok
  | ok parquet =>
    refine ⟨_, _, rfl, ⟨bytes, ?_, hepisodes⟩, fun path hpath hmirror => ?_, fun receipt hok => ?_⟩
    · rw [SortedMap.get?_insert, if_neg (coldPath_ne i), hobject]
    · rw [SortedMap.get?_insert, if_neg hmirror, hframe path hpath]
    · cases hok
      exact ⟨rfl, rfl, hcount, hc.baseLsn, hc.maxLsn, rfl, rfl⟩

/-- A segment that is not sealed is not demoted. -/
theorem demotePrepared_unsealed (h : Steady env.toEnv log segs act) {i : Nat} (hseg : segs[i]? = none) (store : Store) :
    ∃ e, demotePrepared env.toTierEnv log store i = (.error e, store) := by
  have hfind : log.catalog.sealedSegments.find? (·.id = i) = none := by
    refine List.find?_eq_none.2 (fun c hc hid => ?_)
    obtain ⟨j, hj, rfl⟩ := List.getElem_of_mem hc
    have hj' : j < segs.length := h.length_sealed ▸ hj
    have hid' := (h.sealedAt j _ _ (List.getElem?_eq_getElem hj) (List.getElem?_eq_getElem hj')).id
    have hsame : j = i := hid'.symm.trans (of_decide_eq_true hid)
    rw [← hsame, List.getElem?_eq_getElem hj'] at hseg
    cases hseg
  rw [demotePrepared, hfind]
  exact ⟨_, rfl⟩

/-- The receipt of a compaction of `receipt`'s object from `rows` to `kept`. -/
structure OfCompaction (receipt : DemotionReceipt) (rows kept : List (Nat × Episode)) (receipt' : DemotionReceipt) : Prop where
  segmentId : receipt'.segmentId = receipt.segmentId
  objectPath : receipt'.objectPath = newPath receipt ".hrkl".toList
  recordCount : receipt'.recordCount = kept.length
  minLsn : receipt'.minLsn = (kept.map Prod.fst).min?.getD receipt.minLsn
  maxLsn : receipt'.maxLsn = (kept.map Prod.fst).max?.getD receipt.maxLsn
  compactedFrom : receipt'.compactedFrom ≠ none
  dropped : receipt'.dropped = rows.length - kept.length

theorem DecodeTo.map_lsn {E : TierEnv} {version : Nat} : ∀ {visited : List Visited} {rows : List (Nat × Episode)},
    DecodeTo E version visited rows → visited.map (·.lsn) = rows.map Prod.fst
  | [], _, h => by
    cases h
    rfl
  | v :: visited, _, h => by
    obtain ⟨row, rows, hrow, hrest, rfl⟩ := List.forall₂_cons_left_iff.1 h
    rw [List.map_cons, List.map_cons, hrow.1, DecodeTo.map_lsn hrest]

/-- **A compaction of an object that is read** writes the new object, whatever comes of the mirror. -/
theorem compactColdPrepared_holds {E : TierEnv} {store : Store} {receipt : DemotionReceipt} {rows : List (Nat × Episode)}
    (h : Holds E store receipt.objectPath rows) (isDeleted : Nat → Episode → Bool) :
    ∃ res store' version visited kept, compactColdPrepared E store receipt isDeleted = (res, store') ∧
      (∀ path, path ≠ newPath receipt ".hrkl".toList → path ≠ newPath receipt ".parquet".toList →
        store'.get? path = store.get? path) ∧
      ∀ receipt', res = .ok receipt' → receipt' = compactReceipt E receipt version visited kept ∧
        Holds E store' receipt'.objectPath (rows.filter (fun p => !isDeleted p.1 p.2)) ∧
        OfCompaction receipt rows (rows.filter (fun p => !isDeleted p.1 p.2)) receipt' := by
  obtain ⟨bytes, hget, hepisodes⟩ := h
  obtain ⟨header, visited, hheader, hvisits, hrows⟩ := visits_of_visitedEpisodes hepisodes
  obtain ⟨kept, hkept, hmem, hkeptRows⟩ := keepVisited_eq_ok isDeleted hrows
  obtain ⟨hnew, hnewVisits⟩ := compactObject_visits hheader hvisits hmem
  have hnewRows := visitedEpisodes_of_visits hnew hnewVisits hkeptRows
  have hframe : ∀ path, path ≠ newPath receipt ".hrkl".toList → (store.insert (newPath receipt ".hrkl".toList)
      (compactObject E header.version bytes kept)).get? path = store.get? path := by
    intro path hpath
    rw [SortedMap.get?_insert, if_neg hpath]
  cases hparquet : E.toParquet (rows.filter (fun p => !isDeleted p.1 p.2)) with
  | error e =>
    refine ⟨_, _, header.version, visited, kept,
      compactColdPrepared_unmirrored hheader hget hvisits hmem hkept hkeptRows hparquet, fun path hpath _ => hframe path hpath,
      fun receipt' hok => ?_⟩
    cases hok
  | ok parquet =>
    have hobject : ((store.insert (newPath receipt ".hrkl".toList) (compactObject E header.version bytes kept)).insert
        (newPath receipt ".parquet".toList) parquet).get? (newPath receipt ".hrkl".toList)
        = some (compactObject E header.version bytes kept) := by
      rw [SortedMap.get?_insert, if_neg (newPath_ne receipt), SortedMap.get?_insert, if_pos rfl]
    refine ⟨.ok (compactReceipt E receipt header.version visited kept), (store.insert (newPath receipt ".hrkl".toList)
      (compactObject E header.version bytes kept)).insert (newPath receipt ".parquet".toList) parquet, header.version, visited,
      kept, ?_, fun path hpath hmirror => ?_, fun receipt' hok => ?_⟩
    · rw [compactColdPrepared, hget]
      dsimp only
      rw [visitRecords_of_visits hheader hvisits]
      dsimp only
      rw [hkept]
      dsimp only
      rw [segmentToParquet, hnewRows]
      dsimp only
      rw [hparquet]
    · rw [SortedMap.get?_insert, if_neg hmirror, hframe path hpath]
    · cases hok
      refine ⟨rfl, ⟨_, hobject, hnewRows⟩, rfl, rfl, hkeptRows.length_eq, ?_, ?_, by simp [compactReceipt], ?_⟩
      · rw [← hkeptRows.map_lsn]
        rfl
      · rw [← hkeptRows.map_lsn]
        rfl
      · show visited.length - kept.length = _
        rw [hrows.length_eq, hkeptRows.length_eq]

end Tier
end Heraclitus
