import Heraclitus.Lib.Lookup
import Heraclitus.V6Manifest
import Heraclitus.V6Writer
import Mathlib.Data.List.Induction
import Mathlib.Data.List.InsertIdx
import Mathlib.Data.List.Nodup
import Mathlib.Data.List.Pairwise
/-!
# V6ManifestLookup — from an LSN to its segment in the catalogue (`heraclitus-core/src/runtime.rs`, `v6/manifest.rs`)

The catalogue is kept in the order of the first LSNs and searched by the last ones.  A segment that was sealed without a record
is registered under the LSNs 0 to 0, where the segment that holds the first record of a log may stand too.
-/
namespace Heraclitus

/-! ## The model -/

/-- `may_contain_hlc_range`. -/
def SegmentDescriptorV2.mayContainHlcRange (s : SegmentDescriptorV2) (lo hi : Nat) : Bool :=
  decide (s.recordCount = 0 ∨ lo ≤ s.maxHlc ∧ s.minHlc ≤ hi)

def SegmentDescriptorV2.mayContainLsnRange (s : SegmentDescriptorV2) (lo hi : Nat) : Bool :=
  decide (s.recordCount = 0 ∨ lo ≤ s.lastLsn ∧ s.firstLsn ≤ hi)

def DatabaseManifest.segmentsForHlcRange (m : DatabaseManifest) (lo hi : Nat) : List SegmentDescriptorV2 :=
  m.segmentsV2.filter (fun s => s.mayContainHlcRange lo hi)

def DatabaseManifest.segmentsForLsnRange (m : DatabaseManifest) (lo hi : Nat) : List SegmentDescriptorV2 :=
  m.segmentsV2.filter (fun s => s.mayContainLsnRange lo hi)

/-- Does the descriptor say that the segment holds the LSN? -/
def SegmentDescriptorV2.holdsLsn (s : SegmentDescriptorV2) (lsn : Nat) : Bool :=
  decide (0 < s.recordCount) && decide (s.firstLsn ≤ lsn) && decide (lsn ≤ s.lastLsn)

/-- `find_segment_for_lsn`, over any `partition_point`. -/
def DatabaseManifest.findSegmentWith (point : (SegmentDescriptorV2 → Bool) → List SegmentDescriptorV2 → Nat)
    (m : DatabaseManifest) (lsn : Nat) : Option SegmentDescriptorV2 :=
  (m.segmentsV2[point (fun s => decide (s.lastLsn < lsn)) m.segmentsV2]?).filter (fun s => s.holdsLsn lsn)

theorem DatabaseManifest.findSegmentForLsn_eq (m : DatabaseManifest) (lsn : Nat) :
    m.findSegmentForLsn lsn = m.findSegmentWith partitionPoint lsn := rfl

namespace V6

/-- A sealed segment of a log, which holds consecutive LSNs. -/
structure SealedSegment where
  header : FileHeaderV6
  records : List RawRecord
  numbered : Numbered header.firstLsn records
  bounded : header.firstLsn + records.length ≤ 2 ^ 64

variable (blake3 : Bytes → Digest) (hashOf : RawRecord → Digest)

/-- The footer that it was sealed with. -/
def SealedSegment.footer (g : SealedSegment) : FooterV6 := (written blake3 hashOf g.header g.records).footer blake3

def SealedSegment.id (g : SealedSegment) : Nat := g.header.segmentId

/-- A manifest that `register_sealed_raw` built, and the segments in the order in which each was registered first. -/
inductive Registered : List SealedSegment → DatabaseManifest → Prop
  | nothing (m : DatabaseManifest) : m.segmentsV2 = [] → Registered [] m
  | first {order : List SealedSegment} {m m' : DatabaseManifest} (g : SealedSegment) (canonicalCodec : Nat) (location : String)
      (physicalSize : Nat) (physicalDigest : Digest) (nowHlc : Nat) : Registered order m → (∀ x ∈ order, x.id ≠ g.id) →
      registerSealedRaw m g.id (g.footer blake3 hashOf) canonicalCodec location physicalSize physicalDigest nowHlc = .ok m' →
      Registered (order ++ [g]) m'
  | again {order : List SealedSegment} {m m' : DatabaseManifest} (g : SealedSegment) (canonicalCodec : Nat) (location : String)
      (physicalSize : Nat) (physicalDigest : Digest) (nowHlc : Nat) : Registered order m → g ∈ order →
      registerSealedRaw m g.id (g.footer blake3 hashOf) canonicalCodec location physicalSize physicalDigest nowHlc = .ok m' →
      Registered order m'

/-! ## What a footer says -/

def SealedSegment.low (g : SealedSegment) : Nat := if g.records = [] then 0 else g.header.firstLsn

def SealedSegment.high (g : SealedSegment) : Nat := if g.records = [] then 0 else g.header.firstLsn + (g.records.length - 1)

theorem SealedSegment.mem_lsns {g : SealedSegment} {lsn : Nat} :
    (∃ r ∈ g.records, r.lsn = lsn) ↔ g.records ≠ [] ∧ g.low ≤ lsn ∧ lsn ≤ g.high := by
  unfold SealedSegment.low SealedSegment.high
  constructor
  · rintro ⟨r, hr, rfl⟩
    have hne : g.records ≠ [] := List.ne_nil_of_mem hr
    have := g.numbered.le_lsn r hr
    rw [if_neg hne, if_neg hne]
    exact ⟨hne, by omega⟩
  · rintro ⟨hne, hlow, hhigh⟩
    rw [if_neg hne] at hlow hhigh
    have hpos := List.length_pos_iff.2 hne
    have hlt : lsn - g.header.firstLsn < g.records.length := by omega
    refine ⟨_, List.getElem_mem hlt, ?_⟩
    rw [g.numbered.getElem? (List.getElem?_eq_getElem hlt)]
    omega

/-- **The ranges of a footer**: those of the records, and zeros where there are none. -/
theorem SealedSegment.footer_spec (g : SealedSegment) : (g.footer blake3 hashOf).recordCount = g.records.length ∧
    (g.footer blake3 hashOf).minLsn = g.low ∧ (g.footer blake3 hashOf).maxLsn = g.high ∧
    ∀ r ∈ g.records, (g.footer blake3 hashOf).minHlc ≤ r.hlc ∧ r.hlc ≤ (g.footer blake3 hashOf).maxHlc := by
  have hk := kept_written blake3 hashOf g.header g.records
  unfold SealedSegment.footer SealedSegment.low SealedSegment.high RawSegmentWriter.footer
  dsimp only
  rw [written_recordCount]
  by_cases hnil : g.records = []
  · rw [if_pos hnil, if_pos hnil, hnil]
    exact ⟨rfl, rfl, rfl, fun r hr => absurd hr List.not_mem_nil⟩
  · have hpos := List.length_pos_iff.2 hnil
    have hcount : ¬g.records.length = 0 := Nat.ne_of_gt hpos
    simp only [if_neg hnil, if_neg hcount, hk.minLsn, hk.maxLsn, hk.minHlc, hk.maxHlc]
    have hbounds := g.numbered.le_lsn
    have hbounded := g.bounded
    have hends : ∀ i, i < g.records.length → g.header.firstLsn + i ∈ g.records.map RawRecord.lsn := fun i hi =>
      List.mem_map.2 ⟨_, List.getElem_mem hi, g.numbered.getElem? (List.getElem?_eq_getElem hi)⟩
    refine ⟨trivial, Nat.le_antisymm ((foldl_min_le _ _).2 _ (hends 0 hpos)) (le_foldl_min ?_ ?_),
      Nat.le_antisymm (foldl_max_le _ _ (Nat.zero_le _) ?_) ((le_foldl_max _ _).2 _ (hends _ (by omega))), fun r hr =>
      ⟨(foldl_min_le _ _).2 _ (List.mem_map_of_mem hr), (le_foldl_max _ _).2 _ (List.mem_map_of_mem hr)⟩⟩
    · show g.header.firstLsn ≤ u64Max
      unfold u64Max
      omega
    · rw [List.forall_mem_map]
      exact fun r hr => (hbounds r hr).1
    · rw [List.forall_mem_map]
      intro r hr
      have := hbounds r hr
      omega

/-! ## The order of the catalogue -/

/-- What of a segment the lookups look at. -/
structure Entry where
  id : Nat
  low : Nat
  high : Nat
  count : Nat
  minHlc : Nat
  maxHlc : Nat

def Entry.holds (e : Entry) (lsn : Nat) : Bool := decide (0 < e.count) && decide (e.low ≤ lsn) && decide (lsn ≤ e.high)

def Entry.atZero (e : Entry) : Bool := decide (e.low = 0)

/-- A new entry goes in front of the first that does not begin before it. -/
def insertEntry (l : List Entry) (e : Entry) : List Entry := l.insertIdx (partitionPoint (fun x => decide (x.low < e.low)) l) e

/-- The catalogue after these entries came one after the other. -/
def arrange (es : List Entry) : List Entry := es.foldl insertEntry []

theorem arrange_concat (es : List Entry) (e : Entry) : arrange (es ++ [e]) = insertEntry (arrange es) e := by
  unfold arrange
  rw [List.foldl_append]
  rfl

theorem perm_insertEntry (l : List Entry) (e : Entry) : (insertEntry l e).Perm (e :: l) :=
  List.perm_insertIdx e l (List.takeWhile_prefix _).length_le

theorem perm_arrange (es : List Entry) : (arrange es).Perm es := by
  induction es using List.reverseRecOn with
  | nil => exact List.Perm.refl _
  | append_singleton es e ih =>
    rw [arrange_concat]
    exact (perm_insertEntry _ e).trans ((List.Perm.cons e ih).trans (List.perm_append_singleton e es).symm)

theorem sorted_arrange (es : List Entry) : ((arrange es).map Entry.low).Pairwise (· ≤ ·) := by
  induction es using List.reverseRecOn with
  | nil => exact List.Pairwise.nil
  | append_singleton es e ih =>
    rw [arrange_concat]
    exact pairwise_insertIdx_partitionPoint e ih

theorem filter_insertIdx_of_false {α : Type} {p : α → Bool} {a : α} (ha : p a = false) : ∀ (l : List α) (i : Nat),
    (l.insertIdx i a).filter p = l.filter p
  | [], 0 => by rw [List.insertIdx_zero, List.filter_cons_of_neg (by rw [ha]; exact Bool.false_ne_true)]
  | [], i + 1 => by rw [List.insertIdx_succ_nil]
  | x :: l, 0 => by rw [List.insertIdx_zero, List.filter_cons_of_neg (by rw [ha]; exact Bool.false_ne_true)]
  | x :: l, i + 1 => by
    rw [List.insertIdx_succ_cons, List.filter_cons, List.filter_cons, filter_insertIdx_of_false ha l i]

/-- **At LSN 0 the last one comes first.** -/
theorem filter_arrange (es : List Entry) :
    (arrange es).filter Entry.atZero = (es.filter Entry.atZero).reverse := by
  induction es using List.reverseRecOn with
  | nil => rfl
  | append_singleton es e ih =>
    rw [arrange_concat, insertEntry, List.filter_append, List.reverse_append]
    by_cases he : e.low = 0
    · have hpoint : partitionPoint (fun x : Entry => decide (x.low < e.low)) (arrange es) = 0 := by
        refine partitionPoint_eq (fun i x _ => ?_) (Nat.zero_le _)
        rw [decide_eq_true_iff, he]
        exact Iff.intro (fun h => absurd h (Nat.not_lt_zero _)) (fun h => absurd h (Nat.not_lt_zero _))
      have htrue : e.atZero = true := decide_eq_true he
      rw [hpoint, List.insertIdx_zero, List.filter_cons_of_pos htrue, ih, List.filter_cons_of_pos htrue]
      rfl
    · have hfalse : e.atZero = false := decide_eq_false he
      rw [filter_insertIdx_of_false hfalse, ih, List.filter_cons_of_neg (by rw [hfalse]; exact Bool.false_ne_true)]
      rfl

section Search

variable {es : List Entry}

/-- Entries as footers declare them: none, or a range that meets no other. -/
structure Declared (es : List Entry) : Prop where
  empty : ∀ e ∈ es, e.count = 0 → e.low = 0 ∧ e.high = 0
  range : ∀ e ∈ es, 0 < e.count → e.low ≤ e.high
  disjoint : es.Pairwise (fun a b => 0 < a.count → 0 < b.count → a.high < b.low ∨ b.high < a.low)

/-- No entry begins at LSN 0, or none is empty; or the one that begins there ends there, and no empty one came after it. -/
def ZeroFirst (es : List Entry) : Prop :=
  (∀ e ∈ es, 0 < e.count → e.low ≠ 0) ∨ (∀ e ∈ es, 0 < e.count) ∨
    (∀ e ∈ es, 0 < e.count → e.low = 0 → e.high = 0) ∧ es.Pairwise (fun a b => 0 < a.count → a.low = 0 → 0 < b.count)

theorem Entry.holds_iff {e : Entry} {lsn : Nat} : e.holds lsn = true ↔ 0 < e.count ∧ e.low ≤ lsn ∧ lsn ≤ e.high := by
  unfold Entry.holds
  rw [Bool.and_eq_true, Bool.and_eq_true, decide_eq_true_iff, decide_eq_true_iff, decide_eq_true_iff, and_assoc]

/-- **The order of the catalogue**: by the first LSNs, so that one range ends before the next begins. -/
theorem Declared.ordered (h : Declared es) :
    (arrange es).Pairwise (fun a b => a.low ≤ b.low ∧ (0 < a.count → 0 < b.count → a.high < b.low)) := by
  have hmem : ∀ e, e ∈ arrange es ↔ e ∈ es := fun e => (perm_arrange es).mem_iff
  have hsymm : ∀ {a b : Entry}, (0 < a.count → 0 < b.count → a.high < b.low ∨ b.high < a.low) →
      0 < b.count → 0 < a.count → b.high < a.low ∨ a.high < b.low := fun hab hb ha => (hab ha hb).symm
  have hdisjoint := ((perm_arrange es).pairwise_iff hsymm).2 h.disjoint
  refine List.Pairwise.imp_of_mem (fun {a b} _ hb hab => ⟨hab.1, fun hacount hbcount => ?_⟩)
    ((List.pairwise_map.1 (sorted_arrange es)).and hdisjoint)
  have := h.range b ((hmem b).1 hb) hbcount
  rcases hab.2 hacount hbcount with hlt | hlt
  · exact hlt
  · omega

/-- No empty entry stands in front of one that begins at LSN 0, exactly if none came after it. -/
theorem Declared.zeros (h : Declared es) : (arrange es).Pairwise (fun a b => a.count = 0 → 0 < b.count → b.low ≠ 0) ↔
    es.Pairwise (fun a b => 0 < a.count → a.low = 0 → 0 < b.count) := by
  have hempty : ∀ {e}, e ∈ es → e.count = 0 → e.atZero = true := fun he hcount => decide_eq_true (h.empty _ he hcount).1
  have hfront : (arrange es).Pairwise (fun a b => a.count = 0 → 0 < b.count → b.low ≠ 0) ↔
      ((arrange es).filter Entry.atZero).Pairwise (fun a b => a.count = 0 → 0 < b.count → b.low ≠ 0) := by
    rw [List.pairwise_filter]
    refine List.Pairwise.iff_of_mem (fun {a b} ha _ => ⟨fun hab _ _ => hab, fun hab hcount hpos hzero => ?_⟩)
    exact hab (hempty ((perm_arrange es).mem_iff.1 ha) hcount) (decide_eq_true hzero) hcount hpos hzero
  rw [hfront, filter_arrange, List.pairwise_reverse, List.pairwise_filter]
  refine List.Pairwise.iff_of_mem (fun {a b} _ hb => ⟨fun hab hpos hzero => ?_, fun hab _ _ hcount hpos hzero => ?_⟩)
  · by_contra hnot
    have hcount : b.count = 0 := by omega
    exact hab (decide_eq_true hzero) (hempty hb hcount) hcount hpos hzero
  · have := hab hpos hzero
    omega

/-- **When the search over the catalogue works** for every LSN that an entry holds. -/
theorem Declared.searchable_iff (h : Declared es) :
    (∀ lsn, (∃ e ∈ arrange es, e.holds lsn = true) →
      Searchable (fun e => decide (e.high < lsn)) (fun e => e.holds lsn) (arrange es)) ↔ ZeroFirst es := by
  have hmem : ∀ {e}, e ∈ arrange es → e ∈ es := fun he => (perm_arrange es).mem_iff.1 he
  have hordered := h.ordered
  constructor
  · intro hsearch
    by_cases hnone : ∀ e ∈ es, 0 < e.count → e.low ≠ 0
    · exact .inl hnone
    · by_cases hall : ∀ e ∈ es, 0 < e.count
      · exact .inr (.inl hall)
      · push Not at hnone hall
        obtain ⟨z, hz, hzcount, hzlow⟩ := hnone
        obtain ⟨x, hx, hxcount⟩ := hall
        have hzA : z ∈ arrange es := (perm_arrange es).mem_iff.2 hz
        have hholds : ∀ {e}, e ∈ es → 0 < e.count → e.low = 0 → e.holds 0 = true := fun _ hpos hlow =>
          Entry.holds_iff.2 ⟨hpos, Nat.le_of_eq hlow, Nat.zero_le _⟩
        -- what stands in front of the entry that begins at LSN 0 would hide it
        have hzeros : (arrange es).Pairwise (fun a b => a.count = 0 → 0 < b.count → b.low ≠ 0) := by
          obtain ⟨-, hbehind⟩ := hsearch 0 ⟨z, hzA, hholds hz hzcount hzlow⟩
          rw [pairwise_iff_split] at hordered ⊢
          intro pre a post hsplit b hb hcount hpos hzero
          have hnot : a.holds 0 = false := by
            rw [Bool.eq_false_iff]
            exact fun ha => absurd (Entry.holds_iff.1 ha).1 (by omega)
          obtain ⟨c, hc, hcholds⟩ := hbehind pre a post hsplit (decide_eq_false (Nat.not_lt_zero _)) hnot
          obtain ⟨pre', mid, rfl⟩ := List.append_of_mem hc
          have := (hordered pre' c (mid ++ a :: post) (by rw [hsplit, List.append_assoc, List.cons_append]) b
            (List.mem_append_right mid (List.mem_cons_of_mem a hb))).2 (Entry.holds_iff.1 hcholds).1 hpos
          omega
        refine .inr (.inr ⟨fun e he hpos hlow => ?_, h.zeros.1 hzeros⟩)
        by_contra hhigh
        obtain ⟨hpart, -⟩ := hsearch 1 ⟨e, (perm_arrange es).mem_iff.2 he, Entry.holds_iff.2 ⟨hpos, by omega, by omega⟩⟩
        obtain ⟨pre, post, hsplit⟩ := List.append_of_mem ((perm_arrange es).mem_iff.2 he)
        have hxA := (perm_arrange es).mem_iff.2 hx
        rw [hsplit] at hxA
        rcases List.mem_append.1 hxA with hxpre | hxpost
        · obtain ⟨pre', mid, rfl⟩ := List.append_of_mem hxpre
          exact pairwise_iff_split.1 hzeros pre' x (mid ++ e :: post) (by rw [hsplit, List.append_assoc, List.cons_append]) e
            (List.mem_append_right mid List.mem_cons_self) (by omega) hpos hlow
        · rcases List.mem_cons.1 hxpost with rfl | hxpost
          · omega
          · have hlast := (h.empty x hx (by omega)).2
            have := of_decide_eq_true (pairwise_iff_split.1 hpart pre e post hsplit x hxpost (decide_eq_true (by omega)))
            omega
  · intro hzero lsn hsome
    obtain ⟨g, hg, hgholds⟩ := hsome
    obtain ⟨hgpos, hglow, hghigh⟩ := Entry.holds_iff.1 hgholds
    rw [pairwise_iff_split] at hordered
    constructor
    · rw [pairwise_iff_split]
      intro pre a post hsplit b hb hbefore
      have ha : a ∈ es := hmem (hsplit ▸ List.mem_append_right pre List.mem_cons_self)
      have hbes : b ∈ es := hmem (hsplit ▸ List.mem_append_right pre (List.mem_cons_of_mem a hb))
      have hblt : b.high < lsn := of_decide_eq_true hbefore
      obtain ⟨hle, hapart⟩ := hordered pre a post hsplit b hb
      refine decide_eq_true (Nat.lt_of_not_le (fun hreach => ?_))
      rcases Nat.eq_zero_or_pos a.count with hacount | hacount
      · have := (h.empty a ha hacount).2
        omega
      · rcases Nat.eq_zero_or_pos b.count with hbcount | hbcount
        · have hbzero := h.empty b hbes hbcount
          have halow : a.low = 0 := by omega
          rcases hzero with hnone | hall | ⟨hshort, -⟩
          · exact hnone a ha hacount halow
          · have := hall b hbes
            omega
          · have := hshort a ha hacount halow
            omega
        · have := hapart hacount hbcount
          have := h.range b hbes hbcount
          omega
    · intro pre a post hsplit hstop hnot
      have hreach : lsn ≤ a.high := Nat.not_lt.1 (of_decide_eq_false hstop)
      have ha : a ∈ es := hmem (hsplit ▸ List.mem_append_right pre List.mem_cons_self)
      have hgsplit := hg
      rw [hsplit] at hgsplit
      rcases List.mem_append.1 hgsplit with hgpre | hgpost
      · exact ⟨g, hgpre, hgholds⟩
      · exfalso
        rcases List.mem_cons.1 hgpost with rfl | hgpost
        · rw [hgholds] at hnot
          cases hnot
        · have hle := (hordered pre a post hsplit g hgpost).1
          rcases Nat.eq_zero_or_pos a.count with hacount | hacount
          · have hazero := h.empty a ha hacount
            have hgzero : g.low = 0 := by omega
            rcases hzero with hnone | hall | ⟨-, hlate⟩
            · exact hnone g (hmem hg) hgpos hgzero
            · have := hall a ha
              omega
            · exact pairwise_iff_split.1 (h.zeros.2 hlate) pre a post hsplit g hgpost hacount hgpos hgzero
          · rw [Entry.holds_iff.2 ⟨hacount, by omega, hreach⟩] at hnot
            cases hnot

end Search

/-! ## What registering makes of the catalogue -/

def entryOf (s : SegmentDescriptorV2) : Entry :=
  { id := s.segmentId, low := s.firstLsn, high := s.lastLsn, count := s.recordCount, minHlc := s.minHlc, maxHlc := s.maxHlc }

def SealedSegment.entry (g : SealedSegment) : Entry :=
  let footer := g.footer blake3 hashOf
  { id := g.id, low := footer.minLsn, high := footer.maxLsn, count := footer.recordCount, minHlc := footer.minHlc
    maxHlc := footer.maxHlc }

variable {blake3 hashOf} {order : List SealedSegment} {m m' : DatabaseManifest}

theorem segmentsV2_of_registerSealedRaw {segmentId : Nat} {footer : FooterV6} {canonicalCodec : Nat} {location : String}
    {physicalSize : Nat} {physicalDigest : Digest} {nowHlc : Nat}
    (h : registerSealedRaw m segmentId footer canonicalCodec location physicalSize physicalDigest nowHlc = .ok m') :
    m'.segmentsV2 = (m.upsertSegment
      (sealedDescriptor segmentId footer canonicalCodec location physicalSize physicalDigest nowHlc)).segmentsV2 := by
  unfold registerSealedRaw at h
  split at h
  · cases h
  · dsimp only at h
    split at h
    · cases h
    · cases h
      rfl

theorem Registered.ids (h : Registered blake3 hashOf order m) : (order.map SealedSegment.id).Nodup := by
  induction h with
  | nothing => exact List.nodup_nil
  | first g _ _ _ _ _ _ hnew _ ih =>
    rw [List.map_append, List.nodup_append]
    refine ⟨ih, List.nodup_singleton _, fun a ha b hb => ?_⟩
    obtain ⟨x, hx, rfl⟩ := List.mem_map.1 ha
    rw [List.mem_singleton.1 hb]
    exact hnew x hx
  | again _ _ _ _ _ _ _ _ _ ih => exact ih

theorem set_of_getElem? {α : Type} {l : List α} {i : Nat} {a : α} (h : l[i]? = some a) : l.set i a = l := by
  obtain ⟨hi, rfl⟩ := List.getElem?_eq_some_iff.1 h
  exact List.set_getElem_self hi

/-- A descriptor in the catalogue is one of a segment. -/
theorem exists_of_entries {es : List Entry} (h : m.segmentsV2.map entryOf = arrange es) {s : SegmentDescriptorV2}
    (hs : s ∈ m.segmentsV2) : entryOf s ∈ es := by
  have hmem : entryOf s ∈ arrange es := h ▸ List.mem_map_of_mem hs
  exact (perm_arrange es).mem_iff.1 hmem

/-- **The catalogue is the arrangement** of the segments in the order in which they came. -/
theorem Registered.entries (h : Registered blake3 hashOf order m) :
    m.segmentsV2.map entryOf = arrange (order.map (SealedSegment.entry blake3 hashOf)) := by
  induction h with
  | nothing m hm =>
    rw [hm]
    rfl
  | first g canonicalCodec location physicalSize physicalDigest nowHlc hreg hnew hcall ih =>
    rename_i order m m'
    have hnone : m.segmentsV2.findIdx? (fun s => s.segmentId == g.id) = none := by
      rw [List.findIdx?_eq_none_iff]
      intro s hs
      obtain ⟨x, hx, heq⟩ := List.mem_map.1 (exists_of_entries ih hs)
      have hid : x.id = s.segmentId := congrArg Entry.id heq
      exact beq_eq_false_iff_ne.2 (hid ▸ hnew x hx)
    have hupsert : m'.segmentsV2 = m.segmentsV2.insertIdx (partitionPoint (fun s => decide (s.firstLsn <
        (g.footer blake3 hashOf).minLsn)) m.segmentsV2) (sealedDescriptor g.id (g.footer blake3 hashOf) canonicalCodec location
        physicalSize physicalDigest nowHlc) := by
      rw [segmentsV2_of_registerSealedRaw hcall, DatabaseManifest.upsertSegment]
      dsimp only
      rw [show (sealedDescriptor g.id (g.footer blake3 hashOf) canonicalCodec location physicalSize physicalDigest
        nowHlc).segmentId = g.id from rfl, hnone]
      rfl
    rw [hupsert, List.map_insertIdx, List.map_append, List.map_singleton, arrange_concat, ← ih, insertEntry, partitionPoint_map]
    rfl
  | again g canonicalCodec location physicalSize physicalDigest nowHlc hreg hg hcall ih =>
    rename_i order m m'
    rw [segmentsV2_of_registerSealedRaw hcall, ← ih, DatabaseManifest.upsertSegment]
    dsimp only
    cases hfind : m.segmentsV2.findIdx? (fun s => s.segmentId == (sealedDescriptor g.id (g.footer blake3 hashOf) canonicalCodec
        location physicalSize physicalDigest nowHlc).segmentId) with
    | none =>
      exfalso
      have hmem : g.entry blake3 hashOf ∈ m.segmentsV2.map entryOf := by
        rw [ih, (perm_arrange _).mem_iff]
        exact List.mem_map_of_mem hg
      obtain ⟨s, hs, heq⟩ := List.mem_map.1 hmem
      have hid : s.segmentId = g.id := congrArg Entry.id heq
      exact beq_eq_false_iff_ne.1 (List.findIdx?_eq_none_iff.1 hfind s hs) hid
    | some i =>
      -- the descriptor that is replaced says the same of the segment
      obtain ⟨hi, hmatch, -⟩ := List.findIdx?_eq_some_iff_getElem.1 hfind
      obtain ⟨x, hx, heq⟩ := List.mem_map.1 (exists_of_entries ih (List.getElem_mem hi))
      have hid : x.id = g.id := (congrArg Entry.id heq).trans (beq_iff_eq.1 hmatch)
      obtain rfl := List.inj_on_of_nodup_map hreg.ids hx hg hid
      dsimp only
      rw [List.map_set]
      refine set_of_getElem? ?_
      rw [List.getElem?_map, List.getElem?_eq_getElem hi, Option.map_some, ← heq]
      rfl

/-! ## The lookups -/

/-- The lookups answer as the records of the segments do. -/
structure LookupsExact (point : (SegmentDescriptorV2 → Bool) → List SegmentDescriptorV2 → Nat) (order : List SealedSegment)
    (m : DatabaseManifest) : Prop where
  found : ∀ lsn, ∀ g ∈ order, (∃ r ∈ g.records, r.lsn = lsn) → ∃ s, m.findSegmentWith point lsn = some s ∧ s.segmentId = g.id
  missed : ∀ lsn, (∀ g ∈ order, ∀ r ∈ g.records, r.lsn ≠ lsn) → m.findSegmentWith point lsn = none
  inLsnRange : ∀ lo hi, ∀ g ∈ order, (∃ r ∈ g.records, lo ≤ r.lsn ∧ r.lsn ≤ hi) →
    ∃ s ∈ m.segmentsForLsnRange lo hi, s.segmentId = g.id
  inHlcRange : ∀ lo hi, ∀ g ∈ order, (∃ r ∈ g.records, lo ≤ r.hlc ∧ r.hlc ≤ hi) →
    ∃ s ∈ m.segmentsForHlcRange lo hi, s.segmentId = g.id

theorem holds_entry {g : SealedSegment} {lsn : Nat} :
    (g.entry blake3 hashOf).holds lsn = true ↔ ∃ r ∈ g.records, r.lsn = lsn := by
  obtain ⟨hcount, hlow, hhigh, -⟩ := g.footer_spec blake3 hashOf
  rw [Entry.holds_iff, SealedSegment.mem_lsns]
  show 0 < (g.footer blake3 hashOf).recordCount ∧ (g.footer blake3 hashOf).minLsn ≤ lsn ∧ lsn ≤ (g.footer blake3 hashOf).maxLsn ↔ _
  rw [hcount, hlow, hhigh, List.length_pos_iff]

theorem declared_entries (hdisjoint : order.Pairwise (fun a b => ∀ r ∈ a.records, ∀ s ∈ b.records, r.lsn ≠ s.lsn)) :
    Declared (order.map (SealedSegment.entry blake3 hashOf)) := by
  have hspec := SealedSegment.footer_spec blake3 hashOf
  have hcount : ∀ g : SealedSegment, (g.entry blake3 hashOf).count = g.records.length := fun g => (hspec g).1
  have hlow : ∀ g : SealedSegment, (g.entry blake3 hashOf).low = g.low := fun g => (hspec g).2.1
  have hhigh : ∀ g : SealedSegment, (g.entry blake3 hashOf).high = g.high := fun g => (hspec g).2.2.1
  have hrange : ∀ g : SealedSegment, g.records ≠ [] → g.low ≤ g.high := fun g hne => by
    unfold SealedSegment.low SealedSegment.high
    rw [if_neg hne, if_neg hne]
    exact Nat.le_add_right _ _
  refine ⟨?_, ?_, ?_⟩
  · rw [List.forall_mem_map]
    intro g _ hzero
    have hnil : g.records = [] := List.length_eq_zero_iff.1 (hcount g ▸ hzero)
    rw [hlow, hhigh, SealedSegment.low, SealedSegment.high, if_pos hnil, if_pos hnil]
    exact ⟨rfl, rfl⟩
  · rw [List.forall_mem_map]
    intro g _ hpos
    rw [hlow, hhigh]
    exact hrange g (List.length_pos_iff.1 (hcount g ▸ hpos))
  · rw [List.pairwise_map]
    refine hdisjoint.imp (fun {a b} hab ha hb => ?_)
    rw [hcount, List.length_pos_iff] at ha hb
    rw [hlow, hlow, hhigh, hhigh]
    -- two ranges that meet share the LSN at which the later one begins
    by_contra hmeet
    push Not at hmeet
    have harange := hrange a ha
    have hbrange := hrange b hb
    obtain ⟨r, hr, hrlsn⟩ := SealedSegment.mem_lsns.2 ⟨ha, Nat.le_max_left a.low b.low, by omega⟩
    obtain ⟨s, hs, hslsn⟩ := SealedSegment.mem_lsns.2 ⟨hb, Nat.le_max_right a.low b.low, by omega⟩
    exact hab r hr s hs (hrlsn.trans hslsn.symm)

/-- In the order of registration: no segment holds LSN 0, or none is empty; or the one that holds LSN 0 holds nothing else, and
no empty segment was registered after it. -/
def EmptiesFirst (order : List SealedSegment) : Prop :=
  (∀ g ∈ order, g.records ≠ [] → g.header.firstLsn ≠ 0) ∨ (∀ g ∈ order, g.records ≠ []) ∨
    (∀ g ∈ order, g.records ≠ [] → g.header.firstLsn = 0 → g.records.length = 1) ∧
      order.Pairwise (fun a b => a.records ≠ [] → a.header.firstLsn = 0 → b.records ≠ [])

theorem zeroFirst_entries : ZeroFirst (order.map (SealedSegment.entry blake3 hashOf)) ↔ EmptiesFirst order := by
  have hspec := SealedSegment.footer_spec blake3 hashOf
  have hcount : ∀ g : SealedSegment, 0 < (g.entry blake3 hashOf).count ↔ g.records ≠ [] := fun g => by
    rw [← List.length_pos_iff, ← (hspec g).1]
    rfl
  have hlow : ∀ g : SealedSegment, g.records ≠ [] → (g.entry blake3 hashOf).low = g.header.firstLsn := fun g hne =>
    (hspec g).2.1.trans (if_neg hne)
  have hhigh : ∀ g : SealedSegment, g.records ≠ [] → (g.entry blake3 hashOf).high = g.header.firstLsn + (g.records.length - 1) :=
    fun g hne => (hspec g).2.2.1.trans (if_neg hne)
  unfold ZeroFirst EmptiesFirst
  rw [List.forall_mem_map, List.forall_mem_map, List.forall_mem_map, List.pairwise_map]
  refine or_congr (forall₂_congr fun g _ => ?_) (or_congr (forall₂_congr fun g _ => hcount g)
    (and_congr (forall₂_congr fun g _ => ?_) (List.Pairwise.iff (fun a b => ?_))))
  · rw [hcount]
    exact forall_congr' (fun hne => by rw [hlow g hne])
  · rw [hcount]
    refine forall_congr' (fun hne => ?_)
    have := List.length_pos_iff.2 hne
    rw [hlow g hne, hhigh g hne]
    exact forall_congr' (fun hzero => by omega)
  · rw [hcount, hcount]
    exact forall_congr' (fun hne => by rw [hlow a hne])

/-- **When the lookup in the catalogue is exact**, for every search that keeps its promise; the range queries always are. -/
theorem findSegmentForLsn_exact_iff (h : Registered blake3 hashOf order m)
    (hdisjoint : order.Pairwise (fun a b => ∀ r ∈ a.records, ∀ s ∈ b.records, r.lsn ≠ s.lsn)) :
    (∀ point, IsPartitionPoint point → LookupsExact point order m) ↔ EmptiesFirst order := by
  have hentries := h.entries
  have hdeclared : Declared (order.map (SealedSegment.entry blake3 hashOf)) := declared_entries hdisjoint
  have hsegment : ∀ s ∈ m.segmentsV2, ∃ g ∈ order, g.entry blake3 hashOf = entryOf s := fun s hs =>
    List.mem_map.1 (exists_of_entries hentries hs)
  have hdescriptor : ∀ g ∈ order, ∃ s ∈ m.segmentsV2, entryOf s = g.entry blake3 hashOf := by
    intro g hg
    have hmem : g.entry blake3 hashOf ∈ m.segmentsV2.map entryOf := by
      rw [hentries, (perm_arrange _).mem_iff]
      exact List.mem_map_of_mem hg
    exact List.mem_map.1 hmem
  have hsearchable : ∀ lsn, Searchable (fun s : SegmentDescriptorV2 => decide (s.lastLsn < lsn)) (fun s => s.holdsLsn lsn) m.segmentsV2 ↔
      Searchable (fun e : Entry => decide (e.high < lsn)) (fun e => e.holds lsn)
        (arrange (order.map (SealedSegment.entry blake3 hashOf))) := by
    intro lsn
    rw [← hentries, searchable_map]
    rfl
  have hbefore : ∀ lsn, ∀ s ∈ m.segmentsV2, s.holdsLsn lsn = true → decide (s.lastLsn < lsn) = false := by
    intro lsn s _ hholds
    exact decide_eq_false (Nat.not_lt.2 (Entry.holds_iff.1 (show (entryOf s).holds lsn = true from hholds)).2.2)
  have hholder : ∀ lsn, ∀ g ∈ order, (∃ r ∈ g.records, r.lsn = lsn) → ∃ s ∈ m.segmentsV2, s.holdsLsn lsn = true := by
    intro lsn g hg hr
    obtain ⟨s, hs, heq⟩ := hdescriptor g hg
    refine ⟨s, hs, show (entryOf s).holds lsn = true from ?_⟩
    rw [heq]
    exact holds_entry.2 hr
  have hfind : ∀ point lsn, m.findSegmentWith point lsn = (lookupWith point (fun s => decide (s.lastLsn < lsn))
      (fun s => s.holdsLsn lsn) m.segmentsV2).bind (fun i => m.segmentsV2[i]?) := fun point lsn => filter_getElem?_point
  rw [← @zeroFirst_entries blake3 hashOf, ← hdeclared.searchable_iff]
  constructor
  · rintro hexact lsn ⟨e, he, hholds⟩
    obtain ⟨g, hg, rfl⟩ := List.mem_map.1 ((perm_arrange _).mem_iff.1 he)
    have hr := holds_entry.1 hholds
    rw [← hsearchable, ← lookupWith_isSome_iff (hbefore lsn) (hholder lsn g hg hr)]
    intro point hpoint
    obtain ⟨s, hs, -⟩ := (hexact point hpoint).found lsn g hg hr
    rw [hfind] at hs
    obtain ⟨i, hi, -⟩ := Option.bind_eq_some_iff.1 hs
    exact Option.isSome_iff_exists.2 ⟨i, hi⟩
  · intro hsearch point hpoint
    refine ⟨fun lsn g hg hr => ?_, fun lsn hnone => ?_, fun lo hi g hg hr => ?_, fun lo hi g hg hr => ?_⟩
    · have hin : ∃ e ∈ arrange (order.map (SealedSegment.entry blake3 hashOf)), e.holds lsn = true :=
        ⟨_, (perm_arrange _).mem_iff.2 (List.mem_map_of_mem hg), holds_entry.2 hr⟩
      obtain ⟨i, hi⟩ := Option.isSome_iff_exists.1 ((lookupWith_isSome_iff (hbefore lsn) (hholder lsn g hg hr)).2
        ((hsearchable lsn).2 (hsearch lsn hin)) point hpoint)
      obtain ⟨s, hs, hholds⟩ := holds_of_lookupWith hi
      refine ⟨s, by rw [hfind, hi, Option.bind_some, hs], ?_⟩
      obtain ⟨g', hg', heq⟩ := hsegment s (List.mem_of_getElem? hs)
      obtain ⟨r, hr, hrlsn⟩ := hr
      obtain ⟨r', hr', hrlsn'⟩ := holds_entry.1 (show (g'.entry blake3 hashOf).holds lsn = true from heq ▸ hholds)
      -- no two segments hold one LSN
      have hsame : g' = g := by
        by_contra hne
        have hsymm : Std.Symm (fun a b : SealedSegment => ∀ r ∈ a.records, ∀ s ∈ b.records, r.lsn ≠ s.lsn) :=
          ⟨fun a b hab r hr s hs heq => hab s hs r hr heq.symm⟩
        exact hdisjoint.forall hg' hg hne r' hr' r hr (hrlsn'.trans hrlsn.symm)
      rw [← hsame]
      exact (congrArg Entry.id heq).symm
    · rw [hfind]
      cases hi : lookupWith point (fun s => decide (s.lastLsn < lsn)) (fun s => s.holdsLsn lsn) m.segmentsV2 with
      | none => rfl
      | some i =>
        obtain ⟨s, hs, hholds⟩ := holds_of_lookupWith hi
        obtain ⟨g, hg, heq⟩ := hsegment s (List.mem_of_getElem? hs)
        obtain ⟨r, hr, hrlsn⟩ := holds_entry.1 (show (g.entry blake3 hashOf).holds lsn = true from heq ▸ hholds)
        exact absurd hrlsn (hnone g hg r hr)
    · obtain ⟨s, hs, heq⟩ := hdescriptor g hg
      obtain ⟨r, hr, hlo, hhi⟩ := hr
      obtain ⟨-, hlow, hhigh⟩ := Entry.holds_iff.1 (holds_entry.2 ⟨r, hr, rfl⟩ : (g.entry blake3 hashOf).holds r.lsn = true)
      rw [← heq] at hlow hhigh
      exact ⟨s, List.mem_filter.2 ⟨hs, decide_eq_true (.inr ⟨Nat.le_trans hlo hhigh, Nat.le_trans hlow hhi⟩)⟩,
        congrArg Entry.id heq⟩
    · obtain ⟨s, hs, heq⟩ := hdescriptor g hg
      obtain ⟨r, hr, hlo, hhi⟩ := hr
      obtain ⟨hmin, hmax⟩ := (g.footer_spec blake3 hashOf).2.2.2 r hr
      have hminHlc : s.minHlc = (g.footer blake3 hashOf).minHlc := congrArg Entry.minHlc heq
      have hmaxHlc : s.maxHlc = (g.footer blake3 hashOf).maxHlc := congrArg Entry.maxHlc heq
      exact ⟨s, List.mem_filter.2 ⟨hs, decide_eq_true (.inr (by omega))⟩, congrArg Entry.id heq⟩

/-- A segment of a log: its first LSN and its records. -/
def sampleSegment (segmentId firstLsn : Nat) (records : List RawRecord) (numbered : Numbered firstLsn records)
    (bounded : firstLsn + records.length ≤ 2 ^ 64) : SealedSegment := {
  header := { physicalLayout := .raw, canonicalCodec := 1, flags := 1, segmentId := segmentId, createdHlc := 1
              firstLsn := firstLsn, writerEpoch := 0, storageNamespaceId := List.replicate 16 0 }
  records := records, numbered := numbered, bounded := bounded }

/-- The segment of the record with LSN 0, and one that was sealed behind it without a record. -/
def firstSegment : SealedSegment := sampleSegment 0 0 [{ lsn := 0, hlc := 5, payload := [1] }] ⟨rfl, trivial⟩ (by decide)

def emptySegment : SealedSegment := sampleSegment 1 1 [] trivial (by decide)

/-- What is registered of a segment. -/
def sampleDescriptor (g : SealedSegment) : SegmentDescriptorV2 :=
  sealedDescriptor g.id (g.footer (fun _ => Digest.replicate 0) (fun _ => Digest.replicate 0)) 1 "cold" 200 (Digest.replicate 9) 7

theorem registered_firstSegment : Registered (fun _ => Digest.replicate 0) (fun _ => Digest.replicate 0) [firstSegment]
    { segmentsV2 := [sampleDescriptor firstSegment] } :=
  .first firstSegment 1 "cold" 200 (Digest.replicate 9) 7 (.nothing {} rfl) (fun _ hx => absurd hx List.not_mem_nil) rfl

theorem first_segment_looked_up : EmptiesFirst [firstSegment] ∧
    ((∀ point, IsPartitionPoint point → LookupsExact point [firstSegment] { segmentsV2 := [sampleDescriptor firstSegment] }) ↔
      EmptiesFirst [firstSegment]) :=
  ⟨.inr (.inl (fun _ hg => by rw [List.mem_singleton.1 hg]; exact List.cons_ne_nil _ _)),
    findSegmentForLsn_exact_iff registered_firstSegment (List.pairwise_singleton _ _)⟩

theorem empty_segment_hides_first :
    Registered (fun _ => Digest.replicate 0) (fun _ => Digest.replicate 0) [firstSegment, emptySegment]
      { segmentsV2 := [sampleDescriptor emptySegment, sampleDescriptor firstSegment] } ∧
    [firstSegment, emptySegment].Pairwise (fun a b => ∀ r ∈ a.records, ∀ s ∈ b.records, r.lsn ≠ s.lsn) ∧
    (∃ r ∈ firstSegment.records, r.lsn = 0) ∧
    ({ segmentsV2 := [sampleDescriptor emptySegment, sampleDescriptor firstSegment] } : DatabaseManifest).findSegmentForLsn 0 =
      none ∧
    ¬∀ point, IsPartitionPoint point → LookupsExact point [firstSegment, emptySegment]
      { segmentsV2 := [sampleDescriptor emptySegment, sampleDescriptor firstSegment] } := by
  have hholds : ∃ r ∈ firstSegment.records, r.lsn = 0 := ⟨_, List.mem_singleton.2 rfl, rfl⟩
  refine ⟨?_, List.pairwise_pair.2 (fun r _ s hs => absurd hs List.not_mem_nil), hholds, rfl, fun h => ?_⟩
  · refine .first emptySegment 1 "cold" 200 (Digest.replicate 9) 7 registered_firstSegment (fun x hx => ?_) rfl
    rw [List.mem_singleton.1 hx]
    decide
  · obtain ⟨s, hs, -⟩ := (h _ isPartitionPoint_partitionPoint).found 0 firstSegment List.mem_cons_self hholds
    rw [← DatabaseManifest.findSegmentForLsn_eq] at hs
    cases hs

end V6
end Heraclitus
