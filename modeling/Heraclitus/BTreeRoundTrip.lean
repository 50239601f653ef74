import Heraclitus.BTreeCodes
import Heraclitus.Lib.Extrema
/-!
# BTreeRoundTrip — when a page that was written is read back as the node

The header says where the cursors ended and where the fence keys and the prefix stand.  Where the cursors have crossed, the page
is refused; where they have not, everything is read back but what the page never held.
-/
namespace Heraclitus
namespace BTree

open Legacy (Hashes)

variable {α β : Type} {p p₁ p' p'' : Page} {fields : List (Nat × Bytes)} {words more item bytes data : Bytes} {n : DiskNode}

/-! ## The header -/

theorem Page.Sound.putHeader {off : Nat} (bytes : Bytes) (hp : p.Sound) (h : off + bytes.length ≤ offSlotsStart) :
    (p.putHeader off bytes).Sound := (extends_putHeader bytes hp h).sound hp

/-- The header fields of `fields` stand in the page. -/
structure Page.Heads (p : Page) (fields : List (Nat × Bytes)) : Prop where
  sound : p.Sound
  stands : ∀ f ∈ fields, f.1 + f.2.length ≤ offSlotsStart ∧ Stands p.buf f.1 f.2

theorem Page.Heads.putHeader (h : p.Heads fields) (off : Nat) (bytes : Bytes) (hfits : off + bytes.length ≤ offSlotsStart)
    (hapart : ∀ f ∈ fields, f.1 + f.2.length ≤ off ∨ off + bytes.length ≤ f.1) :
    (p.putHeader off bytes).Heads ((off, bytes) :: fields) := by
  have hin : off + bytes.length ≤ p.buf.length := h.sound.length_buf ▸ hfits.trans (by decide)
  refine ⟨h.sound.putHeader bytes hfits, List.forall_mem_cons.2 ⟨⟨hfits, stands_writeAt (by omega)⟩, fun f hf => ?_⟩⟩
  obtain ⟨hf₁, hf₂⟩ := h.stands f hf
  refine ⟨hf₁, hf₂.of_window ?_⟩
  rcases hapart f hf with hbefore | hbehind
  · exact window_writeAt_of_le hbefore (by omega)
  · exact window_writeAt_of_ge hbehind hin

theorem Page.Heads.putPlace (h : p.Heads fields) (offOff lenOff off len : Nat) (hoff : offOff + 2 ≤ lenOff)
    (hlen : lenOff + 2 ≤ offSlotsStart) (hapart : ∀ f ∈ fields, f.1 + f.2.length ≤ offOff ∨ lenOff + 2 ≤ f.1) :
    (p.putPlace offOff lenOff off len).Heads ((lenOff, leBytes 2 len) :: (offOff, leBytes 2 off) :: fields) := by
  refine Page.Heads.putHeader (h.putHeader _ _ (by rw [length_leBytes]; omega) fun f hf => ?_) _ _ (by rwa [length_leBytes])
    (List.forall_mem_cons.2 ⟨.inl (by rwa [length_leBytes]), fun f hf => ?_⟩)
  all_goals
    rw [length_leBytes]
    have := hapart f hf
    omega

/-- What leaves the front of the page as it is leaves the header. -/
theorem Page.Heads.of_take (h : p.Heads fields) (hp' : p'.Sound)
    (htake : p'.buf.take offSlotsStart = p.buf.take offSlotsStart) : p'.Heads fields := by
  refine ⟨hp', fun f hf => ?_⟩
  obtain ⟨hfits, hstands⟩ := h.stands f hf
  refine ⟨hfits, (stands_take hfits).1 ?_⟩
  rw [htake]
  exact (stands_take hfits).2 hstands

theorem sound_blank : Page.blank.Sound where
  length_buf := List.length_replicate
  slotPos := le_rfl
  slotEnd := by decide
  payloadPos := le_rfl

theorem extends_putPlace (hp : p.Sound) (offOff lenOff off len : Nat) (hoff : offOff + 2 ≤ offSlotsStart)
    (hlen : lenOff + 2 ≤ offSlotsStart) : p.Extends (p.putPlace offOff lenOff off len) [] [] :=
  (extends_putHeader (leBytes 2 off) hp hoff).trans hp
    (extends_putHeader (leBytes 2 len) (hp.putHeader (leBytes 2 off) hoff) hlen)

/-- The fields that are written first. -/
def DiskNode.headerFields (n : DiskNode) : List (Nat × Bytes) :=
  [(offBloom, n.bloom.1), (offSlotCount, leBytes 2 n.keys.length), (offLsn, leBytes 8 n.header.lsn.toNat),
    (offGeneration, leBytes 8 n.header.generation.toNat), (offVersion, leBytes 2 n.header.version.toNat),
    (offPageType, [n.header.pageType])]

theorem heads_serializeHeader (n : DiskNode) : (n.serializeHeader .blank).Heads n.headerFields := by
  have hblank : Page.blank.Heads [] := ⟨sound_blank, fun f hf => by cases hf⟩
  have htype := hblank.putHeader offPageType [n.header.pageType] (by simp [offPageType, offSlotsStart]) (by simp)
  have hversion := htype.putHeader offVersion (leBytes 2 n.header.version.toNat)
    (by simp [offVersion, offSlotsStart]) (by simp [offPageType, offVersion])
  have hgeneration := hversion.putHeader offGeneration (leBytes 8 n.header.generation.toNat)
    (by simp [offGeneration, offSlotsStart]) (by simp [offPageType, offVersion, offGeneration])
  have hlsn := hgeneration.putHeader offLsn (leBytes 8 n.header.lsn.toNat)
    (by simp [offLsn, offSlotsStart]) (by simp [offPageType, offVersion, offGeneration, offLsn])
  have hcount := hlsn.putHeader offSlotCount (leBytes 2 n.keys.length)
    (by simp [offSlotCount, offSlotsStart]) (by simp [offPageType, offVersion, offGeneration, offLsn, offSlotCount])
  exact hcount.putHeader offBloom n.bloom.1
    (by simp [offBloom, offSlotsStart, n.bloom.2, bloomFilterSizeBytes])
    (by simp [offPageType, offVersion, offGeneration, offLsn, offSlotCount, offBloom])

/-! ## The fence keys and the prefix -/

theorem extends_pushFence {fence : Option Key} {off len : Nat} (hp : p.Sound) (h : p.pushFence fence = .ok (p', off, len)) :
    p.Extends p' [] (fence.getD []) ∧ p'.buf.take offSlotsStart = p.buf.take offSlotsStart ∧ len = (fence.getD []).length ∧
      (fence.getD [] ≠ [] → off = p'.payloadPos) ∧ off < 65536 := by
  cases fence with
  | none =>
    cases h
    exact ⟨.refl p, rfl, rfl, fun h => absurd rfl h, by decide⟩
  | some k =>
    obtain ⟨p₁, hpush, h⟩ := ok_of_bind h
    cases h
    exact ⟨extends_pushPayload hp hpush, take_pushPayload hp hpush, rfl, fun _ => rfl, (pushPayload_bounds hp hpush).1⟩

/-- What stands elsewhere is read there. -/
theorem takesIn_peek_of_stands {r : Reader IoError α} {a : α} {off : Nat} (hr : r.Takes bytes a) (h : Stands data off bytes)
    (hin : off ≤ data.length) : (Reader.peek off r).TakesIn data [] a :=
  Reader.takesIn_peek (hr data off _ hin h.drop_eq)

theorem takesIn_readFence {offOff lenOff off : Nat} {k : Bytes} (hoffOff : Stands data offOff (leBytes 2 off))
    (hlenOff : Stands data lenOff (leBytes 2 k.length)) (hin : offOff ≤ data.length ∧ lenOff ≤ data.length) (hoff : off < 65536)
    (hlen : k.length < 65536) (hk : k ≠ [] → Stands data off k) :
    (readFence offOff lenOff).TakesIn data [] (if k = [] then none else some k) := by
  refine (takesIn_peek_of_stands (takes_readU16 hoff) hoffOff hin.1).bind_nil ?_
  refine (takesIn_peek_of_stands (takes_readU16 hlen) hlenOff hin.2).bind_nil ?_
  by_cases hempty : k = []
  · rw [if_pos hempty, hempty]
    exact Reader.takesIn_pure data none
  · have hstands := hk hempty
    rw [if_neg hempty, if_pos (List.length_pos_iff.2 hempty)]
    exact (takesIn_safeSlice hstands (hstands.le_length hempty)).bind_nil (Reader.takesIn_pure data (some k))

/-! ## The whole page -/

/-- What the lengths of a node's lists have to say to each other. -/
structure DiskNode.WellFormed (n : DiskNode) : Prop where
  version : n.header.version = version
  shape : n.header.pageType = pageTypeLeaf ∧ n.vals.length = n.keys.length ∧ n.slots.length = n.keys.length ∨
    n.header.pageType = pageTypeInternal ∧ n.children.length = n.keys.length + 1
  lowKey : n.lowKey ≠ some []
  highKey : n.highKey ≠ some []

/-- How far the slots grow. -/
def DiskNode.slotBytes (n : DiskNode) : Nat :=
  n.keys.length * entrySlots n.isLeaf + if n.header.pageType = pageTypeInternal then
    n.children.length * 8 + (4 + (n.buffer.entries.map bufferedSlots).sum) else 0

def DiskNode.bodyPayload (n : DiskNode) : Nat :=
  (n.entries.map (entryPayload n.isLeaf n.calculateCommonPrefix)).sum + if n.header.pageType = pageTypeInternal then
    (n.buffer.entries.map (bufferedPayload n.calculateCommonPrefix)).sum else 0

/-- How far the payload grows. -/
def DiskNode.payloadBytes (n : DiskNode) : Nat :=
  n.bodyPayload + (n.calculateCommonPrefix.length + ((n.highKey.getD []).length + (n.lowKey.getD []).length))

/-- Slots and payload both have their place. -/
def DiskNode.Fits (n : DiskNode) : Prop := offSlotsStart + n.slotBytes + n.payloadBytes ≤ payloadEndMax

def DiskNode.readTail (n : DiskNode) : List UInt64 × List (Key × List Msg) :=
  if n.header.pageType = pageTypeInternal then
    (n.children, n.buffer.entries.map (readBack n.calculateCommonPrefix)) else ([], [])

theorem matchLen_take : ∀ key first : Key, first.take (matchLen key first) <+: key
  | [], first => by simp [matchLen]
  | _ :: _, [] => by simp [matchLen]
  | a :: key, b :: first => by
    have ih := matchLen_take key first
    by_cases hab : a = b
    · have hlen : matchLen (a :: key) (b :: first) = matchLen key first + 1 := by simp [matchLen, hab]
      rw [hlen, List.take_succ_cons, hab]
      exact List.prefix_cons_inj b |>.2 ih
    · have hlen : matchLen (a :: key) (b :: first) = 0 := by simp [matchLen, hab]
      rw [hlen]
      exact List.nil_prefix

/-- **Every key has the common prefix.** -/
theorem commonPrefix_prefix : ∀ {keys : List Key}, ∀ k ∈ keys, commonPrefix keys <+: k
  | first :: keys, k, hk => by
    obtain ⟨_, hall⟩ := foldl_min_le (keys.map (fun key => matchLen key first)) first.length
    rw [List.foldl_map, List.forall_mem_map] at hall
    rcases List.mem_cons.1 hk with rfl | hk
    · exact List.take_prefix _ _
    · refine List.IsPrefix.trans ?_ (matchLen_take k first)
      rw [commonPrefix]
      exact List.take_prefix_take_left (hall k hk)

theorem mem_keys_of_mem_entries {e : Key × Slot × Option Val} (he : e ∈ n.entries) : e.1 ∈ n.keys := by
  obtain ⟨i, hi, rfl⟩ := List.mem_mapIdx.1 he
  exact List.getElem_mem hi

theorem length_entries (n : DiskNode) : n.entries.length = n.keys.length := List.length_mapIdx

/-- **The body of a page is read back.** -/
theorem codes_rest (hwf : n.WellFormed) (hp : p.Sound)
    (hentries : serializeEntries n.isLeaf n.calculateCommonPrefix n.entries p = .ok p₁)
    (htail : n.serializeChildrenAndBuffer n.calculateCommonPrefix p₁ = .ok p') :
    ∃ es', List.Forall₂ (ReadBack n.isLeaf) n.entries es' ∧ p.Codes p' n.slotBytes n.bodyPayload
      (readRest n.header.pageType n.calculateCommonPrefix n.keys.length) (es', n.readTail) := by
  have hpfx : ∀ e ∈ n.entries, n.calculateCommonPrefix <+: e.1 := fun e he =>
    commonPrefix_prefix e.1 (mem_keys_of_mem_entries he)
  obtain ⟨es', hback, hslots⟩ := codes_entries hp hpfx (fun x (hx : x ∈ none) => by cases hx) hentries
  rw [length_entries] at hslots
  have hp₁ := hslots.sound hp
  refine ⟨es', hback, ?_⟩
  have hrest : p₁.Codes p' (if n.header.pageType = pageTypeInternal then
      n.children.length * 8 + (4 + (n.buffer.entries.map bufferedSlots).sum) else 0) (if n.header.pageType = pageTypeInternal then
      (n.buffer.entries.map (bufferedPayload n.calculateCommonPrefix)).sum else 0)
      (if n.header.pageType = pageTypeInternal then readChildrenAndBuffer n.calculateCommonPrefix n.keys.length else pure ([], []))
      n.readTail := by
    rcases hwf.shape with ⟨hleaf, _⟩ | ⟨hinternal, hchildren⟩
    · have hnot : n.header.pageType ≠ pageTypeInternal := by
        rw [hleaf]
        decide
      rw [DiskNode.serializeChildrenAndBuffer, if_neg hnot] at htail
      cases htail
      rw [if_neg hnot, if_neg hnot, if_neg hnot, DiskNode.readTail, if_neg hnot]
      exact codes_pure p₁ ([], [])
    · have hcodes := codes_childrenAndBuffer hp₁ hinternal hchildren htail
      rw [if_pos hinternal, if_pos hinternal, if_pos hinternal, DiskNode.readTail, if_pos hinternal]
      exact hcodes
  exact hslots.bind (f := fun es => (if n.header.pageType = pageTypeInternal then
    readChildrenAndBuffer n.calculateCommonPrefix n.keys.length else pure ([], [])) >>= fun rest => pure (es, rest)) hp
    (hrest.map hp₁ (fun rest => (es', rest)))

/-- What a page holds that was laid out: the header, the slots `words` and the payload `more`. -/
structure DiskNode.Laid (n : DiskNode) (p : Page) (lowOff highOff pfxOff : Nat) (words more : Bytes) : Prop where
  heads : p.Heads ((offPayloadEnd, leBytes 2 p.payloadPos) :: (offFreeStart, leBytes 2 p.slotPos) ::
    (offPfxLen, leBytes 2 n.calculateCommonPrefix.length) :: (offPfxOff, leBytes 2 pfxOff) ::
    (offHighLen, leBytes 2 (n.highKey.getD []).length) :: (offHighOff, leBytes 2 highOff) ::
    (offLowLen, leBytes 2 (n.lowKey.getD []).length) :: (offLowOff, leBytes 2 lowOff) :: n.headerFields)
  written : (n.serializeHeader .blank).Extends p words more
  slotBytes : words.length = n.slotBytes
  payloadBytes : more.length = n.payloadBytes
  offsets : lowOff < 65536 ∧ highOff < 65536 ∧ pfxOff < 65536
  fences : ∀ data : Bytes, Stands data p.payloadPos more → (n.lowKey.getD [] ≠ [] → Stands data lowOff (n.lowKey.getD [])) ∧
    (n.highKey.getD [] ≠ [] → Stands data highOff (n.highKey.getD [])) ∧ Stands data pfxOff n.calculateCommonPrefix
  body : ∃ es', List.Forall₂ (ReadBack n.isLeaf) n.entries es' ∧
    ∀ data : Bytes, data.length = payloadEndMax → Stands data p.payloadPos more →
      (readRest n.header.pageType n.calculateCommonPrefix n.keys.length).TakesIn data words (es', n.readTail)

/-- **A layout that went through.** -/
theorem layout_laid (hwf : n.WellFormed) (h : n.layout = .ok p) :
    ∃ lowOff highOff pfxOff words more, n.Laid p lowOff highOff pfxOff words more := by
  obtain ⟨⟨p₁, lowOff, lowLen⟩, hlow, h⟩ := ok_of_bind h
  obtain ⟨⟨p₂, highOff, highLen⟩, hhigh, h⟩ := ok_of_bind h
  obtain ⟨p₄, hpfx, h⟩ := ok_of_bind h
  obtain ⟨p₆, hentries, h⟩ := ok_of_bind h
  obtain ⟨p₇, htail, h⟩ := ok_of_bind h
  cases h
  have hheader := heads_serializeHeader n
  obtain ⟨hext₁, hhead₁, rfl, hplace₁, hoff₁⟩ := extends_pushFence hheader.sound hlow
  have hp₁ := hext₁.sound hheader.sound
  obtain ⟨hext₂, hhead₂, rfl, hplace₂, hoff₂⟩ := extends_pushFence hp₁ hhigh
  have hp₂ := hext₂.sound hp₁
  have hheads₂ := (hheader.of_take hp₁ hhead₁).of_take hp₂ hhead₂
  have hheads₃ := (hheads₂.putPlace offLowOff offLowLen lowOff (n.lowKey.getD []).length (by decide) (by decide)
    (by simp [DiskNode.headerFields, offLowOff, offLowLen, offBloom, offSlotCount, offLsn, offGeneration, offVersion,
      offPageType])).putPlace offHighOff offHighLen highOff (n.highKey.getD []).length (by decide) (by decide)
    (by simp [DiskNode.headerFields, offLowOff, offLowLen, offHighOff, offHighLen, offBloom, offSlotCount, offLsn,
      offGeneration, offVersion, offPageType])
  have hext₃ := (extends_putPlace hp₂ offLowOff offLowLen lowOff (n.lowKey.getD []).length (by decide) (by decide)).trans hp₂
    (extends_putPlace ((extends_putPlace hp₂ offLowOff offLowLen lowOff (n.lowKey.getD []).length (by decide) (by decide)).sound hp₂)
      offHighOff offHighLen highOff (n.highKey.getD []).length (by decide) (by decide))
  have hext₄ := extends_pushPayload hheads₃.sound hpfx
  have hp₄ := hext₄.sound hheads₃.sound
  have hheads₅ := (hheads₃.of_take hp₄ (take_pushPayload hheads₃.sound hpfx)).putPlace offPfxOff offPfxLen p₄.payloadPos
    n.calculateCommonPrefix.length (by decide) (by decide) (by
      simp [DiskNode.headerFields, offLowOff, offLowLen, offHighOff, offHighLen, offPfxOff, offPfxLen, offBloom, offSlotCount,
        offLsn, offGeneration, offVersion, offPageType, n.bloom.2, bloomFilterSizeBytes])
  have hext₅ := extends_putPlace hp₄ offPfxOff offPfxLen p₄.payloadPos n.calculateCommonPrefix.length (by decide) (by decide)
  obtain ⟨es', hback, hrest⟩ := codes_rest hwf hheads₅.sound hentries htail
  have hp₇ := hrest.sound hheads₅.sound
  have hheads₈ := (hheads₅.of_take hp₇ hrest.head).putPlace offFreeStart offPayloadEnd p₇.slotPos p₇.payloadPos (by decide)
    (by decide) (by
      simp [DiskNode.headerFields, offLowOff, offLowLen, offHighOff, offHighLen, offPfxOff, offPfxLen, offFreeStart,
        offPayloadEnd, offBloom, offSlotCount, offLsn, offGeneration, offVersion, offPageType])
  have hext₈ := extends_putPlace hp₇ offFreeStart offPayloadEnd p₇.slotPos p₇.payloadPos (by decide) (by decide)
  obtain ⟨words, more, hext₇, hwords, hmore, hread⟩ := hrest.written
  have hwritten := (((((hext₁.trans hheader.sound hext₂).trans hheader.sound hext₃).trans hheader.sound hext₄).trans
    hheader.sound hext₅).trans hheader.sound hext₇).trans hheader.sound hext₈
  rw [List.append_nil] at hwritten
  refine ⟨lowOff, highOff, p₄.payloadPos, words, more ++ (n.calculateCommonPrefix ++ (n.highKey.getD [] ++ n.lowKey.getD [])),
    hheads₈, hwritten, hwords, ?_, ⟨hoff₁, hoff₂, (pushPayload_bounds hheads₃.sound hpfx).1⟩, ?_, es', hback, ?_⟩
  · simp only [List.length_append, hmore, DiskNode.payloadBytes]
  · intro data hstands
    obtain ⟨_, hstands⟩ := stands_append.1 hstands
    obtain ⟨hpfxStands, hstands⟩ := stands_append.1 hstands
    obtain ⟨hhighStands, hlowStands⟩ := stands_append.1 hstands
    have hat₄ : p₇.payloadPos + more.length = p₄.payloadPos := hext₇.payloadPos
    have hat₂ : p₄.payloadPos + n.calculateCommonPrefix.length = p₂.payloadPos := hext₄.payloadPos
    have hat₁ : p₂.payloadPos + (n.highKey.getD []).length = p₁.payloadPos := hext₂.payloadPos
    have hpos₈ : (p₇.putPlace offFreeStart offPayloadEnd p₇.slotPos p₇.payloadPos).payloadPos = p₇.payloadPos := rfl
    rw [hpos₈, hat₄] at hpfxStands hhighStands hlowStands
    rw [hat₂] at hhighStands hlowStands
    rw [hat₁] at hlowStands
    exact ⟨fun hne => hplace₁ hne ▸ hlowStands, fun hne => hplace₂ hne ▸ hhighStands, hpfxStands⟩
  · intro data hdata hstands
    exact hread data hdata (stands_append.1 hstands).1

/-! ## Reading it back -/

variable {lowOff highOff pfxOff : Nat} {id : UInt64} {H : Hashes} {page : Bytes}

/-- The part of the page that is signed. -/
def Page.content (p : Page) : Bytes := p.buf.take payloadEndMax

/-- The header as it is read. -/
def DiskNode.readHeaderOf (n : DiskNode) (p : Page) : PageHeader :=
  { n.header with
    slotCount := UInt16.ofNat n.keys.length, freeStart := UInt16.ofNat p.slotPos, payloadEnd := UInt16.ofNat p.payloadPos }

theorem Page.Sound.length_content (hp : p.Sound) : p.content.length = payloadEndMax := by
  rw [Page.content, List.length_take, hp.length_buf]
  rfl

theorem Page.Heads.stands_content {off : Nat} (h : p.Heads fields) (hmem : (off, bytes) ∈ fields) : Stands p.content off bytes := by
  obtain ⟨hfits, hstands⟩ := h.stands (off, bytes) hmem
  exact (stands_take (hfits.trans (by decide))).2 hstands

theorem DiskNode.Laid.positions (h : n.Laid p lowOff highOff pfxOff words more) :
    p.slotPos = offSlotsStart + n.slotBytes ∧ p.payloadPos + n.payloadBytes = payloadEndMax :=
  ⟨h.slotBytes ▸ h.written.slotPos, h.payloadBytes ▸ h.written.payloadPos⟩

/-- The cursors have crossed exactly when the node does not fit. -/
theorem DiskNode.Laid.fits_iff (h : n.Laid p lowOff highOff pfxOff words more) : n.Fits ↔ p.slotPos ≤ p.payloadPos := by
  obtain ⟨hslot, hpayload⟩ := h.positions
  rw [DiskNode.Fits]
  omega

theorem DiskNode.Laid.lt (h : n.Laid p lowOff highOff pfxOff words more) :
    p.slotPos < 65536 ∧ p.payloadPos < 65536 ∧ n.keys.length < 65536 ∧ n.payloadBytes < 65536 ∧
      offSlotsStart + n.keys.length * entrySlots n.isLeaf ≤ pageSize := by
  obtain ⟨hslot, hpayload⟩ := h.positions
  have hend := h.heads.sound.slotEnd
  have hentry : n.keys.length * 42 ≤ n.keys.length * entrySlots n.isLeaf := by
    refine Nat.mul_le_mul_left _ ?_
    cases n.isLeaf <;> decide
  have hslots : n.keys.length * entrySlots n.isLeaf ≤ n.slotBytes := Nat.le_add_right _ _
  simp only [pageSize, payloadEndMax, sigSize] at hend hpayload ⊢
  omega

theorem takesIn_readHeader (hwf : n.WellFormed) (h : n.Laid p lowOff highOff pfxOff words more) :
    readHeader.TakesIn p.content [] (n.readHeaderOf p) := by
  obtain ⟨hslot, hpayload, hkeys, _⟩ := h.lt
  have hin : offSlotsStart ≤ p.content.length := h.heads.sound.length_content ▸ (by decide)
  have hfreeStart : Stands p.content offFreeStart (leBytes 2 p.slotPos) := h.heads.stands_content (by simp)
  have hpayloadEnd : Stands p.content offPayloadEnd (leBytes 2 p.payloadPos) := h.heads.stands_content (by simp)
  have hfield : ∀ {off : Nat} {bytes : Bytes} {β : Type} {r : Reader IoError β} {b : β}, r.Takes bytes b →
      (off, bytes) ∈ n.headerFields → off ≤ offSlotsStart → (Reader.peek off r).TakesIn p.content [] b := fun hr hmem hoff =>
    takesIn_peek_of_stands hr (h.heads.stands_content (by simp [hmem])) (hoff.trans hin)
  refine (hfield (takes_readU8 n.header.pageType) (by simp [DiskNode.headerFields]) (by decide)).bind_nil ?_
  refine (hfield (takes_readU16 n.header.version.toNat_lt) (by simp [DiskNode.headerFields]) (by decide)).bind_nil ?_
  rw [UInt16.ofNat_toNat, if_neg (not_not.2 hwf.version)]
  refine (hfield (takes_readU64 n.header.generation) (by simp [DiskNode.headerFields]) (by decide)).bind_nil ?_
  refine (hfield (takes_readU64 n.header.lsn) (by simp [DiskNode.headerFields]) (by decide)).bind_nil ?_
  refine (hfield (takes_readU16 hkeys) (by simp [DiskNode.headerFields]) (by decide)).bind_nil ?_
  refine (takesIn_peek_of_stands (takes_readU16 hslot) hfreeStart (le_trans (by decide) hin)).bind_nil ?_
  refine (takesIn_peek_of_stands (takes_readU16 hpayload) hpayloadEnd (le_trans (by decide) hin)).bind_nil ?_
  exact Reader.takesIn_pure p.content (n.readHeaderOf p)

theorem checkHeader_eq_ok (h : n.Laid p lowOff highOff pfxOff words more) :
    checkHeader (n.readHeaderOf p) = .ok () ↔ n.Fits := by
  obtain ⟨hslot, hpayload, hkeys, _, hsize⟩ := h.lt
  have hend := h.heads.sound.payloadPos
  have hcount : (UInt16.ofNat n.keys.length).toNat = n.keys.length := UInt16.toNat_ofNat_of_lt' hkeys
  have hpayloadEnd : (UInt16.ofNat p.payloadPos).toNat = p.payloadPos := UInt16.toNat_ofNat_of_lt' hpayload
  have hfreeStart : (UInt16.ofNat p.slotPos).toNat = p.slotPos := UInt16.toNat_ofNat_of_lt' hslot
  have hentry : entrySlots n.isLeaf = if (n.readHeaderOf p).pageType = pageTypeLeaf then 50 else 42 := by
    by_cases hleaf : n.header.pageType = pageTypeLeaf
    · rw [if_pos (show (n.readHeaderOf p).pageType = pageTypeLeaf from hleaf), entrySlots,
        if_pos (show n.isLeaf = true from beq_iff_eq.2 hleaf)]
    · rw [if_neg (show ¬(n.readHeaderOf p).pageType = pageTypeLeaf from hleaf), entrySlots,
        if_neg (show ¬n.isLeaf = true by simpa [DiskNode.isLeaf])]
  rw [hentry] at hsize
  rw [checkHeader, guard_eq_ok, guard_eq_ok, UInt16.lt_iff_toNat_lt, h.fits_iff]
  simp only [DiskNode.readHeaderOf, hcount, hpayloadEnd, hfreeStart, and_true] at hsize ⊢
  omega

/-- The node as it is read, with the keys, slots and values `es`. -/
def DiskNode.decoded (n : DiskNode) (id : UInt64) (header : PageHeader) (es : List (Key × Slot × Option Val)) : DiskNode := {
  id := id, header := header, lowKey := n.lowKey, highKey := n.highKey
  slots := es.map (·.2.1), keys := es.map Prod.fst, vals := es.filterMap (·.2.2), children := n.readTail.1
  buffer := n.readTail.2.foldl (fun m e => m.insert e.1 e.2) .empty, bloom := n.bloom }

theorem fence_eq {fence : Option Key} (h : fence ≠ some []) :
    (if fence.getD [] = [] then none else some (fence.getD [])) = fence := by
  cases fence with
  | none => rfl
  | some k => exact if_neg fun hk => h (congrArg some hk)

variable (id) in
/-- **A page whose cursors have not crossed is read.** -/
theorem readNode_of_fits (hwf : n.WellFormed) (h : n.Laid p lowOff highOff pfxOff words more) (hfits : n.Fits) :
    ∃ es', List.Forall₂ (ReadBack n.isLeaf) n.entries es' ∧
      readNode id p.content offSlotsStart = .ok (n.decoded id (n.readHeaderOf p) es', offSlotsStart + words.length) := by
  obtain ⟨_, _, hkeys, hbytes, _⟩ := h.lt
  obtain ⟨hslot, hpayload⟩ := h.positions
  obtain ⟨hlowOff, hhighOff, hpfxOff⟩ := h.offsets
  obtain ⟨es', hback, hrest⟩ := h.body
  have hlength := h.heads.sound.length_content
  have hapart := h.fits_iff.1 hfits
  have hsmall : n.calculateCommonPrefix.length < 65536 ∧ (n.highKey.getD []).length < 65536 ∧ (n.lowKey.getD []).length < 65536 := by
    rw [DiskNode.payloadBytes] at hbytes
    omega
  have hmore : Stands p.content p.payloadPos more :=
    (stands_take (by rw [h.payloadBytes]; exact hpayload.le)).2 (h.written.more hapart)
  have hwords : Stands p.content offSlotsStart words :=
    (stands_take (by rw [h.slotBytes]; omega)).2 h.written.words
  obtain ⟨hlow, hhigh, hpfx⟩ := h.fences p.content hmore
  have hin : ∀ {off}, off ≤ offSlotsStart → off ≤ p.content.length := fun hoff => hlength ▸ hoff.trans (by decide)
  have hbloom : Stands p.content offBloom n.bloom.1 := h.heads.stands_content (by simp [DiskNode.headerFields])
  have hcount : (n.readHeaderOf p).slotCount.toNat = n.keys.length := UInt16.toNat_ofNat_of_lt' hkeys
  have hprefix : (if n.calculateCommonPrefix = [] then none else some n.calculateCommonPrefix).getD [] = n.calculateCommonPrefix := by
    by_cases hempty : n.calculateCommonPrefix = []
    · rw [if_pos hempty, hempty, Option.getD_none]
    · rw [if_neg hempty, Option.getD_some]
  refine ⟨es', hback, ?_⟩
  have hread : (readNode id).TakesIn p.content words (n.decoded id (n.readHeaderOf p) es') := by
    refine (takesIn_readHeader hwf h).bind_nil ?_
    refine (Reader.takes_ofExcept ((checkHeader_eq_ok h).2 hfits)).takesIn.bind_nil ?_
    refine (takesIn_readFence (h.heads.stands_content (by simp)) (h.heads.stands_content (by simp)) ⟨hin (by decide), hin (by decide)⟩
      hpfxOff hsmall.1 fun _ => hpfx).bind_nil ?_
    refine (takesIn_readFence (h.heads.stands_content (by simp)) (h.heads.stands_content (by simp)) ⟨hin (by decide), hin (by decide)⟩
      hlowOff hsmall.2.2 hlow).bind_nil ?_
    refine (takesIn_readFence (h.heads.stands_content (by simp)) (h.heads.stands_content (by simp)) ⟨hin (by decide), hin (by decide)⟩
      hhighOff hsmall.2.1 hhigh).bind_nil ?_
    refine Reader.TakesIn.bind_nil (a := n.bloom.1) ?_ ?_
    · have hslice := takesIn_safeSlice hbloom (by rw [n.bloom.2, hlength]; decide)
      rwa [n.bloom.2] at hslice
    rw [fence_eq hwf.lowKey, fence_eq hwf.highKey, hcount, hprefix, toArray_val]
    exact (hrest p.content hlength hmore).bind_end (Reader.takesIn_pure p.content _)
  exact hread offSlotsStart _ (hin le_rfl) hwords.drop_eq

variable (id) in
/-- **A page whose cursors have crossed is refused.** -/
theorem readNode_of_not_fits (hwf : n.WellFormed) (h : n.Laid p lowOff highOff pfxOff words more) (hfits : ¬n.Fits) :
    ∃ e, readNode id p.content offSlotsStart = .error e := by
  have hheader := takesIn_readHeader hwf h offSlotsStart (p.content.drop offSlotsStart)
    (h.heads.sound.length_content ▸ (by decide)) rfl
  cases hcheck : checkHeader (n.readHeaderOf p) with
  | ok _ => exact absurd ((checkHeader_eq_ok h).1 hcheck) hfits
  | error e =>
    refine ⟨e, ?_⟩
    show Reader.bind readHeader _ p.content offSlotsStart = _
    rw [Reader.bind, hheader]
    show Reader.bind (Reader.ofExcept (checkHeader (n.readHeaderOf p))) _ p.content _ = _
    rw [Reader.bind, Reader.ofExcept, hcheck]
    rfl

theorem length_signature (H : Hashes) (data : Bytes) : (signature H data).length = sigSize := by
  simp [signature, (H.blake3 data).2, hashLen, sigSize]

/-- The signature is over what is read. -/
theorem deserialize_serialize (hp : p.Sound) (hlayout : n.layout = .ok p) (h : n.serialize H = .ok page) :
    DiskNode.deserialize H id page = (readNode id p.content offSlotsStart).map Prod.fst := by
  rw [DiskNode.serialize, hlayout] at h
  obtain rfl : writeAt p.buf (pageSize - sigSize) (signature H p.content) = page := Except.ok.inj h
  have hlength := hp.length_buf
  have hcontent : (writeAt p.buf (pageSize - sigSize) (signature H p.content)).take (pageSize - sigSize) = p.content :=
    take_writeAt le_rfl (by rw [hlength]; decide)
  have hsig : (writeAt p.buf (pageSize - sigSize) (signature H p.content)).drop (pageSize - sigSize) = signature H p.content := by
    have hfront : (p.buf.take (pageSize - sigSize)).length = pageSize - sigSize := List.length_take_of_le (by rw [hlength]; decide)
    rw [writeAt, List.append_assoc, List.drop_left' hfront, length_signature,
      List.drop_eq_nil_of_le (hlength.le.trans (by decide)), List.append_nil]
  have hcrc := takes_readU32 (H.crc32 p.content).toNat_lt (signature H p.content) 0 _ (Nat.zero_le _) rfl
  have hblake : window (signature H p.content) 4 hashLen = (H.blake3 p.content).1.take hashLen := by
    have hlen : ((H.blake3 p.content).1.take hashLen).length = hashLen := by
      rw [List.length_take, (H.blake3 p.content).2]
      rfl
    rw [window, signature, List.drop_left' (length_leBytes 4 _), List.take_of_length_le hlen.le]
  simp only [DiskNode.deserialize, hsig, hcontent]
  rw [hcrc]
  simp only [hblake]
  show (if (H.crc32 p.content).toNat ≠ (H.crc32 p.content).toNat then _ else _) = _
  rw [if_neg (not_not.2 rfl), if_neg (not_not.2 rfl)]
  cases readNode id p.content offSlotsStart with
  | ok x => rfl
  | error e => rfl

/-! ## The same node -/

def inlineOf (e : Key × Slot × Option Val) : Option Val := if e.2.1.isOverflow then none else e.2.2

/-- The keys, what a leaf says of their values, the children, the fence keys and the buffer. -/
structure DiskNode.Same (n n' : DiskNode) : Prop where
  keys : n'.keys = n.keys
  flags : n'.entries.map (·.2.1.flags) = n.entries.map (·.2.1.flags)
  overflowPage : n'.entries.map (·.2.1.overflowPage) = n.entries.map (·.2.1.overflowPage)
  length : n.isLeaf = true → n'.entries.map (·.2.1.length) = n.entries.map (·.2.1.length)
  vals : n.isLeaf = true → n'.entries.map inlineOf = n.entries.map inlineOf
  children : n'.children = n.children
  lowKey : n'.lowKey = n.lowKey
  highKey : n'.highKey = n.highKey
  buffer : n'.buffer = n.buffer

/-- What a page can hold. -/
structure DiskNode.Faithful (n : DiskNode) : Prop where
  fits : n.Fits
  leaf : n.isLeaf = true → n.children = [] ∧ n.buffer = .empty ∧
    ∀ e ∈ n.entries, e.2.1.isOverflow = false → e.2.1.length = UInt32.ofNat (e.2.2.getD []).length
  buffered : n.header.pageType = pageTypeInternal → ∀ e ∈ n.buffer.entries, n.calculateCommonPrefix <+: e.1

theorem map_eq_of_forall₂ {γ : Type} {R : α → β → Prop} {f : α → γ} {g : β → γ} : ∀ {l : List α} {l' : List β},
    (∀ a ∈ l, ∀ b, R a b → g b = f a) → List.Forall₂ R l l' → l'.map g = l.map f
  | [], [], _, .nil => rfl
  | a :: l, b :: l', hR, .cons h hl => by
    obtain ⟨ha, hR⟩ := List.forall_mem_cons.1 hR
    rw [List.map_cons, List.map_cons, ha b h, map_eq_of_forall₂ hR hl]

theorem entries_keys (n : DiskNode) : n.entries.map Prod.fst = n.keys := by
  refine List.ext_getElem (by simp [DiskNode.entries]) fun i hi hi' => ?_
  simp [DiskNode.entries]

/-- Every entry has a value, as in a leaf, or none has. -/
theorem filterMap_getElem? {es : List (Key × Slot × Option Val)}
    (h : (∀ e ∈ es, e.2.2.isSome) ∨ ∀ e ∈ es, e.2.2 = none) (i : Nat) :
    (es.filterMap (·.2.2))[i]? = es[i]?.bind (·.2.2) := by
  rcases h with hsome | hnone
  · have hmap : es.filterMap (·.2.2) = es.map (fun e => e.2.2.getD []) := by
      rw [← List.filterMap_eq_map]
      refine List.filterMap_congr fun e he => ?_
      obtain ⟨v, hv⟩ := Option.isSome_iff_exists.1 (hsome e he)
      show e.2.2 = some (e.2.2.getD [])
      rw [hv, Option.getD_some]
    rw [hmap, List.getElem?_map]
    cases he : es[i]? with
    | none => rfl
    | some e =>
      obtain ⟨v, hv⟩ := Option.isSome_iff_exists.1 (hsome e (List.mem_of_getElem? he))
      rw [Option.map_some, Option.bind_some, hv, Option.getD_some]
  · have hnil : es.filterMap (·.2.2) = [] := List.filterMap_eq_nil_iff.2 hnone
    rw [hnil, List.getElem?_nil]
    cases he : es[i]? with
    | none => rfl
    | some e => exact (hnone e (List.mem_of_getElem? he)).symm

theorem entries_decoded {header : PageHeader} {es : List (Key × Slot × Option Val)}
    (h : (∀ e ∈ es, e.2.2.isSome) ∨ ∀ e ∈ es, e.2.2 = none) : (n.decoded id header es).entries = es := by
  refine List.mapIdx_eq_iff.2 fun i => ?_
  have hval := filterMap_getElem? h i
  simp only [DiskNode.decoded, List.getElem?_map, List.getD_eq_getElem?_getD, hval]
  cases es[i]? with
  | none => rfl
  | some e => rfl

/-- What is read back of a leaf has values, and of an inner node none. -/
theorem readBack_val {leaf : Bool} {es es' : List (Key × Slot × Option Val)} (h : List.Forall₂ (ReadBack leaf) es es') :
    (∀ e ∈ es', e.2.2.isSome) ∨ ∀ e ∈ es', e.2.2 = none := by
  have hval : ∀ e' ∈ es', ∃ e, ReadBack leaf e e' := fun e' he' => by
    obtain ⟨i, hi, rfl⟩ := List.getElem_of_mem he'
    exact ⟨_, h.get (h.length_eq ▸ hi) hi⟩
  cases leaf with
  | true =>
    refine .inl fun e' he' => ?_
    obtain ⟨e, he⟩ := hval e' he'
    rw [he.val, if_pos rfl]
    rfl
  | false =>
    refine .inr fun e' he' => ?_
    obtain ⟨e, he⟩ := hval e' he'
    rw [he.val, if_neg Bool.false_ne_true]

theorem key_of_foldl_insert {κ γ : Type} [LinearOrder κ] {k : κ} {v : γ} : ∀ {l : List (κ × γ)} {m : SortedMap κ γ},
    (l.foldl (fun m e => m.insert e.1 e.2) m).get? k = some v → m.get? k = some v ∨ ∃ e ∈ l, e.1 = k
  | [], m, h => .inl h
  | e :: l, m, h => by
    rcases key_of_foldl_insert (l := l) h with hm | ⟨e', he', hk⟩
    · rw [SortedMap.get?_insert] at hm
      by_cases hk : k = e.1
      · exact .inr ⟨e, List.mem_cons_self, hk.symm⟩
      · rw [if_neg hk] at hm
        exact .inl hm
    · exact .inr ⟨e', List.mem_cons_of_mem e he', hk⟩

theorem extend_empty {κ γ : Type} [LinearOrder κ] (m : SortedMap κ γ) :
    m.entries.foldl (fun m e => m.insert e.1 e.2) .empty = m :=
  SortedMap.ext fun k => (SortedMap.get?_extend .empty m k).trans Option.or_none

/-! ## The round trip -/

theorem isOverflow_of_readBack {leaf : Bool} {e e' : Key × Slot × Option Val} (h : ReadBack leaf e e') :
    e'.2.1.isOverflow = e.2.1.isOverflow := by rw [Slot.isOverflow, Slot.isOverflow, h.flags]

theorem inlineOf_readBack {e e' : Key × Slot × Option Val} (h : ReadBack true e e') (hval : e.2.2.isSome) :
    inlineOf e' = inlineOf e := by
  obtain ⟨v, hv⟩ := Option.isSome_iff_exists.1 hval
  rw [inlineOf, inlineOf, isOverflow_of_readBack h, h.val, if_pos rfl, storedVal, hv]
  by_cases hover : e.2.1.isOverflow = true
  · rw [if_pos hover, if_pos hover]
  · rw [if_neg hover, if_neg hover, if_neg hover, Option.getD_some]

theorem isSome_of_mem_entries (hwf : n.WellFormed) (hleaf : n.isLeaf = true) {e : Key × Slot × Option Val} (he : e ∈ n.entries) :
    e.2.2.isSome := by
  obtain ⟨i, hi, rfl⟩ := List.mem_mapIdx.1 he
  have hvals : n.vals.length = n.keys.length := by
    rcases hwf.shape with ⟨_, hvals, _⟩ | ⟨hinternal, _⟩
    · exact hvals
    · rw [DiskNode.isLeaf, hinternal] at hleaf
      cases hleaf
  have hlt : i < n.vals.length := hvals ▸ hi
  simp only [List.getElem?_eq_getElem hlt, Option.isSome_some]

theorem not_internal_of_leaf (hleaf : n.isLeaf = true) : n.header.pageType ≠ pageTypeInternal := by
  rw [beq_iff_eq.1 hleaf]
  decide

/-- A buffered key comes back as it was exactly when it has the prefix. -/
theorem readBack_eq {pfx : Bytes} {e : Key × List Msg} (h : pfx <+: e.1) : readBack pfx e = e := by
  rw [readBack, bufferedSuffix, if_pos h, List.prefix_iff_eq_append.1 h]

theorem buffer_decoded_of_prefix {header : PageHeader} {es : List (Key × Slot × Option Val)}
    (hinternal : n.header.pageType = pageTypeInternal) (h : ∀ e ∈ n.buffer.entries, n.calculateCommonPrefix <+: e.1) :
    (n.decoded id header es).buffer = n.buffer := by
  have hmap : n.buffer.entries.map (readBack n.calculateCommonPrefix) = n.buffer.entries := by
    rw [List.map_congr_left fun e he => readBack_eq (h e he), List.map_id']
  simp only [DiskNode.decoded, DiskNode.readTail, if_pos hinternal, hmap]
  exact extend_empty n.buffer

theorem prefix_of_buffer_decoded {header : PageHeader} {es : List (Key × Slot × Option Val)}
    (hinternal : n.header.pageType = pageTypeInternal) (h : (n.decoded id header es).buffer = n.buffer) :
    ∀ e ∈ n.buffer.entries, n.calculateCommonPrefix <+: e.1 := by
  intro e he
  have hget : (n.decoded id header es).buffer.get? e.1 = some e.2 := by
    rw [h]
    exact SortedMap.get?_eq_some.2 he
  simp only [DiskNode.decoded, DiskNode.readTail, if_pos hinternal] at hget
  rcases key_of_foldl_insert hget with hempty | ⟨e', he', hkey⟩
  · cases hempty
  · obtain ⟨e'', _, rfl⟩ := List.mem_map.1 he'
    rw [← hkey]
    exact List.prefix_append _ _

variable (id) in
/-- **What is decoded is the node exactly when the page could hold all of it.** -/
theorem same_decoded_iff (header : PageHeader) {es : List (Key × Slot × Option Val)} (hwf : n.WellFormed) (hfits : n.Fits)
    (hback : List.Forall₂ (ReadBack n.isLeaf) n.entries es) : n.Same (n.decoded id header es) ↔ n.Faithful := by
  have hentries : (n.decoded id header es).entries = es := entries_decoded (readBack_val hback)
  have hlengths : n.isLeaf = true → es.map (·.2.1.length) = n.entries.map (fun e => readLength e.2.1 e.2.2) := fun hleaf =>
    map_eq_of_forall₂ (fun e _ e' h => h.length hleaf) hback
  constructor
  · intro h
    refine ⟨hfits, fun hleaf => ?_, fun hinternal => prefix_of_buffer_decoded hinternal h.buffer⟩
    have htail : n.readTail = ([], []) := if_neg (not_internal_of_leaf hleaf)
    have hchildren := h.children
    have hbuffer := h.buffer
    simp only [DiskNode.decoded, htail] at hchildren hbuffer
    refine ⟨hchildren.symm, hbuffer.symm, fun e he hinline => ?_⟩
    have hlength := h.length hleaf
    rw [hentries, hlengths hleaf] at hlength
    have heq := List.map_inj_left.1 hlength e he
    rw [readLength, if_neg (Bool.eq_false_iff.1 hinline), storedVal, if_neg (Bool.eq_false_iff.1 hinline)] at heq
    exact heq.symm
  · intro h
    have hkeys : es.map Prod.fst = n.keys := by
      rw [← entries_keys n]
      exact map_eq_of_forall₂ (fun e _ e' h => h.key) hback
    refine ⟨hkeys, ?_, ?_, fun hleaf => ?_, fun hleaf => ?_, ?_, rfl, rfl, ?_⟩
    · rw [hentries]
      exact map_eq_of_forall₂ (fun e _ e' h => h.flags) hback
    · rw [hentries]
      exact map_eq_of_forall₂ (fun e _ e' h => h.overflowPage) hback
    · rw [hentries, hlengths hleaf]
      refine List.map_congr_left fun e he => ?_
      by_cases hover : e.2.1.isOverflow = true
      · rw [readLength, if_pos hover]
      · rw [readLength, if_neg hover, storedVal, if_neg hover, (h.leaf hleaf).2.2 e he (Bool.eq_false_iff.2 hover)]
    · rw [hentries]
      refine map_eq_of_forall₂ (fun e he e' h => ?_) (hleaf ▸ hback)
      exact inlineOf_readBack h (isSome_of_mem_entries hwf hleaf he)
    · rcases hwf.shape with ⟨htype, _⟩ | ⟨hinternal, _⟩
      · have hleaf : n.isLeaf = true := beq_iff_eq.2 htype
        simp only [DiskNode.decoded, DiskNode.readTail, if_neg (not_internal_of_leaf hleaf), (h.leaf hleaf).1]
      · simp only [DiskNode.decoded, DiskNode.readTail, if_pos hinternal]
    · rcases hwf.shape with ⟨htype, _⟩ | ⟨hinternal, _⟩
      · have hleaf : n.isLeaf = true := beq_iff_eq.2 htype
        simp only [DiskNode.decoded, DiskNode.readTail, if_neg (not_internal_of_leaf hleaf), (h.leaf hleaf).2.1]
        rfl
      · exact buffer_decoded_of_prefix hinternal (h.buffered hinternal)

/-- **A page is read back as the node exactly when the node is one that a page can hold**: its slots and its payload fit, a
leaf has neither children nor buffer and its inline slots have the lengths of their values, and every buffered key of an
inner node begins with what the separators have in common. -/
theorem deserialize_same_iff (hwf : n.WellFormed) (h : n.serialize H = .ok page) :
    (∃ n', DiskNode.deserialize H id page = .ok n' ∧ n.Same n') ↔ n.Faithful := by
  obtain ⟨p, hlayout, _⟩ := ok_of_bind h
  obtain ⟨lowOff, highOff, pfxOff, words, more, hlaid⟩ := layout_laid hwf hlayout
  rw [deserialize_serialize hlaid.heads.sound hlayout h]
  by_cases hfits : n.Fits
  · obtain ⟨es, hback, hread⟩ := readNode_of_fits id hwf hlaid hfits
    rw [hread, ← same_decoded_iff id (n.readHeaderOf p) hwf hfits hback]
    constructor
    · rintro ⟨n', hn', hsame⟩
      cases hn'
      exact hsame
    · intro hsame
      exact ⟨_, rfl, hsame⟩
  · obtain ⟨e, hread⟩ := readNode_of_not_fits id hwf hlaid hfits
    rw [hread]
    constructor
    · rintro ⟨n', hn', _⟩
      cases hn'
    · intro hfaithful
      exact absurd hfaithful.fits hfits

def sampleHashes : Hashes := { crc32 := fun _ => 0, blake3 := fun _ => Digest.replicate 0 }

def sampleHeader (pageType : UInt8) : PageHeader :=
  { pageType := pageType, version := version, generation := 3, lsn := 9, slotCount := 1, freeStart := 0, payloadEnd := 0 }

/-- An inner node with one separator and one buffered key. -/
def sampleInternal (separator key : Key) : DiskNode := {
  id := 7, header := sampleHeader pageTypeInternal, lowKey := none, highKey := some [9], slots := [], keys := [separator]
  vals := [], children := [4, 5], buffer := SortedMap.empty.insert key [.upsert [1, 2] 8, .delete 9]
  bloom := zeros bloomFilterSizeBytes }

/-- A leaf with one key of `len` bytes and a value of eight. -/
def sampleLeaf (len : Nat) : DiskNode := {
  id := 7, header := sampleHeader pageTypeLeaf, lowKey := none, highKey := none, slots := [{ Slot.none with length := 8 }]
  keys := [List.replicate len 65], vals := [List.replicate 8 66], children := [], buffer := .empty, bloom := zeros bloomFilterSizeBytes }

theorem sampleInternal_wellFormed (separator key : Key) : (sampleInternal separator key).WellFormed :=
  ⟨rfl, .inr ⟨rfl, rfl⟩, by simp [sampleInternal], by simp [sampleInternal]⟩

theorem sampleLeaf_wellFormed (len : Nat) : (sampleLeaf len).WellFormed :=
  ⟨rfl, .inl ⟨rfl, rfl, rfl⟩, by simp [sampleLeaf], by simp [sampleLeaf]⟩

set_option maxRecDepth 20000 in
theorem deserialize_same_iff_sample : ∃ page, (sampleInternal [1] [1, 6]).serialize sampleHashes = .ok page ∧
    (sampleInternal [1] [1, 6]).Faithful ∧
    ((∃ n', DiskNode.deserialize sampleHashes 7 page = .ok n' ∧ (sampleInternal [1] [1, 6]).Same n') ↔
      (sampleInternal [1] [1, 6]).Faithful) := by
  have hdata : ((sampleInternal [1] [1, 6]).serialize sampleHashes).toOption.isSome := by decide +kernel
  obtain ⟨page, hpage⟩ := Option.isSome_iff_exists.1 hdata
  have hok := Except.toOption_eq_some hpage
  refine ⟨page, hok, ⟨?_, ?_, ?_⟩, deserialize_same_iff (sampleInternal_wellFormed [1] [1, 6]) hok⟩
  · show _ ≤ _
    decide +kernel
  · intro hleaf
    cases hleaf
  · intro _
    decide +kernel

set_option maxRecDepth 20000 in
/-- **A buffered key without the separators' prefix comes back under another name, and a leaf that is full to within a few bytes
is written and never read again.** -/
theorem page_does_not_come_back :
    ((sampleInternal [1] [2]).WellFormed ∧ ∃ page n', (sampleInternal [1] [2]).serialize sampleHashes = .ok page ∧
      DiskNode.deserialize sampleHashes 7 page = .ok n' ∧ n'.buffer.entries = [([1, 2], [.upsert [1, 2] 8, .delete 9])] ∧
      ¬(sampleInternal [1] [2]).Same n') ∧
    (sampleLeaf 3909).WellFormed ∧ ∃ page e, (sampleLeaf 3909).serialize sampleHashes = .ok page ∧
      DiskNode.deserialize sampleHashes 7 page = .error e := by
  refine ⟨⟨sampleInternal_wellFormed [1] [2], ?_⟩, sampleLeaf_wellFormed 3909, ?_⟩
  · have hdata : ((sampleInternal [1] [2]).serialize sampleHashes).toOption.bind (fun page =>
        (DiskNode.deserialize sampleHashes 7 page).toOption.map (fun n' => n'.buffer.entries)) =
          some [([1, 2], [.upsert [1, 2] 8, .delete 9])] := by decide +kernel
    obtain ⟨page, hpage, hdata⟩ := Option.bind_eq_some_iff.1 hdata
    obtain ⟨n', hn', hentries⟩ := Option.map_eq_some_iff.1 hdata
    refine ⟨page, n', Except.toOption_eq_some hpage, Except.toOption_eq_some hn', hentries, fun hsame => ?_⟩
    rw [hsame.buffer] at hentries
    cases hentries
  · have hdata : ((sampleLeaf 3909).serialize sampleHashes).toOption.map (fun page =>
        (DiskNode.deserialize sampleHashes 7 page).toOption.isSome) = some false := by decide +kernel
    obtain ⟨page, hpage, hnone⟩ := Option.map_eq_some_iff.1 hdata
    refine ⟨page, ?_⟩
    cases hread : DiskNode.deserialize sampleHashes 7 page with
    | ok n' =>
      rw [hread] at hnone
      cases hnone
    | error e => exact ⟨e, Except.toOption_eq_some hpage, rfl⟩

end BTree
end Heraclitus
