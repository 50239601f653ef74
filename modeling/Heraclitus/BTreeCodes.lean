import Heraclitus.BTreePage
import Heraclitus.Lib.Fallible
import Mathlib.Algebra.Order.BigOperators.Group.List
import Mathlib.Algebra.Order.Ring.Nat
/-!
# BTreeCodes — what is written of a page and its reader

Slots are only ever written above slots, and payload never below the last slot; so what was written of the slots stays, and
the payload stays as long as the slots did not grow into it.  The page says which: its two cursors have crossed or not.
-/
namespace Heraclitus
namespace BTree

open Legacy (Hashes)

variable {α β : Type} {p p₁ p' p'' : Page} {words more words' more' item bytes data : Bytes}

/-! ## The page that is written -/

structure Page.Sound (p : Page) : Prop where
  length_buf : p.buf.length = pageSize
  slotPos : offSlotsStart ≤ p.slotPos
  slotEnd : p.slotPos ≤ pageSize
  payloadPos : p.payloadPos ≤ payloadEndMax

/-- From `p` to `p'` the slots `words` and the payload `more` were written. -/
structure Page.Extends (p p' : Page) (words more : Bytes) : Prop where
  length_buf : p'.buf.length = p.buf.length
  slotPos : p'.slotPos = p.slotPos + words.length
  slotEnd : p.slotPos ≤ pageSize → p'.slotPos ≤ pageSize
  payloadPos : p'.payloadPos + more.length = p.payloadPos
  below : ∀ off len, offSlotsStart ≤ off → off + len ≤ p.slotPos → window p'.buf off len = window p.buf off len
  above : p'.slotPos ≤ p'.payloadPos → ∀ off len, p.payloadPos ≤ off → window p'.buf off len = window p.buf off len
  words : Stands p'.buf p.slotPos words
  more : p'.slotPos ≤ p'.payloadPos → Stands p'.buf p'.payloadPos more

theorem Page.Extends.refl (p : Page) : p.Extends p [] [] where
  length_buf := rfl
  slotPos := rfl
  slotEnd := id
  payloadPos := rfl
  below := fun _ _ _ _ => rfl
  above := fun _ _ _ _ => rfl
  words := stands_nil _ _
  more := fun _ => stands_nil _ _

theorem Page.Extends.sound (h : p.Extends p' words more) (hp : p.Sound) : p'.Sound where
  length_buf := h.length_buf.trans hp.length_buf
  slotPos := by
    have := h.slotPos
    have := hp.slotPos
    omega
  slotEnd := h.slotEnd hp.slotEnd
  payloadPos := by
    have := h.payloadPos
    have := hp.payloadPos
    omega

theorem Page.Extends.trans (hp : p.Sound) (h : p.Extends p' words more) (h' : p'.Extends p'' words' more') :
    p.Extends p'' (words ++ words') (more' ++ more) := by
  have hslot := h.slotPos
  have hslot' := h'.slotPos
  have hpayload := h.payloadPos
  have hpayload' := h'.payloadPos
  have hstart := hp.slotPos
  -- cursors that have not crossed at the end never had
  have happart : p''.slotPos ≤ p''.payloadPos → p'.slotPos ≤ p'.payloadPos := by omega
  refine ⟨h'.length_buf.trans h.length_buf, ?_, h'.slotEnd ∘ h.slotEnd, ?_, ?_, ?_, ?_, ?_⟩
  · rw [List.length_append]
    omega
  · rw [List.length_append]
    omega
  · intro off len hoff hlen
    rw [h'.below off len hoff (by omega), h.below off len hoff hlen]
  · intro hapart off len hoff
    rw [h'.above hapart off len (by omega), h.above (happart hapart) off len hoff]
  · refine stands_append.2 ⟨h.words.of_window (h'.below _ _ hstart (by omega)), ?_⟩
    rw [← hslot]
    exact h'.words
  · intro hapart
    refine stands_append.2 ⟨h'.more hapart, ?_⟩
    rw [hpayload']
    exact (h.more (happart hapart)).of_window (h'.above hapart _ _ le_rfl)

variable (bytes) in
/-- A slot is written where there is still page. -/
theorem extends_pushSlot (hp : p.Sound) (hfits : p.slotPos + bytes.length ≤ pageSize) :
    p.Extends (p.pushSlot bytes) bytes [] := by
  have hlength := hp.length_buf
  refine ⟨length_writeAt (by omega), rfl, fun _ => hfits, rfl, ?_, ?_, stands_writeAt (by omega), fun _ => stands_nil _ _⟩
  · intro off len _ hlen
    exact window_writeAt_of_le hlen (by omega)
  · intro hapart off len hoff
    simp only [Page.pushSlot] at hapart
    exact window_writeAt_of_ge (by omega) (by omega)

theorem room_eq_ok {size : Nat} : p.room size = .ok () ↔ p.slotPos + size ≤ p.payloadPos := by
  rw [Page.room, guard_eq_ok]
  simp

theorem pushPayload_eq_ok : p.pushPayload item = .ok p' ↔ item.length ≤ p.payloadPos ∧ p.slotPos ≤ p.payloadPos - item.length ∧
    p' = { p with buf := writeAt p.buf (p.payloadPos - item.length) item, payloadPos := p.payloadPos - item.length } := by
  rw [Page.pushPayload, guard_eq_ok, not_or, not_lt, not_lt, and_assoc, Except.ok.injEq, eq_comm (b := p')]

/-- Payload is written above the last slot. -/
theorem extends_pushPayload (hp : p.Sound) (h : p.pushPayload item = .ok p') : p.Extends p' [] item := by
  obtain ⟨hlen, hslot, rfl⟩ := pushPayload_eq_ok.1 h
  have hlength := hp.length_buf
  have hend := hp.payloadPos
  have hin : p.payloadPos - item.length + item.length ≤ p.buf.length := by
    simp only [payloadEndMax, pageSize] at hend hlength
    omega
  refine ⟨length_writeAt hin, rfl, id, Nat.sub_add_cancel hlen, ?_, ?_, stands_nil _ _, fun _ => stands_writeAt (by omega)⟩
  · intro off len _ hwindow
    exact window_writeAt_of_le (by omega) (by omega)
  · intro _ off len hoff
    exact window_writeAt_of_ge (by omega) hin

variable (bytes) in
/-- A header field stands in front of the slots. -/
theorem extends_putHeader {off : Nat} (hp : p.Sound) (h : off + bytes.length ≤ offSlotsStart) :
    p.Extends (p.putHeader off bytes) [] [] := by
  have hlength := hp.length_buf
  have hstart := hp.slotPos
  simp only [pageSize, offSlotsStart] at hlength h hstart
  refine ⟨length_writeAt (by omega), rfl, id, rfl, ?_, ?_, stands_nil _ _, fun _ => stands_nil _ _⟩
  · intro off' len hoff _
    simp only [offSlotsStart] at hoff
    exact window_writeAt_of_ge (by omega) (by omega)
  · intro hapart off' len hoff
    simp only [Page.putHeader] at hapart
    exact window_writeAt_of_ge (by omega) (by omega)

/-! ## A part of the page and its reader -/

/-- From `p` to `p'`, `s` bytes of slots and `q` of payload were written that `r` reads as `a`; the header is as it was. -/
structure Page.Codes (p p' : Page) (s q : Nat) (r : Reader IoError α) (a : α) : Prop where
  head : p'.buf.take offSlotsStart = p.buf.take offSlotsStart
  written : ∃ words more, p.Extends p' words more ∧ words.length = s ∧ more.length = q ∧
    ∀ data : Bytes, data.length = payloadEndMax → Stands data p'.payloadPos more → r.TakesIn data words a

theorem Page.Codes.sound {s q : Nat} {r : Reader IoError α} {a : α} (h : p.Codes p' s q r a) (hp : p.Sound) : p'.Sound := by
  obtain ⟨words, more, hext, _⟩ := h.written
  exact hext.sound hp

theorem Page.Codes.payloadPos_le {s q : Nat} {r : Reader IoError α} {a : α} (h : p.Codes p' s q r a) :
    p'.payloadPos ≤ p.payloadPos := by
  obtain ⟨words, more, hext, _⟩ := h.written
  have := hext.payloadPos
  omega

theorem codes_pure (p : Page) (a : α) : p.Codes p 0 0 (pure a) a :=
  ⟨rfl, [], [], .refl p, rfl, rfl, fun data _ _ => Reader.takesIn_pure data a⟩

/-- **Sequence.** -/
theorem Page.Codes.bind {s q s' q' : Nat} {r : Reader IoError α} {f : α → Reader IoError β} {a : α} {b : β} (hp : p.Sound)
    (h : p.Codes p' s q r a) (h' : p'.Codes p'' s' q' (f a) b) : p.Codes p'' (s + s') (q + q') (r >>= f) b := by
  obtain ⟨words, more, hext, rfl, rfl, hread⟩ := h.written
  obtain ⟨words', more', hext', rfl, rfl, hread'⟩ := h'.written
  refine ⟨h'.head.trans h.head, words ++ words', more' ++ more, hext.trans hp hext', List.length_append, ?_, ?_⟩
  · rw [List.length_append, Nat.add_comm]
  · intro data hlength hstands
    obtain ⟨hmore', hmore⟩ := stands_append.1 hstands
    rw [hext'.payloadPos] at hmore
    exact (hread data hlength hmore).bind (hread' data hlength hmore')

theorem Page.Codes.map {s q : Nat} {r : Reader IoError α} {a : α} (hp : p.Sound) (h : p.Codes p' s q r a) (f : α → β) :
    p.Codes p' s q (r >>= fun a => pure (f a)) (f a) := by
  have hmap := h.bind (f := fun a => pure (f a)) hp (codes_pure p' (f a))
  rwa [Nat.add_zero, Nat.add_zero] at hmap

variable (bytes) in
theorem codes_pushSlot {r : Reader IoError α} {a : α} (hp : p.Sound) (hfits : p.slotPos + bytes.length ≤ pageSize)
    (hr : r.Takes bytes a) : p.Codes (p.pushSlot bytes) bytes.length 0 r a := by
  have hlength := hp.length_buf
  exact ⟨take_writeAt hp.slotPos (by omega), bytes, [], extends_pushSlot bytes hp hfits, rfl, rfl, fun data _ _ => hr.takesIn⟩

theorem take_pushPayload (hp : p.Sound) (h : p.pushPayload item = .ok p') :
    p'.buf.take offSlotsStart = p.buf.take offSlotsStart := by
  obtain ⟨hlen, hslot, rfl⟩ := pushPayload_eq_ok.1 h
  have hlength := hp.length_buf
  have hstart := hp.slotPos
  have hend : p.payloadPos ≤ pageSize := hp.payloadPos.trans (by decide)
  exact take_writeAt (by omega) (by omega)

variable (bytes) in
/-- A payload item, and behind it a slot that says where it stands. -/
theorem codes_item {r : Reader IoError α} {a : α} (hp : p.Sound) (h : p.pushPayload item = .ok p')
    (hfits : p'.slotPos + bytes.length ≤ pageSize)
    (hr : ∀ data : Bytes, data.length = payloadEndMax → Stands data p'.payloadPos item → r.TakesIn data bytes a) :
    p.Codes (p'.pushSlot bytes) bytes.length item.length r a := by
  have hitem := extends_pushPayload hp h
  have hp' := hitem.sound hp
  have hlength := hp'.length_buf
  exact ⟨(take_writeAt hp'.slotPos (by omega)).trans (take_pushPayload hp h), bytes, item,
    hitem.trans hp (extends_pushSlot bytes hp' hfits), rfl, rfl, hr⟩

/-! ## Readers -/

theorem takes_readU16 {n : Nat} (h : n < 65536) : readU16.Takes (leBytes 2 n) n := by
  refine Reader.Takes.bind_end (a := leBytes 2 n) (Reader.takes_slice (leBytes 2 n) _) ?_
  rw [leNat_leBytes_of_lt h]
  exact Reader.takes_pure n

theorem takes_readU32 {n : Nat} (h : n < 4294967296) : readU32.Takes (leBytes 4 n) n := by
  refine Reader.Takes.bind_end (a := leBytes 4 n) (Reader.takes_slice (leBytes 4 n) _) ?_
  rw [leNat_leBytes_of_lt h]
  exact Reader.takes_pure n

theorem takes_readU64 (n : UInt64) : readU64.Takes (leBytes 8 n.toNat) n := by
  refine Reader.Takes.bind_end (a := leBytes 8 n.toNat) (Reader.takes_slice (leBytes 8 n.toNat) _) ?_
  rw [leNat_leBytes_of_lt n.toNat_lt, UInt64.ofNat_toNat]
  exact Reader.takes_pure n

theorem takes_readU8 (b : UInt8) : readU8.Takes [b] b :=
  (Reader.takes_slice [b] fun _ _ => _).bind_end (Reader.takes_pure b)

theorem takesIn_safeSlice {off : Nat} (h : Stands data off item) (hend : off + item.length ≤ data.length) :
    (safeSlice off item.length).TakesIn data [] item := by
  refine Reader.takesIn_peek (show _ = Except.ok (item, off + item.length) from ?_)
  rw [Reader.slice, if_pos hend]
  exact congrArg (fun bytes => Except.ok (bytes, off + item.length)) h

theorem takesIn_located {r : Nat → Nat → Reader IoError α} {a : α} (hpos : p.payloadPos < 65536) (hlen : item.length < 65536)
    (h : (r p.payloadPos item.length).TakesIn data bytes a) :
    (readU16 >>= fun off => readU16 >>= fun len => r off len).TakesIn data (location p item ++ bytes) a := by
  rw [location, List.append_assoc]
  exact (takes_readU16 hpos).takesIn.bind ((takes_readU16 hlen).takesIn.bind h)

/-- What was pushed is in the data, and its place fits two bytes. -/
theorem pushPayload_bounds (hp : p.Sound) (h : p.pushPayload item = .ok p') :
    p'.payloadPos < 65536 ∧ item.length < 65536 ∧ p'.payloadPos + item.length ≤ payloadEndMax := by
  have hpayload := (extends_pushPayload hp h).payloadPos
  have hend := hp.payloadPos
  simp only [payloadEndMax, pageSize, sigSize] at hend ⊢
  omega

/-- A payload item, a slot that says where it stands, and what follows. -/
theorem codes_located {r : Bytes → Reader IoError α} {s q : Nat} {a : α} (hp : p.Sound) (h : p.pushPayload item = .ok p₁)
    (hfits : p₁.slotPos + 4 ≤ pageSize) (hr : (p₁.pushSlot (location p₁ item)).Codes p' s q (r item) a) :
    p.Codes p' (4 + s) (item.length + q)
      (readU16 >>= fun off => readU16 >>= fun len => safeSlice off len >>= fun item => r item) a := by
  obtain ⟨hpos, hlen, hend⟩ := pushPayload_bounds hp h
  have hitem := codes_item (r := readU16 >>= fun off => readU16 >>= fun len => safeSlice off len >>= fun item => pure item)
    (location p₁ item) (a := item) hp h hfits fun data hdata hstands => by
      rw [← List.append_nil (location p₁ item)]
      exact takesIn_located hpos hlen ((takesIn_safeSlice hstands (hdata.symm ▸ hend)).bind_nil (Reader.takesIn_pure data item))
  have hall := hitem.bind hp hr
  simp only [bind_assoc, pure_bind] at hall
  exact hall

theorem toArray_val {n : Nat} (b : ByteArrayOf n) : toArray n b.1 = b := dif_pos b.2

/-! ## Keys and values -/

/-- The slot as it is read back, next to a key whose suffix is the last payload. -/
def readSlot (p : Page) (suffix : Bytes) (slot : Slot) : Slot :=
  { slot with offset := UInt16.ofNat p.payloadPos, length := UInt32.ofNat suffix.length }

theorem codes_keySlot {pfx key : Bytes} (slot : Slot) {last : Option Nat} (hp : p.Sound) (hroom : p.slotPos + 42 ≤ p.payloadPos)
    (hpfx : pfx <+: key) (hlast : ∀ x ∈ last, p.payloadPos ≤ x) (h : p.pushPayload (key.drop pfx.length) = .ok p') :
    p.Codes (p'.pushSlot (location p' (key.drop pfx.length) ++ (leBytes 2 slot.flags.toNat ++
        (leBytes 8 slot.overflowPage.toNat ++ slot.cumulativeHash.1)))) 42 (key.drop pfx.length).length
      (readKeySlot pfx last) (key, readSlot p' (key.drop pfx.length) slot) := by
  obtain ⟨hpos, hlen, hend⟩ := pushPayload_bounds hp h
  have hext := extends_pushPayload hp h
  have hwidth : (location p' (key.drop pfx.length) ++ (leBytes 2 slot.flags.toNat ++
      (leBytes 8 slot.overflowPage.toNat ++ slot.cumulativeHash.1))).length = 42 := by
    simp [location, slot.cumulativeHash.2, hashLen]
  have hfits : p'.slotPos + 42 ≤ pageSize := by
    have hslot : p'.slotPos = p.slotPos := hext.slotPos
    have := hp.payloadPos.trans (by decide : payloadEndMax ≤ pageSize)
    omega
  rw [← hwidth]
  refine codes_item _ hp h (hwidth.symm ▸ hfits) fun data hdata hstands => ?_
  refine takesIn_located hpos hlen ?_
  refine (takes_readU16 slot.flags.toNat_lt).takesIn.bind ((takes_readU64 slot.overflowPage).takesIn.bind ?_)
  refine Reader.TakesIn.bind_end (a := slot.cumulativeHash.1) ?_ ?_
  · have hslice := Reader.takes_slice slot.cumulativeHash.1 (fun _ _ => outOfPage)
    rw [slot.cumulativeHash.2] at hslice
    exact hslice.takesIn
  · have hordered : ¬last.any (· < p'.payloadPos) = true := by
      have hpayload := hext.payloadPos
      rw [Option.any_eq_true]
      rintro ⟨x, hx, hlt⟩
      have := hlast x hx
      have := of_decide_eq_true hlt
      omega
    rw [if_neg hordered]
    refine (takesIn_safeSlice hstands (hdata.symm ▸ hend)).bind_nil ?_
    rw [List.prefix_iff_eq_append.1 hpfx, toArray_val, UInt16.ofNat_toNat]
    exact Reader.takesIn_pure data _

/-- What a leaf's page holds of the value. -/
def storedVal (slot : Slot) (val : Option Val) : Val := if slot.isOverflow then [] else val.getD []

theorem inlineVal_eq_ok {slot : Slot} {val : Option Val} {v : Val} (h : inlineVal slot val = .ok v) : v = storedVal slot val := by
  unfold inlineVal storedVal at *
  split at h
  next hover =>
    cases h
    rw [if_pos hover]
  next hinline =>
    rw [if_neg hinline]
    cases val with
    | none => cases h
    | some w =>
      cases h
      rfl

/-- The length that a leaf's slot is read with. -/
def readLength (slot : Slot) (val : Option Val) : UInt32 :=
  if slot.isOverflow then slot.length else UInt32.ofNat (storedVal slot val).length

theorem codes_val {slot : Slot} (slot' : Slot) {val : Option Val} (hp : p.Sound) (h : serializeVal slot val p = .ok p')
    (hflags : slot'.flags = slot.flags) : p.Codes p' 8 (storedVal slot val).length (readVal slot')
      ({ slot' with length := readLength slot val }, storedVal slot val) := by
  obtain ⟨_, hroom, h⟩ := ok_of_bind h
  obtain ⟨v, hv, h⟩ := ok_of_bind h
  obtain ⟨p₁, hpush, h⟩ := ok_of_bind h
  cases h
  have hroom := room_eq_ok.1 hroom
  obtain rfl := inlineVal_eq_ok hv
  obtain ⟨hpos, hlen, hend⟩ := pushPayload_bounds hp hpush
  have hslot : p₁.slotPos = p.slotPos := (extends_pushPayload hp hpush).slotPos
  have hfits : p₁.slotPos + 8 ≤ pageSize := by
    have := hp.payloadPos.trans (by decide : payloadEndMax ≤ pageSize)
    omega
  have hover : slot'.isOverflow = slot.isOverflow := by rw [Slot.isOverflow, Slot.isOverflow, hflags]
  have hlength : (if slot.isOverflow then slot.length.toNat else 0) < 4294967296 := by
    split
    · exact slot.length.toNat_lt
    · decide
  refine codes_item (location p₁ (storedVal slot val) ++ leBytes 4 (if slot.isOverflow then slot.length.toNat else 0))
    hp hpush hfits fun data hdata hstands => ?_
  refine takesIn_located hpos hlen ((takes_readU32 hlength).takesIn.bind_end ?_)
  refine (takesIn_safeSlice hstands (hdata.symm ▸ hend)).bind_nil ?_
  have hread : UInt32.ofNat (if slot'.isOverflow then (if slot.isOverflow then slot.length.toNat else 0)
      else (storedVal slot val).length) = readLength slot val := by
    rw [hover, readLength]
    split
    · exact UInt32.ofNat_toNat
    · rfl
  rw [hread]
  exact Reader.takesIn_pure data _

/-! ## The slots -/

/-- What is read back of a key, its slot and its value. -/
structure ReadBack (leaf : Bool) (e e' : Key × Slot × Option Val) : Prop where
  key : e'.1 = e.1
  flags : e'.2.1.flags = e.2.1.flags
  overflowPage : e'.2.1.overflowPage = e.2.1.overflowPage
  length : leaf = true → e'.2.1.length = readLength e.2.1 e.2.2
  val : e'.2.2 = if leaf then some (storedVal e.2.1 e.2.2) else none

def entrySlots (leaf : Bool) : Nat := if leaf then 50 else 42

def entryPayload (leaf : Bool) (pfx : Bytes) (e : Key × Slot × Option Val) : Nat :=
  (e.1.length - pfx.length) + if leaf then (storedVal e.2.1 e.2.2).length else 0

theorem codes_entry {leaf : Bool} {pfx : Bytes} {e : Key × Slot × Option Val} {last : Option Nat} (hp : p.Sound)
    (hpfx : pfx <+: e.1) (hlast : ∀ x ∈ last, p.payloadPos ≤ x) (h : serializeEntry leaf pfx e p = .ok p') :
    ∃ e', ReadBack leaf e e' ∧ p'.payloadPos ≤ e'.2.1.offset.toNat ∧
      p.Codes p' (entrySlots leaf) (entryPayload leaf pfx e) (readEntry leaf pfx last) e' := by
  obtain ⟨_, hroom, h⟩ := ok_of_bind h
  obtain ⟨p₁, hpush, h⟩ := ok_of_bind h
  have hkey := codes_keySlot e.2.1 hp (room_eq_ok.1 hroom) hpfx hlast hpush
  have hoffset : (UInt16.ofNat p₁.payloadPos).toNat = p₁.payloadPos :=
    UInt16.toNat_ofNat_of_lt' (pushPayload_bounds hp hpush).1
  rw [List.length_drop] at hkey
  cases leaf with
  | false =>
    cases h
    refine ⟨(e.1, readSlot p₁ (e.1.drop pfx.length) e.2.1, none), ⟨rfl, rfl, rfl, nofun, rfl⟩, hoffset.ge, ?_⟩
    exact hkey.map hp (fun x => (x.1, x.2, none))
  | true =>
    have hval := codes_val (readSlot p₁ (e.1.drop pfx.length) e.2.1) (hkey.sound hp) h rfl
    refine ⟨(e.1, { readSlot p₁ (e.1.drop pfx.length) e.2.1 with length := readLength e.2.1 e.2.2 },
      some (storedVal e.2.1 e.2.2)), ⟨rfl, rfl, rfl, fun _ => rfl, rfl⟩, ?_, ?_⟩
    · exact hval.payloadPos_le.trans hoffset.ge
    · exact hkey.bind (f := fun x => readVal x.2 >>= fun y => pure (x.1, y.1, some y.2)) hp
        (hval.map (hkey.sound hp) (fun y => (e.1, y.1, some y.2)))

/-- **The slots are read back**, each with its key, and in a leaf with its value. -/
theorem codes_entries {leaf : Bool} {pfx : Bytes} : ∀ {es : List (Key × Slot × Option Val)} {p p' : Page} {last : Option Nat},
    p.Sound → (∀ e ∈ es, pfx <+: e.1) → (∀ x ∈ last, p.payloadPos ≤ x) → serializeEntries leaf pfx es p = .ok p' →
    ∃ es', List.Forall₂ (ReadBack leaf) es es' ∧ p.Codes p' (es.length * entrySlots leaf) (es.map (entryPayload leaf pfx)).sum
      (readSlots leaf pfx es.length last) es'
  | [], p, p', last, _, _, _, h => by
    cases h
    rw [List.length_nil, Nat.zero_mul]
    exact ⟨[], .nil, codes_pure p []⟩
  | e :: es, p, p', last, hp, hpfx, hlast, h => by
    obtain ⟨p₁, he, h⟩ := ok_of_bind h
    obtain ⟨hpfx, hpfxs⟩ := List.forall_mem_cons.1 hpfx
    obtain ⟨e', hback, hoffset, hentry⟩ := codes_entry hp hpfx hlast he
    have hp₁ := hentry.sound hp
    have hnext : ∀ x ∈ some e'.2.1.offset.toNat, p₁.payloadPos ≤ x := fun x hx => Option.some.inj hx ▸ hoffset
    obtain ⟨es', hbacks, hentries⟩ := codes_entries hp₁ hpfxs hnext h
    refine ⟨e' :: es', .cons hback hbacks, ?_⟩
    rw [List.length_cons, Nat.succ_mul, Nat.add_comm _ (entrySlots leaf)]
    exact hentry.bind (f := fun e => readSlots leaf pfx es.length (some e.2.1.offset.toNat) >>= fun es => pure (e :: es)) hp
      (hentries.map hp₁ (fun es => e' :: es))

/-! ## The children and the buffer -/

/-- **A loop**, and the reader that takes as many. -/
theorem codes_writeAll {write : α → Page → Except IoError Page} {r : Reader IoError β} {read : α → β} {slots payload : α → Nat} :
    ∀ {l : List α} {p p' : Page}, p.Sound → (∀ a ∈ l, ∀ p p' : Page, p.Sound → write a p = .ok p' →
      p.Codes p' (slots a) (payload a) r (read a)) → writeAll write l p = .ok p' →
    p.Codes p' (l.map slots).sum (l.map payload).sum (Reader.times r l.length) (l.map read)
  | [], p, p', _, _, h => by
    cases h
    exact codes_pure p []
  | a :: l, p, p', hp, hwrite, h => by
    obtain ⟨p₁, ha, h⟩ := ok_of_bind h
    obtain ⟨hwrite, hwrites⟩ := List.forall_mem_cons.1 hwrite
    have hfirst := hwrite p p₁ hp ha
    have hp₁ := hfirst.sound hp
    exact hfirst.bind (f := fun b => Reader.times r l.length >>= fun bs => pure (b :: bs)) hp
      ((codes_writeAll hp₁ hwrites h).map hp₁ (fun bs => read a :: bs))

theorem codes_child {child : UInt64} (hp : p.Sound) (h : serializeChild child p = .ok p') : p.Codes p' 8 0 readU64 child := by
  obtain ⟨_, hroom, h⟩ := ok_of_bind h
  cases h
  exact codes_pushSlot (leBytes 8 child.toNat) hp
    ((room_eq_ok.1 hroom).trans (hp.payloadPos.trans (by decide))) (takes_readU64 child)

def msgSlots : Msg → Nat
  | .upsert _ _ => 13
  | .delete _ => 9

def msgPayload : Msg → Nat
  | .upsert v _ => v.length
  | .delete _ => 0

/-- The type of a message and its LSN. -/
theorem codes_msgHead (mType : UInt8) (lsn : UInt64) {r : UInt8 → UInt64 → Reader IoError α} {s q : Nat} {a : α}
    (hp : p.Sound) (hroom : p.slotPos + 9 ≤ p.payloadPos)
    (h : ((p.pushSlot [mType]).pushSlot (leBytes 8 lsn.toNat)).Codes p' s q (r mType lsn) a) :
    p.Codes p' (9 + s) q (readU8 >>= fun mType => readU64 >>= fun lsn => r mType lsn) a := by
  have hend := hp.payloadPos.trans (by decide : payloadEndMax ≤ pageSize)
  have hfits : p.slotPos + 9 ≤ pageSize := by omega
  have htype := codes_pushSlot [mType] hp (by simp; omega) (takes_readU8 mType)
  have hp₁ := htype.sound hp
  have hlsn := codes_pushSlot (leBytes 8 lsn.toNat) hp₁ (by simpa [Page.pushSlot, Nat.add_assoc] using hfits)
    (takes_readU64 lsn)
  have hboth := htype.bind (f := fun mType => readU64 >>= fun lsn => r mType lsn) hp
    (hlsn.bind (f := fun lsn => r mType lsn) hp₁ h)
  rw [Nat.zero_add, Nat.zero_add, ← Nat.add_assoc] at hboth
  exact hboth

theorem codes_msg {m : Msg} (hp : p.Sound) (h : serializeMsg m p = .ok p') :
    p.Codes p' (msgSlots m) (msgPayload m) readMsg m := by
  have hend := hp.payloadPos.trans (by decide : payloadEndMax ≤ pageSize)
  cases m with
  | upsert v lsn =>
    obtain ⟨_, hroom, h⟩ := ok_of_bind h
    obtain ⟨p₁, hpush, h⟩ := ok_of_bind h
    cases h
    have hroom := room_eq_ok.1 hroom
    have hp₀ : ((p.pushSlot [1]).pushSlot (leBytes 8 lsn.toNat)).Sound := by
      have htype := extends_pushSlot [1] hp (by simp; omega)
      exact (extends_pushSlot (leBytes 8 lsn.toNat) (htype.sound hp) (by simp [Page.pushSlot]; omega)).sound (htype.sound hp)
    have hslot : p₁.slotPos = p.slotPos + 1 + 8 := (extends_pushPayload hp₀ hpush).slotPos
    refine codes_msgHead 1 lsn hp (by omega) (s := 4) (q := v.length) (a := Msg.upsert v lsn)
      (r := fun mType lsn => if mType = 1 then readU16 >>= fun off => readU16 >>= fun len => safeSlice off len >>= fun v =>
        pure (Msg.upsert v lsn) else pure (Msg.delete lsn)) ?_
    exact codes_located (r := fun v => pure (Msg.upsert v lsn)) hp₀ hpush (by omega) (codes_pure _ (Msg.upsert v lsn))
  | delete lsn =>
    obtain ⟨_, hroom, h⟩ := ok_of_bind h
    cases h
    exact codes_msgHead 0 lsn hp (room_eq_ok.1 hroom) (s := 0) (q := 0) (codes_pure _ (Msg.delete lsn))

def bufferedSlots (e : Key × List Msg) : Nat := 8 + (e.2.map msgSlots).sum

def bufferedPayload (pfx : Bytes) (e : Key × List Msg) : Nat :=
  (bufferedSuffix pfx e.1).length + (e.2.map msgPayload).sum

/-- A buffered key comes back behind the prefix, whether it was stored without it or not. -/
def readBack (pfx : Bytes) (e : Key × List Msg) : Key × List Msg := (pfx ++ bufferedSuffix pfx e.1, e.2)

theorem length_mul_le_sum {l : List α} {f : α → Nat} {n : Nat} (h : ∀ a ∈ l, n ≤ f a) : l.length * n ≤ (l.map f).sum := by
  have hsum := List.card_nsmul_le_sum (l.map f) n (List.forall_mem_map.2 h)
  rwa [List.length_map] at hsum

theorem le_msgSlots (m : Msg) : 9 ≤ msgSlots m := by
  cases m
  · exact (by decide : 9 ≤ 13)
  · exact le_rfl

theorem codes_buffered {pfx : Bytes} {e : Key × List Msg} (hp : p.Sound) (h : serializeBuffered pfx e p = .ok p') :
    p.Codes p' (bufferedSlots e) (bufferedPayload pfx e) (readBuffered pfx) (readBack pfx e) := by
  obtain ⟨p₁, hpush, h⟩ := ok_of_bind h
  have hitem := extends_pushPayload hp hpush
  have hp₁ := hitem.sound hp
  have hslot : p₁.slotPos + 8 ≤ pageSize := by
    obtain ⟨_, hslot, rfl⟩ := pushPayload_eq_ok.1 hpush
    have hend := hp.payloadPos
    simp only [payloadEndMax, sigSize, pageSize] at hend hslot ⊢
    omega
  have hlocation : (location p₁ (bufferedSuffix pfx e.1)).length = 4 := by simp [location]
  have hp₂ := (extends_pushSlot (location p₁ (bufferedSuffix pfx e.1)) hp₁ (by omega)).sound hp₁
  have hcountFits : (p₁.pushSlot (location p₁ (bufferedSuffix pfx e.1))).slotPos + (leBytes 4 e.2.length).length ≤ pageSize := by
    simp only [Page.pushSlot, hlocation, length_leBytes]
    omega
  have hp₃ := (extends_pushSlot _ hp₂ hcountFits).sound hp₂
  have hmsgs : ((p₁.pushSlot (location p₁ (bufferedSuffix pfx e.1))).pushSlot (leBytes 4 e.2.length)).Codes p'
      (e.2.map msgSlots).sum (e.2.map msgPayload).sum (Reader.times readMsg e.2.length) (e.2.map id) :=
    codes_writeAll hp₃ (fun m _ p p' hp h => codes_msg hp h) h
  have hlength : e.2.length < 4294967296 := by
    obtain ⟨words, more, hext, hwords, _⟩ := hmsgs.written
    have hpos := hext.slotPos
    have hend := hext.slotEnd hp₃.slotEnd
    have hcount := length_mul_le_sum (l := e.2) fun m _ => le_msgSlots m
    simp only [pageSize] at hend
    omega
  have hcount := codes_pushSlot _ hp₂ hcountFits (takes_readU32 hlength)
  rw [List.map_id] at hmsgs
  have hrest := hcount.bind (f := fun n => Reader.times readMsg n >>= fun msgs => pure (pfx ++ bufferedSuffix pfx e.1, msgs)) hp₂
    (hmsgs.map hp₃ (fun msgs => (pfx ++ bufferedSuffix pfx e.1, msgs)))
  have hall := codes_located (r := fun suffix => readU32 >>= fun n => Reader.times readMsg n >>= fun msgs =>
    pure (pfx ++ suffix, msgs)) hp hpush (by omega) hrest
  rw [length_leBytes, Nat.zero_add, ← Nat.add_assoc] at hall
  exact hall

theorem Page.Codes.slots_le {s q : Nat} {r : Reader IoError α} {a : α} (hp : p.Sound) (h : p.Codes p' s q r a) : s ≤ pageSize := by
  obtain ⟨words, more, hext, rfl, _⟩ := h.written
  have := hext.slotPos
  have := (hext.sound hp).slotEnd
  omega

/-- **Children and buffer are read back**, every buffered key behind the prefix. -/
theorem codes_childrenAndBuffer {n : DiskNode} {pfx : Bytes} (hp : p.Sound) (htype : n.header.pageType = pageTypeInternal)
    (hchildren : n.children.length = n.keys.length + 1) (h : n.serializeChildrenAndBuffer pfx p = .ok p') :
    p.Codes p' (n.children.length * 8 + (4 + (n.buffer.entries.map bufferedSlots).sum))
      (n.buffer.entries.map (bufferedPayload pfx)).sum (readChildrenAndBuffer pfx n.keys.length)
      (n.children, n.buffer.entries.map (readBack pfx)) := by
  rw [DiskNode.serializeChildrenAndBuffer, if_pos htype] at h
  obtain ⟨p₁, hchild, h⟩ := ok_of_bind h
  obtain ⟨_, hroom, h⟩ := ok_of_bind h
  have hkids : p.Codes p₁ (n.children.map fun _ => 8).sum (n.children.map fun _ => 0).sum
      (Reader.times readU64 n.children.length) (n.children.map id) :=
    codes_writeAll hp (fun _ _ _ _ hp h => codes_child hp h) hchild
  rw [List.map_const', List.sum_replicate_nat, List.map_const', List.sum_replicate_nat, List.map_id, hchildren] at hkids
  have hp₁ := hkids.sound hp
  have hfits : p₁.slotPos + 4 ≤ pageSize := (room_eq_ok.1 hroom).trans (hp₁.payloadPos.trans (by decide))
  have hp₂ := (extends_pushSlot (leBytes 4 n.buffer.entries.length) hp₁ hfits).sound hp₁
  have hbuffer : (p₁.pushSlot (leBytes 4 n.buffer.entries.length)).Codes p' (n.buffer.entries.map bufferedSlots).sum
      (n.buffer.entries.map (bufferedPayload pfx)).sum (Reader.times (readBuffered pfx) n.buffer.entries.length)
      (n.buffer.entries.map (readBack pfx)) := codes_writeAll hp₂ (fun _ _ _ _ hp h => codes_buffered hp h) h
  have hlength : n.buffer.entries.length < 4294967296 := by
    have hsum := length_mul_le_sum (l := n.buffer.entries) (f := bufferedSlots) fun e _ => Nat.le_add_right 8 _
    have hslots := hbuffer.slots_le hp₂
    simp only [pageSize] at hslots
    omega
  have hcount := codes_pushSlot (leBytes 4 n.buffer.entries.length) hp₁ hfits (takes_readU32 hlength)
  have hrest := hkids.bind (f := fun children => readU32 >>= fun bufCount => Reader.times (readBuffered pfx) bufCount >>=
    fun buffered => pure (children, buffered)) hp (hcount.bind (f := fun bufCount => Reader.times (readBuffered pfx) bufCount >>=
    fun buffered => pure (n.children, buffered)) hp₁ (hbuffer.map hp₂ (fun buffered => (n.children, buffered))))
  rw [Nat.mul_zero, Nat.zero_add, Nat.zero_add, length_leBytes, ← hchildren] at hrest
  rw [readChildrenAndBuffer, ← hchildren]
  exact hrest

end BTree
end Heraclitus
