import Heraclitus.Format
import Heraclitus.Lib.Reader
import Heraclitus.Lib.SortedMap
import Heraclitus.Lib.Window
/-!
# BTreePage — the pages of the Bᵋ-tree (`heraclitus-btree/src/lib.rs`)

A node is written into one page of 4096 bytes: header fields, then slots growing upwards, and from the signature at the end
payload growing downwards.  Keys are stored without the prefix they have in common.
-/
namespace Heraclitus
namespace BTree

open Legacy (Hashes)

abbrev Key := Bytes
abbrev Val := Bytes

def pageSize : Nat := 4096
def version : UInt16 := 5
def hashLen : Nat := 28
def sigSize : Nat := 32
def bloomFilterSizeBytes : Nat := 64

def offPageType : Nat := 0
def offVersion : Nat := 1
def offGeneration : Nat := 3
def offLsn : Nat := 11
def offSlotCount : Nat := 19
def offFreeStart : Nat := 21
def offPayloadEnd : Nat := 23
def offLowOff : Nat := 25
def offLowLen : Nat := 27
def offHighOff : Nat := 29
def offHighLen : Nat := 31
def offBloom : Nat := 33
def offPfxOff : Nat := 97
def offPfxLen : Nat := 99
def offSlotsStart : Nat := 101
def payloadEndMax : Nat := pageSize - sigSize

inductive ErrorKind where
  | unexpectedEof
  | invalidData
  | other
  deriving DecidableEq

/-- `io::Error`. -/
structure IoError where
  kind : ErrorKind
  message : String
  deriving DecidableEq

def invalidData (message : String) : IoError := { kind := .invalidData, message := message }

def pageOverflow : IoError := invalidData "Estouro físico da Página"

/-! ## Nodes -/

/-- `[u8; N]`. -/
abbrev ByteArrayOf (n : Nat) := { b : Bytes // b.length = n }

def zeros (n : Nat) : ByteArrayOf n := ⟨List.replicate n 0, List.length_replicate⟩

def toArray (n : Nat) (b : Bytes) : ByteArrayOf n := if h : b.length = n then ⟨b, h⟩ else zeros n

def pageTypeInternal : UInt8 := 1
def pageTypeLeaf : UInt8 := 2

def flagActive : UInt16 := 1
def flagGhost : UInt16 := 2
def flagOverflow : UInt16 := 4

structure Slot where
  offset : UInt16
  length : UInt32
  flags : UInt16
  overflowPage : UInt64
  cumulativeHash : ByteArrayOf hashLen
  deriving DecidableEq

/-- What a key without a slot is written with. -/
def Slot.none : Slot :=
  { offset := 0, length := 0, flags := flagActive, overflowPage := 0, cumulativeHash := zeros hashLen }

def Slot.isOverflow (s : Slot) : Bool := s.flags &&& flagOverflow != 0

inductive Msg where
  | upsert (v : Val) (lsn : UInt64)
  | delete (lsn : UInt64)
  deriving DecidableEq

structure PageHeader where
  pageType : UInt8
  version : UInt16
  generation : UInt64
  lsn : UInt64
  slotCount : UInt16
  freeStart : UInt16
  payloadEnd : UInt16
  deriving DecidableEq

structure DiskNode where
  id : UInt64
  header : PageHeader
  lowKey : Option Key
  highKey : Option Key
  slots : List Slot
  keys : List Key
  vals : List Val
  children : List UInt64
  buffer : SortedMap Key (List Msg)
  bloom : ByteArrayOf bloomFilterSizeBytes

def DiskNode.isLeaf (n : DiskNode) : Bool := n.header.pageType == pageTypeLeaf

/-- How many bytes two keys have in common at the front. -/
def matchLen (key first : Key) : Nat := ((key.zip first).takeWhile (fun p => p.1 == p.2)).length

def commonPrefix : List Key → Bytes
  | [] => []
  | first :: keys => first.take (keys.foldl (fun len key => min len (matchLen key first)) first.length)

def DiskNode.calculateCommonPrefix (n : DiskNode) : Bytes := commonPrefix n.keys

/-- The keys with the slot and the value at the same index. -/
def DiskNode.entries (n : DiskNode) : List (Key × Slot × Option Val) :=
  n.keys.mapIdx (fun i k => (k, n.slots.getD i .none, n.vals[i]?))

/-! ## Writing -/

/-- A page that is being written, and its two cursors. -/
structure Page where
  buf : Bytes
  slotPos : Nat
  payloadPos : Nat

def Page.room (p : Page) (size : Nat) : Except IoError Unit :=
  if p.payloadPos < p.slotPos + size then .error pageOverflow else .ok ()

/-- Bytes below the payload; they begin at the new `payloadPos`. -/
def Page.pushPayload (p : Page) (item : Bytes) : Except IoError Page :=
  if p.payloadPos < item.length ∨ p.payloadPos - item.length < p.slotPos then .error pageOverflow
  else .ok { p with buf := writeAt p.buf (p.payloadPos - item.length) item, payloadPos := p.payloadPos - item.length }

def Page.pushSlot (p : Page) (bytes : Bytes) : Page :=
  { p with buf := writeAt p.buf p.slotPos bytes, slotPos := p.slotPos + bytes.length }

def Page.putHeader (p : Page) (off : Nat) (bytes : Bytes) : Page := { p with buf := writeAt p.buf off bytes }

/-- The offset and the length of a payload item, as two `u16`. -/
def location (p : Page) (item : Bytes) : Bytes := leBytes 2 p.payloadPos ++ leBytes 2 item.length

/-- The value of a leaf's slot; one that is on overflow pages is left out.  An inline value that is missing panics. -/
def inlineVal (slot : Slot) (val : Option Val) : Except IoError Val :=
  if slot.isOverflow then .ok []
  else match val with
    | some v => .ok v
    | none => .error { kind := .other, message := "index out of bounds" }

def serializeVal (slot : Slot) (val : Option Val) (p : Page) : Except IoError Page := do
  p.room 8
  let v ← inlineVal slot val
  let p ← p.pushPayload v
  let ovLen := if slot.isOverflow then slot.length.toNat else 0
  return p.pushSlot (location p v ++ leBytes 4 ovLen)

/-- One key with its slot, and in a leaf its value. -/
def serializeEntry (leaf : Bool) (pfx : Bytes) (e : Key × Slot × Option Val) (p : Page) : Except IoError Page := do
  p.room 42
  let suffix := e.1.drop pfx.length
  let p ← p.pushPayload suffix
  let p := p.pushSlot (location p suffix ++ (leBytes 2 e.2.1.flags.toNat ++ (leBytes 8 e.2.1.overflowPage.toNat ++
    e.2.1.cumulativeHash.1)))
  if leaf then serializeVal e.2.1 e.2.2 p else return p

/-- A loop that writes one thing after the other. -/
def writeAll {α : Type} (write : α → Page → Except IoError Page) : List α → Page → Except IoError Page
  | [], p => .ok p
  | a :: l, p => do
    let p ← write a p
    writeAll write l p

def serializeEntries (leaf : Bool) (pfx : Bytes) : List (Key × Slot × Option Val) → Page → Except IoError Page :=
  writeAll (serializeEntry leaf pfx)

def serializeChild (child : UInt64) (p : Page) : Except IoError Page := do
  p.room 8
  return p.pushSlot (leBytes 8 child.toNat)

def serializeMsg : Msg → Page → Except IoError Page
  | .upsert v lsn, p => do
    p.room 13
    let p ← ((p.pushSlot [1]).pushSlot (leBytes 8 lsn.toNat)).pushPayload v
    return p.pushSlot (location p v)
  | .delete lsn, p => do
    p.room 9
    return (p.pushSlot [0]).pushSlot (leBytes 8 lsn.toNat)

/-- A buffered key is stored without the prefix if it has it, and else as it is. -/
def bufferedSuffix (pfx bk : Bytes) : Bytes := if pfx <+: bk then bk.drop pfx.length else bk

def serializeBuffered (pfx : Bytes) (e : Key × List Msg) (p : Page) : Except IoError Page := do
  let suffix := bufferedSuffix pfx e.1
  let p ← p.pushPayload suffix
  writeAll serializeMsg e.2 ((p.pushSlot (location p suffix)).pushSlot (leBytes 4 e.2.length))

def DiskNode.serializeChildrenAndBuffer (n : DiskNode) (pfx : Bytes) (p : Page) : Except IoError Page :=
  if n.header.pageType = pageTypeInternal then do
    let p ← writeAll serializeChild n.children p
    p.room 4
    writeAll (serializeBuffered pfx) n.buffer.entries (p.pushSlot (leBytes 4 n.buffer.entries.length))
  else .ok p

/-- The fields at the front that do not depend on the rest. -/
def DiskNode.serializeHeader (n : DiskNode) (p : Page) : Page :=
  ((((p.putHeader offPageType [n.header.pageType]).putHeader offVersion (leBytes 2 n.header.version.toNat)).putHeader
    offGeneration (leBytes 8 n.header.generation.toNat)).putHeader offLsn (leBytes 8 n.header.lsn.toNat)).putHeader
    offSlotCount (leBytes 2 n.keys.length) |>.putHeader offBloom n.bloom.1

/-- A fence key and where it stands, `(0, 0)` when there is none. -/
def Page.pushFence (p : Page) (fence : Option Key) : Except IoError (Page × Nat × Nat) :=
  match fence with
  | some k => do
    let p ← p.pushPayload k
    return (p, p.payloadPos, k.length)
  | none => .ok (p, 0, 0)

/-- Two header fields: where something stands, and how long it is. -/
def Page.putPlace (p : Page) (offOff lenOff off len : Nat) : Page :=
  (p.putHeader offOff (leBytes 2 off)).putHeader lenOff (leBytes 2 len)

/-- The page before anything is written. -/
def Page.blank : Page := { buf := List.replicate pageSize 0, slotPos := offSlotsStart, payloadPos := payloadEndMax }

/-- Everything but the signature. -/
def DiskNode.layout (n : DiskNode) : Except IoError Page := do
  let (p, lowOff, lowLen) ← (n.serializeHeader .blank).pushFence n.lowKey
  let (p, highOff, highLen) ← p.pushFence n.highKey
  let p := (p.putPlace offLowOff offLowLen lowOff lowLen).putPlace offHighOff offHighLen highOff highLen
  let pfx := n.calculateCommonPrefix
  let p ← p.pushPayload pfx
  let p := p.putPlace offPfxOff offPfxLen p.payloadPos pfx.length
  let p ← serializeEntries n.isLeaf pfx n.entries p
  let p ← n.serializeChildrenAndBuffer pfx p
  return p.putPlace offFreeStart offPayloadEnd p.slotPos p.payloadPos

/-- The signature over the data of a page. -/
def signature (H : Hashes) (data : Bytes) : Bytes :=
  leBytes 4 (H.crc32 data).toNat ++ (H.blake3 data).1.take hashLen

def DiskNode.serialize (H : Hashes) (n : DiskNode) : Except IoError Bytes := do
  let p ← n.layout
  let data := p.buf.take (pageSize - sigSize)
  return writeAt p.buf (pageSize - sigSize) (signature H data)

/-! ## Reading -/

def readBytes (width : String) (len : Nat) : Reader IoError Bytes :=
  Reader.slice len (fun _ _ => { kind := .unexpectedEof, message := s!"Leitura fora dos limites do buffer ({width})" })

def readU8 : Reader IoError UInt8 := do
  let b ← Reader.slice 1 (fun _ _ => { kind := .unexpectedEof, message := "m_type fora dos limites da página física" })
  return b.headD 0

def readU16 : Reader IoError Nat := do
  let b ← readBytes "u16" 2
  return leNat b

def readU32 : Reader IoError Nat := do
  let b ← readBytes "u32" 4
  return leNat b

def readU64 : Reader IoError UInt64 := do
  let b ← readBytes "u64" 8
  return UInt64.ofNat (leNat b)

def outOfPage : IoError :=
  { kind := .unexpectedEof, message := "Tentativa de fatiamento fora dos limites da página física" }

/-- Payload; the position stays. -/
def safeSlice (start len : Nat) : Reader IoError Bytes :=
  Reader.peek start (Reader.slice len (fun _ _ => outOfPage))

/-- The part of a slot that keys of leaves and inner nodes have alike. -/
def readKeySlot (pfx : Bytes) (last : Option Nat) : Reader IoError (Key × Slot) := do
  let sufOff ← readU16
  let sufLen ← readU16
  let flags ← readU16
  let overflowPage ← readU64
  let hash ← Reader.slice hashLen (fun _ _ => outOfPage)
  -- the suffixes stand in descending order
  if last.any (· < sufOff) then
    Reader.fail (invalidData "Inconsistência de ordenação ou sobreposição física detectada nos slots")
  else do
    let suffix ← safeSlice sufOff sufLen
    return (pfx ++ suffix, {
      offset := UInt16.ofNat sufOff, length := UInt32.ofNat sufLen, flags := UInt16.ofNat flags
      overflowPage := overflowPage, cumulativeHash := toArray hashLen hash })

/-- The value of a leaf's slot, and the slot with its length. -/
def readVal (slot : Slot) : Reader IoError (Slot × Val) := do
  let vOff ← readU16
  let vLen ← readU16
  let ovLen ← readU32
  let v ← safeSlice vOff vLen
  return ({ slot with length := UInt32.ofNat (if slot.isOverflow then ovLen else vLen) }, v)

/-- A key with its slot, and in a leaf its value. -/
def readEntry (leaf : Bool) (pfx : Bytes) (last : Option Nat) : Reader IoError (Key × Slot × Option Val) := do
  let (key, slot) ← readKeySlot pfx last
  if leaf then do
    let (slot, v) ← readVal slot
    return (key, slot, some v)
  else return (key, slot, none)

def readSlots (leaf : Bool) (pfx : Bytes) : Nat → Option Nat → Reader IoError (List (Key × Slot × Option Val))
  | 0, _ => return []
  | n + 1, last => do
    let e ← readEntry leaf pfx last
    let es ← readSlots leaf pfx n (some e.2.1.offset.toNat)
    return e :: es

def readMsg : Reader IoError Msg := do
  let mType ← readU8
  let lsn ← readU64
  if mType = 1 then do
    let vOff ← readU16
    let vLen ← readU16
    let v ← safeSlice vOff vLen
    return .upsert v lsn
  else return .delete lsn

/-- The prefix goes in front of every buffered key. -/
def readBuffered (pfx : Bytes) : Reader IoError (Key × List Msg) := do
  let sufOff ← readU16
  let sufLen ← readU16
  let suffix ← safeSlice sufOff sufLen
  let versionCount ← readU32
  let msgs ← Reader.times readMsg versionCount
  return (pfx ++ suffix, msgs)

def readChildrenAndBuffer (pfx : Bytes) (slotCount : Nat) : Reader IoError (List UInt64 × List (Key × List Msg)) := do
  let children ← Reader.times readU64 (slotCount + 1)
  let bufCount ← readU32
  let buffered ← Reader.times (readBuffered pfx) bufCount
  return (children, buffered)

/-- A fence key is there when its length is not 0; the prefix is read alike. -/
def readFence (offOff lenOff : Nat) : Reader IoError (Option Bytes) := do
  let off ← Reader.peek offOff readU16
  let len ← Reader.peek lenOff readU16
  if 0 < len then do
    let k ← safeSlice off len
    return some k
  else return none

def readHeader : Reader IoError PageHeader := do
  let pageType ← Reader.peek offPageType readU8
  let ver ← Reader.peek offVersion readU16
  if UInt16.ofNat ver ≠ version then
    Reader.fail (invalidData
      s!"layout de página v{ver} incompatível (esperado v{version.toNat}); reconstruir o checkpoint do log")
  else do
    let generation ← Reader.peek offGeneration readU64
    let lsn ← Reader.peek offLsn readU64
    let slotCount ← Reader.peek offSlotCount readU16
    let freeStart ← Reader.peek offFreeStart readU16
    let payloadEnd ← Reader.peek offPayloadEnd readU16
    return {
      pageType := pageType, version := UInt16.ofNat ver, generation := generation, lsn := lsn
      slotCount := UInt16.ofNat slotCount, freeStart := UInt16.ofNat freeStart, payloadEnd := UInt16.ofNat payloadEnd }

/-- The checks of the two cursors and of the number of slots. -/
def checkHeader (h : PageHeader) : Except IoError Unit :=
  if h.payloadEnd < h.freeStart ∨ payloadEndMax < h.payloadEnd.toNat then
    .error (invalidData "Offsets estruturais da página física corrompidos ou sobrepostos")
  else if pageSize < offSlotsStart + h.slotCount.toNat * (if h.pageType = pageTypeLeaf then 50 else 42) then
    .error (invalidData "Slot count transborda o espaço livre físico da página")
  else .ok ()

/-- The slots, and of an inner node the children and the buffer. -/
def readRest (pageType : UInt8) (pfx : Bytes) (slotCount : Nat) :
    Reader IoError (List (Key × Slot × Option Val) × List UInt64 × List (Key × List Msg)) := do
  let es ← readSlots (pageType == pageTypeLeaf) pfx slotCount none
  let rest ← (if pageType = pageTypeInternal then readChildrenAndBuffer pfx slotCount else pure ([], []))
  return (es, rest)

/-- The node in the data of a page, from the first slot on. -/
def readNode (id : UInt64) : Reader IoError DiskNode := do
  let header ← readHeader
  Reader.ofExcept (checkHeader header)
  let pfx ← readFence offPfxOff offPfxLen
  let pfx := pfx.getD []
  let lowKey ← readFence offLowOff offLowLen
  let highKey ← readFence offHighOff offHighLen
  let bloom ← safeSlice offBloom bloomFilterSizeBytes
  let (es, children, buffered) ← readRest header.pageType pfx header.slotCount.toNat
  return {
    id := id, header := header, lowKey := lowKey, highKey := highKey
    slots := es.map (·.2.1), keys := es.map Prod.fst, vals := es.filterMap (·.2.2), children := children
    buffer := buffered.foldl (fun m e => m.insert e.1 e.2) .empty
    bloom := toArray bloomFilterSizeBytes bloom }

def DiskNode.deserialize (H : Hashes) (id : UInt64) (buf : Bytes) : Except IoError DiskNode := do
  let data := buf.take (pageSize - sigSize)
  let sig := buf.drop (pageSize - sigSize)
  let (crc, _) ← readU32 sig 0
  if (H.crc32 data).toNat ≠ crc then .error (invalidData "CRC Falhou")
  else if (H.blake3 data).1.take hashLen ≠ window sig 4 hashLen then .error (invalidData "Blake3 Falhou")
  else do
    let (n, _) ← readNode id data offSlotsStart
    return n

end BTree
end Heraclitus
