import Heraclitus.Core
import Heraclitus.Lib.Fallible
import Heraclitus.Lib.LittleEndian
import Heraclitus.Lib.Reader
import Heraclitus.Lib.SortedMap
/-!
# Vm — the H-VM: a reducer and its instruction frames (`heraclitus-core/src/vm`)

The state is the fold of the instructions.  A frame is a header of eight bytes and the arguments of the instruction, every
integer big-endian, every byte field behind its length.
-/
namespace Heraclitus

namespace Vm

/-! ## The reducer -/

inductive VmInstruction where
  | upsert (key val : Bytes) (lsn evId : Nat)
  | delete (key : Bytes) (lsn evId : Nat)
  | splitShard (shardId : Nat) (splitKey : Bytes) (newShardId lsn : Nat)
  deriving DecidableEq

/-- The position in the canonical order. -/
def VmInstruction.lsn : VmInstruction → Nat
  | .upsert _ _ lsn _ => lsn
  | .delete _ lsn _ => lsn
  | .splitShard _ _ _ lsn => lsn

structure VmState where
  currentLsn : Nat := 0
  maxLsnApplied : Nat := 0
  memoryLayers : SortedMap Bytes Bytes := .empty
  activeRoutingTable : SortedMap Bytes Nat := .empty
  deriving DecidableEq

def reduceStep (s : VmState) : VmInstruction → VmState
  | .upsert key val lsn _ =>
    { s with
      currentLsn := lsn
      maxLsnApplied := max s.maxLsnApplied lsn
      memoryLayers := s.memoryLayers.insert key val }
  | .delete key lsn _ =>
    { s with
      currentLsn := lsn
      maxLsnApplied := max s.maxLsnApplied lsn
      memoryLayers := s.memoryLayers.erase key }
  | .splitShard _ splitKey newShardId lsn =>
    { s with
      currentLsn := lsn
      maxLsnApplied := max s.maxLsnApplied lsn
      activeRoutingTable := s.activeRoutingTable.insert splitKey newShardId }

/-- `run`: the fold of a stream. -/
def run (s : VmState) (stream : List VmInstruction) : VmState := stream.foldl reduceStep s

/-! ## Frames -/

inductive VmCodecError where
  | truncated (need have_ : Nat)
  | unknownOpcode (op : Nat)
  | lengthMismatch (op declared consumed : Nat)
  deriving DecidableEq

/-- `{:04x}`. -/
def hex04 (n : Nat) : String :=
  let digits := Nat.toDigits 16 n
  String.ofList (List.replicate (4 - digits.length) '0' ++ digits)

def VmCodecError.text : VmCodecError → String
  | .truncated need have_ => s!"frame truncated: need {need} bytes, have {have_}"
  | .unknownOpcode op => s!"unknown opcode 0x{hex04 op}"
  | .lengthMismatch op declared consumed =>
    s!"payload length mismatch for opcode 0x{hex04 op}: declared {declared}, consumed {consumed}"

/-- `to_be_bytes`, on `w` bytes. -/
def beBytes (w n : Nat) : Bytes := (leBytes w n).reverse

def beNat (bytes : Bytes) : Nat := leNat bytes.reverse

def headerLen : Nat := 8

def opUpsertLe : Nat := 0x0001
def opDeleteLe : Nat := 0x0002
def opSplitLt : Nat := 0x0101

def putBytes (bytes : Bytes) : Bytes := beBytes 4 bytes.length ++ bytes

def encodePayload : VmInstruction → Nat × Bytes
  | .upsert key val lsn evId => (opUpsertLe, beBytes 8 lsn ++ (beBytes 16 evId ++ (putBytes key ++ putBytes val)))
  | .delete key lsn evId => (opDeleteLe, beBytes 8 lsn ++ (beBytes 16 evId ++ putBytes key))
  | .splitShard shardId splitKey newShardId lsn =>
    (opSplitLt, beBytes 8 lsn ++ (beBytes 8 shardId ++ (beBytes 8 newShardId ++ putBytes splitKey)))

/-- The length is cast to a `u32`. -/
def encode (version : Nat) (instr : VmInstruction) : Bytes :=
  let p := encodePayload instr
  beBytes 2 p.1 ++ (beBytes 2 version ++ (beBytes 4 p.2.length ++ p.2))

/-- `take`, which fails closed on a short read. -/
def take (n : Nat) : Reader VmCodecError Bytes := Reader.slice n (fun pos len => .truncated (pos + n) len)

/-- An integer on `w` bytes. -/
def takeNat (w : Nat) : Reader VmCodecError Nat := do
  let bytes ← take w
  pure (beNat bytes)

def varBytes : Reader VmCodecError Bytes := do
  let n ← takeNat 4
  take n

/-- The arguments of an instruction. -/
def arguments (op : Nat) : Reader VmCodecError VmInstruction :=
  if op = opUpsertLe then do
    let lsn ← takeNat 8
    let evId ← takeNat 16
    let key ← varBytes
    let val ← varBytes
    pure (.upsert key val lsn evId)
  else if op = opDeleteLe then do
    let lsn ← takeNat 8
    let evId ← takeNat 16
    let key ← varBytes
    pure (.delete key lsn evId)
  else if op = opSplitLt then do
    let lsn ← takeNat 8
    let shardId ← takeNat 8
    let newShardId ← takeNat 8
    let splitKey ← varBytes
    pure (.splitShard shardId splitKey newShardId lsn)
  else Reader.fail (.unknownOpcode op)

def decodePayload (op : Nat) (payload : Bytes) : Except VmCodecError VmInstruction :=
  match arguments op payload 0 with
  | .error e => .error e
  | .ok (instr, pos) => if pos ≠ payload.length then .error (.lengthMismatch op payload.length pos) else .ok instr

/-- Exactly one frame from the front. -/
def decode (bytes : Bytes) : Except VmCodecError (Nat × VmInstruction) :=
  if bytes.length < headerLen then .error (.truncated headerLen bytes.length)
  else
    let op := beNat (bytes.take 2)
    let version := beNat ((bytes.drop 2).take 2)
    let len := beNat ((bytes.drop 4).take 4)
    if bytes.length < headerLen + len then .error (.truncated (headerLen + len) bytes.length)
    else (decodePayload op ((bytes.drop headerLen).take len)).map (fun instr => (version, instr))

/-- The frames of a stream, back to back. -/
def decodeStream (bytes : Bytes) : Except VmCodecError (List (Nat × VmInstruction)) :=
  if bytes = [] then .ok []
  else if bytes.length < headerLen then .error (.truncated headerLen bytes.length)
  else
    let frameEnd := headerLen + beNat ((bytes.drop 4).take 4)
    if bytes.length < frameEnd then .error (.truncated frameEnd bytes.length)
    else do
      let frame ← decode (bytes.take frameEnd)
      let out ← decodeStream (bytes.drop frameEnd)
      pure (frame :: out)
termination_by bytes.length
decreasing_by
  rw [List.length_drop, headerLen]
  have := List.length_pos_iff.2 ‹bytes ≠ []›
  omega

/-! ## A frame is read back -/

/-- Every field fits its type, and the arguments the frame. -/
def VmInstruction.Fits : VmInstruction → Prop
  | .upsert key val lsn evId => lsn < 2 ^ 64 ∧ evId < 2 ^ 128 ∧ key.length + val.length + 32 < 2 ^ 32
  | .delete key lsn evId => lsn < 2 ^ 64 ∧ evId < 2 ^ 128 ∧ key.length + 28 < 2 ^ 32
  | .splitShard shardId splitKey newShardId lsn =>
    lsn < 2 ^ 64 ∧ shardId < 2 ^ 64 ∧ newShardId < 2 ^ 64 ∧ splitKey.length + 28 < 2 ^ 32

@[simp] theorem length_beBytes (w n : Nat) : (beBytes w n).length = w := by
  rw [beBytes, List.length_reverse, length_leBytes]

theorem beNat_beBytes {w n : Nat} (h : n < 256 ^ w) : beNat (beBytes w n) = n := by
  rw [beNat, beBytes, List.reverse_reverse, leNat_leBytes_of_lt h]

@[simp] theorem length_putBytes (bytes : Bytes) : (putBytes bytes).length = 4 + bytes.length := by
  rw [putBytes, List.length_append, length_beBytes]

theorem takes_take (bytes : Bytes) : (take bytes.length).Takes bytes bytes := Reader.takes_slice bytes _

theorem takes_takeNat {w n : Nat} (h : n < 256 ^ w) : (takeNat w).Takes (beBytes w n) n := by
  have htake := takes_take (beBytes w n)
  rw [length_beBytes] at htake
  refine htake.bind_end ?_
  rw [beNat_beBytes h]
  exact Reader.takes_pure n

theorem takes_varBytes {bytes : Bytes} (h : bytes.length < 2 ^ 32) : varBytes.Takes (putBytes bytes) bytes :=
  (takes_takeNat h).bind (takes_take bytes)

/-- **The arguments of an instruction** are read as they were written. -/
theorem takes_arguments {instr : VmInstruction} (h : instr.Fits) :
    (arguments (encodePayload instr).1).Takes (encodePayload instr).2 instr := by
  cases instr with
  | upsert key val lsn evId =>
    obtain ⟨hlsn, hid, hlen⟩ := h
    exact (takes_takeNat hlsn).bind ((takes_takeNat hid).bind ((takes_varBytes (by omega)).bind
      ((takes_varBytes (by omega)).bind_end (Reader.takes_pure _))))
  | delete key lsn evId =>
    obtain ⟨hlsn, hid, hlen⟩ := h
    exact (takes_takeNat hlsn).bind ((takes_takeNat hid).bind ((takes_varBytes (by omega)).bind_end (Reader.takes_pure _)))
  | splitShard shardId splitKey newShardId lsn =>
    obtain ⟨hlsn, hshard, hnew, hlen⟩ := h
    exact (takes_takeNat hlsn).bind ((takes_takeNat hshard).bind ((takes_takeNat hnew).bind
      ((takes_varBytes (by omega)).bind_end (Reader.takes_pure _))))

theorem encodePayload_bounds {instr : VmInstruction} (h : instr.Fits) :
    (encodePayload instr).1 < 256 ^ 2 ∧ (encodePayload instr).2.length < 256 ^ 4 := by
  cases instr with
  | upsert key val lsn evId =>
    obtain ⟨-, -, hlen⟩ := h
    simp only [encodePayload, opUpsertLe, List.length_append, length_beBytes, length_putBytes]
    omega
  | delete key lsn evId =>
    obtain ⟨-, -, hlen⟩ := h
    simp only [encodePayload, opDeleteLe, List.length_append, length_beBytes, length_putBytes]
    omega
  | splitShard shardId splitKey newShardId lsn =>
    obtain ⟨-, -, -, hlen⟩ := h
    simp only [encodePayload, opSplitLt, List.length_append, length_beBytes, length_putBytes]
    omega

/-- **A frame is read back.** -/
theorem decode_encode {version : Nat} {instr : VmInstruction} (hversion : version < 256 ^ 2) (h : instr.Fits) :
    decode (encode version instr) = .ok (version, instr) := by
  obtain ⟨hop, hlen⟩ := encodePayload_bounds h
  have harguments := takes_arguments h (encodePayload instr).2 0 [] (Nat.zero_le _) (List.append_nil _).symm
  generalize hpayload : encodePayload instr = p at hop hlen harguments
  obtain ⟨op, payload⟩ := p
  dsimp only at hop hlen harguments
  have hframe : encode version instr = beBytes 2 op ++ (beBytes 2 version ++ (beBytes 4 payload.length ++ payload)) := by
    rw [encode, hpayload]
  have htwo : (encode version instr).take 2 = beBytes 2 op := by
    rw [hframe]
    exact List.take_left' (length_beBytes 2 op)
  have hfour : ((encode version instr).drop 2).take 2 = beBytes 2 version := by
    rw [hframe, List.drop_left' (length_beBytes 2 op)]
    exact List.take_left' (length_beBytes 2 version)
  have height : ((encode version instr).drop 4).take 4 = beBytes 4 payload.length := by
    rw [hframe, ← List.append_assoc, List.drop_left' (by simp)]
    exact List.take_left' (length_beBytes 4 _)
  have hrest : (encode version instr).drop headerLen = payload := by
    rw [hframe, ← List.append_assoc, ← List.append_assoc]
    exact List.drop_left' (by simp [headerLen])
  have hlength : (encode version instr).length = headerLen + payload.length := by
    rw [hframe]
    simp [headerLen]
    omega
  rw [decode, if_neg (by omega)]
  dsimp only
  have hversion' := beNat_beBytes hversion
  rw [htwo, hfour, height, beNat_beBytes hop, hversion', beNat_beBytes hlen, if_neg (by omega), hrest,
    List.take_length, decodePayload, harguments]
  dsimp only
  rw [Nat.zero_add, if_neg (fun hne => hne rfl)]
  rfl

/-! ## What is read was a frame -/

theorem beBytes_beNat {bytes : Bytes} {w : Nat} (h : bytes.length = w) : beBytes w (beNat bytes) = bytes := by
  rw [beBytes, beNat, leBytes_leNat_of_length (by rw [List.length_reverse, h]), List.reverse_reverse]

theorem beNat_lt {bytes : Bytes} {w : Nat} (h : bytes.length = w) : beNat bytes < 256 ^ w := by
  have hlt := leNat_lt bytes.reverse
  rwa [List.length_reverse, h] at hlt

theorem reads_takeNat (w : Nat) : (takeNat w).Reads (fun n bytes => bytes = beBytes w n ∧ n < 256 ^ w) := by
  refine (Reader.reads_slice w _).bind (fun a bytes h => Reader.reads_pure ?_)
  obtain ⟨rfl, hlen⟩ := h
  rw [List.append_nil, beBytes_beNat hlen]
  exact ⟨rfl, beNat_lt hlen⟩

theorem reads_varBytes : varBytes.Reads (fun b bytes => bytes = putBytes b ∧ b.length < 2 ^ 32) := by
  refine (reads_takeNat 4).bind (fun n field hfield => (Reader.reads_slice n _).mono (fun b bytes hbytes => ?_))
  obtain ⟨rfl, hn⟩ := hfield
  obtain ⟨rfl, rfl⟩ := hbytes
  exact ⟨rfl, hn⟩

/-- **The arguments of an instruction** were written by it. -/
theorem reads_arguments (op : Nat) :
    (arguments op).Reads (fun instr bytes => encodePayload instr = (op, bytes) ∧ (bytes.length < 2 ^ 32 → instr.Fits)) := by
  unfold arguments
  split
  · rename_i hop
    refine (reads_takeNat 8).bind (fun lsn _ hlsn => (reads_takeNat 16).bind (fun evId _ hid => reads_varBytes.bind
      (fun key _ hkey => reads_varBytes.bind (fun val _ hval => Reader.reads_pure ?_))))
    obtain ⟨rfl, hlsn⟩ := hlsn
    obtain ⟨rfl, hid⟩ := hid
    obtain ⟨rfl, -⟩ := hkey
    obtain ⟨rfl, -⟩ := hval
    refine ⟨by rw [encodePayload, hop, List.append_nil], fun hlen => ⟨hlsn, hid, ?_⟩⟩
    simp only [List.length_append, length_beBytes, length_putBytes, List.length_nil] at hlen
    omega
  · split
    · rename_i hop
      refine (reads_takeNat 8).bind (fun lsn _ hlsn => (reads_takeNat 16).bind (fun evId _ hid => reads_varBytes.bind
        (fun key _ hkey => Reader.reads_pure ?_)))
      obtain ⟨rfl, hlsn⟩ := hlsn
      obtain ⟨rfl, hid⟩ := hid
      obtain ⟨rfl, -⟩ := hkey
      refine ⟨by rw [encodePayload, hop, List.append_nil], fun hlen => ⟨hlsn, hid, ?_⟩⟩
      simp only [List.length_append, length_beBytes, length_putBytes, List.length_nil] at hlen
      omega
    · split
      · rename_i hop
        refine (reads_takeNat 8).bind (fun lsn _ hlsn => (reads_takeNat 8).bind (fun shardId _ hshard =>
          (reads_takeNat 8).bind (fun newShardId _ hnew => reads_varBytes.bind (fun splitKey _ hkey => Reader.reads_pure ?_))))
        obtain ⟨rfl, hlsn⟩ := hlsn
        obtain ⟨rfl, hshard⟩ := hshard
        obtain ⟨rfl, hnew⟩ := hnew
        obtain ⟨rfl, -⟩ := hkey
        refine ⟨by rw [encodePayload, hop, List.append_nil], fun hlen => ⟨hlsn, hshard, hnew, ?_⟩⟩
        simp only [List.length_append, length_beBytes, length_putBytes, List.length_nil] at hlen
        omega
      · exact Reader.reads_fail _

theorem decodePayload_sound {op : Nat} {payload : Bytes} {instr : VmInstruction} (h : decodePayload op payload = .ok instr)
    (hlen : payload.length < 2 ^ 32) : encodePayload instr = (op, payload) ∧ instr.Fits := by
  unfold decodePayload at h
  cases hread : arguments op payload 0 with
  | error e =>
    rw [hread] at h
    cases h
  | ok x =>
    obtain ⟨instr', pos⟩ := x
    rw [hread] at h
    dsimp only at h
    split at h
    · cases h
    · rename_i hend
      cases h
      -- nothing of the payload is left over
      obtain ⟨bytes, hdrop, hpos, hencode, hfits⟩ := reads_arguments op _ _ _ _ hread
      have hall : payload = bytes := by
        rw [List.drop_zero, not_not.1 hend, List.drop_length, List.append_nil] at hdrop
        exact hdrop
      exact ⟨hall ▸ hencode, hfits (hall ▸ hlen)⟩

/-- **What is read from the front is a frame**, which its instruction writes again. -/
theorem decode_sound {bytes : Bytes} {version : Nat} {instr : VmInstruction} (h : decode bytes = .ok (version, instr)) :
    version < 2 ^ 16 ∧ instr.Fits ∧ encode version instr = bytes.take (headerLen + beNat ((bytes.drop 4).take 4)) := by
  unfold decode at h
  split at h
  · cases h
  · rename_i hheader
    have hheader : 8 ≤ bytes.length := Nat.not_lt.1 hheader
    dsimp only at h
    split at h
    · cases h
    · rename_i hframe
      have hframe : headerLen + beNat ((bytes.drop 4).take 4) ≤ bytes.length := Nat.not_lt.1 hframe
      have hop : (bytes.take 2).length = 2 := by
        rw [List.length_take]
        omega
      have hversion : ((bytes.drop 2).take 2).length = 2 := by
        rw [List.length_take, List.length_drop]
        omega
      have hlen : ((bytes.drop 4).take 4).length = 4 := by
        rw [List.length_take, List.length_drop]
        omega
      obtain ⟨instr', hpayload, h⟩ := map_eq_ok h
      cases h
      have hlength : ((bytes.drop headerLen).take (beNat ((bytes.drop 4).take 4))).length = beNat ((bytes.drop 4).take 4) := by
        rw [List.length_take, List.length_drop]
        omega
      obtain ⟨hencode, hfits⟩ := decodePayload_sound hpayload (by rw [hlength]; exact beNat_lt hlen)
      refine ⟨beNat_lt hversion, hfits, ?_⟩
      rw [encode, hencode]
      dsimp only
      rw [beBytes_beNat hop, beBytes_beNat hversion, hlength, beBytes_beNat hlen, List.take_add, headerLen,
        show (8 : Nat) = 2 + (2 + 4) from rfl, List.take_add, List.take_add, List.drop_drop]
      simp only [List.append_assoc]

/-! ## Streams -/

def encodeStream (stream : List (Nat × VmInstruction)) : Bytes := stream.flatMap (fun p => encode p.1 p.2)

/-- The header says how long the frame is. -/
theorem declared_encode {version : Nat} {instr : VmInstruction} (h : instr.Fits) (rest : Bytes) :
    headerLen + beNat (((encode version instr ++ rest).drop 4).take 4) = (encode version instr).length := by
  obtain ⟨-, hlen⟩ := encodePayload_bounds h
  have hfour : ((encode version instr ++ rest).drop 4).take 4 = beBytes 4 (encodePayload instr).2.length := by
    rw [encode, List.append_assoc, List.append_assoc, ← List.append_assoc (beBytes 2 _), List.drop_left' (by simp),
      List.append_assoc]
    exact List.take_left' (length_beBytes 4 _)
  rw [hfour, beNat_beBytes hlen, encode]
  simp only [List.length_append, length_beBytes, headerLen]
  omega

theorem decodeStream_encodeStream : ∀ stream : List (Nat × VmInstruction), (∀ p ∈ stream, p.1 < 2 ^ 16 ∧ p.2.Fits) →
    decodeStream (encodeStream stream) = .ok stream
  | [], _ => by
    rw [decodeStream]
    exact if_pos rfl
  | (version, instr) :: stream, h => by
    obtain ⟨hversion, hfits⟩ : version < 2 ^ 16 ∧ instr.Fits := h _ List.mem_cons_self
    have hbytes : encodeStream ((version, instr) :: stream) = encode version instr ++ encodeStream stream := rfl
    have hheader : headerLen ≤ (encode version instr).length := by
      rw [← declared_encode hfits []]
      exact Nat.le_add_right _ _
    have hne : encode version instr ++ encodeStream stream ≠ [] := by
      intro hnil
      rw [(List.append_eq_nil_iff.1 hnil).1] at hheader
      exact absurd hheader (by decide)
    have hlength : (encode version instr ++ encodeStream stream).length = (encode version instr).length +
        (encodeStream stream).length := List.length_append
    rw [hbytes, decodeStream, if_neg hne, if_neg (by omega)]
    dsimp only
    rw [declared_encode hfits, if_neg (by omega), List.take_left, List.drop_left, decode_encode hversion hfits,
      decodeStream_encodeStream stream (fun p hp => h p (List.mem_cons_of_mem _ hp))]
    rfl

theorem encodeStream_decodeStream (bytes : Bytes) : ∀ stream, decodeStream bytes = .ok stream →
    encodeStream stream = bytes ∧ ∀ p ∈ stream, p.1 < 2 ^ 16 ∧ p.2.Fits := by
  induction bytes using decodeStream.induct with
  | case1 =>
    intro stream h
    rw [decodeStream, if_pos rfl] at h
    cases h
    exact ⟨rfl, fun p hp => absurd hp List.not_mem_nil⟩
  | case2 bytes hne hheader =>
    intro stream h
    rw [decodeStream, if_neg hne, if_pos hheader] at h
    cases h
  | case3 bytes hne hheader frameEnd hframe =>
    intro stream h
    rw [decodeStream, if_neg hne, if_neg hheader] at h
    dsimp only at h
    rw [if_pos hframe] at h
    cases h
  | case4 bytes hne hheader frameEnd hframe ih =>
    intro stream h
    rw [decodeStream, if_neg hne, if_neg hheader] at h
    dsimp only at h
    rw [if_neg hframe] at h
    obtain ⟨⟨version, instr⟩, hdecode, h⟩ := ok_of_bind h
    obtain ⟨out, hout, h⟩ := ok_of_bind h
    cases h
    obtain ⟨hversion, hfits, hencode⟩ := decode_sound hdecode
    obtain ⟨hrest, hall⟩ := ih out hout
    have htake : ((bytes.take frameEnd).drop 4).take 4 = (bytes.drop 4).take 4 := by
      rw [List.drop_take, List.take_take, Nat.min_eq_left (by simp only [frameEnd, headerLen]; omega)]
    rw [htake, List.take_take, Nat.min_self] at hencode
    refine ⟨?_, List.forall_mem_cons.2 ⟨⟨hversion, hfits⟩, hall⟩⟩
    rw [encodeStream, List.flatMap_cons, hencode, ← encodeStream, hrest, List.take_append_drop]

/-- **The codec is a bijection on its image**: a stream is read back from its frames, and what is read as a stream was written
by it, byte for byte. -/
theorem stream_codec_bijective :
    (∀ stream, (∀ p ∈ stream, p.1 < 2 ^ 16 ∧ p.2.Fits) → decodeStream (encodeStream stream) = .ok stream) ∧
    ∀ bytes stream, decodeStream bytes = .ok stream →
      encodeStream stream = bytes ∧ ∀ p ∈ stream, p.1 < 2 ^ 16 ∧ p.2.Fits :=
  ⟨decodeStream_encodeStream, encodeStream_decodeStream⟩

theorem two_frames_read_back :
    decodeStream (encodeStream [(1, .delete [1, 2] 3 4), (2 ^ 16 - 1, .splitShard 5 [] 6 7)])
      = .ok [(1, .delete [1, 2] 3 4), (2 ^ 16 - 1, .splitShard 5 [] 6 7)] :=
  stream_codec_bijective.1 _ (by simp [VmInstruction.Fits])

end Vm
end Heraclitus
