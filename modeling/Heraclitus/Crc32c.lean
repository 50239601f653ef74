import Heraclitus.Format
import Heraclitus.Lib.Division
/-!
# Crc32c — the streaming checksum (`heraclitus-log/src/cpm.rs`)

The state is the register of a division by the Castagnoli polynomial, inverted before and after.  A chunk goes through the table
byte by byte, or through two instructions of the processor, which take in words where the memory is aligned.  Both leave the
remainder that the division leaves, so neither the cuts between the chunks nor the path show in the value.
-/
namespace Heraclitus
namespace Cpm

open Legacy (crcShift crcEntry updateTabela)
open Division Polynomial

/-- A slice as `align_to::<u64>` parts it: words in the middle, bytes before and behind them. -/
structure Slice where
  pre : Bytes
  meio : List UInt64
  pos : Bytes

def Slice.bytes (data : Slice) : Bytes := data.pre ++ data.meio.flatMap (fun w => leBytes 8 w.toNat) ++ data.pos

/-- `_mm_crc32_u8` and `_mm_crc32_u64`. -/
structure Sse42 where
  crc32U8 : UInt32 → UInt8 → UInt32
  crc32U64 : UInt64 → UInt64 → UInt64

def updateHardware (cpu : Sse42) (crc : UInt32) (data : Slice) : UInt32 :=
  let c := data.pre.foldl (fun c b => (cpu.crc32U8 c.toUInt32 b).toUInt64) crc.toUInt64
  let c := data.meio.foldl cpu.crc32U64 c
  let c := data.pos.foldl (fun c b => (cpu.crc32U8 c.toUInt32 b).toUInt64) c
  c.toUInt32

/-- `temSse42` is what the detection found. -/
def updateDespachado (temSse42 : Option Sse42) (crc : UInt32) (data : Slice) : UInt32 :=
  match temSse42 with
  | some cpu => updateHardware cpu crc data
  | none => updateTabela crc data.bytes

structure Crc32c where
  state : UInt32

def Crc32c.new : Crc32c := ⟨0xFFFFFFFF⟩

def Crc32c.update (temSse42 : Option Sse42) (h : Crc32c) (data : Slice) : Crc32c := ⟨updateDespachado temSse42 h.state data⟩

def Crc32c.finalize (h : Crc32c) : UInt32 := ~~~ h.state

def crc32c (temSse42 : Option Sse42) (data : Slice) : UInt32 := (Crc32c.new.update temSse42 data).finalize

/-- `0x1EDC6F41` with the leading term. -/
noncomputable def castagnoli : (ZMod 2)[X] :=
  X ^ 32 + (X ^ 28 + X ^ 27 + X ^ 26 + X ^ 25 + X ^ 23 + X ^ 22 + X ^ 20 + X ^ 19 + X ^ 18
    + X ^ 14 + X ^ 13 + X ^ 11 + X ^ 10 + X ^ 9 + X ^ 8 + X ^ 6 + 1)

/-- The message of some bytes, each from its lowest bit on. -/
def messageBits (data : Bytes) : List Bool := data.flatMap (fun b => bits b.toBitVec)

/-- What the state and a message leave when they are divided: both are moved up, the message by the width of the register. -/
noncomputable def remainder (crc : UInt32) (message : List Bool) : (ZMod 2)[X] :=
  (X ^ message.length * poly (bits crc.toBitVec) + X ^ 32 * poly message) %ₘ castagnoli

/-- The documented operation of the two instructions: the remainder of the operand behind the accumulator. -/
structure Sse42.Divides (cpu : Sse42) : Prop where
  crc32U8 : ∀ (crc : UInt32) (b : UInt8), poly (bits (cpu.crc32U8 crc b).toBitVec) = remainder crc (bits b.toBitVec)
  crc32U64 : ∀ crc w : UInt64, poly (bits (cpu.crc32U64 crc w).toUInt32.toBitVec) = remainder crc.toUInt32 (bits w.toBitVec)

/-! ## The table -/

/-- The reflected polynomial, as the source writes it. -/
def taps : BitVec 32 := 0x82F63B78#32

theorem divisor_taps : divisor taps = castagnoli := by
  have hbits : bits taps = [false, false, false, true, true, true, true, false, true, true, false, true, true, true, false,
      false, false, true, true, false, true, true, true, true, false, true, false, false, false, false, false, true] := by
    decide
  rw [divisor, hbits, castagnoli]
  simp only [poly, List.length_cons, List.length_nil, Bool.false_eq_true, if_true, if_false]
  ring

/-- The register with the taps of this polynomial. -/
def divideBits (crc : UInt32) (message : List Bool) : UInt32 := ⟨divide taps crc.toBitVec message⟩

theorem poly_divideBits (crc : UInt32) (message : List Bool) :
    poly (bits (divideBits crc message).toBitVec) = remainder crc message := by
  rw [remainder, ← divisor_taps]
  exact poly_divide taps crc.toBitVec message

theorem eq_divideBits {crc c : UInt32} {message : List Bool} (h : poly (bits c.toBitVec) = remainder crc message) :
    c = divideBits crc message := by
  rw [remainder, ← divisor_taps] at h
  exact UInt32.toBitVec_inj.1 (eq_divide h)

theorem divideBits_append (crc : UInt32) (xs ys : List Bool) :
    divideBits crc (xs ++ ys) = divideBits (divideBits crc xs) ys :=
  UInt32.toBitVec_inj.1 (divide_append taps crc.toBitVec xs ys)

theorem toBitVec_crcShift (crc : UInt32) : (crcShift crc).toBitVec = shift taps crc.toBitVec := by
  have hlow : crc &&& 1 ≠ 0 ↔ crc.toBitVec.getLsbD 0 = true := by
    rw [← UInt32.toBitVec_inj.ne, UInt32.toBitVec_and]
    have h : crc.toBitVec &&& 1#32 = BitVec.setWidth 32 (BitVec.ofBool (crc.toBitVec.getLsbD 0)) :=
      BitVec.and_one_eq_setWidth_ofBool_getLsbD
    rw [show (1 : UInt32).toBitVec = 1#32 from rfl, h]
    cases crc.toBitVec.getLsbD 0 <;> decide
  unfold crcShift shift
  simp only [hlow]
  split <;> rfl

theorem toBitVec_crcEntry (i : UInt32) : (crcEntry i).toBitVec = divide taps i.toBitVec (List.replicate 8 false) := by
  have hrep : ∀ n : Nat, (Nat.repeat crcShift n i).toBitVec = Nat.repeat (shift taps) n i.toBitVec := by
    intro n
    induction n with
    | zero => rfl
    | succ n ih => exact (toBitVec_crcShift _).trans (congrArg (shift taps) ih)
  rw [repeat_shift, crcEntry, hrep]

/-- **One byte through the table** is eight turns of the register. -/
theorem table_byte (crc : UInt32) (b : UInt8) :
    crcEntry ((crc ^^^ b.toUInt32) &&& 0xFF) ^^^ (crc >>> 8) = divideBits crc (bits b.toBitVec) := by
  have hindex : ((crc ^^^ b.toUInt32) &&& 0xFF).toBitVec
      = ((crc.toBitVec ^^^ b.toBitVec.setWidth 32).setWidth 8).setWidth 32 :=
    (BitVec.and_setWidth_allOnes 24 8 (crc.toBitVec ^^^ b.toBitVec.setWidth 32)).trans
      (BitVec.setWidth_eq_append (by decide)).symm
  have hhigh : (crc.toBitVec ^^^ b.toBitVec.setWidth 32) >>> 8 = (crc >>> 8).toBitVec := by
    refine BitVec.eq_of_getLsbD_eq fun i _ => ?_
    rw [UInt32.toBitVec_shiftRight, BitVec.getLsbD_ushiftRight, BitVec.getLsbD_xor, BitVec.getLsbD_setWidth,
      BitVec.getLsbD_of_ge b.toBitVec _ (by omega), Bool.and_false, Bool.xor_false]
    exact (BitVec.getLsbD_ushiftRight crc.toBitVec 8 i).symm
  refine UInt32.toBitVec_inj.1 ?_
  rw [UInt32.toBitVec_xor, toBitVec_crcEntry, hindex, ← hhigh, ← divide_table (by decide), ← divide_word (by decide)]
  rfl

theorem messageBits_cons (b : UInt8) (data : Bytes) : messageBits (b :: data) = bits b.toBitVec ++ messageBits data := rfl

theorem updateTabela_eq (data : Bytes) : ∀ crc : UInt32, updateTabela crc data = divideBits crc (messageBits data) := by
  induction data with
  | nil => exact fun crc => rfl
  | cons b data ih =>
    intro crc
    rw [messageBits_cons, divideBits_append, ← ih, ← table_byte]
    rfl

/-! ## The instructions -/

theorem messageBits_append (xs ys : Bytes) : messageBits (xs ++ ys) = messageBits xs ++ messageBits ys :=
  List.flatMap_append

theorem messageBits_leBytes : ∀ n v : Nat, messageBits (leBytes n v) = (List.range (8 * n)).map v.testBit
  | 0, _ => rfl
  | n + 1, v => by
    have hlow : bits (UInt8.ofNat v).toBitVec = (List.range 8).map v.testBit := by
      refine List.map_congr_left fun i hi => ?_
      have := List.mem_range.1 hi
      exact (BitVec.getLsbD_ofNat 8 v i).trans (by rw [decide_eq_true this, Bool.true_and])
    have hhigh : (v / 256).testBit = fun i => v.testBit (8 + i) := by
      funext i
      rw [Nat.add_comm]
      exact Nat.testBit_div_two_pow (n := 8) v i
    rw [leBytes, messageBits_cons, messageBits_leBytes n, hlow, hhigh,
      Nat.mul_succ, Nat.add_comm, List.range_add, List.map_append, List.map_map]
    rfl

/-- The bits of a word are those of its bytes in memory. -/
theorem messageBits_word (w : UInt64) : messageBits (leBytes 8 w.toNat) = bits w.toBitVec :=
  messageBits_leBytes 8 w.toNat

section Hardware

variable {cpu : Sse42} (h : cpu.Divides)

include h in
theorem foldl_crc32U8 (data : Bytes) : ∀ c : UInt64,
    (data.foldl (fun c b => (cpu.crc32U8 c.toUInt32 b).toUInt64) c).toUInt32 = divideBits c.toUInt32 (messageBits data) := by
  induction data with
  | nil => exact fun c => rfl
  | cons b data ih =>
    intro c
    rw [List.foldl_cons, ih, messageBits_cons, divideBits_append, ← eq_divideBits (h.crc32U8 c.toUInt32 b),
      UInt32.toUInt32_toUInt64]

include h in
theorem foldl_crc32U64 (words : List UInt64) : ∀ c : UInt64, (words.foldl cpu.crc32U64 c).toUInt32
    = divideBits c.toUInt32 (messageBits (words.flatMap (fun w => leBytes 8 w.toNat))) := by
  induction words with
  | nil => exact fun c => rfl
  | cons w words ih =>
    intro c
    rw [List.foldl_cons, ih, List.flatMap_cons, messageBits_append, divideBits_append, messageBits_word,
      ← eq_divideBits (h.crc32U64 c w)]

include h in
/-- **The instructions leave what the division leaves**, wherever the memory is aligned. -/
theorem updateHardware_eq (crc : UInt32) (data : Slice) :
    updateHardware cpu crc data = divideBits crc (messageBits data.bytes) := by
  rw [updateHardware, foldl_crc32U8 h, foldl_crc32U64 h, foldl_crc32U8 h, Slice.bytes, messageBits_append, messageBits_append,
    divideBits_append, divideBits_append, UInt32.toUInt32_toUInt64]

end Hardware

/-! ## The stream -/

section Stream

variable {temSse42 : Option Sse42} (h : ∀ cpu, temSse42 = some cpu → cpu.Divides)

include h in
theorem updateDespachado_eq (crc : UInt32) (data : Slice) :
    updateDespachado temSse42 crc data = divideBits crc (messageBits data.bytes) := by
  cases temSse42 with
  | none => exact updateTabela_eq data.bytes crc
  | some cpu => exact updateHardware_eq (h cpu rfl) crc data

include h in
theorem state_foldl_update (chunks : List Slice) : ∀ c : Crc32c,
    (chunks.foldl (Crc32c.update temSse42) c).state
      = divideBits c.state (messageBits (chunks.flatMap Slice.bytes)) := by
  induction chunks with
  | nil => exact fun c => rfl
  | cons data chunks ih =>
    intro c
    rw [List.foldl_cons, ih, List.flatMap_cons, messageBits_append, divideBits_append, Crc32c.update,
      updateDespachado_eq h]

include h in
/-- **However a byte string is cut into chunks and whichever path each takes, the incremental checksum is the one-shot one**,
and it is the table's.  The table's path holds what the register of the Castagnoli polynomial holds after as many turns as the
bytes have bits: the remainder of their division. -/
theorem crc32c_streams :
    (∀ (chunks : List Slice) (whole : Slice), chunks.flatMap Slice.bytes = whole.bytes →
      (chunks.foldl (Crc32c.update temSse42) Crc32c.new).finalize = crc32c temSse42 whole) ∧
    (∀ data : Slice, crc32c temSse42 data = Legacy.crc32c data.bytes) ∧
    (∀ (crc : UInt32) (data : Slice), updateDespachado temSse42 crc data = updateTabela crc data.bytes) ∧
    ∀ (crc : UInt32) (data : Bytes), updateTabela crc data = divideBits crc (messageBits data) ∧
      poly (bits (updateTabela crc data).toBitVec) = remainder crc (messageBits data) := by
  have hpath : ∀ (crc : UInt32) (data : Slice), updateDespachado temSse42 crc data = updateTabela crc data.bytes :=
    fun crc data => (updateDespachado_eq h crc data).trans (updateTabela_eq data.bytes crc).symm
  refine ⟨fun chunks whole hbytes => ?_, fun data => congrArg (~~~ ·) (hpath _ data), hpath, fun crc data => ?_⟩
  · rw [Crc32c.finalize, state_foldl_update h, hbytes, crc32c, Crc32c.finalize, Crc32c.update, updateDespachado_eq h]
  · rw [updateTabela_eq]
    exact ⟨rfl, poly_divideBits crc (messageBits data)⟩

end Stream

/-- The instructions, computed bit by bit. -/
def bitwise : Sse42 where
  crc32U8 crc b := divideBits crc (bits b.toBitVec)
  crc32U64 crc w := (divideBits crc.toUInt32 (bits w.toBitVec)).toUInt64

theorem bitwise_divides : bitwise.Divides :=
  ⟨fun crc b => poly_divideBits crc (bits b.toBitVec), fun crc w => by
    rw [bitwise, UInt32.toUInt32_toUInt64]
    exact poly_divideBits crc.toUInt32 (bits w.toBitVec)⟩

/-- The digits 1 to 9 in two chunks, the second one word of memory, give the published check value. -/
theorem digits_streamed :
    let chunks : List Slice := [⟨[0x31], [], []⟩, ⟨[], [0x3938373635343332], []⟩]
    let whole : Slice := ⟨[0x31, 0x32, 0x33], [], [0x34, 0x35, 0x36, 0x37, 0x38, 0x39]⟩
    (chunks.foldl (Crc32c.update (some bitwise)) Crc32c.new).finalize = crc32c (some bitwise) whole ∧
      crc32c (some bitwise) whole = 0xE3069283 := by
  have h := @crc32c_streams (some bitwise) (fun cpu hcpu => Option.some.inj hcpu ▸ bitwise_divides)
  exact ⟨h.1 _ _ (by decide +kernel), (h.2.1 _).trans (by decide +kernel)⟩

end Cpm
end Heraclitus
