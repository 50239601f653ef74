import Mathlib.Algebra.Ring.Int.Defs
import Heraclitus.Core
import Heraclitus.Lib.LittleEndian
import Heraclitus.Lib.Bits
/-!
# Compression — codecs for columns of integers (`hume-kernel/src/compression.rs`)

Runs, differences, offsets from the minimum and bit packing, and over them a column codec that writes the shortest of four forms
behind a tag.  A column is read back exactly if it has no more values than `decode` takes.
-/
namespace Heraclitus
namespace Compression

/-! ## `rle` -/

namespace Rle

/-- A value joins the last run or begins one. -/
def push (out : List (Nat × Nat)) (v : Nat) : List (Nat × Nat) :=
  match out.getLast? with
  | some (val, count) => if val = v then out.dropLast ++ [(val, count + 1)] else out ++ [(v, 1)]
  | none => out ++ [(v, 1)]

def encode (data : List Nat) : List (Nat × Nat) := data.foldl push []

def decode (runs : List (Nat × Nat)) : List Nat := runs.flatMap (fun r => List.replicate r.2 r.1)

theorem decode_push (out : List (Nat × Nat)) (v : Nat) : decode (push out v) = decode out ++ [v] := by
  have happend : ∀ a b, decode (a ++ b) = decode a ++ decode b := fun a b => List.flatMap_append
  have hone : decode [(v, 1)] = [v] := rfl
  unfold push
  cases hlast : out.getLast? with
  | none => rw [happend, hone]
  | some r =>
    obtain ⟨val, count⟩ := r
    dsimp only
    split
    · rename_i hval
      subst hval
      have hout : out = out.dropLast ++ [(val, count)] := (List.dropLast_append_getLast? _ hlast).symm
      have hruns : ∀ c, decode [(val, c)] = List.replicate c val := fun c => List.append_nil _
      rw [happend, hruns, List.replicate_succ', ← List.append_assoc]
      conv_rhs => rw [hout, happend, hruns]
    · rw [happend, hone]

/-- **Runs are read back.** -/
theorem decode_encode (data : List Nat) : decode (encode data) = data := by
  have hfold : ∀ (data : List Nat) (out : List (Nat × Nat)), decode (data.foldl push out) = decode out ++ data := by
    intro data
    induction data with
    | nil => exact fun out => (List.append_nil _).symm
    | cons v data ih =>
      intro out
      rw [List.foldl_cons, ih, decode_push, List.append_assoc]
      rfl
  exact hfold data []

theorem length_decode (runs : List (Nat × Nat)) : (decode runs).length = (runs.map (fun r => r.2)).sum := by
  unfold decode
  rw [List.length_flatMap]
  congr 1
  exact List.map_congr_left (fun r _ => List.length_replicate)

/-- No run is empty. -/
theorem pos_of_mem_encode {data : List Nat} : ∀ r ∈ encode data, 0 < r.2 := by
  have hpush : ∀ out v, (∀ r ∈ out, 0 < r.2) → ∀ r ∈ push out v, 0 < r.2 := by
    intro out v hout r hr
    have hnew : ∀ (l : List (Nat × Nat)) (x : Nat × Nat), (∀ r ∈ l, 0 < r.2) → 0 < x.2 → r ∈ l ++ [x] → 0 < r.2 := by
      intro l x hl hx hr
      rcases List.mem_append.1 hr with hr | hr
      · exact hl r hr
      · rwa [List.mem_singleton.1 hr]
    unfold push at hr
    split at hr
    · split at hr
      · exact hnew _ _ (fun r hr => hout r ((List.dropLast_sublist out).subset hr)) (Nat.succ_pos _) hr
      · exact hnew _ _ hout Nat.one_pos hr
    · exact hnew _ _ hout Nat.one_pos hr
  have hfold : ∀ (data : List Nat) (out : List (Nat × Nat)), (∀ r ∈ out, 0 < r.2) → ∀ r ∈ data.foldl push out, 0 < r.2 := by
    intro data
    induction data with
    | nil => exact fun _ h => h
    | cons v data ih => exact fun out h => ih (push out v) (hpush out v h)
  exact hfold data [] (fun r hr => absurd hr List.not_mem_nil)

theorem mem_of_mem_encode {data : List Nat} {r : Nat × Nat} (h : r ∈ encode data) : r.1 ∈ data := by
  have hmem : r.1 ∈ decode (encode data) :=
    List.mem_flatMap.2 ⟨r, h, List.mem_replicate.2 ⟨Nat.ne_of_gt (pos_of_mem_encode r h), rfl⟩⟩
  rwa [decode_encode] at hmem

theorem length_encode_le (data : List Nat) : (encode data).length ≤ data.length := by
  have hsum : ∀ runs : List (Nat × Nat), (∀ r ∈ runs, 0 < r.2) → runs.length ≤ (runs.map (fun r => r.2)).sum := by
    intro runs
    induction runs with
    | nil => exact fun _ => Nat.le_refl 0
    | cons r runs ih =>
      intro h
      have := h r List.mem_cons_self
      have := ih (fun x hx => h x (List.mem_cons_of_mem r hx))
      rw [List.length_cons, List.map_cons, List.sum_cons]
      omega
  calc (encode data).length
      ≤ ((encode data).map (fun r => r.2)).sum := hsum _ pos_of_mem_encode
    _ = data.length := by rw [← length_decode, decode_encode]

end Rle

/-! ## `delta` -/

/-- `v as i64`. -/
def asI64 (v : Nat) : Int := Int.bmod v (2 ^ 64)

/-- `d as u64`. -/
def asU64 (d : Int) : Nat := (d % 2 ^ 64).toNat

namespace Delta

def encodeFrom (prev : Int) : List Nat → List Int
  | [] => []
  | v :: data => Int.bmod (asI64 v - prev) (2 ^ 64) :: encodeFrom (asI64 v) data

/-- The first value, and the differences, which wrap. -/
def encode : List Nat → List Int
  | [] => []
  | v :: data => asI64 v :: encodeFrom (asI64 v) data

def decodeFrom (acc : Int) : List Int → List Nat
  | [] => []
  | d :: deltas => asU64 (Int.bmod (acc + d) (2 ^ 64)) :: decodeFrom (Int.bmod (acc + d) (2 ^ 64)) deltas

def decode : List Int → List Nat
  | [] => []
  | d :: deltas => asU64 d :: decodeFrom d deltas

end Delta

theorem asU64_asI64 {v : Nat} (h : v < 2 ^ 64) : asU64 (asI64 v) = v := by
  unfold asU64 asI64
  rw [Int.bmod_def]
  split <;> omega

theorem asU64_lt (d : Int) : asU64 d < 2 ^ 64 := by
  unfold asU64
  omega

/-- An `i64` is got back from its bits. -/
theorem asI64_asU64 (d : Int) : asI64 (asU64 d) = Int.bmod d (2 ^ 64) := by
  unfold asI64 asU64
  rw [Int.toNat_of_nonneg (by omega)]
  exact Int.emod_bmod d (2 ^ 64)

namespace Delta

theorem decodeFrom_encodeFrom : ∀ (data : List Nat) (prev : Int), (∀ v ∈ data, v < 2 ^ 64) →
    decodeFrom prev (encodeFrom prev data) = data
  | [], _, _ => rfl
  | v :: data, prev, h => by
    have hstep : Int.bmod (prev + Int.bmod (asI64 v - prev) (2 ^ 64)) (2 ^ 64) = asI64 v := by
      rw [Int.add_bmod_bmod, show prev + (asI64 v - prev) = asI64 v by omega]
      exact Int.bmod_bmod
    rw [encodeFrom, decodeFrom, hstep, asU64_asI64 (h v List.mem_cons_self),
      decodeFrom_encodeFrom data _ (fun u hu => h u (List.mem_cons_of_mem v hu))]

/-- **Differences are read back**, whichever way they wrapped. -/
theorem decode_encode {data : List Nat} (h : ∀ v ∈ data, v < 2 ^ 64) : decode (encode data) = data := by
  cases data with
  | nil => rfl
  | cons v data =>
    rw [encode, decode, asU64_asI64 (h v List.mem_cons_self),
      decodeFrom_encodeFrom data _ (fun u hu => h u (List.mem_cons_of_mem v hu))]

theorem length_encodeFrom : ∀ (data : List Nat) (prev : Int), (encodeFrom prev data).length = data.length
  | [], _ => rfl
  | _ :: data, _ => congrArg Nat.succ (length_encodeFrom data _)

theorem length_decodeFrom : ∀ (deltas : List Int) (acc : Int), (decodeFrom acc deltas).length = deltas.length
  | [], _ => rfl
  | _ :: deltas, _ => congrArg Nat.succ (length_decodeFrom deltas _)

end Delta

/-! ## `frame_of_reference` -/

namespace FrameOfReference

def encode (data : List Nat) : Nat × List Nat :=
  let min := data.min?.getD 0
  (min, data.map (fun v => v - min))

def decode (min : Nat) (offsets : List Nat) : List Nat := offsets.map (fun o => (min + o) % 2 ^ 64)

/-- **Offsets are read back.** -/
theorem decode_encode {data : List Nat} (h : ∀ v ∈ data, v < 2 ^ 64) :
    decode (encode data).1 (encode data).2 = data := by
  unfold encode decode
  dsimp only
  rw [List.map_map]
  conv_rhs => rw [← List.map_id data]
  refine List.map_congr_left (fun v hv => ?_)
  have hmin : data.min?.getD 0 ≤ v := List.min?_getD_le_of_mem hv
  have := h v hv
  simp only [Function.comp_apply, id]
  omega

end FrameOfReference

/-! ## `bitpack` -/

namespace Bitpack

/-- `u64::leading_zeros` of a number that is not 0. -/
def leadingZeros (v : Nat) : Nat := 63 - Nat.log2 v

def minBits (maxValue : Nat) : Nat := if maxValue = 0 then 1 else 64 - leadingZeros maxValue

/-- `pack`; a width outside `1..=64` and a value that does not fit panic. -/
def pack (values : List Nat) (bits : Nat) : Option (List Nat) :=
  if ¬(1 ≤ bits ∧ bits ≤ 64) then none
  else if bits = 64 then some values
  else if values.any (fun v => decide (2 ^ bits - 1 < v)) then none
  else some (Words.putAll bits values 0 (List.replicate ((values.length * bits + 63) / 64) 0))

/-- `unpack` of words that hold `count` values. -/
def unpack (packed : List Nat) (bits count : Nat) : List Nat :=
  if bits = 64 then packed.take count else Words.getAll packed bits count 0

theorem minBits_pos (m : Nat) : 1 ≤ minBits m := by
  unfold minBits leadingZeros
  split <;> omega

theorem minBits_le (m : Nat) : minBits m ≤ 64 := by
  unfold minBits
  split <;> omega

theorem lt_two_pow_minBits {m : Nat} (h : m < 2 ^ 64) : m < 2 ^ minBits m := by
  unfold minBits leadingZeros
  split
  · rename_i hzero
    rw [hzero]
    decide
  · rename_i hne
    have hlog : Nat.log2 m < 64 := (Nat.log2_lt hne).2 h
    rw [show 64 - (63 - Nat.log2 m) = Nat.log2 m + 1 by omega]
    exact Nat.lt_log2_self

/-- How many words take `count` values. -/
def wordsFor (count bits : Nat) : Nat := (count * bits + 63) / 64

/-- **Packed values are unpacked**, and the words are as many as their bits need. -/
theorem unpack_pack {values : List Nat} {bits : Nat} (hpos : 1 ≤ bits) (hle : bits ≤ 64) (h : ∀ v ∈ values, v < 2 ^ bits) :
    ∃ packed, pack values bits = some packed ∧ unpack packed bits values.length = values ∧
      packed.length = wordsFor values.length bits ∧ ∀ x ∈ packed, x < 2 ^ 64 := by
  unfold pack unpack wordsFor
  rw [if_neg (not_not_intro ⟨hpos, hle⟩)]
  by_cases hbits : bits = 64
  · rw [if_pos hbits]
    refine ⟨values, rfl, ?_, by rw [hbits]; omega, fun x hx => hbits ▸ h x hx⟩
    rw [if_pos hbits, List.take_length]
  · have hfits : values.any (fun v => decide (2 ^ bits - 1 < v)) = false := by
      rw [List.any_eq_false]
      intro v hv
      have := h v hv
      rw [decide_eq_true_eq]
      omega
    rw [if_neg hbits, if_neg (by rw [hfits]; exact Bool.false_ne_true)]
    have hwide : ∀ v ∈ values, v < 2 ^ 64 := fun v hv =>
      Nat.lt_of_lt_of_le (h v hv) (Nat.pow_le_pow_right (by decide) hle)
    have hlen : bits * values.length ≤ 64 * ((values.length * bits + 63) / 64) := by
      rw [Nat.mul_comm]
      omega
    refine ⟨_, rfl, ?_, by rw [Words.length_putAll, List.length_replicate], Words.putAll_lt bits _ _ _ hwide ?_⟩
    · have hread := Words.getAll_putAll hpos hle h hlen (fun x hx => absurd hx List.not_mem_nil)
      rw [List.append_nil] at hread
      rw [if_neg hbits, hread]
    · intro x hx
      rw [(List.mem_replicate.1 hx).2]
      exact Nat.two_pow_pos 64

theorem length_unpack {packed : List Nat} {bits count : Nat} : (unpack packed bits count).length ≤ count := by
  have hget : ∀ n pos, (Words.getAll packed bits n pos).length = n := by
    intro n
    induction n with
    | zero => exact fun _ => rfl
    | succ n ih => exact fun pos => congrArg Nat.succ (ih _)
  unfold unpack
  split
  · exact List.length_take_le _ _
  · exact Nat.le_of_eq (hget count 0)

end Bitpack

/-! ## `column` -/

namespace Column

inductive Codec where
  | raw
  | rle
  | deltaBitpack
  | forBitpack
  deriving DecidableEq

def Codec.tag : Codec → UInt8
  | .raw => 0
  | .rle => 1
  | .deltaBitpack => 2
  | .forBitpack => 3

def Codec.fromTag (t : UInt8) : Option Codec :=
  if t = 0 then some .raw
  else if t = 1 then some .rle
  else if t = 2 then some .deltaBitpack
  else if t = 3 then some .forBitpack
  else none

@[simp] theorem Codec.fromTag_tag (c : Codec) : fromTag c.tag = some c := by
  cases c <;> rfl

/-- `put_u64`. -/
def putU64 (v : Nat) : Bytes := leBytes 8 v

/-- `take_u64`, and what follows. -/
def takeU64 (b : Bytes) : Option (Nat × Bytes) := if b.length < 8 then none else some (leNat (b.take 8), b.drop 8)

def packWords (words : List Nat) : Bytes := words.flatMap putU64

def encodeRaw (data : List Nat) : Bytes := Codec.raw.tag :: (putU64 data.length ++ packWords data)

def encodeRle (runs : List (Nat × Nat)) : Bytes :=
  Codec.rle.tag :: (putU64 runs.length ++ runs.flatMap (fun r => putU64 r.1 ++ leBytes 4 r.2))

/-- The header of the two packed forms, and the words. -/
def packedBlob (codec : Codec) (n base bits : Nat) (packed : List Nat) : Bytes :=
  codec.tag :: (putU64 n ++ (putU64 base ++ (UInt8.ofNat bits :: packWords packed)))

/-- Differences and bit packing, of two values or more that never decrease; packing may panic. -/
def encodeDeltaBitpack (data : List Nat) : Option (Option Bytes) :=
  if data.length < 2 then some none
  else
    let deltas := (Delta.encode data).tail
    if deltas.any (fun d => decide (d < 0)) then some none
    else
      let semSinal := deltas.map asU64
      let bits := Bitpack.minBits (semSinal.max?.getD 0)
      (Bitpack.pack semSinal bits).map (fun packed =>
        some (packedBlob .deltaBitpack data.length (data.head?.getD 0) bits packed))

def encodeForBitpack (data : List Nat) : Option (Option Bytes) :=
  if data.isEmpty then some none
  else
    let f := FrameOfReference.encode data
    let bits := Bitpack.minBits (f.2.max?.getD 0)
    (Bitpack.pack f.2 bits).map (fun packed => some (packedBlob .forBitpack data.length f.1 bits packed))

/-- A form replaces a longer one. -/
def keep (melhor : Bytes) : Option Bytes → Bytes
  | none => melhor
  | some v => if v.length < melhor.length then v else melhor

def encode (data : List Nat) : Option Bytes := do
  let melhor := encodeRaw data
  let runs := Rle.encode data
  let melhor := if runs.length * 12 + 9 < melhor.length then keep melhor (some (encodeRle runs)) else melhor
  let melhor := keep melhor (← encodeDeltaBitpack data)
  pure (keep melhor (← encodeForBitpack data))

/-- Ceiling of values when decoding. -/
def maxValores : Nat := 2 ^ 28

def takeWords : Nat → Bytes → Option (List Nat)
  | 0, _ => some []
  | n + 1, b => do
    let v ← takeU64 b
    let vs ← takeWords n v.2
    pure (v.1 :: vs)

/-- The runs of a blob, as long as they stay under the ceiling. -/
def takeRuns (total : Nat) : Nat → Bytes → Option (List (Nat × Nat))
  | 0, _ => some []
  | n + 1, b => do
    let v ← takeU64 b
    if v.2.length < 4 then none
    else
      let count := leNat (v.2.take 4)
      if maxValores < total + count then none
      else
        let runs ← takeRuns (total + count) n (v.2.drop 4)
        pure ((v.1, count) :: runs)

/-- What the two packed forms hold behind the count: base, width, and the values that `valores` of them are. -/
def decodePacked (codec : Codec) (n : Nat) (b : Bytes) : Option (List Nat) := do
  let base ← takeU64 b
  match base.2 with
  | [] => none
  | width :: rest =>
    let bits := width.toNat
    if ¬(1 ≤ bits ∧ bits ≤ 64) then none
    else if codec = .deltaBitpack ∧ n = 0 then none
    else
      let valores := if codec = .deltaBitpack then n - 1 else n
      let restantes := rest.length / 8
      if restantes < Bitpack.wordsFor valores bits then none
      else
        let words ← takeWords restantes rest
        if codec = .deltaBitpack then
          pure (Delta.decode (asI64 base.1 :: (Bitpack.unpack words bits (n - 1)).map asI64))
        else pure (FrameOfReference.decode base.1 (Bitpack.unpack words bits n))

def decode : Bytes → Option (List Nat)
  | [] => none
  | t :: b => do
    let codec ← Codec.fromTag t
    let n ← takeU64 b
    if maxValores < n.1 then none
    else
      match codec with
      | .raw => if n.2.length < n.1 * 8 then none else takeWords n.1 n.2
      | .rle => (takeRuns 0 n.1 n.2).map Rle.decode
      | .deltaBitpack | .forBitpack => decodePacked codec n.1 n.2

/-! ## A column is read back -/

variable {data words : List Nat} {rest : Bytes} {v : Nat}

@[simp] theorem length_putU64 (v : Nat) : (putU64 v).length = 8 := length_leBytes 8 v

theorem takeU64_putU64 (h : v < 2 ^ 64) (rest : Bytes) : takeU64 (putU64 v ++ rest) = some (v, rest) := by
  have hlen : ¬(putU64 v ++ rest).length < 8 := by
    rw [List.length_append, length_putU64]
    omega
  rw [takeU64, if_neg hlen, List.take_left' (length_putU64 v), List.drop_left' (length_putU64 v), putU64, leNat_leBytes_of_lt h]

@[simp] theorem length_packWords (words : List Nat) : (packWords words).length = 8 * words.length := by
  induction words with
  | nil => rfl
  | cons w words ih =>
    rw [packWords, List.flatMap_cons, List.length_append, length_putU64, List.length_cons]
    unfold packWords at ih
    rw [ih]
    omega

theorem takeWords_packWords : ∀ words : List Nat, (∀ w ∈ words, w < 2 ^ 64) → takeWords words.length (packWords words) = some words
  | [], _ => rfl
  | w :: words, h => by
    rw [List.length_cons, takeWords, packWords, List.flatMap_cons, takeU64_putU64 (h w List.mem_cons_self)]
    show (takeWords words.length (packWords words) >>= _) = _
    rw [takeWords_packWords words (fun x hx => h x (List.mem_cons_of_mem w hx))]
    rfl

theorem takeRuns_encode : ∀ (runs : List (Nat × Nat)) (total : Nat), (∀ r ∈ runs, r.1 < 2 ^ 64) →
    total + (runs.map (fun r => r.2)).sum ≤ maxValores →
    takeRuns total runs.length (runs.flatMap (fun r => putU64 r.1 ++ leBytes 4 r.2)) = some runs
  | [], _, _, _ => rfl
  | (val, count) :: runs, total, h, hsum => by
    rw [List.map_cons, List.sum_cons] at hsum
    have hcount : count < 256 ^ 4 := by
      have : maxValores < 256 ^ 4 := by decide
      omega
    have htake : ∀ tail : Bytes, (leBytes 4 count ++ tail).take 4 = leBytes 4 count := fun tail =>
      List.take_left' (length_leBytes 4 count)
    have hdrop : ∀ tail : Bytes, (leBytes 4 count ++ tail).drop 4 = tail := fun tail => List.drop_left' (length_leBytes 4 count)
    rw [List.length_cons, takeRuns, List.flatMap_cons, List.append_assoc, takeU64_putU64 (h _ List.mem_cons_self)]
    dsimp only [bind, Option.bind_some]
    rw [if_neg (by rw [List.length_append, length_leBytes]; omega), htake, hdrop, leNat_leBytes_of_lt hcount, if_neg (by omega),
      takeRuns_encode runs (total + count) (fun r hr => h r (List.mem_cons_of_mem _ hr)) (by omega)]
    rfl

theorem decode_encodeRaw (h : ∀ v ∈ data, v < 2 ^ 64) (hlen : data.length ≤ maxValores) : decode (encodeRaw data) = some data := by
  have hwide : data.length < 2 ^ 64 := Nat.lt_of_le_of_lt hlen (by decide)
  rw [encodeRaw, decode, Codec.fromTag_tag]
  dsimp only [bind, Option.bind_some]
  rw [takeU64_putU64 hwide]
  dsimp only [Option.bind_some]
  rw [if_neg (Nat.not_lt.2 hlen), if_neg (by rw [length_packWords]; omega), takeWords_packWords data h]

theorem decode_encodeRle (h : ∀ v ∈ data, v < 2 ^ 64) (hlen : data.length ≤ maxValores) :
    decode (encodeRle (Rle.encode data)) = some data := by
  have hruns : (Rle.encode data).length ≤ maxValores := Nat.le_trans (Rle.length_encode_le data) hlen
  have hsum : 0 + ((Rle.encode data).map (fun r => r.2)).sum ≤ maxValores := by
    rw [← Rle.length_decode, Rle.decode_encode, Nat.zero_add]
    exact hlen
  rw [encodeRle, decode, Codec.fromTag_tag]
  dsimp only [bind, Option.bind_some]
  rw [takeU64_putU64 (Nat.lt_of_le_of_lt hruns (by decide))]
  dsimp only [Option.bind_some]
  rw [if_neg (Nat.not_lt.2 hruns), takeRuns_encode _ 0 (fun r hr => h _ (Rle.mem_of_mem_encode hr)) hsum, Option.map_some,
    Rle.decode_encode]

/-- **A packed form is read back** to what its words hold. -/
theorem decode_packedBlob {codec : Codec} {n base bits : Nat} (hn : n ≤ maxValores) (hbase : base < 2 ^ 64) (hpos : 1 ≤ bits)
    (hle : bits ≤ 64) (hwords : ∀ w ∈ words, w < 2 ^ 64)
    (hcount : words.length = Bitpack.wordsFor (if codec = .deltaBitpack then n - 1 else n) bits)
    (hcodec : codec = .deltaBitpack ∧ n ≠ 0 ∨ codec = .forBitpack) : decode (packedBlob codec n base bits words) =
      if codec = .deltaBitpack then some (Delta.decode (asI64 base :: (Bitpack.unpack words bits (n - 1)).map asI64))
      else some (FrameOfReference.decode base (Bitpack.unpack words bits n)) := by
  have hbits : (UInt8.ofNat bits).toNat = bits := by
    rw [UInt8.toNat_ofNat']
    omega
  have hdecode : decode (packedBlob codec n base bits words) =
      decodePacked codec n (putU64 base ++ (UInt8.ofNat bits :: packWords words)) := by
    rw [packedBlob, decode, Codec.fromTag_tag]
    dsimp only [bind, Option.bind_some]
    rw [takeU64_putU64 (Nat.lt_of_le_of_lt hn (by decide))]
    dsimp only [Option.bind_some]
    rw [if_neg (Nat.not_lt.2 hn)]
    rcases hcodec with ⟨rfl, -⟩ | rfl <;> rfl
  have hrest : (packWords words).length / 8 = words.length := by
    rw [length_packWords]
    omega
  rw [hdecode, decodePacked, takeU64_putU64 hbase]
  dsimp only [bind, Option.bind_some]
  rw [hbits, if_neg (not_not_intro ⟨hpos, hle⟩), hrest, hcount, if_neg (Nat.lt_irrefl _), ← hcount, takeWords_packWords words hwords]
  rcases hcodec with ⟨rfl, hne⟩ | rfl
  · rw [if_neg (fun h => hne h.2), if_pos rfl]
    rfl
  · rfl

/-! ## The forms and their sizes -/

def gapsFrom (a : Nat) : List Nat → List Nat
  | [] => []
  | b :: data => (b + 2 ^ 64 - a) % 2 ^ 64 :: gapsFrom b data

/-- From each value to the next, modulo `2 ^ 64`. -/
def gaps : List Nat → List Nat
  | [] => []
  | a :: data => gapsFrom a data

theorem asU64_bmod_sub {a b : Nat} (ha : a < 2 ^ 64) (hb : b < 2 ^ 64) :
    asU64 (Int.bmod (asI64 b - asI64 a) (2 ^ 64)) = (b + 2 ^ 64 - a) % 2 ^ 64 := by
  unfold asU64 asI64
  simp only [Int.bmod_def]
  split_ifs <;> omega

theorem map_asU64_encodeFrom : ∀ (data : List Nat) (a : Nat), a < 2 ^ 64 → (∀ v ∈ data, v < 2 ^ 64) →
    (Delta.encodeFrom (asI64 a) data).map asU64 = gapsFrom a data
  | [], _, _, _ => rfl
  | b :: data, a, ha, h => by
    have hb := h b List.mem_cons_self
    rw [Delta.encodeFrom, List.map_cons, asU64_bmod_sub ha hb, gapsFrom,
      map_asU64_encodeFrom data b hb (fun v hv => h v (List.mem_cons_of_mem b hv))]

/-- Each difference is an `i64`. -/
theorem bmod_of_mem_encodeFrom : ∀ (data : List Nat) (prev : Int), ∀ d ∈ Delta.encodeFrom prev data, Int.bmod d (2 ^ 64) = d
  | v :: data, prev, d, hd => by
    rw [Delta.encodeFrom] at hd
    rcases List.mem_cons.1 hd with heq | hd
    · rw [heq, Int.bmod_bmod]
    · exact bmod_of_mem_encodeFrom data _ d hd

theorem neg_iff_asU64 {d : Int} (h : Int.bmod d (2 ^ 64) = d) : d < 0 ↔ 2 ^ 63 ≤ asU64 d := by
  rw [Int.bmod_def] at h
  unfold asU64
  split at h <;> omega

/-- The size of a packed form. -/
def packedSize (count bits : Nat) : Nat := 18 + 8 * Bitpack.wordsFor count bits

/-- The size of the differences, where they apply. -/
def deltaSize (data : List Nat) : Option Nat :=
  if data.length < 2 ∨ ∃ g ∈ gaps data, 2 ^ 63 ≤ g then none
  else some (packedSize (data.length - 1) (Bitpack.minBits ((gaps data).max?.getD 0)))

def forSize (data : List Nat) : Option Nat :=
  if data = [] then none
  else some (packedSize data.length (Bitpack.minBits ((FrameOfReference.encode data).2.max?.getD 0)))

/-- A form of the column: its size, and that it is read back if there are not too many values. -/
def Form (data : List Nat) (o : Option Bytes) (size : Option Nat) : Prop :=
  o.map List.length = size ∧ ∀ blob ∈ o, data.length ≤ maxValores → decode blob = some data

theorem length_packedBlob (codec : Codec) (n base bits : Nat) (words : List Nat) :
    (packedBlob codec n base bits words).length = 18 + 8 * words.length := by
  simp only [packedBlob, List.length_cons, List.length_append, length_putU64, length_packWords]
  omega

theorem lt_of_max?_getD {l : List Nat} {bound v : Nat} (hbound : l.max?.getD 0 < bound) (hv : v ∈ l) : v < bound :=
  Nat.lt_of_le_of_lt (List.le_max?_getD_of_mem hv) hbound

theorem max?_getD_lt {l : List Nat} {bound : Nat} (hbound : 0 < bound) (h : ∀ v ∈ l, v < bound) : l.max?.getD 0 < bound := by
  cases hmax : l.max? with
  | none => exact hbound
  | some m => exact h m (List.max?_mem hmax)

/-- Values below `2 ^ 64` pack with the bits of the greatest. -/
theorem pack_minBits {values : List Nat} (h : ∀ v ∈ values, v < 2 ^ 64) : ∃ packed,
    Bitpack.pack values (Bitpack.minBits (values.max?.getD 0)) = some packed ∧
      Bitpack.unpack packed (Bitpack.minBits (values.max?.getD 0)) values.length = values ∧
      packed.length = Bitpack.wordsFor values.length (Bitpack.minBits (values.max?.getD 0)) ∧ ∀ x ∈ packed, x < 2 ^ 64 := by
  have hmax : values.max?.getD 0 < 2 ^ 64 := max?_getD_lt (Nat.two_pow_pos 64) h
  exact Bitpack.unpack_pack (Bitpack.minBits_pos _) (Bitpack.minBits_le _)
    (fun v hv => lt_of_max?_getD (Bitpack.lt_two_pow_minBits hmax) hv)

theorem gaps_spec (h : ∀ v ∈ data, v < 2 ^ 64) : (Delta.encode data).tail.map asU64 = gaps data := by
  cases data with
  | nil => rfl
  | cons a data => exact map_asU64_encodeFrom data a (h a List.mem_cons_self) (fun v hv => h v (List.mem_cons_of_mem a hv))

/-- **The differences**, which need every gap below `2 ^ 63`. -/
theorem encodeDeltaBitpack_form (h : ∀ v ∈ data, v < 2 ^ 64) :
    ∃ o, encodeDeltaBitpack data = some o ∧ Form data o (deltaSize data) := by
  unfold encodeDeltaBitpack deltaSize
  by_cases hlen : data.length < 2
  · rw [if_pos hlen, if_pos (.inl hlen)]
    exact ⟨none, rfl, rfl, fun _ hb => absurd hb (Option.not_mem_none _)⟩
  · rw [if_neg hlen]
    cases data with
    | nil => exact absurd (by decide) hlen
    | cons a data =>
      have ha := h a List.mem_cons_self
      have hgaps : (Delta.encode (a :: data)).tail.map asU64 = gaps (a :: data) := gaps_spec h
      have hi64 : ∀ d ∈ (Delta.encode (a :: data)).tail, Int.bmod d (2 ^ 64) = d := bmod_of_mem_encodeFrom data (asI64 a)
      dsimp only
      rw [hgaps]
      by_cases hfar : ∃ g ∈ gaps (a :: data), 2 ^ 63 ≤ g
      · have hneg : (Delta.encode (a :: data)).tail.any (fun d => decide (d < 0)) = true := by
          obtain ⟨g, hg, hle⟩ := hfar
          rw [← hgaps] at hg
          obtain ⟨d, hd, rfl⟩ := List.mem_map.1 hg
          exact List.any_eq_true.2 ⟨d, hd, decide_eq_true ((neg_iff_asU64 (hi64 d hd)).2 hle)⟩
        rw [if_pos hneg, if_pos (.inr hfar)]
        exact ⟨none, rfl, rfl, fun _ hb => absurd hb (Option.not_mem_none _)⟩
      · have hneg : (Delta.encode (a :: data)).tail.any (fun d => decide (d < 0)) = false := by
          rw [List.any_eq_false]
          intro d hd hlt
          exact hfar ⟨asU64 d, by rw [← hgaps]; exact List.mem_map_of_mem hd, (neg_iff_asU64 (hi64 d hd)).1 (of_decide_eq_true hlt)⟩
        have hback : (gaps (a :: data)).map asI64 = (Delta.encode (a :: data)).tail := by
          rw [← hgaps, List.map_map]
          conv_rhs => rw [← List.map_id (Delta.encode (a :: data)).tail]
          refine List.map_congr_left (fun d hd => ?_)
          rw [Function.comp_apply, asI64_asU64, hi64 d hd, id]
        have hwide : ∀ g ∈ gaps (a :: data), g < 2 ^ 64 := by
          rw [← hgaps, List.forall_mem_map]
          exact fun d _ => asU64_lt d
        have hcount : (gaps (a :: data)).length = (a :: data).length - 1 := by
          rw [← hgaps, List.length_map, List.length_tail]
          exact congrArg Nat.pred (congrArg Nat.succ (Delta.length_encodeFrom data _))
        obtain ⟨packed, hpack, hunpack, hwords, hpacked⟩ := pack_minBits hwide
        rw [hneg, if_neg Bool.false_ne_true, if_neg (not_or.2 ⟨hlen, hfar⟩), hpack]
        refine ⟨_, rfl, ?_, ?_⟩
        · rw [Option.map_some, length_packedBlob, hwords, hcount]
          rfl
        · intro blob hblob hmax
          cases hblob
          rw [List.head?_cons, Option.getD_some, decode_packedBlob hmax ha (Bitpack.minBits_pos _) (Bitpack.minBits_le _) hpacked
            (by rw [if_pos rfl, hwords, hcount]) (.inl ⟨rfl, by simp⟩), if_pos rfl, ← hcount, hunpack, hback]
          exact congrArg some (Delta.decode_encode h)

/-- **The offsets from the minimum.** -/
theorem encodeForBitpack_form (h : ∀ v ∈ data, v < 2 ^ 64) : ∃ o, encodeForBitpack data = some o ∧ Form data o (forSize data) := by
  unfold encodeForBitpack forSize
  by_cases hnil : data = []
  · rw [if_pos (List.isEmpty_iff.2 hnil), if_pos hnil]
    exact ⟨none, rfl, rfl, fun _ hb => absurd hb (Option.not_mem_none _)⟩
  · rw [if_neg (fun hempty => hnil (List.isEmpty_iff.1 hempty)), if_neg hnil]
    obtain ⟨v, hv⟩ := List.exists_mem_of_ne_nil data hnil
    have hmin : (FrameOfReference.encode data).1 < 2 ^ 64 := Nat.lt_of_le_of_lt (List.min?_getD_le_of_mem hv) (h v hv)
    have hlen : (FrameOfReference.encode data).2.length = data.length := List.length_map _
    have hoffsets : ∀ o ∈ (FrameOfReference.encode data).2, o < 2 ^ 64 := by
      unfold FrameOfReference.encode
      rw [List.forall_mem_map]
      exact fun u hu => Nat.lt_of_le_of_lt (Nat.sub_le _ _) (h u hu)
    obtain ⟨packed, hpack, hunpack, hwords, hpacked⟩ := pack_minBits hoffsets
    rw [hlen] at hunpack hwords
    dsimp only
    rw [hpack]
    refine ⟨_, rfl, ?_, ?_⟩
    · rw [Option.map_some, length_packedBlob, hwords]
      rfl
    · intro blob hblob hmax
      cases hblob
      rw [decode_packedBlob hmax hmin (Bitpack.minBits_pos _) (Bitpack.minBits_le _) hpacked
        (by rw [if_neg (by decide), hwords]) (.inr rfl), if_neg (by decide), hunpack, FrameOfReference.decode_encode h]

/-- The shorter of a size and one that may be missing. -/
def keepSize (size : Nat) : Option Nat → Nat
  | none => size
  | some n => min size n

/-- The size of the shortest form of a column. -/
def columnSize (data : List Nat) : Nat :=
  keepSize (keepSize (min (9 + 8 * data.length) (9 + 12 * (Rle.encode data).length)) (deltaSize data)) (forSize data)

theorem keep_form {melhor : Bytes} {o : Option Bytes} {size : Nat} {size' : Option Nat} (h : Form data (some melhor) (some size))
    (h' : Form data o size') : Form data (some (keep melhor o)) (some (keepSize size size')) := by
  have hsize : melhor.length = size := Option.some.inj h.1
  cases o with
  | none =>
    obtain rfl : none = size' := h'.1
    exact h
  | some v =>
    obtain rfl : some v.length = size' := h'.1
    unfold keep keepSize
    dsimp only
    split
    · exact ⟨by rw [Option.map_some, ← hsize, Nat.min_eq_right (by omega)], h'.2⟩
    · exact ⟨by rw [Option.map_some, ← hsize, Nat.min_eq_left (by omega)], h.2⟩

theorem length_encodeRaw (data : List Nat) : (encodeRaw data).length = 9 + 8 * data.length := by
  rw [encodeRaw, List.length_cons, List.length_append, length_putU64, length_packWords]
  omega

theorem length_encodeRle (runs : List (Nat × Nat)) : (encodeRle runs).length = 9 + 12 * runs.length := by
  have hruns : (runs.flatMap (fun r => putU64 r.1 ++ leBytes 4 r.2)).length = 12 * runs.length := by
    induction runs with
    | nil => rfl
    | cons r runs ih =>
      rw [List.flatMap_cons, List.length_append, List.length_append, length_putU64, length_leBytes, ih, List.length_cons]
      omega
  rw [encodeRle, List.length_cons, List.length_append, length_putU64, hruns]
  omega

/-- **What `encode` writes**: it never panics, its size is the least of four, and a column within the ceiling is read back. -/
theorem encode_form (h : ∀ v ∈ data, v < 2 ^ 64) :
    ∃ blob, encode data = some blob ∧ Form data (some blob) (some (columnSize data)) := by
  have hraw : Form data (some (encodeRaw data)) (some (9 + 8 * data.length)) :=
    ⟨congrArg some (length_encodeRaw data), fun _ hb hlen => by
      cases hb
      exact decode_encodeRaw h hlen⟩
  have hrle : Form data (some (encodeRle (Rle.encode data))) (some (9 + 12 * (Rle.encode data).length)) :=
    ⟨congrArg some (length_encodeRle _), fun _ hb hlen => by
      cases hb
      exact decode_encodeRle h hlen⟩
  have hruns : (if (Rle.encode data).length * 12 + 9 < (encodeRaw data).length
      then keep (encodeRaw data) (some (encodeRle (Rle.encode data))) else encodeRaw data) =
      keep (encodeRaw data) (some (encodeRle (Rle.encode data))) := by
    split
    · rfl
    · unfold keep
      dsimp only
      rw [if_neg (by rw [length_encodeRle]; omega)]
  obtain ⟨o, ho, hdelta⟩ := encodeDeltaBitpack_form h
  obtain ⟨o', ho', hfor⟩ := encodeForBitpack_form h
  refine ⟨_, ?_, keep_form (keep_form (keep_form hraw hrle) hdelta) hfor⟩
  unfold encode
  dsimp only
  rw [hruns, ho, ho']
  rfl

/-! ## The ceiling -/

theorem length_takeWords : ∀ (n : Nat) (b : Bytes) (out : List Nat), takeWords n b = some out → out.length = n
  | 0, _, _, h => by
    cases h
    rfl
  | n + 1, b, out, h => by
    rw [takeWords] at h
    obtain ⟨v, -, h⟩ := Option.bind_eq_some_iff.1 h
    obtain ⟨vs, hvs, h⟩ := Option.bind_eq_some_iff.1 h
    cases h
    exact congrArg Nat.succ (length_takeWords n _ vs hvs)

theorem sum_takeRuns : ∀ (n total : Nat) (b : Bytes) (runs : List (Nat × Nat)), total ≤ maxValores →
    takeRuns total n b = some runs → total + (runs.map (fun r => r.2)).sum ≤ maxValores
  | 0, _, _, _, htotal, h => by
    cases h
    exact htotal
  | n + 1, total, b, runs, htotal, h => by
    rw [takeRuns] at h
    obtain ⟨v, -, h⟩ := Option.bind_eq_some_iff.1 h
    dsimp only at h
    split at h
    · cases h
    · split at h
      · cases h
      · rename_i hmax
        obtain ⟨rest, hrest, h⟩ := Option.bind_eq_some_iff.1 h
        cases h
        have := sum_takeRuns n _ _ rest (Nat.not_lt.1 hmax) hrest
        rw [List.map_cons, List.sum_cons]
        omega

theorem length_decodePacked {codec : Codec} {n : Nat} {b : Bytes} {out : List Nat} (h : decodePacked codec n b = some out) :
    out.length ≤ n := by
  rw [decodePacked] at h
  obtain ⟨base, -, h⟩ := Option.bind_eq_some_iff.1 h
  split at h
  · cases h
  · dsimp only at h
    split at h
    · cases h
    · split at h
      · cases h
      · rename_i hn
        by_cases hcodec : codec = .deltaBitpack
        · have hpos : n ≠ 0 := fun hzero => hn ⟨hcodec, hzero⟩
          simp only [hcodec, if_true] at h
          split at h
          · cases h
          · obtain ⟨words, -, h⟩ := Option.bind_eq_some_iff.1 h
            cases h
            rw [Delta.decode, List.length_cons, Delta.length_decodeFrom, List.length_map]
            exact Nat.le_trans (Nat.succ_le_succ Bitpack.length_unpack) (by omega)
        · simp only [hcodec, if_false] at h
          split at h
          · cases h
          · obtain ⟨words, -, h⟩ := Option.bind_eq_some_iff.1 h
            cases h
            rw [FrameOfReference.decode, List.length_map]
            exact Bitpack.length_unpack

/-- **Nothing is read back that has more values than the ceiling**, whatever the bytes. -/
theorem length_decode_le {blob : Bytes} {out : List Nat} (h : decode blob = some out) : out.length ≤ maxValores := by
  cases blob with
  | nil => cases h
  | cons t b =>
    rw [decode] at h
    obtain ⟨codec, -, h⟩ := Option.bind_eq_some_iff.1 h
    obtain ⟨n, -, h⟩ := Option.bind_eq_some_iff.1 h
    split at h
    · cases h
    · rename_i hn
      have hpacked : ∀ codec, decodePacked codec n.1 n.2 = some out → out.length ≤ maxValores := fun _ h =>
        Nat.le_trans (length_decodePacked h) (Nat.not_lt.1 hn)
      cases codec with
      | raw =>
        dsimp only at h
        split at h
        · cases h
        · rw [length_takeWords _ _ _ h]
          exact Nat.not_lt.1 hn
      | rle =>
        obtain ⟨runs, hruns, rfl⟩ := Option.map_eq_some_iff.1 h
        rw [Rle.length_decode, ← Nat.zero_add (List.sum _)]
        exact sum_takeRuns _ 0 _ runs (Nat.zero_le _) hruns
      | deltaBitpack => exact hpacked _ h
      | forBitpack => exact hpacked _ h

theorem keepSize_le (size : Nat) (o : Option Nat) : keepSize size o ≤ size := by
  unfold keepSize
  split
  · exact Nat.le_refl _
  · exact Nat.min_le_left _ _

theorem columnSize_le (data : List Nat) : columnSize data ≤ 9 + 8 * data.length :=
  Nat.le_trans (keepSize_le _ _) (Nat.le_trans (keepSize_le _ _) (Nat.min_le_left _ _))

/-- **A column is read back and never grows**, whichever form was picked. -/
theorem column_round_trip (h : ∀ v ∈ data, v < 2 ^ 64) (hlen : data.length ≤ maxValores) :
    ∃ blob, encode data = some blob ∧ decode blob = some data ∧ blob.length ≤ 9 + 8 * data.length := by
  obtain ⟨blob, hblob, hsize, hback⟩ := encode_form h
  have hlength : blob.length = columnSize data := Option.some.inj hsize
  exact ⟨blob, hblob, hback blob rfl hlen, hlength ▸ columnSize_le data⟩

theorem extremes_round_trip : ∃ blob, encode [2 ^ 64 - 1, 0, 2 ^ 63, 2 ^ 63] = some blob ∧
    decode blob = some [2 ^ 64 - 1, 0, 2 ^ 63, 2 ^ 63] ∧ blob.length ≤ 9 + 8 * 4 :=
  @column_round_trip [2 ^ 64 - 1, 0, 2 ^ 63, 2 ^ 63] (by decide) (by decide)

/-! ## Consecutive values -/

theorem gapsFrom_range' : ∀ (n a : Nat), gapsFrom a (List.range' (a + 1) n) = List.replicate n 1
  | 0, _ => rfl
  | n + 1, a => by
    rw [List.range'_succ, gapsFrom, gapsFrom_range' n (a + 1), List.replicate_succ]
    congr 1
    omega

/-- **Consecutive values take a bit each.** -/
theorem columnSize_range_le {n : Nat} (h : 2 ≤ n) : columnSize (List.range n) ≤ packedSize (n - 1) 1 := by
  obtain ⟨m, rfl⟩ : ∃ m, n = m + 1 := ⟨n - 1, by omega⟩
  have hgaps : gaps (List.range (m + 1)) = List.replicate m 1 := by
    rw [List.range_eq_range', List.range'_succ]
    exact gapsFrom_range' m 0
  have hfar : ¬((List.range (m + 1)).length < 2 ∨ ∃ g ∈ gaps (List.range (m + 1)), 2 ^ 63 ≤ g) := by
    rw [List.length_range, hgaps]
    rintro (hlt | ⟨g, hg, hle⟩)
    · omega
    · rw [(List.mem_replicate.1 hg).2] at hle
      exact absurd hle (by decide)
  have hmax : (List.replicate m 1).max?.getD 0 = 1 := by
    have hmem : 1 ∈ List.replicate m 1 := List.mem_replicate.2 ⟨by omega, rfl⟩
    have hlt : (List.replicate m 1).max?.getD 0 < 2 := max?_getD_lt (by decide) (fun v hv => by
      rw [(List.mem_replicate.1 hv).2]
      decide)
    have := List.le_max?_getD_of_mem (k := 0) hmem
    omega
  have hdelta : deltaSize (List.range (m + 1)) = some (packedSize m 1) := by
    rw [deltaSize, if_neg hfar, hgaps, hmax, List.length_range]
    rfl
  refine Nat.le_trans (keepSize_le _ _) ?_
  rw [hdelta]
  exact Nat.min_le_right _ _

end Column

end Compression
end Heraclitus
