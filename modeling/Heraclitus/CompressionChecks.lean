import Heraclitus.Compression
import Heraclitus.Lib.Checked
/-!
# CompressionChecks — decoding a column with every operation checked (`hume-kernel/src/compression.rs`)

`Compression.Column.decode` is the column that a blob holds.  Here the same function is written with the positions, sums, shifts
and indexes of the source, each of which may fault, and runs on any bytes that a slice can have.
-/
namespace Heraclitus
namespace Compression
namespace Debug

open Column (Codec maxValores putU64)

/-! ## The model -/

/-- `take_u64`: the value, and the position behind it. -/
def takeU64 (b : Bytes) (pos : Nat) : Checked (Nat × Nat) := do
  let stop ← Checked.add pos 8
  let s ← Checked.ofOption (Checked.getRange b pos stop)
  let pos ← Checked.add pos 8
  pure (leNat s, pos)

/-- `n` words from a position on. -/
def takeWords (b : Bytes) : Nat → Nat → Checked (List Nat)
  | 0, _ => pure []
  | n + 1, pos => do
    let v ← takeU64 b pos
    let vs ← takeWords b n v.2
    pure (v.1 :: vs)

def takeRuns (b : Bytes) : Nat → Nat → Nat → Checked (List (Nat × Nat))
  | _, 0, _ => pure []
  | total, n + 1, pos => do
    let v ← takeU64 b pos
    let stop ← Checked.add v.2 4
    let c ← Checked.ofOption (Checked.getRange b v.2 stop)
    let pos ← Checked.add v.2 4
    let total ← Checked.ofOption (Checked.checkedAdd total (leNat c))
    if maxValores < total then Checked.refuse
    else do
      let runs ← takeRuns b total n pos
      pure ((v.1, leNat c) :: runs)

/-- `rle::decode`. -/
def rleDecode (runs : List (Nat × Nat)) : Checked (List Nat) := do
  let total ← Checked.sumFrom 0 (runs.map (fun r => r.2))
  Checked.withCapacity total 8
  pure (Rle.decode runs)

/-- The field at bit `bitPos`, of one word or two. -/
def unpackField (packed : List Nat) (bits mask bitPos : Nat) : Checked Nat := do
  let word := bitPos / 64
  let off := bitPos % 64
  let first ← Checked.index packed word
  let v ← Checked.shr first off
  let reach ← Checked.add off bits
  if 64 < reach then do
    let next ← Checked.add word 1
    let second ← Checked.index packed next
    let shift ← Checked.sub 64 off
    let high ← Checked.shl second shift
    pure ((v ||| high) &&& mask)
  else pure (v &&& mask)

def unpackFrom (packed : List Nat) (bits mask : Nat) : Nat → Nat → Checked (List Nat)
  | 0, _ => pure []
  | n + 1, bitPos => do
    let v ← unpackField packed bits mask bitPos
    let bitPos ← Checked.add bitPos bits
    let out ← unpackFrom packed bits mask n bitPos
    pure (v :: out)

/-- `bitpack::unpack`. -/
def unpack (packed : List Nat) (bits count : Nat) : Checked (List Nat) := do
  Checked.assert (1 ≤ bits ∧ bits ≤ 64)
  if bits = 64 then Checked.sliceTo packed count
  else do
    let one ← Checked.shl 1 bits
    let mask ← Checked.sub one 1
    Checked.withCapacity count 8
    unpackFrom packed bits mask count 0

/-- `frame_of_reference::decode`. -/
def forDecode (min : Nat) : List Nat → Checked (List Nat)
  | [] => pure []
  | o :: offsets => do
    let v ← Checked.add min o
    let out ← forDecode min offsets
    pure (v :: out)

/-- The column that the words of a packed form hold. -/
def columnOf (codec : Codec) (n base bits : Nat) (words : List Nat) : Checked (List Nat) :=
  if codec = .deltaBitpack then
    if n = 0 then pure []
    else do
      let count ← Checked.sub n 1
      let vals ← unpack words bits count
      Checked.withCapacity n 8
      pure (Delta.decode (asI64 base :: vals.map asI64))
  else do
    let offsets ← unpack words bits n
    forDecode base offsets

/-- The two packed forms, from the base on. -/
def decodePacked (blob : Bytes) (codec : Codec) (n pos : Nat) : Checked (List Nat) := do
  let base ← takeU64 blob pos
  let width ← Checked.ofOption blob[base.2]?
  let bits := width.toNat
  let pos ← Checked.add base.2 1
  if ¬(1 ≤ bits ∧ bits ≤ 64) then Checked.refuse
  else do
    let valores ← Checked.ofOption (if codec = .deltaBitpack then Checked.checkedSub n 1 else some n)
    let total ← Checked.ofOption (Checked.checkedMul valores bits)
    let left ← Checked.ofOption (Checked.checkedSub blob.length pos)
    let restantes := left / 8
    if restantes < (total + 63) / 64 then Checked.refuse
    else do
      Checked.withCapacity restantes 8
      let words ← takeWords blob restantes pos
      columnOf codec n base.1 bits words

/-- `column::decode`. -/
def decode (blob : Bytes) : Checked (List Nat) := do
  let first ← Checked.ofOption blob.head?
  let codec ← Checked.ofOption (Codec.fromTag first)
  let n ← takeU64 blob 1
  if maxValores < n.1 then Checked.refuse
  else
    match codec with
    | .raw => do
      let left ← Checked.ofOption (Checked.checkedSub blob.length n.2)
      let need ← Checked.ofOption (Checked.checkedMul n.1 8)
      if left < need then Checked.refuse
      else do
        Checked.withCapacity n.1 8
        takeWords blob n.1 n.2
    | .rle => do
      Checked.withCapacity n.1 16
      let runs ← takeRuns blob 0 n.1 n.2
      rleDecode runs
    | .deltaBitpack | .forBitpack => decodePacked blob codec n.1 n.2

/-! ## No fault on the way -/

variable {b : Bytes} {words : List Nat} {pos bits n total : Nat}

/-- A field of a slice, from a position within it. -/
theorem getRange_eq {w : Nat} (hpos : pos ≤ b.length) :
    Checked.getRange b pos (pos + w) = if (b.drop pos).length < w then none else some ((b.drop pos).take w) := by
  unfold Checked.getRange
  rw [List.length_drop, Nat.add_sub_cancel_left]
  split
  · rw [if_neg (by omega)]
  · rw [if_pos (by omega)]

theorem takeU64_gives (hb : b.length < 2 ^ 63) (hpos : pos ≤ b.length) :
    (takeU64 b pos).Gives ((Column.takeU64 (b.drop pos)).map (fun v => (v.1, pos + 8))) := by
  have hstop : pos + 8 < 2 ^ 64 := by omega
  have hoption : (Column.takeU64 (b.drop pos)).map (fun v => (v.1, pos + 8)) =
      (Checked.getRange b pos (pos + 8)).bind (fun s => some (leNat s, pos + 8)) := by
    rw [getRange_eq hpos, Column.takeU64]
    split <;> rfl
  unfold takeU64
  rw [hoption]
  exact (Checked.gives_add hstop).seq ((Checked.gives_ofOption _).bind
    (fun s _ => (Checked.gives_add hstop).seq (Checked.gives_pure _)))

/-- What follows an integer that was there. -/
theorem rest_takeU64 {v : Nat × Bytes} (h : Column.takeU64 (b.drop pos) = some v) (hpos : pos ≤ b.length) :
    v.2 = b.drop (pos + 8) ∧ pos + 8 ≤ b.length := by
  unfold Column.takeU64 at h
  split at h
  · cases h
  · rename_i hlen
    cases h
    rw [List.length_drop] at hlen
    exact ⟨List.drop_drop, by omega⟩

theorem takeWords_gives (hb : b.length < 2 ^ 63) : ∀ n pos : Nat, pos ≤ b.length →
    (takeWords b n pos).Gives (Column.takeWords n (b.drop pos))
  | 0, _, _ => rfl
  | n + 1, pos, hpos => by
    unfold takeWords Column.takeWords
    cases hv : Column.takeU64 (b.drop pos) with
    | none =>
      have hnone := takeU64_gives hb hpos
      rw [hv] at hnone
      exact hnone.bind (g := fun _ => none) (fun _ h => by cases h)
    | some v =>
      have hsome := takeU64_gives hb hpos
      rw [hv] at hsome
      obtain ⟨hrest, hle⟩ := rest_takeU64 hv hpos
      refine hsome.seq ?_
      rw [Option.bind_eq_bind, Option.bind_some, hrest]
      exact (takeWords_gives hb n (pos + 8) hle).bind (fun vs _ => Checked.gives_pure (v.1 :: vs))

theorem takeRuns_gives (hb : b.length < 2 ^ 63) : ∀ n pos total : Nat, pos ≤ b.length → total ≤ maxValores →
    (takeRuns b total n pos).Gives (Column.takeRuns total n (b.drop pos))
  | 0, _, _, _, _ => rfl
  | n + 1, pos, total, hpos, htotal => by
    have hread := takeU64_gives hb hpos
    unfold takeRuns Column.takeRuns
    cases hv : Column.takeU64 (b.drop pos) with
    | none =>
      rw [hv] at hread
      exact hread.bind (g := fun _ => none) (fun _ h => by cases h)
    | some v =>
      rw [hv] at hread
      obtain ⟨hrest, hle⟩ := rest_takeU64 hv hpos
      have hstop : pos + 8 + 4 < 2 ^ 64 := by omega
      refine hread.seq ((Checked.gives_add hstop).seq ?_)
      rw [Option.bind_eq_bind, Option.bind_some, hrest, getRange_eq hle]
      by_cases hshort : (b.drop (pos + 8)).length < 4
      · rw [if_pos hshort, if_pos hshort]
        rfl
      · have hcount : leNat ((b.drop (pos + 8)).take 4) < 256 ^ 4 := leNat_take_lt _ 4
        have hsum : total + leNat ((b.drop (pos + 8)).take 4) < 2 ^ 64 := by
          have : maxValores < 2 ^ 32 := by decide
          omega
        rw [if_neg hshort, if_neg hshort]
        refine (Checked.gives_ofOption _).seq ((Checked.gives_add hstop).seq ?_)
        rw [Checked.checkedAdd, if_pos hsum]
        refine (Checked.gives_ofOption _).seq ?_
        dsimp only
        by_cases hmax : maxValores < total + leNat ((b.drop (pos + 8)).take 4)
        · rw [if_pos hmax, if_pos hmax]
          rfl
        · rw [if_neg hmax, if_neg hmax, List.drop_drop]
          rw [List.length_drop] at hshort
          exact (takeRuns_gives hb n (pos + 8 + 4) _ (by omega) (Nat.not_lt.1 hmax)).bind
            (fun runs _ => Checked.gives_pure ((v.1, leNat ((b.drop (pos + 8)).take 4)) :: runs))

theorem rleDecode_gives {runs : List (Nat × Nat)} (h : (runs.map (fun r => r.2)).sum ≤ maxValores) :
    (rleDecode runs).Gives (some (Rle.decode runs)) := by
  have hmax : maxValores = 2 ^ 28 := rfl
  have hsum : 0 + (runs.map (fun r => r.2)).sum < 2 ^ 64 := by omega
  exact (Checked.gives_sumFrom _ 0 hsum).seq ((Checked.gives_withCapacity (by omega)).seq (Checked.gives_pure _))

theorem unpackField_gives (hpos : pos + bits ≤ 64 * words.length) (hword : pos < 2 ^ 63) (hbits : 0 < bits) (hlt : bits < 64) :
    (unpackField words bits (2 ^ bits - 1) pos).Gives (some (Words.get words pos bits)) := by
  have hfirst : words[pos / 64]? = some (words.getD (pos / 64) 0) := by
    have hin : pos / 64 < words.length := by omega
    rw [List.getD_eq_getElem?_getD, List.getElem?_eq_getElem hin]
    rfl
  refine (Checked.gives_index hfirst).seq ((Checked.gives_shr (Nat.mod_lt pos (by decide))).seq
    ((Checked.gives_add (by omega)).seq ?_))
  unfold Words.get
  dsimp only
  by_cases hreach : 64 < pos % 64 + bits
  · have hsecond : words[pos / 64 + 1]? = some (words.getD (pos / 64 + 1) 0) := by
      have hin : pos / 64 + 1 < words.length := by omega
      rw [List.getD_eq_getElem?_getD, List.getElem?_eq_getElem hin]
      rfl
    rw [if_pos hreach, if_pos hreach]
    exact (Checked.gives_add (by omega)).seq ((Checked.gives_index hsecond).seq ((Checked.gives_sub (by omega)).seq
      ((Checked.gives_shl (by omega)).seq (Checked.gives_pure _))))
  · rw [if_neg hreach, if_neg hreach]
    exact Checked.gives_pure _

theorem unpackFrom_gives (hbits : 0 < bits) (hlt : bits < 64) : ∀ n pos : Nat, pos + bits * n ≤ 64 * words.length →
    pos + bits * n < 2 ^ 63 → (unpackFrom words bits (2 ^ bits - 1) n pos).Gives (some (Words.getAll words bits n pos))
  | 0, _, _, _ => rfl
  | n + 1, pos, hpos, hwide => by
    rw [Nat.mul_succ] at hpos hwide
    exact (unpackField_gives (by omega) (by omega) hbits hlt).seq ((Checked.gives_add (by omega)).seq
      ((unpackFrom_gives hbits hlt n (pos + bits) (by omega) (by omega)).seq (Checked.gives_pure _)))

/-- **Unpacking does not fault** where the words are as many as the bits need. -/
theorem unpack_gives (hpos : 1 ≤ bits) (hle : bits ≤ 64) (hn : n ≤ maxValores) (hwords : Bitpack.wordsFor n bits ≤ words.length) :
    (unpack words bits n).Gives (some (Bitpack.unpack words bits n)) := by
  have hmax : maxValores = 2 ^ 28 := rfl
  have hneed : n * bits ≤ 64 * words.length := by
    unfold Bitpack.wordsFor at hwords
    omega
  have hwide : bits * n ≤ 64 * n := Nat.mul_le_mul_right n hle
  unfold unpack Bitpack.unpack
  refine (Checked.gives_assert ⟨hpos, hle⟩).seq ?_
  by_cases hbits : bits = 64
  · rw [if_pos hbits, if_pos hbits]
    rw [hbits] at hneed
    exact Checked.gives_sliceTo (by omega)
  · have hone : 1 <<< bits % 2 ^ 64 = 2 ^ bits := by
      rw [Nat.one_shiftLeft, Nat.mod_eq_of_lt (Nat.pow_lt_pow_right (by decide) (by omega))]
    rw [if_neg hbits, if_neg hbits]
    refine (Checked.gives_shl (by omega)).seq ?_
    rw [hone]
    refine (Checked.gives_sub (Nat.two_pow_pos bits)).seq ((Checked.gives_withCapacity (by omega)).seq ?_)
    exact unpackFrom_gives hpos (by omega) n 0 (by rw [Nat.zero_add, Nat.mul_comm]; exact hneed) (by omega)

/-! ## The base that lies too high -/

theorem forDecode_gives {base : Nat} : ∀ offsets : List Nat, (∀ o ∈ offsets, base + o < 2 ^ 64) →
    (forDecode base offsets).Gives (some (FrameOfReference.decode base offsets))
  | [], _ => rfl
  | o :: offsets, h => by
    have ho := h o List.mem_cons_self
    rw [FrameOfReference.decode, List.map_cons, Nat.mod_eq_of_lt ho]
    exact (Checked.gives_add ho).seq ((forDecode_gives offsets (fun x hx => h x (List.mem_cons_of_mem o hx))).seq
      (Checked.gives_pure _))

theorem forDecode_fault {base : Nat} : ∀ offsets : List Nat, (∃ o ∈ offsets, 2 ^ 64 ≤ base + o) →
    forDecode base offsets = Checked.fault .overflow
  | o :: offsets, h => by
    rcases Nat.lt_or_ge (base + o) (2 ^ 64) with ho | ho
    · obtain ⟨x, hx, hle⟩ := h
      have hrest : x ∈ offsets := (List.mem_cons.1 hx).resolve_left (fun heq => by omega)
      rw [forDecode, (Checked.gives_add ho).bind_eq, forDecode_fault offsets ⟨x, hrest, hle⟩, Checked.fault_bind]
    · rw [forDecode, Checked.add, if_neg (Nat.not_lt.2 ho), Checked.fault_bind]

/-- Field `i` of `bits` bits in the bytes, lowest bit first. -/
def field (bytes : Bytes) (bits i : Nat) : Nat := leNat bytes / 2 ^ (bits * i) % 2 ^ bits

theorem leNat_of_takeU64 {v : Nat × Bytes} (h : Column.takeU64 b = some v) : leNat b = v.1 + 2 ^ 64 * leNat v.2 ∧ v.1 < 2 ^ 64 := by
  unfold Column.takeU64 at h
  split at h
  · cases h
  · rename_i hlen
    cases h
    have hlength : (b.take 8).length = 8 := by
      rw [List.length_take]
      omega
    have happend := leNat_append (b.take 8) (b.drop 8)
    rw [List.take_append_drop, hlength, show 256 ^ 8 = 2 ^ 64 by decide] at happend
    exact ⟨happend, leNat_take_lt b 8⟩

/-- The words of a packed form as a number: the low part of the bytes. -/
theorem number_of_takeWords : ∀ (n : Nat) (b : Bytes) (words : List Nat), Column.takeWords n b = some words →
    (∀ w ∈ words, w < 2 ^ 64) ∧ ∃ rest, leNat b = 2 ^ (64 * n) * rest + Words.number words ∧ Words.number words < 2 ^ (64 * n)
  | 0, b, _, h => by
    cases h
    exact ⟨fun w hw => absurd hw List.not_mem_nil, leNat b, by rw [Words.number]; omega, by decide⟩
  | n + 1, b, words, h => by
    rw [Column.takeWords] at h
    obtain ⟨v, hv, h⟩ := Option.bind_eq_some_iff.1 h
    obtain ⟨vs, hvs, h⟩ := Option.bind_eq_some_iff.1 h
    cases h
    obtain ⟨hb, hlt⟩ := leNat_of_takeU64 hv
    obtain ⟨hwords, rest, hrest, hnumber⟩ := number_of_takeWords n v.2 vs hvs
    refine ⟨List.forall_mem_cons.2 ⟨hlt, hwords⟩, rest, ?_, ?_⟩
    · rw [hb, hrest, Words.number, Nat.mul_succ, Nat.pow_add, Nat.mul_add, ← Nat.mul_assoc, Nat.mul_comm (2 ^ 64) (2 ^ (64 * n))]
      omega
    · rw [Words.number, Nat.mul_succ, Nat.pow_add, Nat.mul_comm (2 ^ (64 * n))]
      omega

/-- **What unpacking finds**: the fields of the bytes. -/
theorem unpack_eq_fields (hle : bits ≤ 64) (h : Column.takeWords total b = some words) (hwords : n * bits ≤ 64 * total) :
    Bitpack.unpack words bits n = (List.range n).map (field b bits) := by
  obtain ⟨hlt, rest, hrest, hnumber⟩ := number_of_takeWords total b words h
  have hlength := Column.length_takeWords total b words h
  have hfield : ∀ i < n, Words.get words (0 + bits * i) bits = field b bits i := by
    intro i hi
    have hin : bits * i + bits ≤ 64 * total := by
      rw [← Nat.mul_succ, Nat.mul_comm]
      exact Nat.le_trans (Nat.mul_le_mul_right bits hi) hwords
    rw [Nat.zero_add, Words.get_eq_number hlt hle, field, hrest]
    refine Nat.eq_of_testBit_eq (fun t => ?_)
    rw [Nat.testBit_mod_two_pow, Nat.testBit_mod_two_pow, Nat.testBit_div_two_pow, Nat.testBit_div_two_pow]
    by_cases ht : t < bits
    · rw [Nat.testBit_two_pow_mul_add _ hnumber, if_pos (by omega)]
    · rw [decide_eq_false ht, Bool.false_and, Bool.false_and]
  have hall : Words.getAll words bits n 0 = (List.range n).map (field b bits) := by
    rw [Words.getAll_eq_map]
    exact List.map_congr_left (fun i hi => hfield i (List.mem_range.1 hi))
  unfold Bitpack.unpack
  split
  · rename_i hbits
    rw [← hall, hbits, Words.getAll_words hlt (by rw [hlength]; rw [hbits] at hwords; omega)]
  · exact hall

/-- The blob has a base so high that an offset of the column leads out of `u64`. -/
def BaseTooHigh (blob : Bytes) : Prop :=
  ∃ (n base : Nat) (width : UInt8) (rest : Bytes),
    blob = Codec.forBitpack.tag :: (putU64 n ++ (putU64 base ++ (width :: rest))) ∧ n ≤ maxValores ∧ base < 2 ^ 64 ∧
    (1 ≤ width.toNat ∧ width.toNat ≤ 64) ∧ n * width.toNat ≤ 64 * (rest.length / 8) ∧
    ∃ i < n, 2 ^ 64 ≤ base + field rest width.toNat i

section Packed

variable {codec : Codec} {base : Nat} {width : UInt8} {rest : Bytes}

theorem takeWords_isSome : ∀ (n : Nat) (b : Bytes), 8 * n ≤ b.length → ∃ words, Column.takeWords n b = some words
  | 0, _, _ => ⟨[], rfl⟩
  | n + 1, b, h => by
    obtain ⟨words, hwords⟩ := takeWords_isSome n (b.drop 8) (by rw [List.length_drop]; omega)
    refine ⟨leNat (b.take 8) :: words, ?_⟩
    rw [Column.takeWords, Column.takeU64, if_neg (by omega), Option.bind_eq_bind, Option.bind_some, hwords]
    rfl

/-- What stands behind the base. -/
theorem getElem?_of_takeU64 {tail : Bytes} (h : Column.takeU64 (b.drop pos) = some (base, tail)) (hpos : pos ≤ b.length) :
    b[pos + 8]? = tail.head? ∧ pos + 8 + tail.length = b.length := by
  obtain ⟨hrest, hle⟩ := rest_takeU64 h hpos
  obtain rfl : tail = b.drop (pos + 8) := hrest
  rw [List.head?_drop, List.length_drop]
  exact ⟨rfl, by omega⟩

/-- **A packed form with a width and a count** is refused, or gives what its words hold. -/
theorem decodePacked_eq (hb : b.length < 2 ^ 63) (hpos : pos ≤ b.length) (hn : n ≤ maxValores)
    (hbase : Column.takeU64 (b.drop pos) = some (base, width :: rest)) (hbits : 1 ≤ width.toNat ∧ width.toNat ≤ 64)
    (hcodec : ¬(codec = .deltaBitpack ∧ n = 0)) :
    ∃ words, Column.takeWords (rest.length / 8) rest = some words ∧ decodePacked b codec n pos =
      if rest.length / 8 < Bitpack.wordsFor (if codec = .deltaBitpack then n - 1 else n) width.toNat then Checked.refuse
      else columnOf codec n base width.toNat words := by
  obtain ⟨words, hwords⟩ := takeWords_isSome (rest.length / 8) rest (by omega)
  obtain ⟨hwidth, hlength⟩ := getElem?_of_takeU64 hbase hpos
  rw [List.length_cons] at hlength
  have hread := takeU64_gives hb hpos
  rw [hbase] at hread
  have hvalores : (if codec = .deltaBitpack then Checked.checkedSub n 1 else some n) =
      some (if codec = .deltaBitpack then n - 1 else n) := by
    split
    · rename_i hdelta
      exact if_pos (Nat.pos_of_ne_zero (fun hzero => hcodec ⟨hdelta, hzero⟩))
    · rfl
  have hle : (if codec = .deltaBitpack then n - 1 else n) ≤ n := by
    split
    · exact Nat.sub_le n 1
    · exact Nat.le_refl n
  generalize (if codec = .deltaBitpack then n - 1 else n) = valores at hvalores hle ⊢
  have hmul : valores * width.toNat ≤ 2 ^ 28 * 64 := Nat.mul_le_mul (Nat.le_trans hle hn) hbits.2
  have htotal : Checked.checkedMul valores width.toNat = some (valores * width.toNat) := if_pos (by omega)
  have hleft : Checked.checkedSub b.length (pos + 8 + 1) = some rest.length := by
    rw [Checked.checkedSub, if_pos (by omega)]
    congr 1
    omega
  have htail : rest = b.drop (pos + 8 + 1) := by
    have hdrop := (rest_takeU64 hbase hpos).1
    rw [← List.drop_drop, ← hdrop, List.drop_one, List.tail_cons]
  have hgives := takeWords_gives hb (rest.length / 8) (pos + 8 + 1) (by omega)
  rw [← htail, hwords] at hgives
  refine ⟨words, hwords, ?_⟩
  rw [decodePacked, hread.bind_eq]
  dsimp only
  rw [hwidth, List.head?_cons, (Checked.gives_ofOption _).bind_eq, (Checked.gives_add (by omega)).bind_eq,
    if_neg (not_not_intro hbits), hvalores, (Checked.gives_ofOption _).bind_eq, htotal, (Checked.gives_ofOption _).bind_eq, hleft,
    (Checked.gives_ofOption _).bind_eq, (Checked.gives_withCapacity (by omega)).bind_eq, hgives.bind_eq]
  rfl

theorem wordsFor_le {count words : Nat} : ¬words < Bitpack.wordsFor count bits ↔ count * bits ≤ 64 * words := by
  unfold Bitpack.wordsFor
  omega

theorem decodePacked_gives (hb : b.length < 2 ^ 63) (hpos : pos ≤ b.length) (hn : n ≤ maxValores)
    (h : ∀ base width rest, codec ≠ .deltaBitpack → Column.takeU64 (b.drop pos) = some (base, width :: rest) →
      1 ≤ width.toNat ∧ width.toNat ≤ 64 → n * width.toNat ≤ 64 * (rest.length / 8) →
      ∀ i < n, base + field rest width.toNat i < 2 ^ 64) :
    (decodePacked b codec n pos).Gives (Column.decodePacked codec n (b.drop pos)) := by
  have hread := takeU64_gives hb hpos
  unfold Column.decodePacked
  cases hbase : Column.takeU64 (b.drop pos) with
  | none =>
    rw [hbase] at hread
    exact hread.bind (g := fun _ => none) (fun _ h => by cases h)
  | some v =>
    obtain ⟨base, tail⟩ := v
    have hfound := hread
    rw [hbase] at hfound
    obtain ⟨hwidth, hlength⟩ := getElem?_of_takeU64 hbase hpos
    rw [Option.bind_eq_bind, Option.bind_some]
    cases tail with
    | nil =>
      rw [decodePacked, hfound.bind_eq]
      dsimp only
      rw [hwidth]
      rfl
    | cons width rest =>
      rw [List.length_cons] at hlength
      dsimp only
      by_cases hbits : 1 ≤ width.toNat ∧ width.toNat ≤ 64
      · by_cases hcodec : codec = .deltaBitpack ∧ n = 0
        · rw [if_neg (not_not_intro hbits), if_pos hcodec, decodePacked, hfound.bind_eq]
          dsimp only
          rw [hwidth, List.head?_cons, (Checked.gives_ofOption _).bind_eq, (Checked.gives_add (by omega)).bind_eq,
            if_neg (not_not_intro hbits), if_pos hcodec.1, hcodec.2]
          rfl
        · obtain ⟨words, hwords, heq⟩ := decodePacked_eq hb hpos hn hbase hbits hcodec
          have hcount := Column.length_takeWords _ _ _ hwords
          rw [if_neg (not_not_intro hbits), if_neg hcodec, heq, hwords]
          by_cases hroom : rest.length / 8 < Bitpack.wordsFor (if codec = .deltaBitpack then n - 1 else n) width.toNat
          · rw [if_pos hroom, if_pos hroom]
            exact Checked.gives_refuse
          · rw [if_neg hroom, if_neg hroom, Option.bind_eq_bind, Option.bind_some, columnOf]
            by_cases hdelta : codec = .deltaBitpack
            · have hpositive : n ≠ 0 := fun hzero => hcodec ⟨hdelta, hzero⟩
              have hmax : maxValores = 2 ^ 28 := rfl
              rw [if_pos hdelta, ← hcount] at hroom
              rw [if_pos hdelta, if_pos hdelta, if_neg hpositive]
              exact (Checked.gives_sub (Nat.pos_of_ne_zero hpositive)).seq ((unpack_gives hbits.1 hbits.2
                (Nat.le_trans (Nat.sub_le n 1) hn) (Nat.not_lt.1 hroom)).seq
                ((Checked.gives_withCapacity (by omega)).seq (Checked.gives_pure _)))
            · rw [if_neg hdelta] at hroom
              have hfits : n * width.toNat ≤ 64 * (rest.length / 8) := wordsFor_le.1 hroom
              rw [if_neg hdelta, if_neg hdelta]
              refine (unpack_gives hbits.1 hbits.2 hn (by rw [hcount]; exact Nat.not_lt.1 hroom)).seq (forDecode_gives _ ?_)
              rw [unpack_eq_fields hbits.2 hwords hfits, List.forall_mem_map]
              exact fun i hi => h base width rest hdelta hbase hbits hfits i (List.mem_range.1 hi)
      · rw [if_pos hbits, decodePacked, hfound.bind_eq]
        dsimp only
        rw [hwidth, List.head?_cons, (Checked.gives_ofOption _).bind_eq, (Checked.gives_add (by omega)).bind_eq, if_pos hbits]
        rfl

theorem decodePacked_fault (hb : b.length < 2 ^ 63) (hpos : pos ≤ b.length) (hn : n ≤ maxValores)
    (hbase : Column.takeU64 (b.drop pos) = some (base, width :: rest)) (hbits : 1 ≤ width.toNat ∧ width.toNat ≤ 64)
    (hfits : n * width.toNat ≤ 64 * (rest.length / 8)) (hfar : ∃ i < n, 2 ^ 64 ≤ base + field rest width.toNat i) :
    decodePacked b .forBitpack n pos = Checked.fault .overflow := by
  have hnot : ¬(Codec.forBitpack = .deltaBitpack ∧ n = 0) := fun h => by cases h.1
  obtain ⟨words, hwords, heq⟩ := decodePacked_eq hb hpos hn hbase hbits hnot
  have hcount := Column.length_takeWords _ _ _ hwords
  have hroom : ¬rest.length / 8 < Bitpack.wordsFor n width.toNat := wordsFor_le.2 hfits
  have hdelta : Codec.forBitpack ≠ .deltaBitpack := by decide
  rw [heq, if_neg hdelta, if_neg hroom, columnOf, if_neg hdelta, (unpack_gives hbits.1 hbits.2 hn (by
    rw [hcount]
    exact Nat.not_lt.1 hroom)).bind_eq]
  refine forDecode_fault _ ?_
  obtain ⟨i, hi, hle⟩ := hfar
  rw [unpack_eq_fields hbits.2 hwords hfits]
  exact ⟨_, List.mem_map_of_mem (List.mem_range.2 hi), hle⟩

end Packed

theorem tag_of_fromTag {t : UInt8} {codec : Codec} (h : Codec.fromTag t = some codec) : t = codec.tag := by
  unfold Codec.fromTag at h
  split_ifs at h with h0 h1 h2 h3
  all_goals
    cases h
    assumption

theorem putU64_of_takeU64 {v : Nat × Bytes} (h : Column.takeU64 b = some v) : b = putU64 v.1 ++ v.2 := by
  unfold Column.takeU64 at h
  split at h
  · cases h
  · rename_i hlen
    cases h
    have hlength : (b.take 8).length = 8 := by
      rw [List.length_take]
      omega
    rw [putU64, leBytes_leNat_of_length hlength, List.take_append_drop]

/-- **Decoding a column does not fault**, unless its base lies too high. -/
theorem decode_gives {blob : Bytes} (hb : blob.length < 2 ^ 63) (h : ¬BaseTooHigh blob) : (decode blob).Gives (Column.decode blob) := by
  cases blob with
  | nil => rfl
  | cons t b =>
    have hmax : maxValores = 2 ^ 28 := rfl
    have hpos : 1 ≤ (t :: b).length := Nat.succ_pos _
    have hread := takeU64_gives hb hpos
    rw [List.drop_one, List.tail_cons] at hread
    rw [decode, Column.decode, List.head?_cons, (Checked.gives_ofOption _).bind_eq]
    refine (Checked.gives_ofOption _).bind (fun codec hcodec => ?_)
    cases hn : Column.takeU64 b with
    | none =>
      rw [hn] at hread
      exact hread.bind (g := fun _ => none) (fun _ h => by cases h)
    | some v =>
      obtain ⟨n, rest⟩ := v
      rw [hn] at hread
      obtain ⟨hrest, hle⟩ : rest = (t :: b).drop 9 ∧ 9 ≤ (t :: b).length := rest_takeU64 (v := (n, rest)) hn hpos
      have hlength : (t :: b).length = 9 + rest.length := by
        rw [hrest, List.length_drop]
        omega
      refine hread.seq ?_
      rw [Option.bind_eq_bind, Option.bind_some]
      dsimp only
      by_cases hmany : maxValores < n
      · rw [if_pos hmany, if_pos hmany]
        exact Checked.gives_refuse
      · rw [if_neg hmany, if_neg hmany]
        have hpacked : ∀ codec', codec' = codec → codec ≠ .raw → codec ≠ .rle →
            (decodePacked (t :: b) codec' n 9).Gives (Column.decodePacked codec' n rest) := by
          intro codec' heq hraw hrle
          subst heq
          rw [hrest]
          refine decodePacked_gives hb hle (Nat.not_lt.1 hmany) (fun base width tail hdelta hbase hbits hfits i hi => ?_)
          -- the only codec that is left is the one of offsets
          by_contra hfar
          have htag : t = Codec.forBitpack.tag := by
            rw [tag_of_fromTag hcodec]
            cases codec' with
            | raw => exact absurd rfl hraw
            | rle => exact absurd rfl hrle
            | deltaBitpack => exact absurd rfl hdelta
            | forBitpack => rfl
          refine h ⟨n, base, width, tail, ?_, Nat.not_lt.1 hmany, (leNat_of_takeU64 hbase).2, hbits, hfits, i, hi, Nat.not_lt.1 hfar⟩
          rw [htag, ← putU64_of_takeU64 hbase, ← hrest, ← putU64_of_takeU64 hn]
        cases codec with
        | raw =>
          rw [Checked.checkedSub, if_pos (by omega), (Checked.gives_ofOption _).bind_eq, Checked.checkedMul, if_pos (by omega),
            (Checked.gives_ofOption _).bind_eq, show (t :: b).length - 9 = rest.length by omega]
          by_cases hshort : rest.length < n * 8
          · rw [if_pos hshort]
            dsimp only
            rw [if_pos hshort]
            exact Checked.gives_refuse
          · rw [if_neg hshort]
            dsimp only
            rw [if_neg hshort, hrest]
            exact (Checked.gives_withCapacity (by omega)).seq (takeWords_gives hb n 9 hle)
        | rle =>
          dsimp only
          rw [Option.map_eq_bind, hrest]
          exact (Checked.gives_withCapacity (by omega)).seq ((takeRuns_gives hb n 9 0 hle (Nat.zero_le _)).bind (fun runs hruns => by
            have hsum := Column.sum_takeRuns n 0 _ runs (Nat.zero_le _) hruns
            rw [Nat.zero_add] at hsum
            exact rleDecode_gives hsum))
        | deltaBitpack => exact hpacked _ rfl (by decide) (by decide)
        | forBitpack => exact hpacked _ rfl (by decide) (by decide)

theorem decode_fault {blob : Bytes} (hb : blob.length < 2 ^ 63) (h : BaseTooHigh blob) : decode blob = Checked.fault .overflow := by
  obtain ⟨n, base, width, rest, rfl, hn, hbase, hbits, hfits, hfar⟩ := h
  have hcount : Column.takeU64 (putU64 n ++ (putU64 base ++ (width :: rest))) = some (n, putU64 base ++ (width :: rest)) :=
    Column.takeU64_putU64 (Nat.lt_of_le_of_lt hn (by decide)) _
  have hread := takeU64_gives hb (Nat.succ_pos _)
  rw [List.drop_one, List.tail_cons, hcount] at hread
  have hdrop : (Codec.forBitpack.tag :: (putU64 n ++ (putU64 base ++ (width :: rest)))).drop 9 = putU64 base ++ (width :: rest) :=
    List.drop_left' (Column.length_putU64 n)
  have hbehind : Column.takeU64 ((Codec.forBitpack.tag :: (putU64 n ++ (putU64 base ++ (width :: rest)))).drop 9) =
      some (base, width :: rest) := by
    rw [hdrop]
    exact Column.takeU64_putU64 hbase _
  rw [decode, List.head?_cons, (Checked.gives_ofOption _).bind_eq, Codec.fromTag_tag, (Checked.gives_ofOption _).bind_eq, hread.bind_eq,
    if_neg (Nat.not_lt.2 hn)]
  exact decodePacked_fault hb (by simp) hn hbehind hbits hfits hfar

end Debug
end Compression
end Heraclitus
