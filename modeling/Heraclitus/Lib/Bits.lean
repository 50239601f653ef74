import Mathlib.Algebra.Ring.Nat
import Mathlib.Data.List.Basic
import Mathlib.Data.List.GetD
/-!
# Bits — words of 64 bits as one sequence of bits

Fields of up to 64 bits stand one behind the other, lowest bit first, each in one word or across two.  Writing a field touches
its bits only, so fields that were written into empty words are read back.
-/
namespace Heraclitus
namespace Words

/-- Bit `p` of the whole. -/
def bit (words : List Nat) (p : Nat) : Bool := (words.getD (p / 64) 0).testBit (p % 64)

/-- A field of `bits` bits is or-ed into the words at bit `pos`. -/
def put (words : List Nat) (pos bits v : Nat) : List Nat :=
  let low := words.modify (pos / 64) (fun x => x ||| (v <<< (pos % 64)) % 2 ^ 64)
  if 64 < pos % 64 + bits then low.modify (pos / 64 + 1) (fun x => x ||| v >>> (64 - pos % 64)) else low

/-- The field of `bits` bits at bit `pos`. -/
def get (words : List Nat) (pos bits : Nat) : Nat :=
  let low := words.getD (pos / 64) 0 >>> (pos % 64)
  (if 64 < pos % 64 + bits then low ||| (words.getD (pos / 64 + 1) 0 <<< (64 - pos % 64)) % 2 ^ 64 else low) &&& (2 ^ bits - 1)

def putAll (bits : Nat) : List Nat → Nat → List Nat → List Nat
  | [], _, words => words
  | v :: vs, pos, words => putAll bits vs (pos + bits) (put words pos bits v)

def getAll (words : List Nat) (bits : Nat) : Nat → Nat → List Nat
  | 0, _ => []
  | n + 1, pos => get words pos bits :: getAll words bits n (pos + bits)

/-- Bit `d` of the fields themselves. -/
def fieldBit (bits : Nat) : List Nat → Nat → Bool
  | [], _ => false
  | v :: vs, d => if d < bits then v.testBit d else fieldBit bits vs (d - bits)

variable {words vs : List Nat} {pos bits v p t : Nat}

theorem length_put : (put words pos bits v).length = words.length := by
  unfold put
  dsimp only
  split <;> simp

theorem getD_modify {f : Nat → Nat} {i j : Nat} (hi : i < words.length) :
    (words.modify i f).getD j 0 = if i = j then f (words.getD j 0) else words.getD j 0 := by
  rw [List.getD_eq_getElem?_getD, List.getElem?_modify, List.getD_eq_getElem?_getD]
  split
  · rename_i h
    subst h
    rw [List.getElem?_eq_getElem hi]
    rfl
  · simp

theorem testBit_eq_false_of_le {i : Nat} (hv : v < 2 ^ bits) (h : bits ≤ i) : v.testBit i = false :=
  Nat.testBit_lt_two_pow (Nat.lt_of_lt_of_le hv (Nat.pow_le_pow_right (by decide) h))

/-- **Writing a field touches its bits only.** -/
theorem bit_put (hpos : pos + bits ≤ 64 * words.length) (hbits : 0 < bits) (hle : bits ≤ 64) (hv : v < 2 ^ bits) :
    bit (put words pos bits v) p = (bit words p || (decide (pos ≤ p) && v.testBit (p - pos))) := by
  have hlow : pos / 64 < words.length := by omega
  have hfirst : (words.modify (pos / 64) (fun x => x ||| (v <<< (pos % 64)) % 2 ^ 64)).getD (p / 64) 0 =
      if pos / 64 = p / 64 then words.getD (p / 64) 0 ||| (v <<< (pos % 64)) % 2 ^ 64 else words.getD (p / 64) 0 := getD_modify hlow
  have hin : pos / 64 = p / 64 → ((v <<< (pos % 64)) % 2 ^ 64).testBit (p % 64) = (decide (pos ≤ p) && v.testBit (p - pos)) := by
    intro h
    rw [Nat.testBit_mod_two_pow, Nat.testBit_shiftLeft, decide_eq_true (Nat.mod_lt p (by decide)), Bool.true_and,
      show p % 64 - pos % 64 = p - pos by omega]
    congr 1
    rw [decide_eq_decide]
    omega
  have hout : ∀ i, bits ≤ i → (decide (pos ≤ p) && v.testBit i) = false := by
    intro i hi
    rw [testBit_eq_false_of_le hv hi, Bool.and_false]
  have hbefore : p < pos → (decide (pos ≤ p) && v.testBit (p - pos)) = false := by
    intro h
    rw [decide_eq_false (Nat.not_le.2 h), Bool.false_and]
  unfold bit put
  dsimp only
  by_cases hcross : 64 < pos % 64 + bits
  · have hhigh : pos / 64 + 1 < words.length := by omega
    rw [if_pos hcross, getD_modify (by simpa using hhigh), hfirst]
    rcases Nat.lt_trichotomy (p / 64) (pos / 64) with hlt | heq | hgt
    · have hne : ¬pos / 64 + 1 = p / 64 := by omega
      rw [if_neg hne, if_neg (Nat.ne_of_gt hlt), hbefore (by omega), Bool.or_false]
    · have hne : ¬pos / 64 + 1 = p / 64 := by omega
      rw [if_neg hne, if_pos heq.symm, Nat.testBit_or, hin heq.symm]
    · rw [if_neg (Nat.ne_of_lt hgt)]
      by_cases hnext : pos / 64 + 1 = p / 64
      · rw [if_pos hnext, Nat.testBit_or, Nat.testBit_shiftRight, decide_eq_true (show pos ≤ p by omega), Bool.true_and,
          show 64 - pos % 64 + p % 64 = p - pos by omega]
      · rw [if_neg hnext, hout _ (by omega), Bool.or_false]
  · rw [if_neg hcross, hfirst]
    split
    · rename_i heq
      rw [Nat.testBit_or, hin heq]
    · rename_i hne
      rcases Nat.lt_or_ge p pos with hlt | hge
      · rw [hbefore hlt, Bool.or_false]
      · rw [hout _ (by omega), Bool.or_false]

theorem put_lt (hwords : ∀ x ∈ words, x < 2 ^ 64) (hv : v < 2 ^ 64) : ∀ x ∈ put words pos bits v, x < 2 ^ 64 := by
  have hmodify : ∀ (l : List Nat) (i y : Nat), (∀ x ∈ l, x < 2 ^ 64) → y < 2 ^ 64 →
      ∀ x ∈ l.modify i (fun x => x ||| y), x < 2 ^ 64 := by
    intro l i y hl hy x hx
    obtain ⟨j, hj⟩ := List.mem_iff_getElem?.1 hx
    rw [List.getElem?_modify] at hj
    obtain ⟨z, hz, rfl⟩ := Option.map_eq_some_iff.1 hj
    have hz := hl z (List.mem_of_getElem? hz)
    split
    · exact Nat.or_lt_two_pow hz hy
    · exact hz
  have hlow := hmodify words (pos / 64) _ hwords (Nat.mod_lt (v <<< (pos % 64)) (Nat.two_pow_pos 64))
  unfold put
  dsimp only
  split
  · exact hmodify _ _ _ hlow (Nat.lt_of_le_of_lt (Nat.shiftRight_le v _) hv)
  · exact hlow

/-- **The bits of a field**: those of the words from its position on. -/
theorem testBit_get (hwords : ∀ x ∈ words, x < 2 ^ 64) (hle : bits ≤ 64) : (get words pos bits).testBit t =
    (decide (t < bits) && bit words (pos + t)) := by
  have hword : ∀ i, words.getD i 0 < 2 ^ 64 := by
    intro i
    rw [List.getD_eq_getElem?_getD]
    cases hi : words[i]? with
    | none => exact Nat.two_pow_pos 64
    | some x => exact hwords x (List.mem_of_getElem? hi)
  unfold get bit
  dsimp only
  rw [Nat.testBit_and, Nat.testBit_two_pow_sub_one, Bool.and_comm]
  by_cases ht : t < bits
  · rw [decide_eq_true ht, Bool.true_and, Bool.true_and]
    rcases Nat.lt_or_ge (pos % 64 + t) 64 with hsame | hnext
    · rw [show (pos + t) / 64 = pos / 64 by omega, show (pos + t) % 64 = pos % 64 + t by omega]
      split
      · have hbelow : ¬64 - pos % 64 ≤ t := by omega
        rw [Nat.testBit_or, Nat.testBit_shiftRight, Nat.testBit_mod_two_pow, Nat.testBit_shiftLeft, decide_eq_false hbelow,
          Bool.false_and, Bool.and_false, Bool.or_false]
      · rw [Nat.testBit_shiftRight]
    · rw [if_pos (by omega), show (pos + t) / 64 = pos / 64 + 1 by omega, show (pos + t) % 64 = t - (64 - pos % 64) by omega,
        Nat.testBit_or, Nat.testBit_shiftRight, Nat.testBit_mod_two_pow, Nat.testBit_shiftLeft,
        testBit_eq_false_of_le (hword _) hnext, Bool.false_or, decide_eq_true (show t < 64 by omega), Bool.true_and,
        decide_eq_true (show t ≥ 64 - pos % 64 by omega), Bool.true_and]
  · rw [decide_eq_false ht, Bool.false_and, Bool.false_and]

/-- A field whose bits are those of a value is that value. -/
theorem get_eq (hwords : ∀ x ∈ words, x < 2 ^ 64) (hle : bits ≤ 64) (hv : v < 2 ^ bits)
    (h : ∀ t, t < bits → bit words (pos + t) = v.testBit t) : get words pos bits = v := by
  refine Nat.eq_of_testBit_eq (fun t => ?_)
  rw [testBit_get hwords hle]
  by_cases ht : t < bits
  · rw [decide_eq_true ht, Bool.true_and, h t ht]
  · rw [decide_eq_false ht, Bool.false_and, testBit_eq_false_of_le hv (Nat.not_lt.1 ht)]

/-- The words as one number, the first word lowest. -/
def number : List Nat → Nat
  | [] => 0
  | x :: words => x + 2 ^ 64 * number words

theorem testBit_number : ∀ (words : List Nat) (p : Nat), (∀ x ∈ words, x < 2 ^ 64) → (number words).testBit p = bit words p
  | [], p, _ => by
    unfold bit number
    simp
  | x :: words, p, h => by
    rw [number, Nat.add_comm, Nat.testBit_two_pow_mul_add _ (h x List.mem_cons_self)]
    unfold bit
    split
    · rename_i hlow
      rw [show p / 64 = 0 by omega, List.getD_cons_zero, Nat.mod_eq_of_lt hlow]
    · rename_i hhigh
      rw [testBit_number words _ (fun y hy => h y (List.mem_cons_of_mem x hy)), bit, show p / 64 = (p - 64) / 64 + 1 by omega,
        List.getD_cons_succ, show p % 64 = (p - 64) % 64 by omega]

/-- **A field of the words is one of the number.** -/
theorem get_eq_number (hwords : ∀ x ∈ words, x < 2 ^ 64) (hle : bits ≤ 64) :
    get words pos bits = number words / 2 ^ pos % 2 ^ bits := by
  refine Nat.eq_of_testBit_eq (fun t => ?_)
  rw [testBit_get hwords hle, Nat.testBit_mod_two_pow, Nat.testBit_div_two_pow, testBit_number words _ hwords, Nat.add_comm]

theorem getAll_eq_map : ∀ n pos : Nat, getAll words bits n pos = (List.range n).map (fun i => get words (pos + bits * i) bits)
  | 0, _ => rfl
  | n + 1, pos => by
    rw [getAll, getAll_eq_map n (pos + bits), List.range_succ_eq_map, List.map_cons, List.map_map]
    refine congrArg _ (List.map_congr_left (fun i _ => ?_))
    rw [Function.comp_apply, Nat.mul_succ, Nat.add_assoc, Nat.add_comm bits]

/-- Fields as wide as a word are the words. -/
theorem getAll_words {n : Nat} (hwords : ∀ x ∈ words, x < 2 ^ 64) (hn : n ≤ words.length) : getAll words 64 n 0 = words.take n := by
  rw [getAll_eq_map]
  refine List.ext_getElem (by rw [List.length_map, List.length_range, List.length_take, Nat.min_eq_left hn]) (fun i hi _ => ?_)
  rw [List.length_map, List.length_range] at hi
  have hin : i < words.length := Nat.lt_of_lt_of_le hi hn
  have hnocross : ¬64 < (0 + 64 * i) % 64 + 64 := by omega
  rw [List.getElem_map, List.getElem_range, List.getElem_take, get, if_neg hnocross, show (0 + 64 * i) / 64 = i by omega,
    show (0 + 64 * i) % 64 = 0 by omega, Nat.shiftRight_zero, Nat.and_two_pow_sub_one_eq_mod, List.getD_eq_getElem _ _ hin]
  exact Nat.mod_eq_of_lt (hwords _ (List.getElem_mem hin))

theorem length_putAll : ∀ (vs : List Nat) (pos : Nat) (words : List Nat), (putAll bits vs pos words).length = words.length
  | [], _, _ => rfl
  | v :: vs, pos, words => by rw [putAll, length_putAll vs, length_put]

theorem putAll_lt (bits : Nat) : ∀ (vs : List Nat) (pos : Nat) (words : List Nat), (∀ v ∈ vs, v < 2 ^ 64) →
    (∀ x ∈ words, x < 2 ^ 64) →
    ∀ x ∈ putAll bits vs pos words, x < 2 ^ 64
  | [], _, _, _, hwords => hwords
  | v :: vs, pos, _, hvs, hwords => putAll_lt bits vs (pos + bits) _ (fun u hu => hvs u (List.mem_cons_of_mem v hu))
      (put_lt hwords (hvs v List.mem_cons_self))

theorem bit_putAll (hbits : 0 < bits) (hle : bits ≤ 64) : ∀ (vs : List Nat) (pos : Nat) (words : List Nat),
    pos + bits * vs.length ≤ 64 * words.length → (∀ v ∈ vs, v < 2 ^ bits) →
    bit (putAll bits vs pos words) p = (bit words p || (decide (pos ≤ p) && fieldBit bits vs (p - pos)))
  | [], _, _, _, _ => by rw [putAll, fieldBit, Bool.and_false, Bool.or_false]
  | v :: vs, pos, words, hpos, hvs => by
    rw [List.length_cons, Nat.mul_succ] at hpos
    rw [putAll, bit_putAll hbits hle vs (pos + bits) _ (by rw [length_put]; omega) (fun u hu => hvs u (List.mem_cons_of_mem v hu)),
      bit_put (by omega) hbits hle (hvs v List.mem_cons_self), Bool.or_assoc, fieldBit]
    congr 1
    have hv := hvs v List.mem_cons_self
    split
    · rename_i hlt
      by_cases hp : pos + bits ≤ p
      · omega
      · rw [decide_eq_false hp, Bool.false_and, Bool.or_false]
    · rename_i hge
      rw [testBit_eq_false_of_le hv (Nat.not_lt.1 hge), Bool.and_false, Bool.false_or, Nat.sub_sub]
      congr 1
      rw [decide_eq_decide]
      omega

theorem getAll_eq (hwords : ∀ x ∈ words, x < 2 ^ 64) (hle : bits ≤ 64) : ∀ (vs : List Nat) (pos : Nat), (∀ v ∈ vs, v < 2 ^ bits) →
    (∀ t, t < bits * vs.length → bit words (pos + t) = fieldBit bits vs t) → getAll words bits vs.length pos = vs
  | [], _, _, _ => rfl
  | v :: vs, pos, hvs, h => by
    rw [List.length_cons, Nat.mul_succ] at h
    have hhead : get words pos bits = v := get_eq hwords hle (hvs v List.mem_cons_self) (fun t ht => by
      rw [h t (by omega), fieldBit, if_pos ht])
    have htail : getAll words bits vs.length (pos + bits) = vs :=
      getAll_eq hwords hle vs (pos + bits) (fun u hu => hvs u (List.mem_cons_of_mem v hu)) (fun t ht => by
        rw [Nat.add_assoc, h (bits + t) (by omega), fieldBit, if_neg (by omega), Nat.add_sub_cancel_left])
    rw [List.length_cons, getAll, hhead, htail]

/-- **Fields are read back** from the words they were written into, whatever words follow. -/
theorem getAll_putAll {n : Nat} {more : List Nat} (hbits : 0 < bits) (hle : bits ≤ 64) (hvs : ∀ v ∈ vs, v < 2 ^ bits)
    (hlen : bits * vs.length ≤ 64 * n) (hmore : ∀ x ∈ more, x < 2 ^ 64) :
    getAll (putAll bits vs 0 (List.replicate n 0) ++ more) bits vs.length 0 = vs := by
  have hzero : ∀ x ∈ List.replicate n 0, x < 2 ^ 64 := by
    intro x hx
    rw [(List.mem_replicate.1 hx).2]
    exact Nat.two_pow_pos 64
  have hlt := putAll_lt bits vs 0 _ (fun v hv => Nat.lt_of_lt_of_le (hvs v hv) (Nat.pow_le_pow_right (by decide) hle)) hzero
  refine getAll_eq (fun x hx => ?_) hle vs 0 hvs (fun t ht => ?_)
  · exact (List.mem_append.1 hx).elim (hlt x) (hmore x)
  · have hinside : (t : Nat) / 64 < (putAll bits vs 0 (List.replicate n 0)).length := by
      rw [length_putAll, List.length_replicate]
      omega
    have hbit := bit_putAll (p := t) hbits hle vs 0 (List.replicate n 0) (by rw [List.length_replicate]; omega) hvs
    rw [Nat.zero_add]
    unfold bit at hbit ⊢
    rw [List.getD_append _ _ _ _ hinside, hbit, Nat.sub_zero, decide_eq_true (Nat.zero_le t), Bool.true_and]
    simp

end Words
end Heraclitus
