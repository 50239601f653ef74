import Mathlib.Algebra.Ring.Nat
import Mathlib.Data.List.GetD
import Mathlib.Data.List.Induction
/-!
# Bitset — sets of numbers as rows of 64-bit words

Number `p` is a member if bit `p % 64` of word `p / 64` is set.  Rows of one length with the same members are the same row.  The
members come out in order by taking the lowest bit of a word away as long as one is set.
-/
namespace Heraclitus
namespace Bitset

def bit (words : List UInt64) (p : Nat) : Bool := (words.getD (p / 64) 0).toBitVec.getLsbD (p % 64)

/-- The members, in order. -/
def members (words : List UInt64) : List Nat := (List.range (64 * words.length)).filter (bit words)

/-- Taking the lowest bit away, with the turns that are left. -/
def onesLoop : Nat → UInt64 → List Nat
  | 0, _ => []
  | n + 1, w => if w = 0 then [] else w.toBitVec.ctz.toNat :: onesLoop n (w &&& (w - 1))

variable {words : List UInt64} {p q : Nat}

theorem bit_eq (words : List UInt64) (k : Nat) {j : Nat} (hj : j < 64) :
    bit words (64 * k + j) = (words.getD k 0).toBitVec.getLsbD j := by
  rw [bit, Nat.mul_add_div (by decide), Nat.div_eq_of_lt hj, Nat.mul_add_mod, Nat.mod_eq_of_lt hj, Nat.add_zero]

theorem bit_of_length_le (h : 64 * words.length ≤ p) : bit words p = false := by
  have hnone : words[p / 64]? = none := List.getElem?_eq_none (by omega)
  rw [bit, List.getD_eq_getElem?_getD, hnone]
  exact BitVec.getLsbD_zero

/-- **The words are determined by the members.** -/
theorem ext {xs ys : List UInt64} (hlen : xs.length = ys.length) (h : ∀ p, bit xs p = bit ys p) : xs = ys := by
  refine List.ext_getElem hlen fun k hx hy => UInt64.toBitVec_inj.1 (BitVec.eq_of_getLsbD_eq fun j hj => ?_)
  have := h (64 * k + j)
  rwa [bit_eq xs k hj, bit_eq ys k hj, List.getD_eq_getElem _ _ hx, List.getD_eq_getElem _ _ hy] at this

/-! ## Operations on words -/

theorem bit_append_zeros (words : List UInt64) (n p : Nat) : bit (words ++ List.replicate n 0) p = bit words p := by
  by_cases h : p / 64 < words.length
  · rw [bit, bit, List.getD_append _ _ _ _ h]
  · have hzero : (List.replicate n (0 : UInt64)).getD (p / 64 - words.length) 0 = 0 := by
      by_cases hn : p / 64 - words.length < n <;> simp [List.getD_eq_getElem?_getD, hn]
    rw [@bit_of_length_le words p (by omega), bit, List.getD_append_right _ _ _ _ (Nat.not_lt.1 h), hzero]
    exact BitVec.getLsbD_zero

theorem bit_zeros (n p : Nat) : bit (List.replicate n 0) p = false :=
  (bit_append_zeros [] n p).trans (bit_of_length_le (Nat.zero_le p))

theorem bit_take {n : Nat} (h : p / 64 < n) : bit (words.take n) p = bit words p := by
  simp [bit, List.getD_eq_getElem?_getD, h]

theorem getLsbD_one_shiftLeft {k : Nat} (hk : k < 64) (j : Nat) :
    ((1 : UInt64) <<< UInt64.ofNat k).toBitVec.getLsbD j = decide (j = k) := by
  have h : ∀ k < 64, ((1 : UInt64) <<< UInt64.ofNat k).toBitVec = BitVec.twoPow 64 k := by decide +kernel
  rw [h k hk, BitVec.getLsbD_twoPow]
  by_cases hj : k = j
  · subst hj
    simp [hk]
  · simp [hj, Ne.symm hj]

/-- **Or-ing in one bit adds one member.** -/
theorem bit_insert (hp : p / 64 < words.length) :
    bit (words.modify (p / 64) (fun w => w ||| 1 <<< UInt64.ofNat (p % 64))) q = (bit words q || decide (q = p)) := by
  rw [bit, bit, List.getD_eq_getElem?_getD, List.getElem?_modify, List.getD_eq_getElem?_getD]
  by_cases hword : p / 64 = q / 64
  · have hsame : decide (q % 64 = p % 64) = decide (q = p) := decide_eq_decide.2 (by omega)
    have hone := getLsbD_one_shiftLeft (Nat.mod_lt p (show 0 < 64 by decide)) (q % 64)
    rw [← hword, List.getElem?_eq_getElem hp]
    simp only [Option.map_eq_map, Option.map_some, Option.getD_some, if_true, UInt64.toBitVec_or, BitVec.getLsbD_or, hone, hsame]
  · have hne : q ≠ p := fun h => hword (by rw [h])
    simp [hword, hne]

theorem bit_zipWith (f : UInt64 → UInt64 → UInt64) (g : Bool → Bool → Bool) (hg : g false false = false)
    (hf : ∀ x y j, j < 64 → (f x y).toBitVec.getLsbD j = g (x.toBitVec.getLsbD j) (y.toBitVec.getLsbD j))
    {xs ys : List UInt64} (hlen : xs.length = ys.length) (p : Nat) :
    bit (List.zipWith f xs ys) p = g (bit xs p) (bit ys p) := by
  have hmod : p % 64 < 64 := Nat.mod_lt p (by decide)
  by_cases hp : p / 64 < xs.length
  · rw [bit, bit, bit, List.getD_eq_getElem _ _ (by rwa [List.length_zipWith, ← hlen, Nat.min_self]),
      List.getD_eq_getElem _ _ hp, List.getD_eq_getElem _ _ (hlen ▸ hp), List.getElem_zipWith, hf _ _ _ hmod]
  · rw [bit_of_length_le (p := p) (by rw [List.length_zipWith, ← hlen, Nat.min_self]; omega),
      @bit_of_length_le xs p (by omega), @bit_of_length_le ys p (by omega), hg]

theorem bit_complement (hp : p < 64 * words.length) : bit (words.map (fun w => ~~~w)) p = !bit words p := by
  have hword : p / 64 < words.length := by omega
  rw [bit, bit, List.getD_eq_getElem _ _ (by rwa [List.length_map]), List.getD_eq_getElem _ _ hword, List.getElem_map,
    UInt64.toBitVec_not, BitVec.getLsbD_not, decide_eq_true (Nat.mod_lt p (by decide)), Bool.true_and]

theorem getLsbD_mask {k : Nat} (hk : k < 64) (j : Nat) :
    (((1 : UInt64) <<< UInt64.ofNat k) - 1).toBitVec.getLsbD j = decide (j < k) := by
  have h : ∀ k < 64, (((1 : UInt64) <<< UInt64.ofNat k) - 1).toBitVec = BitVec.ofNat 64 (2 ^ k - 1) := by decide +kernel
  rw [h k hk, BitVec.getLsbD_ofNat, Nat.testBit_two_pow_sub_one]
  by_cases hj : j < k
  · simp [hj, Nat.lt_trans hj hk]
  · simp [hj]

/-- Masking the last word takes the members away that lie behind. -/
theorem bit_mask_last {n k : Nat} (hk : k < 64) (hlen : words.length = n + 1) :
    bit (words.modify n (fun w => w &&& ((1 <<< UInt64.ofNat k) - 1))) p = (bit words p && decide (p < 64 * n + k)) := by
  rw [bit, bit, List.getD_eq_getElem?_getD, List.getElem?_modify, List.getD_eq_getElem?_getD]
  by_cases hword : n = p / 64
  · have hsame : decide (p % 64 < k) = decide (p < 64 * (p / 64) + k) := decide_eq_decide.2 (by omega)
    rw [List.getElem?_eq_getElem (by omega)]
    simp only [hword, Option.map_eq_map, Option.map_some, Option.getD_some, if_true, UInt64.toBitVec_and, BitVec.getLsbD_and,
      getLsbD_mask hk, ← hsame]
  · by_cases hlast : p / 64 < n
    · simp [hword, show p < 64 * n + k by omega]
    · have hnone : words[p / 64]? = none := List.getElem?_eq_none (by omega)
      simp [hword, hnone]

/-! ## The members of a word -/

/-- A number by its lowest bit. -/
theorem eq_of_lowest {x k : Nat} (hk : x.testBit k = true) (hlow : ∀ j < k, x.testBit j = false) :
    x = 2 ^ (k + 1) * (x / 2 ^ (k + 1)) + 2 ^ k := by
  have hmod : x % 2 ^ (k + 1) = 2 ^ k := by
    refine Nat.eq_of_testBit_eq fun j => ?_
    rw [Nat.testBit_mod_two_pow, Nat.testBit_two_pow]
    rcases Nat.lt_trichotomy j k with h | h | h
    · rw [hlow j h, Bool.and_false, decide_eq_false (by omega)]
    · rw [h, hk, decide_eq_true (by omega), decide_eq_true rfl, Bool.true_and]
    · rw [decide_eq_false (by omega), decide_eq_false (by omega), Bool.false_and]
  conv_lhs => rw [← Nat.div_add_mod x (2 ^ (k + 1)), hmod]

theorem testBit_and_sub_one {x k : Nat} (hk : x.testBit k = true) (hlow : ∀ j < k, x.testBit j = false) (j : Nat) :
    (x &&& (x - 1)).testBit j = (x.testBit j && decide (j ≠ k)) := by
  have hlt : 2 ^ k < 2 ^ (k + 1) := Nat.pow_lt_pow_right (by decide) (Nat.lt_succ_self k)
  have hpos := Nat.two_pow_pos k
  have hx := eq_of_lowest hk hlow
  generalize x / 2 ^ (k + 1) = q at hx
  have hpred : x - 1 = 2 ^ (k + 1) * q + (2 ^ k - 1) := by omega
  rw [Nat.testBit_and, hpred, Nat.testBit_two_pow_mul_add q (Nat.lt_of_le_of_lt (Nat.sub_le _ 1) hlt)]
  rcases Nat.lt_trichotomy j k with h | h | h
  · rw [hlow j h, Bool.false_and, Bool.false_and]
  · rw [if_pos (by omega), Nat.testBit_two_pow_sub_one, decide_eq_false (by omega), decide_eq_false (by omega)]
  · rw [if_neg (by omega), hx, Nat.testBit_two_pow_mul_add q hlt, if_neg (by omega), Bool.and_self,
      decide_eq_true (by omega), Bool.and_true]

/-- Taking the lowest bit away takes no other. -/
theorem getLsbD_and_sub_one {w : UInt64} (h : w ≠ 0) (j : Nat) :
    (w &&& (w - 1)).toBitVec.getLsbD j = (w.toBitVec.getLsbD j && decide (j ≠ w.toBitVec.ctz.toNat)) := by
  have hne : w.toBitVec ≠ 0#64 := fun h0 => h (UInt64.toBitVec_inj.1 h0)
  have hpos : 0 < w.toNat := Nat.pos_of_ne_zero fun h0 => h (UInt64.toNat_inj.1 h0)
  have hpred : (w - 1).toNat = w.toNat - 1 := by
    rw [UInt64.toNat_sub_of_le]
    · rfl
    · exact UInt64.le_iff_toNat_le.2 hpos
  have hand : (w &&& (w - 1)).toNat = w.toNat &&& (w.toNat - 1) := by rw [UInt64.toNat_and, hpred]
  have := testBit_and_sub_one (x := w.toNat) (BitVec.getLsbD_true_ctz_of_ne_zero hne)
    (fun i hi => BitVec.getLsbD_false_of_lt_ctz hi) j
  rwa [← hand] at this

theorem filter_range_lowest {f : Nat → Bool} {k n : Nat} (hk : f k = true) (hlow : ∀ i < k, f i = false) (hn : k < n) :
    (List.range n).filter f = k :: (List.range n).filter (fun i => f i && decide (i ≠ k)) := by
  obtain ⟨m, rfl⟩ : ∃ m, n = k + (1 + m) := ⟨n - k - 1, by omega⟩
  have hhead : ∀ g : Nat → Bool, (∀ i < k, g i = false) → (List.range k).filter g = [] := fun g hg =>
    List.filter_eq_nil_iff.2 fun i hi => by simp [hg i (List.mem_range.1 hi)]
  have htail : ∀ i ∈ (List.range m).map (fun i => k + (1 + i)), f i = (f i && decide (i ≠ k)) := fun i hi => by
    obtain ⟨j, -, rfl⟩ := List.mem_map.1 hi
    simp
  rw [List.range_add, List.filter_append, List.filter_append, hhead f hlow, hhead _ (fun i hi => by simp [hlow i hi]),
    Nat.add_comm 1 m, List.range_succ_eq_map, List.map_cons, List.map_map, List.nil_append, List.nil_append,
    List.filter_cons_of_pos (by simpa using hk), List.filter_cons_of_neg (by simp)]
  refine congrArg (k :: ·) (List.filter_congr fun i hi => htail i ?_)
  simpa [Nat.add_comm 1] using hi

/-- **The loop gives the bits of the word in order**, with as many turns as bits may be left. -/
theorem onesLoop_eq : ∀ (n : Nat) (w : UInt64), (∀ j < 64 - n, w.toBitVec.getLsbD j = false) →
    onesLoop n w = (List.range 64).filter w.toBitVec.getLsbD
  | 0, w, h => (List.filter_eq_nil_iff.2 fun j hj => by simp [h j (List.mem_range.1 hj)]).symm
  | n + 1, w, h => by
    rw [onesLoop]
    by_cases hw : w = 0
    · subst hw
      rfl
    · have hne : w.toBitVec ≠ 0#64 := fun h0 => hw (UInt64.toBitVec_inj.1 h0)
      have hk := BitVec.getLsbD_true_ctz_of_ne_zero hne
      have hlow : ∀ i < w.toBitVec.ctz.toNat, w.toBitVec.getLsbD i = false := fun i hi => BitVec.getLsbD_false_of_lt_ctz hi
      have hlt : w.toBitVec.ctz.toNat < 64 := BitVec.lt_def.1 (BitVec.ctz_lt_iff_ne_zero.2 hne)
      have hge : 64 - (n + 1) ≤ w.toBitVec.ctz.toNat := Nat.not_lt.1 fun hlt => by
        rw [h _ hlt] at hk
        exact nomatch hk
      have hnext : ∀ j < 64 - n, (w &&& (w - 1)).toBitVec.getLsbD j = false := fun j hj => by
        rw [getLsbD_and_sub_one hw]
        by_cases hj' : j < w.toBitVec.ctz.toNat
        · rw [hlow j hj', Bool.false_and]
        · rw [decide_eq_false (fun hne => hne (by omega)), Bool.and_false]
      rw [if_neg hw, onesLoop_eq n _ hnext, filter_range_lowest hk hlow hlt]
      exact congrArg (_ :: ·) (List.filter_congr fun j _ => getLsbD_and_sub_one hw j)

theorem onesLoop_word (w : UInt64) : onesLoop 64 w = (List.range 64).filter w.toBitVec.getLsbD :=
  onesLoop_eq 64 w fun _ hj => absurd hj (Nat.not_lt_zero _)

/-- **Word by word, the members in order.** -/
theorem members_eq_flatMap (words : List UInt64) :
    members words = words.zipIdx.flatMap (fun r => (onesLoop 64 r.1).map (64 * r.2 + ·)) := by
  induction words using List.reverseRecOn with
  | nil => rfl
  | append_singleton words w ih =>
    have hfirst : ∀ p ∈ List.range (64 * words.length), bit (words ++ [w]) p = bit words p := fun p hp => by
      have := List.mem_range.1 hp
      rw [bit, bit, List.getD_append _ _ _ _ (by omega)]
    have hlast : ∀ j ∈ List.range 64, bit (words ++ [w]) (64 * words.length + j) = w.toBitVec.getLsbD j := fun j hj => by
      rw [bit_eq _ _ (List.mem_range.1 hj), List.getD_append_right _ _ _ _ (Nat.le_refl _), Nat.sub_self]
      rfl
    rw [List.zipIdx_append, List.flatMap_append, ← ih, members, List.length_append, Nat.mul_add, List.range_add,
      List.filter_append, List.filter_congr hfirst, ← members, List.filter_map]
    simp only [List.length_singleton, Nat.mul_one, List.zipIdx_singleton, List.flatMap_singleton, onesLoop_word, Nat.zero_add]
    exact congrArg (fun l => members words ++ l.map (64 * words.length + ·)) (List.filter_congr hlast)

end Bitset
end Heraclitus
