import Heraclitus.V6Merkle
import Heraclitus.Lib.HashTree
import Mathlib.Data.List.ReduceOption
/-!
# V6Proof — inclusion proofs (`heraclitus-log/src/v6/merkle.rs`)

The streaming accumulator and the level-by-level proof builder find one tree, the balanced one of the record hashes.  Where
the hashed strings do not collide, a proof is accepted just when its path is an honest one.
-/
namespace Heraclitus
namespace V6

open HashTree (Step Balanced)

/-- A sibling, and whether it is the left one. -/
abbrev ProofStep := Step Digest

structure InclusionProof where
  leafIndex : Nat
  leafCount : Nat
  path : List ProofStep
  deriving DecidableEq

variable (blake3 : Bytes → Digest)

/-- The pairs of a level from position `i` on, with what is in `next` so far. -/
def pairLoop : Nat → Nat → List ProofStep → List Digest → List Digest → List Digest × Nat × List ProofStep
  | i, idx, path, next, left :: right :: rest =>
    let here := if idx = i then (next.length, path ++ [⟨right, false⟩])
      else if idx = i + 1 then (next.length, path ++ [⟨left, true⟩])
      else (idx, path)
    pairLoop (i + 2) here.1 here.2 (next ++ [merkleNode blake3 left right]) rest
  | i, idx, path, next, [last] => (next ++ [last], if idx = i then next.length else idx, path)
  | _, idx, path, next, [] => (next, idx, path)

/-- `while level.len() > 1`; a level of `n` digests needs fewer than `n` turns. -/
def levelLoop : Nat → List Digest → Nat → List ProofStep → List ProofStep
  | 0, _, _, path => path
  | fuel + 1, level, idx, path =>
    if 1 < level.length then
      let done := pairLoop blake3 0 idx path [] level
      levelLoop fuel done.1 done.2.1 done.2.2
    else path

def buildInclusionProof (hashes : List Digest) (index : Nat) : Option InclusionProof :=
  if hashes.length ≤ index then none
  else some {
    leafIndex := index
    leafCount := hashes.length
    path := levelLoop blake3 hashes.length (hashes.map (merkleLeaf blake3)) index [] }

def verifyInclusionProof (canonicalRecordHash : Digest) (proof : InclusionProof) (root : Digest) : Bool :=
  let acc := proof.path.foldl
    (fun acc step => if step.siblingIsLeft then merkleNode blake3 step.sibling acc else merkleNode blake3 acc step.sibling)
    (merkleLeaf blake3 canonicalRecordHash)
  decide (sealRoot blake3 proof.leafCount acc = root)

/-! ## What is hashed -/

/-- The string that is hashed for an input. -/
def inputBytes : HashTree.Input Digest Digest → Bytes
  | .leaf canonicalRecordHash => domainLeaf ++ canonicalRecordHash.1
  | .node left right => domainNode ++ left.1 ++ right.1

def hashInput (x : HashTree.Input Digest Digest) : Digest := blake3 (inputBytes x)

def rootBytes (leafCount : Nat) (acc : Digest) : Bytes := domainRoot ++ leBytes 8 leafCount ++ acc.1

/-- The tree of the accumulator. -/
def merkleTree (hashes : List Digest) : Option (HashTree Digest) :=
  HashTree.gather .node none
    (hashes.foldl (fun levels h => HashTree.carry .node (.leaf h) levels) (List.replicate maxLevels none))

/-- The strings that are hashed for a root. -/
def hashedForRoot (hashes : List Digest) : List Bytes :=
  match merkleTree hashes with
  | none => [rootBytes hashes.length (Digest.replicate 0)]
  | some t => rootBytes hashes.length (t.digest (hashInput blake3)) :: (t.inputs (hashInput blake3)).map inputBytes

/-- The strings that are hashed when a proof is checked. -/
def hashedForProof (canonicalRecordHash : Digest) (proof : InclusionProof) : List Bytes :=
  let leaf := hashInput blake3 (.leaf canonicalRecordHash)
  rootBytes proof.leafCount (HashTree.climb (hashInput blake3) leaf proof.path) ::
    inputBytes (.leaf canonicalRecordHash) :: (HashTree.climbInputs (hashInput blake3) leaf proof.path).map inputBytes

/-- No two of the strings have one digest, and none has that of all zeros. -/
def CollisionFree (strings : List Bytes) : Prop :=
  ∀ x ∈ strings, blake3 x ≠ Digest.replicate 0 ∧ ∀ y ∈ strings, blake3 x = blake3 y → x = y

instance (strings : List Bytes) : Decidable (CollisionFree blake3 strings) :=
  inferInstanceAs (Decidable (∀ x ∈ strings, blake3 x ≠ Digest.replicate 0 ∧ ∀ y ∈ strings, blake3 x = blake3 y → x = y))

theorem length_domainLeaf : domainLeaf.length = 17 := by decide
theorem length_domainNode : domainNode.length = 17 := by decide
/-- **Inputs are told apart by their strings.** -/
theorem inputBytes_injective : Function.Injective inputBytes := by
  intro x y h
  have hlen := congrArg List.length h
  cases x with
  | leaf a =>
    cases y with
    | leaf b => exact congrArg HashTree.Input.leaf (Subtype.ext (List.append_cancel_left h))
    | node l r =>
      simp [inputBytes, length_domainLeaf, length_domainNode, a.2, l.2, r.2] at hlen
  | node l r =>
    cases y with
    | leaf b =>
      simp [inputBytes, length_domainLeaf, length_domainNode, b.2, l.2, r.2] at hlen
    | node l' r' =>
      simp only [inputBytes, List.append_assoc] at h
      obtain ⟨hleft, hright⟩ := List.append_inj (List.append_cancel_left h) (l.2.trans l'.2.symm)
      rw [Subtype.ext hleft, Subtype.ext hright]

theorem rootBytes_inj {n m : Nat} {a b : Digest} (hn : n < 2 ^ 64) (hm : m < 2 ^ 64) (h : rootBytes n a = rootBytes m b) :
    n = m ∧ a = b := by
  simp only [rootBytes, List.append_assoc] at h
  obtain ⟨hcount, hacc⟩ := List.append_inj (List.append_cancel_left h) (by rw [length_leBytes, length_leBytes])
  have hnumber := congrArg leNat hcount
  rw [leNat_leBytes_of_lt hn, leNat_leBytes_of_lt hm] at hnumber
  exact ⟨hnumber, Subtype.ext hacc⟩

variable {blake3}

theorem injOn_of_collisionFree {strings : List Bytes} (h : CollisionFree blake3 strings) :
    Set.InjOn (hashInput blake3) {x | inputBytes x ∈ strings} :=
  fun _ hx _ hy heq => inputBytes_injective ((h _ hx).2 _ hy heq)

/-! ## The root -/

theorem carryUp_eq (carry : Digest) : ∀ levels : List (Option Digest),
    carryUp blake3 carry levels = HashTree.carry (merkleNode blake3) carry levels := by
  intro levels
  induction levels generalizing carry with
  | nil => rfl
  | cons level levels ih =>
    cases level with
    | none => rfl
    | some pending => rw [carryUp, HashTree.carry, ih]

theorem foldl_reduceOption : ∀ (levels : List (Option Digest)) (carry : Option Digest),
    levels.reduceOption.foldl (fun carry node => some (carry.elim node (merkleNode blake3 node))) carry
      = HashTree.gather (merkleNode blake3) carry levels
  | [], _ => rfl
  | none :: levels, carry => foldl_reduceOption levels carry
  | some pending :: levels, carry => by
    rw [List.reduceOption_cons_of_some, List.foldl_cons, foldl_reduceOption levels, HashTree.gather]

theorem digest_node (blake3 : Bytes → Digest) (left right : HashTree Digest) : (HashTree.node left right).digest (hashInput blake3)
    = merkleNode blake3 (left.digest (hashInput blake3)) (right.digest (hashInput blake3)) := rfl

/-- The trees of the levels while leaves come in. -/
theorem foldl_pushRecordHash (hashes : List Digest) :
    hashes.foldl (MerkleAccumulatorV1.pushRecordHash blake3) .new = {
      levels := (hashes.foldl (fun levels h => HashTree.carry HashTree.node (.leaf h) levels)
        (List.replicate maxLevels none)).map (Option.map (HashTree.digest (hashInput blake3)))
      leafCount := hashes.length } := by
  induction hashes using List.reverseRecOn with
  | nil => rfl
  | append_singleton hashes h ih =>
    rw [List.foldl_append, ih, List.foldl_append, List.foldl_cons, List.foldl_nil, List.foldl_cons, List.foldl_nil,
      MerkleAccumulatorV1.pushRecordHash, MerkleAccumulatorV1.pushLeaf, carryUp_eq]
    dsimp only
    rw [HashTree.map_carry (digest_node blake3), List.length_append]
    rfl

/-- **The root seals the digest of the tree.** -/
theorem rootOfRecordHashes_eq (hashes : List Digest) : rootOfRecordHashes blake3 hashes
    = blake3 (rootBytes hashes.length (((merkleTree hashes).map (HashTree.digest (hashInput blake3))).getD (Digest.replicate 0))) := by
  rw [rootOfRecordHashes, foldl_pushRecordHash, MerkleAccumulatorV1.finalize]
  dsimp only
  rw [foldl_reduceOption, merkleTree, HashTree.map_gather (digest_node blake3)]
  rfl

theorem counter_of_lt (hashes : List Digest) (hlen : hashes.length < 2 ^ 64) :
    HashTree.Counter 0 (hashes.foldl (fun levels h => HashTree.carry HashTree.node (.leaf h) levels)
      (List.replicate maxLevels none)) ∧
    HashTree.counted (hashes.foldl (fun levels h => HashTree.carry HashTree.node (.leaf h) levels)
      (List.replicate maxLevels none)) = hashes ∧
    (hashes.foldl (fun levels h => HashTree.carry HashTree.node (.leaf h) levels)
      (List.replicate maxLevels none)).length = maxLevels := by
  induction hashes using List.reverseRecOn with
  | nil => exact ⟨HashTree.counter_replicate maxLevels 0, HashTree.counted_replicate maxLevels, List.length_replicate⟩
  | append_singleton hashes h ih =>
    rw [List.length_append, List.length_singleton] at hlen
    obtain ⟨hcounter, hcounted, hlevels⟩ := ih (by omega)
    rw [List.foldl_append, List.foldl_cons, List.foldl_nil]
    generalize hashes.foldl (fun levels h => HashTree.carry HashTree.node (.leaf h) levels)
      (List.replicate maxLevels none) = levels at hcounter hcounted hlevels
    have hfree : none ∈ levels := by
      by_contra hfull
      have hsum := hcounter.full hfull
      rw [hcounted, hlevels] at hsum
      simp only [maxLevels] at hsum
      omega
    obtain ⟨hnext, hleaves⟩ := hcounter.carry (.leaf h) hfree
    exact ⟨hnext, by rw [hleaves, hcounted]; rfl, by rw [HashTree.length_carry, hlevels]⟩

/-- **The tree of the accumulator is the balanced one.** -/
theorem merkleTree_balanced {hashes : List Digest} (hne : hashes ≠ []) (hlen : hashes.length < 2 ^ 64) :
    ∃ t, merkleTree hashes = some t ∧ Balanced t ∧ t.leaves = hashes := by
  obtain ⟨hcounter, hcounted, -⟩ := counter_of_lt hashes hlen
  obtain ⟨t, hgather, hbalanced, hleaves⟩ := hcounter.gather_none (by rw [hcounted]; exact hne)
  exact ⟨t, hgather, hbalanced, hleaves.trans hcounted⟩

/-! ## The honest proof -/

theorem pairLoop_passed : ∀ (level : List Digest) {i idx : Nat} (path : List ProofStep) (next : List Digest), idx < i →
    pairLoop blake3 i idx path next level = (next ++ HashTree.pairUp (merkleNode blake3) level, idx, path)
  | [], i, idx, path, next, _ => by
    rw [pairLoop, HashTree.pairUp, List.append_nil]
  | [last], i, idx, path, next, h => by
    rw [pairLoop, if_neg (Nat.ne_of_lt h), HashTree.pairUp]
  | left :: right :: rest, i, idx, path, next, h => by
    rw [pairLoop, if_neg (Nat.ne_of_lt h), if_neg (by omega), pairLoop_passed rest path _ (by omega), HashTree.pairUp,
      List.append_assoc]
    rfl

/-- **One level**: the pairs are joined, and the path gets the sibling. -/
theorem pairLoop_eq : ∀ (level : List Digest) {k : Nat} (path : List ProofStep) (next : List Digest), k < level.length →
    pairLoop blake3 (2 * next.length) (2 * next.length + k) path next level
      = (next ++ HashTree.pairUp (merkleNode blake3) level, next.length + k / 2, path ++ HashTree.siblingOf level k)
  | [], k, _, _, h => absurd h (Nat.not_lt_zero k)
  | [last], k, path, next, h => by
    have hk : k = 0 := Nat.lt_one_iff.1 h
    subst hk
    rw [pairLoop, if_pos (Nat.add_zero _), HashTree.pairUp]
    simp [HashTree.siblingOf]
  | left :: right :: rest, 0, path, next, _ => by
    rw [pairLoop, if_pos (Nat.add_zero _)]
    dsimp only
    rw [pairLoop_passed rest _ _ (by omega), HashTree.pairUp, List.append_assoc]
    rfl
  | left :: right :: rest, 1, path, next, _ => by
    rw [pairLoop, if_neg (by omega), if_pos rfl]
    dsimp only
    rw [pairLoop_passed rest _ _ (by omega), HashTree.pairUp, List.append_assoc]
    rfl
  | left :: right :: rest, k + 2, path, next, h => by
    have hk : k < rest.length := by
      simp only [List.length_cons] at h
      omega
    have hnext : (next ++ [merkleNode blake3 left right]).length = next.length + 1 := by simp
    have hrest := pairLoop_eq rest path (next ++ [merkleNode blake3 left right]) hk
    rw [hnext] at hrest
    have hstart : 2 * (next.length + 1) = 2 * next.length + 2 := by omega
    have hidx : 2 * next.length + 2 + k = 2 * next.length + (k + 2) := by omega
    have hhalf : next.length + 1 + k / 2 = next.length + (k + 2) / 2 := by omega
    rw [hstart, hidx, hhalf] at hrest
    rw [pairLoop, if_neg (by omega), if_neg (by omega)]
    dsimp only
    rw [hrest, HashTree.pairUp, List.append_assoc]
    have heven : (k + 2) % 2 = k % 2 := Nat.add_mod_right k 2
    have hsibling : HashTree.siblingOf (left :: right :: rest) (k + 2) = HashTree.siblingOf rest k := by
      rw [HashTree.siblingOf, HashTree.siblingOf, heven]
      by_cases hmod : k % 2 = 0
      · rw [if_pos hmod, if_pos hmod]
        rfl
      · have hpred : k + 2 - 1 = k - 1 + 2 := by omega
        rw [if_neg hmod, if_neg hmod, hpred]
        rfl
    rw [hsibling]
    rfl

/-- **The loop over the levels** ends with the path in the balanced tree. -/
theorem levelLoop_eq : ∀ (fuel : Nat) {n i idx : Nat} {path : List ProofStep} {ts : List (HashTree Digest)},
    ts.length ≤ fuel → HashTree.Row n ts → HashTree.Leads (hashInput blake3) ts i idx path →
    ∃ t, Balanced t ∧ t.leaves = ts.flatMap HashTree.leaves ∧
      levelLoop blake3 fuel (ts.map (HashTree.digest (hashInput blake3))) idx path = t.pathTo (hashInput blake3) i
  | 0, n, i, idx, path, ts, hfuel, hrow, _ => by
    rw [List.length_eq_zero_iff.1 (Nat.le_zero.1 hfuel)] at hrow
    cases hrow
  | fuel + 1, n, i, idx, path, ts, hfuel, hrow, hleads => by
    rw [levelLoop]
    by_cases hone : 1 < (ts.map (HashTree.digest (hashInput blake3))).length
    · have hidx : idx < ts.length := by
        obtain ⟨t, j, hget, -⟩ := hleads
        exact (List.getElem?_eq_some_iff.1 hget).1
      have hdone := @pairLoop_eq blake3 (ts.map (HashTree.digest (hashInput blake3))) idx path []
        (by rw [List.length_map]; exact hidx)
      simp only [List.length_nil, Nat.mul_zero, Nat.zero_add, List.nil_append] at hdone
      rw [if_pos hone, hdone]
      dsimp only
      rw [← HashTree.map_pairUp (digest_node blake3)]
      have hshorter : (HashTree.pairUp HashTree.node ts).length ≤ fuel := by
        rw [List.length_map] at hone
        rw [HashTree.length_pairUp]
        omega
      obtain ⟨t, hbalanced, hleaves, hpath⟩ := levelLoop_eq fuel hshorter hrow.pairUp hleads.pairUp
      exact ⟨t, hbalanced, hleaves.trans (HashTree.flatMap_leaves_pairUp ts), hpath⟩
    · rw [if_neg hone]
      rw [List.length_map] at hone
      cases hrow with
      | @last t hbalanced _ =>
        refine ⟨t, hbalanced, ?_, hleads.eq_pathTo⟩
        simp
      | @cons t ts _ hrest =>
        cases hrest <;> simp at hone

/-- **An honest proof is the leaf's path** in the tree of the accumulator. -/
theorem buildInclusionProof_eq {hashes : List Digest} (hlen : hashes.length < 2 ^ 64) {index : Nat} (hindex : index < hashes.length)
    {t : HashTree Digest} (ht : merkleTree hashes = some t) : buildInclusionProof blake3 hashes index
      = some { leafIndex := index, leafCount := hashes.length, path := t.pathTo (hashInput blake3) index } := by
  have hne : hashes ≠ [] := List.ne_nil_of_length_pos (Nat.zero_lt_of_lt hindex)
  obtain ⟨t', ht', hbalanced', hleaves'⟩ := merkleTree_balanced hne hlen
  cases ht.symm.trans ht'
  have hlevel : hashes.map (merkleLeaf blake3) = (hashes.map HashTree.leaf).map (HashTree.digest (hashInput blake3)) := by
    rw [List.map_map]
    rfl
  have hrow : HashTree.Row 0 (hashes.map HashTree.leaf) := HashTree.row_leaves hne
  have hleads : HashTree.Leads (hashInput blake3) (hashes.map HashTree.leaf) index index [] := HashTree.leads_leaves hindex
  obtain ⟨t', hbalanced, hleaves, hpath⟩ := levelLoop_eq hashes.length (Nat.le_of_eq (List.length_map _)) hrow hleads
  have hflat : (hashes.map HashTree.leaf).flatMap HashTree.leaves = hashes := by
    rw [List.flatMap_map]
    exact List.flatMap_singleton' hashes
  have hsame : t' = t := hbalanced.unique hbalanced' (by rw [hleaves, hflat, hleaves'])
  rw [buildInclusionProof, if_neg (Nat.not_le.2 hindex), hlevel, hpath, hsame]

/-! ## What the check of a proof shows -/

theorem verifyInclusionProof_eq (h : Digest) (proof : InclusionProof) (root : Digest) : verifyInclusionProof blake3 h proof root
    = decide (blake3 (rootBytes proof.leafCount
        (HashTree.climb (hashInput blake3) (hashInput blake3 (.leaf h)) proof.path)) = root) := by
  have hstep : (fun (acc : Digest) (step : ProofStep) =>
        if step.siblingIsLeft then merkleNode blake3 step.sibling acc else merkleNode blake3 acc step.sibling)
      = fun acc step => hashInput blake3 (step.input acc) := by
    funext acc step
    rw [Step.input]
    split <;> rfl
  rw [verifyInclusionProof, hstep]
  rfl

/-- What a path leads to was hashed. -/
theorem climb_mem : ∀ (path : List ProofStep) (x : HashTree.Input Digest Digest), ∃ y,
    HashTree.climb (hashInput blake3) (hashInput blake3 x) path = hashInput blake3 y ∧
      y ∈ x :: HashTree.climbInputs (hashInput blake3) (hashInput blake3 x) path
  | [], x => ⟨x, rfl, List.mem_cons_self⟩
  | s :: path, x => by
    obtain ⟨y, hy, hmem⟩ := climb_mem path (s.input (hashInput blake3 x))
    exact ⟨y, hy, List.mem_cons_of_mem x hmem⟩

/-- **An honest path is accepted**, under the count of the list. -/
theorem verify_honest {hashes : List Digest} {h : Digest} {proof honest : InclusionProof} {p : Nat} (hlen : hashes.length < 2 ^ 64)
    (hcount : proof.leafCount = hashes.length) (hbuild : buildInclusionProof blake3 hashes p = some honest)
    (hget : hashes[p]? = some h) (hpath : proof.path = honest.path) :
    verifyInclusionProof blake3 h proof (rootOfRecordHashes blake3 hashes) = true := by
  have hlt := (List.getElem?_eq_some_iff.1 hget).1
  obtain ⟨t, ht, -, hleaves⟩ := merkleTree_balanced (List.ne_nil_of_length_pos (Nat.zero_lt_of_lt hlt)) hlen
  rw [buildInclusionProof_eq hlen hlt ht] at hbuild
  cases hbuild
  rw [verifyInclusionProof_eq, decide_eq_true_iff, rootOfRecordHashes_eq, ht, hcount, hpath,
    HashTree.climb_pathTo (by rw [hleaves]; exact hget)]
  rfl

/-! ## The tree that the proof builder walks -/

variable (blake3) in
/-- The level that the loop of `build_inclusion_proof` ends at. -/
def lastLevel : Nat → List Digest → Nat → List ProofStep → List Digest
  | 0, level, _, _ => level
  | fuel + 1, level, idx, path =>
    if 1 < level.length then
      let done := pairLoop blake3 0 idx path [] level
      lastLevel fuel done.1 done.2.1 done.2.2
    else level

variable (blake3) in
/-- The root that seals the tree which is walked for the proof of `index`. -/
def walkedRoot (hashes : List Digest) (index : Nat) : Digest :=
  sealRoot blake3 hashes.length
    ((lastLevel blake3 hashes.length (hashes.map (merkleLeaf blake3)) index []).headD (Digest.replicate 0))

/-- The next level does not depend on the index that is followed. -/
theorem pairLoop_fst : ∀ (level : List Digest) (i idx : Nat) (path : List ProofStep) (next : List Digest),
    (pairLoop blake3 i idx path next level).1 = next ++ HashTree.pairUp (merkleNode blake3) level
  | [], i, idx, path, next => by rw [pairLoop, HashTree.pairUp, List.append_nil]
  | [last], i, idx, path, next => by rw [pairLoop, HashTree.pairUp]
  | left :: right :: rest, i, idx, path, next => by
    rw [pairLoop, pairLoop_fst rest, HashTree.pairUp, List.append_assoc]
    rfl

/-- **The loop over the levels ends at one digest**, that of the balanced tree. -/
theorem lastLevel_eq : ∀ (fuel : Nat) {n : Nat} {ts : List (HashTree Digest)} (idx : Nat) (path : List ProofStep),
    ts.length ≤ fuel → HashTree.Row n ts → ∃ t, Balanced t ∧ t.leaves = ts.flatMap HashTree.leaves ∧
      lastLevel blake3 fuel (ts.map (HashTree.digest (hashInput blake3))) idx path = [t.digest (hashInput blake3)]
  | 0, n, ts, idx, path, hfuel, hrow => by
    rw [List.length_eq_zero_iff.1 (Nat.le_zero.1 hfuel)] at hrow
    cases hrow
  | fuel + 1, n, ts, idx, path, hfuel, hrow => by
    rw [lastLevel]
    by_cases hone : 1 < (ts.map (HashTree.digest (hashInput blake3))).length
    · have hshorter : (HashTree.pairUp HashTree.node ts).length ≤ fuel := by
        rw [List.length_map] at hone
        rw [HashTree.length_pairUp]
        omega
      rw [if_pos hone]
      dsimp only
      rw [pairLoop_fst, List.nil_append, ← HashTree.map_pairUp (digest_node blake3)]
      obtain ⟨t, hbalanced, hleaves, hlast⟩ := lastLevel_eq fuel _ _ hshorter hrow.pairUp
      exact ⟨t, hbalanced, hleaves.trans (HashTree.flatMap_leaves_pairUp ts), hlast⟩
    · rw [if_neg hone]
      rw [List.length_map] at hone
      cases hrow with
      | @last t hbalanced _ =>
        refine ⟨t, hbalanced, ?_, rfl⟩
        simp
      | @cons t ts _ hrest =>
        cases hrest <;> simp at hone

/-- **The streaming root is that of the tree which is walked**, whatever index it is walked for. -/
theorem rootOfRecordHashes_eq_walkedRoot {hashes : List Digest} (hlen : hashes.length < 2 ^ 64) (index : Nat) :
    rootOfRecordHashes blake3 hashes = walkedRoot blake3 hashes index := by
  by_cases hne : hashes = []
  · subst hne
    rfl
  · obtain ⟨t, ht, hbalanced, hleaves⟩ := merkleTree_balanced hne hlen
    have hlevel : hashes.map (merkleLeaf blake3) = (hashes.map HashTree.leaf).map (HashTree.digest (hashInput blake3)) := by
      rw [List.map_map]
      rfl
    obtain ⟨t', hbalanced', hleaves', hlast⟩ := @lastLevel_eq blake3 hashes.length 0 _ index []
      (Nat.le_of_eq (List.length_map _)) (HashTree.row_leaves hne)
    have hflat : (hashes.map HashTree.leaf).flatMap HashTree.leaves = hashes := by
      rw [List.flatMap_map]
      exact List.flatMap_singleton' hashes
    have hsame : t' = t := hbalanced'.unique hbalanced (by rw [hleaves', hflat, hleaves])
    rw [rootOfRecordHashes_eq, ht, walkedRoot, hlevel, hlast, hsame]
    rfl

/-- **The accumulator and the proof builder agree**: fed one by one, the hashes give the root of the tree that is walked
for a proof, and every hash of the list has a proof that is accepted. -/
theorem stream_agrees_with_proofs {hashes : List Digest} (hlen : hashes.length < 2 ^ 64) :
    (∀ index, (hashes.foldl (MerkleAccumulatorV1.pushRecordHash blake3) .new).finalize blake3 = walkedRoot blake3 hashes index) ∧
      ∀ i h, hashes[i]? = some h → ∃ p, buildInclusionProof blake3 hashes i = some p ∧
        verifyInclusionProof blake3 h p ((hashes.foldl (MerkleAccumulatorV1.pushRecordHash blake3) .new).finalize blake3) = true := by
  refine ⟨rootOfRecordHashes_eq_walkedRoot hlen, fun i h hget => ?_⟩
  have hlt := (List.getElem?_eq_some_iff.1 hget).1
  have hbuild : buildInclusionProof blake3 hashes i = some {
      leafIndex := i, leafCount := hashes.length
      path := levelLoop blake3 hashes.length (hashes.map (merkleLeaf blake3)) i [] } := by
    rw [buildInclusionProof, if_neg (Nat.not_le.2 hlt)]
  exact ⟨_, hbuild, verify_honest hlen rfl hbuild hget rfl⟩

/-! ## Soundness -/

/-- **A proof is accepted just when its path is an honest one** and its count is that of the list, where nothing collides. -/
theorem verify_iff {hashes : List Digest} {h : Digest} {proof : InclusionProof} (hlen : hashes.length < 2 ^ 64)
    (hcount : proof.leafCount < 2 ^ 64) (hfree : CollisionFree blake3 (hashedForRoot blake3 hashes ++ hashedForProof blake3 h proof)) :
    verifyInclusionProof blake3 h proof (rootOfRecordHashes blake3 hashes) = true ↔
      proof.leafCount = hashes.length ∧ ∃ p honest, buildInclusionProof blake3 hashes p = some honest ∧
        hashes[p]? = some h ∧ proof.path = honest.path := by
  rw [verifyInclusionProof_eq, decide_eq_true_iff, rootOfRecordHashes_eq]
  have hproof : ∀ x ∈ hashedForProof blake3 h proof, x ∈ hashedForRoot blake3 hashes ++ hashedForProof blake3 h proof :=
    fun x hx => List.mem_append_right _ hx
  have hroot : ∀ x ∈ hashedForRoot blake3 hashes, x ∈ hashedForRoot blake3 hashes ++ hashedForProof blake3 h proof :=
    fun x hx => List.mem_append_left _ hx
  have hclimb : ∀ x ∈ HashTree.Input.leaf h :: HashTree.climbInputs (hashInput blake3) (hashInput blake3 (.leaf h)) proof.path,
      inputBytes x ∈ hashedForProof blake3 h proof := fun x hx =>
    List.mem_cons_of_mem _ (List.mem_map_of_mem (f := inputBytes) hx)
  by_cases hne : hashes = []
  · -- the root of no records seals the zero block, which no path leads to
    subst hne
    have htree : merkleTree [] = none := by decide
    constructor
    · intro heq
      rw [htree] at heq
      have hseal : rootBytes 0 (Digest.replicate 0) ∈ hashedForRoot blake3 [] := by
        rw [hashedForRoot, htree]
        exact List.mem_cons_self
      have hbytes := (hfree _ (hproof _ List.mem_cons_self)).2 _ (hroot _ hseal) heq
      obtain ⟨y, hy, hmem⟩ := @climb_mem blake3 proof.path (.leaf h)
      have hzero := (rootBytes_inj hcount (by decide) hbytes).2
      exact absurd (hy.symm.trans hzero) (hfree _ (hproof _ (hclimb y hmem))).1
    · rintro ⟨-, p, honest, -, hget, -⟩
      cases hget
  · obtain ⟨t, ht, -, hleaves⟩ := merkleTree_balanced hne hlen
    rw [ht]
    have hsealed : hashedForRoot blake3 hashes
        = rootBytes hashes.length (t.digest (hashInput blake3)) :: (t.inputs (hashInput blake3)).map inputBytes := by
      rw [hashedForRoot, ht]
    constructor
    · intro heq
      have hbytes := (hfree _ (hproof _ List.mem_cons_self)).2 _ (hroot _ (by rw [hsealed]; exact List.mem_cons_self)) heq
      obtain ⟨hcounts, hdigest⟩ := rootBytes_inj hcount hlen hbytes
      have hinputs : ∀ x ∈ t.inputs (hashInput blake3),
          x ∈ {x | inputBytes x ∈ hashedForRoot blake3 hashes ++ hashedForProof blake3 h proof} := fun x hx =>
        hroot _ (by rw [hsealed]; exact List.mem_cons_of_mem _ (List.mem_map_of_mem (f := inputBytes) hx))
      obtain ⟨p, hp, hpath⟩ := HashTree.eq_pathTo_of_climb (injOn_of_collisionFree hfree) hinputs
        (hproof _ (hclimb _ List.mem_cons_self)) (fun x hx => hproof _ (hclimb x (List.mem_cons_of_mem _ hx))) hdigest
      rw [hleaves] at hp
      have hlt := (List.getElem?_eq_some_iff.1 hp).1
      exact ⟨hcounts, p, _, buildInclusionProof_eq hlen hlt ht, hp, hpath⟩
    · rintro ⟨hcounts, p, honest, hbuild, hget, hpath⟩
      have hverify := verify_honest hlen hcounts hbuild hget hpath
      rwa [verifyInclusionProof_eq, decide_eq_true_iff, rootOfRecordHashes_eq, ht] at hverify

/-- The proof says of `h` what is so: it is the hash at that index of a list of that length. -/
def Sound (hashes : List Digest) (h : Digest) (proof : InclusionProof) : Prop :=
  proof.leafCount = hashes.length ∧ proof.leafIndex < hashes.length ∧ hashes[proof.leafIndex]? = some h

/-- **Soundness, exactly**: an accepted proof is sound unless it is the honest path of one position under the index of
another that has a different hash; `leaf_index` is not looked at. -/
theorem inclusion_sound_iff {hashes : List Digest} {h : Digest} {proof : InclusionProof} (hlen : hashes.length < 2 ^ 64)
    (hcount : proof.leafCount < 2 ^ 64) (hfree : CollisionFree blake3 (hashedForRoot blake3 hashes ++ hashedForProof blake3 h proof)) :
    (verifyInclusionProof blake3 h proof (rootOfRecordHashes blake3 hashes) = true → Sound hashes h proof) ↔
      ∀ p honest, buildInclusionProof blake3 hashes p = some honest → proof.leafCount = honest.leafCount →
        proof.path = honest.path → hashes[p]? = some h → hashes[proof.leafIndex]? = hashes[p]? := by
  rw [verify_iff hlen hcount hfree]
  have hlengths : ∀ {p honest}, buildInclusionProof blake3 hashes p = some honest → honest.leafCount = hashes.length := by
    intro p honest hbuild
    rw [buildInclusionProof] at hbuild
    split at hbuild <;> cases hbuild
    rfl
  constructor
  · intro hsound p honest hbuild hcounts hpath hget
    rw [hget]
    exact (hsound ⟨hcounts.trans (hlengths hbuild), p, honest, hbuild, hget, hpath⟩).2.2
  · rintro hcond ⟨hcounts, p, honest, hbuild, hget, hpath⟩
    have hindex := hcond p honest hbuild (hcounts.trans (hlengths hbuild).symm) hpath hget
    rw [hget] at hindex
    exact ⟨hcounts, (List.getElem?_eq_some_iff.1 hindex).1, hindex⟩

/-! ## Three records -/

/-- The BLAKE3 digests of the strings of three records. -/
def leafOne : Digest :=
  ⟨[177, 209, 219, 142, 138, 107, 90, 20, 197, 3, 152, 60, 193, 185, 175, 53, 236, 246, 24, 108, 135, 255, 145, 5,
    84, 120, 140, 255, 32, 208, 49, 75], rfl⟩

def leafTwo : Digest :=
  ⟨[94, 19, 20, 183, 81, 86, 64, 187, 124, 251, 243, 34, 114, 0, 46, 220, 233, 213, 170, 224, 22, 230, 174, 36,
    151, 176, 78, 230, 139, 41, 207, 232], rfl⟩

def leafThree : Digest :=
  ⟨[124, 11, 252, 81, 164, 47, 59, 100, 72, 163, 151, 23, 63, 157, 27, 174, 178, 58, 185, 156, 116, 47, 221, 172,
    51, 237, 139, 151, 253, 222, 201, 77], rfl⟩

def nodeLow : Digest :=
  ⟨[10, 171, 14, 55, 5, 114, 211, 244, 158, 99, 113, 222, 58, 175, 187, 152, 69, 24, 249, 181, 128, 123, 95, 183,
    109, 171, 9, 202, 234, 183, 225, 106], rfl⟩

def nodeTop : Digest :=
  ⟨[171, 150, 118, 214, 172, 81, 145, 203, 237, 253, 223, 194, 171, 168, 53, 157, 84, 98, 169, 132, 65, 115, 132, 42,
    29, 187, 191, 121, 195, 148, 74, 2], rfl⟩

def proofRoot : Digest :=
  ⟨[50, 98, 134, 234, 65, 21, 34, 58, 10, 2, 150, 65, 60, 199, 145, 169, 52, 173, 202, 157, 166, 184, 45, 14,
    46, 49, 124, 77, 64, 9, 94, 218], rfl⟩

def proofHashes : List Digest := [Digest.replicate 1, Digest.replicate 2, Digest.replicate 3]

def proofBlake3 (x : Bytes) : Digest :=
  if x = inputBytes (.leaf (Digest.replicate 1)) then leafOne
  else if x = inputBytes (.leaf (Digest.replicate 2)) then leafTwo
  else if x = inputBytes (.leaf (Digest.replicate 3)) then leafThree
  else if x = inputBytes (.node leafOne leafTwo) then nodeLow
  else if x = inputBytes (.node nodeLow leafThree) then nodeTop
  else proofRoot

/-- **The index of a proof is not checked**: the honest proof of the first of three records is accepted as one of the
second, and nothing collides. -/
theorem index_is_not_checked : ∃ honest, buildInclusionProof proofBlake3 proofHashes 0 = some honest ∧
    CollisionFree proofBlake3 (hashedForRoot proofBlake3 proofHashes ++
      hashedForProof proofBlake3 (Digest.replicate 1) { honest with leafIndex := 1 }) ∧
    verifyInclusionProof proofBlake3 (Digest.replicate 1) { honest with leafIndex := 1 }
      (rootOfRecordHashes proofBlake3 proofHashes) = true ∧
    ¬Sound proofHashes (Digest.replicate 1) { honest with leafIndex := 1 } := by
  refine ⟨{ leafIndex := 0, leafCount := 3, path := [⟨leafTwo, false⟩, ⟨leafThree, false⟩] }, by decide +kernel,
    by decide +kernel, by decide +kernel, fun h => ?_⟩
  have hother : some (Digest.replicate 2) = some (Digest.replicate 1) := h.2.2
  exact absurd hother (by decide)

/-- The proof of the last record; it is promoted once. -/
def promotedProof : InclusionProof := { leafIndex := 2, leafCount := 3, path := [⟨nodeLow, true⟩] }

theorem stream_agrees_with_proofs_sample : proofHashes.length = 3 ∧
    (proofHashes.foldl (MerkleAccumulatorV1.pushRecordHash proofBlake3) .new).finalize proofBlake3
      = walkedRoot proofBlake3 proofHashes 2 ∧
    ∃ p, buildInclusionProof proofBlake3 proofHashes 2 = some p ∧ verifyInclusionProof proofBlake3 (Digest.replicate 3) p
      ((proofHashes.foldl (MerkleAccumulatorV1.pushRecordHash proofBlake3) .new).finalize proofBlake3) = true := by
  obtain ⟨hroot, hproofs⟩ := @stream_agrees_with_proofs proofBlake3 proofHashes (by decide)
  exact ⟨rfl, hroot 2, hproofs 2 _ rfl⟩

set_option maxRecDepth 20000 in
theorem inclusion_sound_iff_sample : proofBlake3 (rootBytes 3 nodeTop) = proofRoot ∧
    verifyInclusionProof proofBlake3 (Digest.replicate 3) promotedProof (rootOfRecordHashes proofBlake3 proofHashes) = true ∧
    Sound proofHashes (Digest.replicate 3) promotedProof := by
  have hfree : CollisionFree proofBlake3
      (hashedForRoot proofBlake3 proofHashes ++ hashedForProof proofBlake3 (Digest.replicate 3) promotedProof) := by
    decide +kernel
  have hverify : verifyInclusionProof proofBlake3 (Digest.replicate 3) promotedProof
      (rootOfRecordHashes proofBlake3 proofHashes) = true := by decide +kernel
  refine ⟨by decide +kernel, hverify, (inclusion_sound_iff (by decide) (by decide) hfree).2 ?_ hverify⟩
  intro p honest _ _ _ hget
  have hother : ∀ q < 2, proofHashes[q]? ≠ some (Digest.replicate 3) := by decide
  have hlt : p < 3 := (List.getElem?_eq_some_iff.1 hget).1
  have hlow : ¬p < 2 := fun h => hother p h hget
  have hp : p = 2 := by omega
  rw [hp]
  rfl

end V6
end Heraclitus
