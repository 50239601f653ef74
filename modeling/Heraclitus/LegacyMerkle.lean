import Heraclitus.Format
import Heraclitus.Lib.OddTree
/-!
# LegacyMerkle — what a v5 Merkle root binds (`heraclitus-log/src/lib.rs`)

The root says nothing of how many digests stand under it.  Two lists share a root exactly if they fill the same tree, where a
list without digests stands for the digest of all zeros; with the number of digests the root binds the list.
-/
namespace Heraclitus
namespace Legacy

variable (H : Hashes)

def nodeOf (left right : Digest) : Digest := H.blake3 (left.1 ++ right.1)

/-- The strings that `merkle_root` hashes. -/
def hashedForRoot (hashes : List Digest) : List Bytes :=
  (pairsBelow (nodeOf H) (height hashes) hashes).map (fun p => p.1.1 ++ p.2.1)

/-- No two of the strings have one digest. -/
def NoCollision (hash : Bytes → Digest) (strings : List Bytes) : Prop := ∀ x ∈ strings, ∀ y ∈ strings, hash x = hash y → x = y

instance (hash : Bytes → Digest) (strings : List Bytes) : Decidable (NoCollision hash strings) :=
  inferInstanceAs (Decidable (∀ x ∈ strings, ∀ y ∈ strings, hash x = hash y → x = y))

/-- The root of no digests is that of the zero digest. -/
def orZero (hashes : List Digest) : List Digest := if hashes = [] then [Digest.replicate 0] else hashes

variable {H} {hashes hashes' : List Digest}

theorem merkleLevel_eq : ∀ l : List Digest, merkleLevel H l = levelUp (nodeOf H) l
  | a :: b :: l => congrArg (List.cons (nodeOf H a b)) (merkleLevel_eq l)
  | [_] => rfl
  | [] => rfl

theorem levelsUp_merkleRootFrom : ∀ {fuel : Nat} {l : List Digest}, l.length ≤ fuel + 1 → l ≠ [] →
    levelsUp (nodeOf H) (height l) l = [merkleRootFrom H fuel l]
  | _, [], _, hne => absurd rfl hne
  | fuel, [a], _, _ => by
    cases fuel <;> rfl
  | 0, a :: b :: l, hfuel, _ => by
    rw [List.length_cons, List.length_cons] at hfuel
    omega
  | fuel + 1, a :: b :: l, hfuel, _ => by
    have htwo : 2 ≤ (a :: b :: l).length := Nat.le_add_left 2 l.length
    have hlength : (levelUp (nodeOf H) (a :: b :: l)).length = ((a :: b :: l).length + 1) / 2 := by
      rw [levelUp, List.length_map, length_neighbours]
    have hstep : merkleRootFrom H (fuel + 1) (a :: b :: l) = merkleRootFrom H fuel (merkleLevel H (a :: b :: l)) := rfl
    rw [height_levelUp htwo, hstep, merkleLevel_eq]
    exact levelsUp_merkleRootFrom (by omega) (List.ne_nil_of_length_pos (by omega))

theorem merkleRoot_orZero : merkleRoot H (orZero hashes) = merkleRoot H hashes := by
  unfold orZero
  split
  · rename_i hnil
    rw [hnil]
    rfl
  · rfl

theorem hashedForRoot_orZero : hashedForRoot H (orZero hashes) = hashedForRoot H hashes := by
  unfold orZero
  split
  · rename_i hnil
    rw [hnil]
    rfl
  · rfl

theorem orZero_ne_nil : orZero hashes ≠ [] := by
  unfold orZero
  split
  · exact List.cons_ne_nil _ _
  · assumption

theorem injOn_of_noCollision (h : NoCollision H.blake3 (hashedForRoot H hashes ++ hashedForRoot H hashes')) :
    Set.InjOn (fun p : Digest × Digest => nodeOf H p.1 p.2) {p | p ∈ pairsBelow (nodeOf H) (height hashes) hashes ∨
      p ∈ pairsBelow (nodeOf H) (height hashes') hashes'} := by
  have hmem : ∀ p : Digest × Digest, p ∈ pairsBelow (nodeOf H) (height hashes) hashes ∨
      p ∈ pairsBelow (nodeOf H) (height hashes') hashes' → p.1.1 ++ p.2.1 ∈ hashedForRoot H hashes ++ hashedForRoot H hashes' :=
    fun p hp => List.mem_append.2 (hp.imp (List.mem_map_of_mem) (List.mem_map_of_mem))
  intro p hp q hq heq
  obtain ⟨hleft, hright⟩ := List.append_inj (h _ (hmem p hp) _ (hmem q hq) heq) (p.1.2.trans q.1.2.symm)
  exact Prod.ext (Subtype.ext hleft) (Subtype.ext hright)

/-- **When two lists have one root.** -/
theorem merkleRoot_eq_iff (h : NoCollision H.blake3 (hashedForRoot H hashes ++ hashedForRoot H hashes')) :
    merkleRoot H hashes = merkleRoot H hashes' ↔ SameFilled (nodeOf H) (orZero hashes) (orZero hashes') := by
  have htop : ∀ l : List Digest, l ≠ [] → levelsUp (nodeOf H) (height l) l = [merkleRoot H l] := fun l hne =>
    levelsUp_merkleRootFrom (Nat.le_succ l.length) hne
  rw [← hashedForRoot_orZero, ← @hashedForRoot_orZero H hashes'] at h
  rw [← merkleRoot_orZero, ← @merkleRoot_orZero H hashes', ← top_eq_iff (injOn_of_noCollision h), htop _ orZero_ne_nil,
    htop _ orZero_ne_nil]
  exact ⟨fun h => congrArg (fun a => [a]) h, fun h => (List.cons.inj h).1⟩

/-- **With the number of digests the root binds them.** -/
theorem eq_of_merkleRoot_eq (h : NoCollision H.blake3 (hashedForRoot H hashes ++ hashedForRoot H hashes'))
    (hlength : hashes.length = hashes'.length) (hroot : merkleRoot H hashes = merkleRoot H hashes') : hashes = hashes' := by
  by_cases hnil : hashes = []
  · rw [hnil] at hlength ⊢
    exact (List.length_eq_zero_iff.1 hlength.symm).symm
  · have hnil' : hashes' ≠ [] := List.ne_nil_of_length_pos (hlength ▸ List.length_pos_iff.2 hnil)
    have hfilled := (merkleRoot_eq_iff h).1 hroot
    rw [orZero, if_neg hnil, orZero, if_neg hnil'] at hfilled
    exact hfilled.eq hlength

end Legacy
end Heraclitus
