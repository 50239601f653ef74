import Heraclitus.Core
import Heraclitus.Lib.LittleEndian
/-!
# V6Merkle — the streaming root of a segment (`heraclitus-log/src/v6/merkle.rs`)

A binary counter of pending subtrees: level `i` holds at most one subtree of height `i`.  The leaf count goes into the
root, so lists of different lengths do not share one.  BLAKE3 is a parameter.
-/
namespace Heraclitus
namespace V6

def maxLevels : Nat := 64

def domainLeaf : Bytes := "HRKL6:MERKLE:LEAF".toList.map (fun c => UInt8.ofNat c.toNat)
def domainNode : Bytes := "HRKL6:MERKLE:NODE".toList.map (fun c => UInt8.ofNat c.toNat)
def domainRoot : Bytes := "HRKL6:MERKLE:ROOT".toList.map (fun c => UInt8.ofNat c.toNat)

variable (blake3 : Bytes → Digest)

def merkleLeaf (canonicalRecordHash : Digest) : Digest := blake3 (domainLeaf ++ canonicalRecordHash.1)

def merkleNode (left right : Digest) : Digest := blake3 (domainNode ++ left.1 ++ right.1)

def sealRoot (leafCount : Nat) (acc : Digest) : Digest := blake3 (domainRoot ++ leBytes 8 leafCount ++ acc.1)

structure MerkleAccumulatorV1 where
  levels : List (Option Digest)
  leafCount : Nat
  deriving DecidableEq

def MerkleAccumulatorV1.new : MerkleAccumulatorV1 := { levels := List.replicate maxLevels none, leafCount := 0 }

/-- The carry goes up to the first free level; below `2 ^ 64` leaves there is one. -/
def carryUp (carry : Digest) : List (Option Digest) → List (Option Digest)
  | [] => []
  | none :: levels => some carry :: levels
  | some pending :: levels => none :: carryUp (merkleNode blake3 pending carry) levels

def MerkleAccumulatorV1.pushLeaf (acc : MerkleAccumulatorV1) (leaf : Digest) : MerkleAccumulatorV1 :=
  { levels := carryUp blake3 leaf acc.levels, leafCount := acc.leafCount + 1 }

def MerkleAccumulatorV1.pushRecordHash (acc : MerkleAccumulatorV1) (canonicalRecordHash : Digest) : MerkleAccumulatorV1 :=
  acc.pushLeaf blake3 (merkleLeaf blake3 canonicalRecordHash)

/-- A pending subtree came before what is carried, so it is the left one. -/
def MerkleAccumulatorV1.finalize (acc : MerkleAccumulatorV1) : Digest :=
  let carry := acc.levels.reduceOption.foldl
    (fun carry node => some (carry.elim node (merkleNode blake3 node))) none
  sealRoot blake3 acc.leafCount (carry.getD (Digest.replicate 0))

def rootOfRecordHashes (hashes : List Digest) : Digest :=
  (hashes.foldl (MerkleAccumulatorV1.pushRecordHash blake3) .new).finalize blake3

end V6
end Heraclitus
