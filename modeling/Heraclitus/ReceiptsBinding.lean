import Heraclitus.EncryptionRun
import Heraclitus.LegacyMerkle
import Heraclitus.Receipts
/-!
# ReceiptsBinding — which segments a compliance receipt vouches for (`heraclitus-compliance/src/commit.rs`, `lib.rs`)

The imprint of a receipt covers the watermark and the root over the segment roots.  The number of segments stands in the
receipt but not in the imprint, and nothing compares it, so a log whose segment roots fill the same tree is accepted too.
-/
namespace Heraclitus
namespace Compliance

open Legacy

/-- The segment roots that a commitment covers, in order. -/
def rootsAt (log : Log) (watermarkLsn : Nat) : List Digest := (coveredAt log watermarkLsn).filterMap (·.blake3Root)

/-- The string that an imprint is the SHA-256 of. -/
def imprintInput (lsn : Nat) (root : Digest) : Bytes := commitDomain ++ (leBytes 8 lsn).reverse ++ root.1

variable (C : Crates)

/-- Neither hash confuses strings that are hashed for the commitments of the two logs. -/
def NothingCollides (log log' : Log) (lsn : Nat) : Prop :=
  NoCollision C.blake3 (hashedForRoot C.toHashes (rootsAt log lsn) ++ hashedForRoot C.toHashes (rootsAt log' lsn)) ∧
    NoCollision C.sha256 [imprintInput lsn (merkleRoot C.toHashes (rootsAt log lsn)),
      imprintInput lsn (merkleRoot C.toHashes (rootsAt log' lsn))]

instance (log log' : Log) (lsn : Nat) : Decidable (NothingCollides C log log' lsn) := inferInstanceAs (Decidable (_ ∧ _))

/-- The segment roots of the two logs fill the same tree. -/
def SameTree (log log' : Log) (lsn : Nat) : Prop :=
  SameFilled (nodeOf C.toHashes) (orZero (rootsAt log lsn)) (orZero (rootsAt log' lsn))

variable {C} {log log' : Log} {r : LegalReceipt} {dir dir' : ReceiptsDir} {tsa : TsaClient} {nowUnixMs : Nat}
  {watermark : Option Nat}

theorem imprintAt_eq (log : Log) (wm : Nat) :
    imprintAt C log wm = C.sha256 (imprintInput wm (merkleRoot C.toHashes (rootsAt log wm))) := rfl

theorem toHex_inj {a b : Bytes} (h : toHex a = toHex b) : a = b := by
  have ha : Crypto.hexDecode (toHex a) = some a := Crypto.hexDecode_hexEncode a
  rw [h] at ha
  exact Option.some.inj (ha.symm.trans (Crypto.hexDecode_hexEncode b))

/-- What verifies is a log with the imprint that was stamped. -/
theorem imprintAt_eq_of_verifyReceipt (hanchor : anchor C log tsa nowUnixMs dir watermark = .ok (r, dir'))
    {d : ReceiptsDir} {v : ReceiptVerification} (h : verifyReceipt C log' d r = .ok v) :
    imprintAt C log' r.lsn = imprintAt C log r.lsn := by
  unfold verifyReceipt at h
  dsimp only at h
  split at h
  · cases h
  · rename_i hmatches
    have hissued : toHex (imprintAt C log r.lsn).1 = r.imprintHex := (anchor_ok hanchor).2
    exact Subtype.ext (toHex_inj ((not_not.1 hmatches).trans hissued.symm))

theorem readToken_cons {name : Str} {token : Bytes} {tokens : List (Str × Bytes)} {manifest : List LegalReceipt}
    (h : r.tokenFile = name) : readToken { tokens := (name, token) :: tokens, manifest := manifest } r = .ok token := by
  unfold readToken
  rw [h, List.lookup_cons_self]

/-- What an anchoring leaves: the token is on file, and it was checked if it is a development token. -/
theorem anchor_filed (h : anchor C log tsa nowUnixMs dir watermark = .ok (r, dir')) :
    r.segments = (rootsAt log r.lsn).length ∧ ∃ token, readToken dir' r = .ok token ∧
      (r.validationState = .developmentOnly → ∃ time, C.verifyDevToken token (imprintAt C log r.lsn) = .ok time) := by
  unfold anchor at h
  dsimp only at h
  split at h
  · cases h
  · rename_i token hstamp
    split at h
    · split at h
      · cases h
      · rename_i time hverified
        cases h
        exact ⟨rfl, token, readToken_cons rfl, fun _ => ⟨time, hverified⟩⟩
    · rename_i hstate
      cases h
      exact ⟨rfl, token, readToken_cons rfl, fun hdev => absurd hdev hstate⟩

/-- With the imprint that was stamped and the token on file, a log verifies. -/
theorem exists_verifyReceipt (hanchor : anchor C log tsa nowUnixMs dir watermark = .ok (r, dir'))
    (himprint : imprintAt C log' r.lsn = imprintAt C log r.lsn) : ∃ v, verifyReceipt C log' dir' r = .ok v := by
  have hissued : toHex (imprintAt C log' r.lsn).1 = r.imprintHex := by
    rw [himprint]
    exact (anchor_ok hanchor).2
  obtain ⟨-, token, htoken, hchecked⟩ := anchor_filed hanchor
  unfold verifyReceipt
  dsimp only
  rw [if_neg (not_not.2 hissued), htoken, himprint]
  dsimp only
  cases hstate : r.validationState with
  | developmentOnly =>
    obtain ⟨time, htime⟩ := hchecked hstate
    exact ⟨.developmentOnly time, congrArg (Except.map ReceiptVerification.developmentOnly) htime⟩
  | externalTokenUnvalidated => exact ⟨_, rfl⟩
  | legacyUnverified => exact ⟨_, rfl⟩

/-- An imprint stands for its root. -/
theorem imprintAt_eq_iff {lsn : Nat} (h : NothingCollides C log log' lsn) : imprintAt C log' lsn = imprintAt C log lsn ↔
    merkleRoot C.toHashes (rootsAt log lsn) = merkleRoot C.toHashes (rootsAt log' lsn) := by
  rw [imprintAt_eq, imprintAt_eq]
  constructor
  · intro heq
    have hinput := h.2 _ (List.mem_cons_of_mem _ List.mem_cons_self) _ List.mem_cons_self heq
    exact (Subtype.ext (List.append_cancel_left hinput)).symm
  · intro hroot
    rw [hroot]

/-- **When a receipt vouches for the segments**: what is accepted in place of the log has the same segment roots. -/
theorem verifyReceipt_binds_iff (hanchor : anchor C log tsa nowUnixMs dir watermark = .ok (r, dir'))
    (hfree : NothingCollides C log log' r.lsn) :
    (∀ d v, verifyReceipt C log' d r = .ok v → rootsAt log r.lsn = rootsAt log' r.lsn) ↔
      (SameTree C log log' r.lsn → rootsAt log r.lsn = rootsAt log' r.lsn) := by
  rw [SameTree, ← merkleRoot_eq_iff hfree.1, ← imprintAt_eq_iff hfree]
  constructor
  · intro hbinds himprint
    obtain ⟨v, hv⟩ := exists_verifyReceipt hanchor himprint
    exact hbinds dir' v hv
  · exact fun h d v hv => h (imprintAt_eq_of_verifyReceipt hanchor hv)

/-! ## One empty segment more -/

/-- A log with these sealed segments; one without records has the root of all zeros. -/
def sampleSealed (roots : List Digest) : Log :=
  let container (i : Nat) (root : Option Digest) : SegmentContainer :=
    { id := i, baseLsn := i, maxLsn := if root = some (Digest.replicate 0) then 0 else i, isSealed := root.isSome
      blake3Root := root, version := 5, entries := [] }
  { dir := .empty, catalog := { sealedSegments := roots.mapIdx (fun i root => container i (some root))
                                active := container roots.length none }
    active := { segmentId := roots.length, bytesWritten := headerLen, recordHashes := [], baseLsn := roots.length
                maxLsn := roots.length }
    committedLsn := roots.length }

/-- A hash that tells strings apart by their ends. -/
def endsHash (input : Bytes) : Digest := Digest.replicate (3 * input.headD 0 + input.getLastD 0 + 7)

def endsCrates : Crates := { sampleCrates with blake3 := endsHash, sha256 := endsHash }

def twoAndEmpty : List Digest := [Digest.replicate 1, Digest.replicate 2, Digest.replicate 0]

theorem roots_of_twoAndEmpty : rootsAt (sampleSealed twoAndEmpty) 1 = twoAndEmpty ∧
    rootsAt (sampleSealed (twoAndEmpty ++ [Digest.replicate 0])) 1 = twoAndEmpty ++ [Digest.replicate 0] := by decide +kernel

/-- **A receipt over three segments is accepted for four**: the odd last root was paired with itself. -/
theorem one_more_empty_segment : ∃ r dir',
    anchor endsCrates (sampleSealed twoAndEmpty) externalTsa 0 emptyDir none = .ok (r, dir') ∧
    NothingCollides endsCrates (sampleSealed twoAndEmpty) (sampleSealed (twoAndEmpty ++ [Digest.replicate 0])) r.lsn ∧
    (∃ v, verifyReceipt endsCrates (sampleSealed (twoAndEmpty ++ [Digest.replicate 0])) dir' r = .ok v) ∧
    rootsAt (sampleSealed twoAndEmpty) r.lsn ≠ rootsAt (sampleSealed (twoAndEmpty ++ [Digest.replicate 0])) r.lsn := by
  refine ⟨_, _, rfl, by decide +kernel, ⟨.commitmentOnly .externalTokenUnvalidated, by rfl⟩, ?_⟩
  show rootsAt (sampleSealed twoAndEmpty) 1 ≠ rootsAt (sampleSealed (twoAndEmpty ++ [Digest.replicate 0])) 1
  rw [roots_of_twoAndEmpty.1, roots_of_twoAndEmpty.2]
  decide

theorem receipt_of_twoAndEmpty : ∃ r dir',
    anchor endsCrates (sampleSealed twoAndEmpty) externalTsa 0 emptyDir none = .ok (r, dir') ∧
    NothingCollides endsCrates (sampleSealed twoAndEmpty) (sampleSealed [Digest.replicate 1]) r.lsn ∧
    ((∀ d v, verifyReceipt endsCrates (sampleSealed [Digest.replicate 1]) d r = .ok v →
        rootsAt (sampleSealed twoAndEmpty) r.lsn = rootsAt (sampleSealed [Digest.replicate 1]) r.lsn) ↔
      (SameTree endsCrates (sampleSealed twoAndEmpty) (sampleSealed [Digest.replicate 1]) r.lsn →
        rootsAt (sampleSealed twoAndEmpty) r.lsn = rootsAt (sampleSealed [Digest.replicate 1]) r.lsn)) := by
  have hfree : NothingCollides endsCrates (sampleSealed twoAndEmpty) (sampleSealed [Digest.replicate 1]) 1 := by decide +kernel
  have hanchor : ∃ x, anchor endsCrates (sampleSealed twoAndEmpty) externalTsa 0 emptyDir none = .ok x ∧ x.1.lsn = 1 :=
    ⟨_, rfl, by decide +kernel⟩
  obtain ⟨⟨r, dir'⟩, hanchor, hlsn⟩ := hanchor
  have hfree' : NothingCollides endsCrates (sampleSealed twoAndEmpty) (sampleSealed [Digest.replicate 1]) r.lsn := hlsn ▸ hfree
  exact ⟨r, dir', hanchor, hfree', verifyReceipt_binds_iff hanchor hfree'⟩

end Compliance
end Heraclitus
