import Heraclitus.Lib.Lookup
import Heraclitus.V6Packed
/-!
# V6Directory — the search over an accepted block directory (`heraclitus-log/src/v6/block_directory.rs`)

`decode` compares the first LSNs of neighbours that both have records; the search partitions on the last LSNs of all blocks.
What the search needs besides is `BlockDirectory.SearchableFor`.
-/
namespace Heraclitus
namespace V6

/-- `find_block_for_lsn`, over any `partition_point`. -/
def BlockDirectory.findBlockWith (point : (BlockDirectoryEntryV1 → Bool) → BlockDirectory → Nat) (entries : BlockDirectory)
    (lsn : Nat) : Option Nat := lookupWith point (fun e => decide (e.lastLsn < lsn)) (fun e => e.containsLsn lsn) entries

theorem BlockDirectory.findBlockForLsn_eq (entries : BlockDirectory) (lsn : Nat) :
    entries.findBlockForLsn lsn = entries.findBlockWith partitionPoint lsn := by
  unfold BlockDirectory.findBlockForLsn BlockDirectory.findBlockWith lookupWith
  dsimp only
  cases entries[partitionPoint (fun e => decide (e.lastLsn < lsn)) entries]? <;> rfl

/-- The lookup answers as a look at every entry would. -/
structure BlockDirectory.Finds (point : (BlockDirectoryEntryV1 → Bool) → BlockDirectory → Nat) (entries : BlockDirectory)
    (lsn : Nat) : Prop where
  found : (∃ e ∈ entries, e.containsLsn lsn = true) →
    ∃ i e, entries.findBlockWith point lsn = some i ∧ entries[i]? = some e ∧ e.containsLsn lsn = true
  missed : (∀ e ∈ entries, e.containsLsn lsn = false) → entries.findBlockWith point lsn = none

/-- The blocks that end below the LSN stand in front of all others, and what else does not contain it stands behind a block
that does. -/
def BlockDirectory.SearchableFor (entries : BlockDirectory) (lsn : Nat) : Prop :=
  Searchable (fun e => decide (e.lastLsn < lsn)) (fun e => e.containsLsn lsn) entries

theorem not_before_of_containsLsn {e : BlockDirectoryEntryV1} {lsn : Nat} (h : e.containsLsn lsn = true) :
    decide (e.lastLsn < lsn) = false := by
  unfold BlockDirectoryEntryV1.containsLsn at h
  exact decide_eq_false (Nat.not_lt.2 (of_decide_eq_true h).2.2)

/-- **When the lookup in a list of entries is exact**, for every search that keeps its promise. -/
theorem BlockDirectory.finds_iff (entries : BlockDirectory) (lsn : Nat) :
    (∀ point, IsPartitionPoint point → entries.Finds point lsn) ↔
      ((∃ e ∈ entries, e.containsLsn lsn = true) → entries.SearchableFor lsn) := by
  have hholds : ∀ e ∈ entries, e.containsLsn lsn = true → decide (e.lastLsn < lsn) = false := fun _ _ => not_before_of_containsLsn
  constructor
  · intro h hsome
    refine (lookupWith_isSome_iff hholds hsome).1 (fun point hpoint => ?_)
    obtain ⟨i, e, hi, -⟩ := (h point hpoint).found hsome
    exact Option.isSome_iff_exists.2 ⟨i, hi⟩
  · intro h point hpoint
    refine ⟨fun hsome => ?_, fun hnone => ?_⟩
    · obtain ⟨i, hi⟩ := Option.isSome_iff_exists.1 ((lookupWith_isSome_iff hholds hsome).2 (h hsome) point hpoint)
      obtain ⟨e, he, hcontains⟩ := holds_of_lookupWith hi
      exact ⟨i, e, hi, he, hcontains⟩
    · cases hi : entries.findBlockWith point lsn with
      | none => rfl
      | some i =>
        obtain ⟨e, he, hcontains⟩ := holds_of_lookupWith hi
        rw [hnone e (List.mem_of_getElem? he)] at hcontains
        cases hcontains

/-- **When an accepted directory supports its search**: for every byte string, count and LSN. -/
theorem findBlockForLsn_exact_iff (buf : Bytes) (count blocksRegionEnd lsn : Nat) :
    (∀ entries, BlockDirectory.decode buf count blocksRegionEnd = .ok entries →
      ∀ point, IsPartitionPoint point → entries.Finds point lsn) ↔
    ∀ entries, BlockDirectory.decode buf count blocksRegionEnd = .ok entries →
      (∃ e ∈ entries, e.containsLsn lsn = true) → entries.SearchableFor lsn :=
  forall₂_congr (fun entries _ => entries.finds_iff lsn)

/-- Two blocks, of which the first has no record but a last LSN. -/
def emptyBlockInFront : BlockDirectory := [
  { offset := 64, storedLen := 0, uncompressedLen := 0, recordCount := 0, flags := 0, firstLsn := 0, lastLsn := 100
    minHlc := 0, maxHlc := 0 },
  { offset := 64, storedLen := 10, uncompressedLen := 10, recordCount := 11, flags := 0, firstLsn := 0, lastLsn := 10
    minHlc := 1, maxHlc := 9 }]

theorem empty_block_hides_record :
    BlockDirectory.decode (BlockDirectory.encode emptyBlockInFront) 2 1000 = .ok emptyBlockInFront ∧
    (∃ e ∈ emptyBlockInFront, e.containsLsn 5 = true) ∧ emptyBlockInFront.findBlockForLsn 5 = none ∧
    ¬∀ point, IsPartitionPoint point → emptyBlockInFront.Finds point 5 := by
  have hsome : ∃ e ∈ emptyBlockInFront, e.containsLsn 5 = true := by decide
  refine ⟨by rfl, hsome, by decide, fun h => ?_⟩
  obtain ⟨i, _, hi, -⟩ := (h _ isPartitionPoint_partitionPoint).found hsome
  rw [← BlockDirectory.findBlockForLsn_eq, show emptyBlockInFront.findBlockForLsn 5 = none by decide] at hi
  cases hi

end V6
end Heraclitus
