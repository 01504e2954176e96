import Yfs.Bitmap
import Yfs.Inode

/-!
# Runs of the block allocator

Any sequence of `alloc_block` and `free_block` on a freshly formatted disk,
where `free_block` is called on ids handed out and not yet freed.  The bitmap
then holds exactly these ids, so the data area proper is handed out as long as
one of its blocks 8192 to 32767 is free.  After that the allocator goes on with
the bitmap blocks 8 and 9, whose ids lie outside the disk.
-/

namespace Yfs

open FirstFit

/-- `AllocatorRun bm held`: a run reaches `bm` with the ids `held` allocated. -/
inductive AllocatorRun : BlockManager → Finset Nat → Prop
  | fresh : AllocatorRun BlockManager.fresh ∅
  | alloc {bm after : BlockManager} {held : Finset Nat} {id : Nat}
      (run : AllocatorRun bm held)
      (returns : bm.allocBlock = .ok (id, after)) :
      AllocatorRun after (if id = noBlock then held else insert id held)
  | free {bm after : BlockManager} {held : Finset Nat} {id : Nat}
      (run : AllocatorRun bm held) (isHeld : id ∈ held)
      (returns : bm.freeBlock id = .ok after) :
      AllocatorRun after (held.erase id)

/-- `id` is a free block after the inode table and inside the disk, or `-1`
when there is none. -/
def HandsOutDataBlock (held : Finset Nat) (id : Nat) : Prop :=
  (iblock (inodeNum - 1) < id ∧ id < blockNum ∧ id ∉ held) ∨
    (id = noBlock ∧
      ∀ block, iblock (inodeNum - 1) < block → block < blockNum → block ∈ held)

theorem ne_noBlock {id : Nat} (high : id < lastId) : id ≠ noBlock := by
  simp only [lastId, noBlock] at high ⊢
  omega

namespace AllocatorRun

/-- In every run the set bits are the ids held, all of them bitmap ids. -/
theorem invariant {bm : BlockManager} {held : Finset Nat}
    (run : AllocatorRun bm held) :
    bm.disk.Marks held ∧ held ⊆ Finset.Ico firstId lastId := by
  induction run with
  | fresh => exact ⟨Disk.marks_fresh, Finset.empty_subset _⟩
  | @alloc bm after held id run returns ih =>
      rcases ih with ⟨marks, within⟩
      rcases bm.allocBlock_cases marks with
        ⟨first, isFirst, result⟩ | ⟨full, result⟩
      · rw [result] at returns
        cases returns
        rw [if_neg (ne_noBlock isFirst.lt_high)]
        refine ⟨bm.marks_allocated marks isFirst.lt_high, ?_⟩
        exact Finset.insert_subset
          (Finset.mem_Ico.mpr ⟨isFirst.low_le, isFirst.lt_high⟩) within
      · rw [result] at returns
        cases returns
        exact ⟨marks, within⟩
  | @free bm after held id run isHeld returns ih =>
      rcases ih with ⟨marks, within⟩
      have bounds := Finset.mem_Ico.mp (within isHeld)
      rw [bm.freeBlock_of_lt bounds.2] at returns
      cases returns
      exact ⟨bm.marks_released marks bounds.2,
        (Finset.erase_subset _ _).trans within⟩

/-- Allocating `count` times on the fresh disk takes the `count` lowest ids. -/
theorem exists_allocated (count : Nat) (fits : firstId + count ≤ lastId) :
    ∃ bm, AllocatorRun bm (Finset.Ico firstId (firstId + count)) := by
  induction count with
  | zero => exact ⟨_, by simpa using fresh⟩
  | succ count ih =>
      obtain ⟨bm, run⟩ := ih (by omega)
      have isFirst : IsFirst firstId lastId
          (Finset.Ico firstId (firstId + count)) (firstId + count) :=
        isFirst_Ico (Nat.le_add_right firstId count) (by omega)
      have next := run.alloc (bm.allocBlock_of_isFirst run.invariant.1 isFirst)
      have proper : firstId + count ≠ noBlock := ne_noBlock (by omega)
      have extended : insert (firstId + count)
          (Finset.Ico firstId (firstId + count)) =
            Finset.Ico firstId (firstId + (count + 1)) := by
        ext number
        simp only [Finset.mem_insert, Finset.mem_Ico]
        omega
      rw [if_neg proper, extended] at next
      exact ⟨_, next⟩

end AllocatorRun

/-- In every reachable bitmap state the next `alloc_block` returns, and it hands
out the data area correctly exactly if one of the blocks 8192 to 32767 is
free. -/
theorem allocBlock_handsOut_iff {bm : BlockManager} {held : Finset Nat}
    (run : AllocatorRun bm held) :
    ∃ id after, bm.allocBlock = .ok (id, after) ∧
      (HandsOutDataBlock held id ↔
        ∃ block, firstId ≤ block ∧ block < blockNum ∧ block ∉ held) := by
  obtain ⟨marks, within⟩ := run.invariant
  rcases bm.allocBlock_cases marks with
    ⟨id, isFirst, result⟩ | ⟨full, result⟩
  · refine ⟨id, _, result, ?_⟩
    have proper : id ≠ noBlock := ne_noBlock isFirst.lt_high
    constructor
    · rintro (⟨-, inside, free⟩ | ⟨isNone, -⟩)
      · exact ⟨id, isFirst.low_le, inside, free⟩
      · exact (proper isNone).elim
    · rintro ⟨block, low, inside, free⟩
      -- the lowest free id is no higher than `block`
      have le : id ≤ block := by
        by_contra greater
        exact free (isFirst.least block low (by omega))
      refine Or.inl ⟨?_, lt_of_le_of_lt le inside, isFirst.free⟩
      exact lt_of_lt_of_le (by decide) isFirst.low_le
  · refine ⟨noBlock, _, result, ?_⟩
    constructor
    · rintro (⟨-, inside, -⟩ | ⟨-, all⟩)
      · exact absurd inside (by decide)
      · -- block 1035 is never allocated
        have member := all 1035 (by decide) (by decide)
        have bounds := Finset.mem_Ico.mp (within member)
        exact absurd bounds.1 (by decide)
    · rintro ⟨block, low, inside, free⟩
      exact (free (full block low (lt_trans inside (by decide)))).elim

/-- Three blocks are allocated and the second is freed. -/
theorem allocBlock_handsOut_iff_reused :
    ∃ bm, AllocatorRun bm ((Finset.Ico firstId (firstId + 3)).erase (firstId + 1)) ∧
      ∃ id after, bm.allocBlock = .ok (id, after) ∧
        (HandsOutDataBlock ((Finset.Ico firstId (firstId + 3)).erase (firstId + 1)) id ↔
          ∃ block, firstId ≤ block ∧ block < blockNum ∧
            block ∉ (Finset.Ico firstId (firstId + 3)).erase (firstId + 1)) := by
  obtain ⟨bm, run⟩ := AllocatorRun.exists_allocated 3 (by decide)
  have isHeld : firstId + 1 ∈ Finset.Ico firstId (firstId + 3) :=
    Finset.mem_Ico.mpr ⟨by omega, by omega⟩
  have freed := run.free isHeld (bm.freeBlock_of_lt (by decide))
  exact ⟨_, freed, allocBlock_handsOut_iff freed⟩

/-- After 24576 calls of `alloc_block` the next one returns 32768, the first id
outside the disk. -/
theorem allocBlock_leaves_disk :
    ∃ bm after, AllocatorRun bm (Finset.Ico firstId (firstId + 24576)) ∧
      bm.allocBlock = .ok (blockNum, after) ∧
      ¬HandsOutDataBlock (Finset.Ico firstId (firstId + 24576)) blockNum := by
  obtain ⟨bm, run⟩ := AllocatorRun.exists_allocated 24576 (by decide)
  have isFirst : IsFirst firstId lastId
      (Finset.Ico firstId (firstId + 24576)) blockNum :=
    isFirst_Ico (by decide) (by decide)
  refine ⟨bm, _, run, bm.allocBlock_of_isFirst run.invariant.1 isFirst, ?_⟩
  rintro (⟨-, inside, -⟩ | ⟨isNone, -⟩)
  · exact absurd inside (by decide)
  · exact absurd isNone (by decide)

end Yfs
