import Yfs.Ownership

/-!
# Uninitialised memory

The heap of the environment reaches the disk in three places: the unused block
ids of a new inode, the unused entries of an indirect block, and the end of the
last block of a file.  Two executions of one run that differ only in the heap
stand for the same layout, so they reply alike, call the allocator alike and
leave the same bitmap.
-/

namespace Yfs

open ClientServer

/-- Two disks that mark the same ids have the same bitmap blocks. -/
theorem Disk.Marks.block_eq {first second : Disk} {used : Finset Nat}
    (firstMarks : first.Marks used) (secondMarks : second.Marks used) {block : Nat}
    (low : bblock 0 ≤ block) (high : block ≤ bblock (blockNum - 1)) :
    first.block block = second.block block := by
  refine Block.ext_bit fun bit bitLt => ?_
  have idLow : firstId ≤ block * bpb + bit := by
    simp only [bblock, firstId, bpb, blockSize] at low ⊢
    omega
  have idHigh : block * bpb + bit < lastId := by
    simp only [bblock, lastId, blockNum, diskSize, bpb, blockSize] at high bitLt ⊢
    omega
  have same : first.idBit (block * bpb + bit) = second.idBit (block * bpb + bit) := by
    rw [Bool.eq_iff_iff, firstMarks _ idLow idHigh, secondMarks _ idLow idHigh]
  rwa [Disk.idBit_mul_add _ _ bitLt, Disk.idBit_mul_add _ _ bitLt] at same

/-- Executions of a run within the limits of the disk, whatever types it asks for, whose
environments agree on the clock give the same replies, make the same allocator calls in
the same order, and end with the same bitmap blocks, whatever uninitialised memory
holds. -/
theorem runs_independent_of_heap (clock : Nat → BitVec 32)
    (firstHeap secondHeap : Nat → Nat → Byte) (requests : List ExtentRequest)
    (history : List Exchange) (layout : Layout)
    (allowed : (session exchange requests).run (Layout.serve clock)
      (Layout.init clock) = .ok (history, layout)) :
    ∃ firstStart first secondStart second,
      InodeManager.init ⟨clock, firstHeap⟩ = .ok firstStart ∧
      InodeManager.init ⟨clock, secondHeap⟩ = .ok secondStart ∧
      (session exchange requests).run (ExtentServer.serve ⟨clock, firstHeap⟩)
        firstStart = .ok (history, first) ∧
      (session exchange requests).run (ExtentServer.serve ⟨clock, secondHeap⟩)
        secondStart = .ok (history, second) ∧
      first.bm.calls = second.bm.calls ∧
      ∀ block, bblock 0 ≤ block → block ≤ bblock (blockNum - 1) →
        first.bm.disk.block block = second.bm.disk.block block := by
  -- one layout stands for both executions
  obtain ⟨firstStart, first, firstStarts, firstRuns, firstRepresents⟩ :=
    server_returns ⟨clock, firstHeap⟩ allowed
  obtain ⟨secondStart, second, secondStarts, secondRuns, secondRepresents⟩ :=
    server_returns ⟨clock, secondHeap⟩ allowed
  refine ⟨firstStart, first, secondStart, second, firstStarts, secondStarts,
    firstRuns, secondRuns, firstRepresents.calls.trans secondRepresents.calls.symm, ?_⟩
  intro block low high
  exact firstRepresents.marks.block_eq secondRepresents.marks low high

/-- The heaps differ in every byte; a file with a partial last block is
rewritten. -/
theorem runs_independent_of_heap_rewrite :
    ∃ firstStart first secondStart second,
      InodeManager.init ⟨fun _ => 0, fun _ _ => 0⟩ = .ok firstStart ∧
      InodeManager.init ⟨fun _ => 0, fun _ _ => 255⟩ = .ok secondStart ∧
      (session exchange [.create tFile, .put 2 [7], .put 2 [8, 9], .get 2]).run
          (ExtentServer.serve ⟨fun _ => 0, fun _ _ => 0⟩) firstStart =
        .ok ([⟨.create tFile, (.OK, 2)⟩, ⟨.put 2 [7], .OK⟩, ⟨.put 2 [8, 9], .OK⟩,
          ⟨.get 2, (.OK, [8, 9])⟩], first) ∧
      (session exchange [.create tFile, .put 2 [7], .put 2 [8, 9], .get 2]).run
          (ExtentServer.serve ⟨fun _ => 0, fun _ _ => 255⟩) secondStart =
        .ok ([⟨.create tFile, (.OK, 2)⟩, ⟨.put 2 [7], .OK⟩, ⟨.put 2 [8, 9], .OK⟩,
          ⟨.get 2, (.OK, [8, 9])⟩], second) ∧
      first.bm.calls = second.bm.calls ∧
      ∀ block, bblock 0 ≤ block → block ≤ bblock (blockNum - 1) →
        first.bm.disk.block block = second.bm.disk.block block := by
  obtain ⟨layout, allowed, -⟩ := layout_returns (fun _ => 0)
    [.create tFile, .put 2 [7], .put 2 [8, 9], .get 2] rfl
  exact runs_independent_of_heap (fun _ => 0) (fun _ _ => 0) (fun _ _ => 255)
    [.create tFile, .put 2 [7], .put 2 [8, 9], .get 2] _ layout allowed

end Yfs
