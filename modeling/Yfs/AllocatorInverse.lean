import Yfs.AllocatorRuns
import Mathlib.Data.Finset.Dedup
import Mathlib.Order.Lattice.Nat

/-!
# `free_block` undoes `alloc_block`

`alloc_block` finds block, byte and bit by counting along its scan, and
`free_block` computes them from the id.  Both address the same bit, whatever the
bitmap holds: freeing the id just returned restores the disk, and freeing a set
of ids clears their bits and no others, in every order.
-/

namespace Yfs

/-- The ids `bitmap_block * BPB + bit` of the clear bits of the bitmap blocks 2
to 9. -/
def Disk.clearIds (disk : Disk) : Set Nat :=
  {id | ∃ block bit, 2 ≤ block ∧ block ≤ 9 ∧ bit < bpb ∧
    id = block * bpb + bit ∧ (disk.block block).bit bit = false}

theorem Disk.mem_clearIds {disk : Disk} {id : Nat} :
    id ∈ disk.clearIds ↔
      firstId ≤ id ∧ id < lastId ∧ disk.idBit id = false := by
  constructor
  · rintro ⟨block, bit, low, high, bitLt, rfl, clear⟩
    rw [disk.idBit_mul_add block bitLt]
    simp only [bpb, blockSize, firstId, lastId] at bitLt ⊢
    exact ⟨by omega, by omega, clear⟩
  · rintro ⟨low, high, clear⟩
    refine ⟨id / bpb, id % bpb, ?_, ?_, Nat.mod_lt _ (by decide), ?_, clear⟩
    · exact (Nat.le_div_iff_mul_le (by decide)).mpr low
    · exact Nat.le_of_lt_succ (BlockManager.div_bpb_lt high)
    · rw [Nat.mul_comm]
      exact (Nat.div_add_mod id bpb).symm

namespace BlockManager

/-- `alloc_block` returns `id` on some bitmap with a clear bit.  On a full bitmap
it returns `-1`, which is no id. -/
def HandsOut (id : Nat) : Prop :=
  ∃ bm after : BlockManager, bm.disk.clearIds.Nonempty ∧
    bm.allocBlock = .ok (id, after)

def freeAll (bm : BlockManager) (ids : List Nat) : Except Fault BlockManager :=
  ids.foldlM freeBlock bm

/-- `alloc_block` is first fit on every bitmap. -/
theorem allocBlock_of_isLeast (bm : BlockManager) {id : Nat}
    (least : IsLeast bm.disk.clearIds id) :
    bm.allocBlock = .ok (id, bm.allocated id) := by
  rcases Disk.mem_clearIds.mp least.1 with ⟨low, high, clear⟩
  apply allocFrom_range' bm high clear 8 2 low high
  intro other otherLow otherLt
  by_contra otherClear
  have member : other ∈ bm.disk.clearIds :=
    Disk.mem_clearIds.mpr
      ⟨otherLow, lt_trans otherLt high, Bool.eq_false_of_not_eq_true otherClear⟩
  exact absurd (least.2 member) (Nat.not_le.mpr otherLt)

theorem exists_allocBlock (bm : BlockManager)
    (someClear : bm.disk.clearIds.Nonempty) :
    ∃ id, IsLeast bm.disk.clearIds id ∧
      bm.allocBlock = .ok (id, bm.allocated id) := by
  have least : IsLeast bm.disk.clearIds (sInf bm.disk.clearIds) :=
    ⟨Nat.sInf_mem someClear, fun _ member => Nat.sInf_le member⟩
  exact ⟨_, least, bm.allocBlock_of_isLeast least⟩

theorem handsOut_iff {id : Nat} :
    HandsOut id ↔ firstId ≤ id ∧ id < lastId := by
  constructor
  · rintro ⟨bm, after, someClear, returns⟩
    obtain ⟨least, isLeast, result⟩ := bm.exists_allocBlock someClear
    rw [result] at returns
    cases returns
    rcases Disk.mem_clearIds.mp isLeast.1 with ⟨low, high, -⟩
    exact ⟨low, high⟩
  · rintro ⟨low, high⟩
    -- all ids below `id` are taken first
    obtain ⟨bm, run⟩ := AllocatorRun.exists_allocated (id - firstId) (by omega)
    have upTo : firstId + (id - firstId) = id := by omega
    rw [upTo] at run
    have marks := run.invariant.1
    have returns := bm.allocBlock_of_isFirst marks (FirstFit.isFirst_Ico low high)
    refine ⟨bm, bm.allocated id, ⟨id, ?_⟩, returns⟩
    apply Disk.mem_clearIds.mpr
    refine ⟨low, high, Bool.eq_false_of_not_eq_true ?_⟩
    rw [marks id low high]
    simp

theorem bit_allocated_of_ne (bm : BlockManager) {id block bit : Nat}
    (high : id < lastId) (bitLt : bit < bpb) (different : block * bpb + bit ≠ id) :
    ((bm.allocated id).disk.block block).bit bit =
      (bm.disk.block block).bit bit := by
  rw [← Disk.idBit_mul_add _ block bitLt, ← Disk.idBit_mul_add _ block bitLt,
    bm.idBit_allocated high, decide_eq_false different, Bool.or_false]

/-- `free_block` on an id whose bit was clear before `alloc_block` returned it
restores every byte of the disk. -/
theorem disk_released_allocated (bm : BlockManager) {id : Nat}
    (high : id < lastId) (clear : bm.disk.idBit id = false) :
    ((bm.allocated id).released id).disk = bm.disk := by
  apply Disk.ext_idBit
  intro other
  rw [idBit_released _ high, idBit_allocated bm high]
  by_cases same : other = id
  · subst same
    simp [clear]
  · simp [same]

theorem freeAll_returns (bm : BlockManager) (ids : List Nat)
    (bounds : ∀ id ∈ ids, id < lastId) :
    ∃ after, bm.freeAll ids = .ok after ∧
      ∀ other, after.disk.idBit other =
        (bm.disk.idBit other && decide (other ∉ ids)) := by
  induction ids generalizing bm with
  | nil => exact ⟨bm, rfl, fun other => by simp⟩
  | cons id rest ih =>
      have high := bounds id List.mem_cons_self
      obtain ⟨after, returns, bits⟩ := ih (bm.released id)
        (fun other member => bounds other (List.mem_cons_of_mem id member))
      refine ⟨after, ?_, ?_⟩
      · rw [freeAll, List.foldlM_cons, bm.freeBlock_of_lt high]
        exact returns
      · intro other
        rw [bits other, idBit_released bm high, Bool.and_assoc]
        simp [not_or]

/-- The disk after freeing a set of ids does not depend on the order. -/
theorem freeAll_order (bm : BlockManager) (ids : Finset Nat)
    (bounds : ∀ id ∈ ids, id < lastId) :
    ∃ disk, ∀ order : List Nat, order.toFinset = ids →
      ∃ after, bm.freeAll order = .ok after ∧ after.disk = disk := by
  obtain ⟨reference, -, referenceBits⟩ := bm.freeAll_returns ids.toList
    (fun id member => bounds id (Finset.mem_toList.mp member))
  refine ⟨reference.disk, ?_⟩
  rintro order rfl
  obtain ⟨after, returns, bits⟩ := bm.freeAll_returns order
    (fun id member => bounds id (List.mem_toFinset.mpr member))
  refine ⟨after, returns, ?_⟩
  apply Disk.ext_idBit
  intro other
  rw [bits other, referenceBits other]
  simp

/-- Allocating and freeing address the same bit, whatever the bitmap holds.  The
bit is the lowest clear one and nothing else changes, freeing its id restores
the disk, no id shares its bit with another one, and ids freed in any order
leave one disk. -/
theorem freeBlock_inverts_allocBlock (bm : BlockManager) :
    (bm.disk.clearIds.Nonempty →
      ∃ id after last, bm.allocBlock = .ok (id, after) ∧
        IsLeast bm.disk.clearIds id ∧
        (after.disk.block (id / bpb)).bit (id % bpb) = true ∧
        (∀ block bit, bit < bpb → block * bpb + bit ≠ id →
          (after.disk.block block).bit bit = (bm.disk.block block).bit bit) ∧
        (∀ block, block ≠ id / bpb →
          after.disk.block block = bm.disk.block block) ∧
        after.freeBlock id = .ok last ∧ last.disk = bm.disk) ∧
    (∀ first second, HandsOut first → HandsOut second → first ≠ second →
      ∃ after, bm.freeBlock first = .ok after ∧
        (after.disk.block (second / bpb)).bit (second % bpb) =
          (bm.disk.block (second / bpb)).bit (second % bpb)) ∧
    ∀ ids : Finset Nat, (∀ id ∈ ids, HandsOut id) →
      ∃ disk, ∀ order : List Nat, order.toFinset = ids →
        ∃ after, bm.freeAll order = .ok after ∧ after.disk = disk := by
  refine ⟨?_, ?_, ?_⟩
  · intro someClear
    obtain ⟨id, isLeast, returns⟩ := bm.exists_allocBlock someClear
    rcases Disk.mem_clearIds.mp isLeast.1 with ⟨-, high, clear⟩
    have marked : (bm.allocated id).disk.idBit id = true := by
      rw [bm.idBit_allocated high, decide_eq_true rfl, Bool.or_true]
    refine ⟨id, bm.allocated id, (bm.allocated id).released id, returns, isLeast,
      marked, ?_, ?_, freeBlock_of_lt _ high, bm.disk_released_allocated high clear⟩
    · intro block bit bitLt different
      exact bm.bit_allocated_of_ne high bitLt different
    · intro block different
      exact Disk.block_put_of_ne _ _ (bitmapBlock_lt high) different
  · intro first second firstHandedOut _ different
    have high := (handsOut_iff.mp firstHandedOut).2
    have kept : (bm.released first).disk.idBit second = bm.disk.idBit second := by
      rw [bm.idBit_released high, decide_eq_true different.symm, Bool.and_true]
    exact ⟨bm.released first, bm.freeBlock_of_lt high, kept⟩
  · intro ids handedOut
    apply bm.freeAll_order ids
    intro id member
    exact (handsOut_iff.mp (handedOut id member)).2

/-- The first two ids of a freshly formatted disk. -/
theorem freeBlock_inverts_allocBlock_fresh :
    (∃ id after last, fresh.allocBlock = .ok (id, after) ∧
      IsLeast fresh.disk.clearIds id ∧ after.freeBlock id = .ok last ∧
      last.disk = fresh.disk) ∧
    (∃ after, fresh.freeBlock 8192 = .ok after ∧
      (after.disk.block (8193 / bpb)).bit (8193 % bpb) =
        (fresh.disk.block (8193 / bpb)).bit (8193 % bpb)) ∧
    ∃ first second, fresh.freeAll [8192, 8193] = .ok first ∧
      fresh.freeAll [8193, 8192] = .ok second ∧ first.disk = second.disk := by
  have someClear : fresh.disk.clearIds.Nonempty :=
    ⟨8192, Disk.mem_clearIds.mpr
      ⟨by decide, by decide, by simp [Disk.idBit, fresh]⟩⟩
  have firstOut : HandsOut 8192 := handsOut_iff.mpr (by decide)
  have secondOut : HandsOut 8193 := handsOut_iff.mpr (by decide)
  obtain ⟨inverse, separate, anyOrder⟩ := freeBlock_inverts_allocBlock fresh
  obtain ⟨id, after, last, returns, isLeast, -, -, -, frees, restored⟩ :=
    inverse someClear
  obtain ⟨disk, orders⟩ := anyOrder {8192, 8193} (by simp [firstOut, secondOut])
  obtain ⟨first, firstReturns, firstDisk⟩ := orders [8192, 8193] (by decide)
  obtain ⟨second, secondReturns, secondDisk⟩ := orders [8193, 8192] (by decide)
  exact ⟨⟨id, after, last, returns, isLeast, frees, restored⟩,
    separate 8192 8193 firstOut secondOut (by decide),
    ⟨first, second, firstReturns, secondReturns, firstDisk.trans secondDisk.symm⟩⟩

end BlockManager

end Yfs
