import Yfs.BlockManager
import Yfs.Library.FirstFit

/-!
# What the block allocator does

The bitmap blocks 2 to 9 hold the bits of the ids 8192 to 40959, and on them
`alloc_block` is first fit: it returns the lowest id whose bit is clear.
`free_block` addresses the same bit of the same bitmap block.
-/

namespace Yfs

open FirstFit

/-- The lowest id `alloc_block` can return, `BBLOCK(0) * BPB`. -/
def firstId : Nat := 8192

/-- The end of the ids `alloc_block` can return. -/
def lastId : Nat := 40960

/-- A block is known by its bits. -/
theorem Block.ext_bit {first second : Block}
    (same : ∀ i < bpb, first.bit i = second.bit i) : first = second := by
  refine Block.ext_get fun index indexLt => BitVec.eq_of_getLsbD_eq fun bit bitLt => ?_
  have inside : 8 * index + bit < bpb := by
    simp only [bpb, blockSize] at indexLt ⊢
    omega
  have equal := same (8 * index + bit) inside
  have byteIndex : (8 * index + bit) / 8 = index := by omega
  have bitIndex : (8 * index + bit) % 8 = bit := by omega
  rwa [Block.bit_eq_getLsbD, Block.bit_eq_getLsbD, byteIndex, bitIndex] at equal

namespace Disk

/-- The bitmap bit of block `id`, where `alloc_block` and `free_block` keep it. -/
def idBit (disk : Disk) (id : Nat) : Bool :=
  (disk.block (id / bpb)).bit (id % bpb)

/-- The set bits of the bitmap blocks are exactly those of `used`. -/
def Marks (disk : Disk) (used : Finset Nat) : Prop :=
  ∀ id, firstId ≤ id → id < lastId → (disk.idBit id = true ↔ id ∈ used)

theorem marks_fresh : fresh.Marks ∅ := by
  intro id _ _
  simp [idBit]

theorem idBit_put (disk : Disk) {id : Nat} (buf : Block)
    (inside : id < blockNum) (other : Nat) :
    (disk.put id buf).idBit other =
      if other / bpb = id then buf.bit (other % bpb) else disk.idBit other := by
  unfold idBit
  rw [block_put disk buf inside]
  split <;> rfl

theorem idBit_mul_add (disk : Disk) (block : Nat) {bit : Nat}
    (bitLt : bit < bpb) :
    disk.idBit (block * bpb + bit) = (disk.block block).bit bit := by
  have quotient : (block * bpb + bit) / bpb = block := by
    simp only [bpb, blockSize] at bitLt ⊢
    omega
  have remainder : (block * bpb + bit) % bpb = bit := by
    simp only [bpb, blockSize] at bitLt ⊢
    omega
  rw [idBit, quotient, remainder]

/-- A disk is known by its bits. -/
theorem ext_idBit {first second : Disk}
    (same : ∀ id, first.idBit id = second.idBit id) : first = second := by
  funext block
  apply Block.ext_bit
  intro bit bitLt
  have equal := same (block.val * bpb + bit)
  rw [first.idBit_mul_add _ bitLt, second.idBit_mul_add _ bitLt] at equal
  simpa [Disk.block] using equal

/-- Writing a block outside the bitmap changes no bit of it. -/
theorem Marks.put {disk : Disk} {used : Finset Nat} (marks : disk.Marks used)
    {id : Nat} (buf : Block) (inside : id < blockNum) (outside : 10 ≤ id) :
    (disk.put id buf).Marks used := by
  intro other otherLow otherHigh
  have elsewhere : other / bpb ≠ id := by
    simp only [bpb, blockSize, lastId] at otherHigh ⊢
    omega
  rw [idBit_put disk buf inside, if_neg elsewhere]
  exact marks other otherLow otherHigh

end Disk

namespace BlockManager

theorem readBlock_of_lt (bm : BlockManager) {id : Nat} (inside : id < blockNum) :
    bm.readBlock id = .ok (bm.disk.block id) :=
  bm.disk.readBlock_of_lt inside

theorem writeBlock_of_lt (bm : BlockManager) {id : Nat} (buf : Block)
    (inside : id < blockNum) :
    bm.writeBlock id buf = .ok { bm with disk := bm.disk.put id buf } := by
  simp [writeBlock, bm.disk.writeBlock_of_lt buf inside]

theorem writeBlock_of_ge (bm : BlockManager) {id : Nat} (buf : Block)
    (outside : blockNum ≤ id) :
    bm.writeBlock id buf = .error .outOfDisk := by
  simp [writeBlock, bm.disk.writeBlock_of_ge buf outside]

/-- The block manager after `alloc_block` has returned `id`. -/
def allocated (bm : BlockManager) (id : Nat) : BlockManager where
  disk := bm.disk.put (id / bpb)
    ((bm.disk.block (id / bpb)).markBit (id % bpb))
  calls := bm.calls ++ [.alloc id]

/-- The block manager after `free_block(id)`. -/
def released (bm : BlockManager) (id : Nat) : BlockManager where
  disk := bm.disk.put (id / bpb)
    ((bm.disk.block (id / bpb)).unmarkBit (id % bpb))
  calls := bm.calls ++ [.free id (bm.disk.idBit id)]

theorem div_bpb_lt {id : Nat} (high : id < lastId) : id / bpb < 10 :=
  Nat.div_lt_of_lt_mul (show id < bpb * 10 from high)

theorem bitmapBlock_lt {id : Nat} (high : id < lastId) : id / bpb < blockNum :=
  lt_trans (div_bpb_lt high) (by decide)

/-- Scanning a bitmap block that has a clear bit. -/
theorem allocFrom_cons_some (bm : BlockManager) {bitmapId i : Nat}
    (rest : List Nat) (inside : bitmapId < blockNum) (iLt : i < bpb)
    (found : (bm.disk.block bitmapId).firstClear = some i) :
    bm.allocFrom (bitmapId :: rest) =
      .ok (bitmapId * bpb + i, bm.allocated (bitmapId * bpb + i)) := by
  have quotient : (bitmapId * bpb + i) / bpb = bitmapId := by
    simp only [bpb, blockSize] at iLt ⊢
    omega
  have remainder : (bitmapId * bpb + i) % bpb = i := by
    simp only [bpb, blockSize] at iLt ⊢
    omega
  simp only [allocFrom, allocIn, bm.readBlock_of_lt inside, bind, Except.bind,
    found, bm.writeBlock_of_lt _ inside, pure, Except.pure, allocated, quotient,
    remainder]

/-- Scanning a bitmap block without a clear bit. -/
theorem allocFrom_cons_none (bm : BlockManager) {bitmapId : Nat}
    (rest : List Nat) (inside : bitmapId < blockNum)
    (full : (bm.disk.block bitmapId).firstClear = none) :
    bm.allocFrom (bitmapId :: rest) = bm.allocFrom rest := by
  simp only [allocFrom, allocIn, bm.readBlock_of_lt inside, bind, Except.bind,
    full, pure, Except.pure]

theorem firstClear_eq_none (disk : Disk) {bitmapId : Nat}
    (set : ∀ bit < bpb, disk.idBit (bitmapId * bpb + bit) = true) :
    (disk.block bitmapId).firstClear = none := by
  rw [Block.firstClear, List.find?_range_eq_none]
  intro bit bitLt
  have bitSet := set bit bitLt
  rw [disk.idBit_mul_add bitmapId bitLt] at bitSet
  simp [bitSet]

theorem firstClear_eq_some (disk : Disk) {bitmapId bit : Nat} (bitLt : bit < bpb)
    (clear : disk.idBit (bitmapId * bpb + bit) = false)
    (set : ∀ lower < bit, disk.idBit (bitmapId * bpb + lower) = true) :
    (disk.block bitmapId).firstClear = some bit := by
  rw [Block.firstClear, List.find?_range_eq_some]
  rw [disk.idBit_mul_add bitmapId bitLt] at clear
  refine ⟨by simp [clear], List.mem_range.mpr bitLt, ?_⟩
  intro lower lowerLt
  have lowerSet := set lower lowerLt
  rw [disk.idBit_mul_add bitmapId (lt_trans lowerLt bitLt)] at lowerSet
  simp [lowerSet]

/-- The scan of `count` bitmap blocks from `start` returns the lowest id with a
clear bit. -/
theorem allocFrom_range' (bm : BlockManager) {id : Nat} (high : id < lastId)
    (clear : bm.disk.idBit id = false) (count start : Nat)
    (startLe : start * bpb ≤ id) (ltEnd : id < (start + count) * bpb)
    (least : ∀ other, start * bpb ≤ other → other < id →
      bm.disk.idBit other = true) :
    bm.allocFrom (List.range' start count) = .ok (id, bm.allocated id) := by
  induction count generalizing start with
  | zero =>
      rw [Nat.add_zero] at ltEnd
      omega
  | succ count ih =>
      have startLt : start < blockNum := by
        refine lt_of_le_of_lt ?_ (bitmapBlock_lt high)
        exact (Nat.le_div_iff_mul_le (by decide)).mpr startLe
      rw [List.range'_succ]
      by_cases here : id < start * bpb + bpb
      · have idEq : start * bpb + (id - start * bpb) = id := by omega
        have bitLt : id - start * bpb < bpb := by omega
        have found := firstClear_eq_some bm.disk bitLt (by rw [idEq]; exact clear)
          (fun lower lowerLt => least _ (by omega) (by omega))
        rw [allocFrom_cons_some bm _ startLt bitLt found, idEq]
      · have full := firstClear_eq_none bm.disk
          (fun bit bitLt => least (start * bpb + bit) (by omega) (by omega))
        rw [allocFrom_cons_none bm _ startLt full]
        have next : (start + 1) * bpb = start * bpb + bpb := Nat.succ_mul start bpb
        have total : start + (count + 1) = start + 1 + count := by omega
        rw [total] at ltEnd
        exact ih (start + 1) (by omega) (by omega)
          (fun other otherLow otherLt => least other (by omega) otherLt)

/-- The scan returns `-1` when every bit is set. -/
theorem allocFrom_full (bm : BlockManager) (count start : Nat)
    (startLe : start + count ≤ 10)
    (set : ∀ id, start * bpb ≤ id → id < (start + count) * bpb →
      bm.disk.idBit id = true) :
    bm.allocFrom (List.range' start count) =
      .ok (noBlock, { bm with calls := bm.calls ++ [.alloc noBlock] }) := by
  induction count generalizing start with
  | zero => rfl
  | succ count ih =>
      have startLt : start < blockNum := lt_of_lt_of_le (by omega : start < 10)
        (by decide)
      have next : (start + 1) * bpb = start * bpb + bpb := Nat.succ_mul start bpb
      have total : start + (count + 1) = start + 1 + count := by omega
      rw [total] at set
      have growing : (start + 1) * bpb ≤ (start + 1 + count) * bpb :=
        Nat.mul_le_mul_right _ (by omega)
      rw [List.range'_succ]
      have full := firstClear_eq_none bm.disk
        (fun bit bitLt => set (start * bpb + bit) (by omega) (by omega))
      rw [allocFrom_cons_none bm _ startLt full]
      exact ih (start + 1) (by omega)
        (fun id idLow idLt => set id (by omega) (by omega))

/-- `alloc_block` is first fit on the bits of the bitmap blocks. -/
theorem allocBlock_of_isFirst (bm : BlockManager) {used : Finset Nat} {id : Nat}
    (marks : bm.disk.Marks used) (first : IsFirst firstId lastId used id) :
    bm.allocBlock = .ok (id, bm.allocated id) := by
  have clear : bm.disk.idBit id = false := by
    rw [← Bool.not_eq_true, marks id first.low_le first.lt_high]
    exact first.free
  refine allocFrom_range' bm first.lt_high clear 8 2 first.low_le
    first.lt_high ?_
  intro other otherLow otherLt
  exact (marks other otherLow (lt_trans otherLt first.lt_high)).mpr
    (first.least other otherLow otherLt)

theorem allocBlock_of_full (bm : BlockManager) {used : Finset Nat}
    (marks : bm.disk.Marks used)
    (full : ∀ id, firstId ≤ id → id < lastId → id ∈ used) :
    bm.allocBlock =
      .ok (noBlock, { bm with calls := bm.calls ++ [.alloc noBlock] }) :=
  allocFrom_full bm 8 2 (by decide) fun id idLow idLt =>
    (marks id idLow idLt).mpr (full id idLow idLt)

/-- Either some id has a clear bit and the lowest one is returned, or none has
and `-1` is. -/
theorem allocBlock_cases (bm : BlockManager) {used : Finset Nat}
    (marks : bm.disk.Marks used) :
    (∃ id, IsFirst firstId lastId used id ∧
      bm.allocBlock = .ok (id, bm.allocated id)) ∨
    ((∀ id, firstId ≤ id → id < lastId → id ∈ used) ∧
      bm.allocBlock =
        .ok (noBlock, { bm with calls := bm.calls ++ [.alloc noBlock] })) := by
  by_cases full : ∀ id, firstId ≤ id → id < lastId → id ∈ used
  · exact Or.inr ⟨full, bm.allocBlock_of_full marks full⟩
  · simp only [not_forall] at full
    rcases full with ⟨number, low, high, free⟩
    obtain ⟨id, -, first⟩ := exists_isFirst low high free
    exact Or.inl ⟨id, first, bm.allocBlock_of_isFirst marks first⟩

theorem freeBlock_of_lt (bm : BlockManager) {id : Nat} (high : id < lastId) :
    bm.freeBlock id = .ok (bm.released id) := by
  have inside := bitmapBlock_lt high
  have sameBlock : bblock id - bblock 0 = id / bpb := by
    simp [bblock]
  simp only [freeBlock, sameBlock, bm.readBlock_of_lt inside, bind, Except.bind,
    bm.writeBlock_of_lt _ inside, pure, Except.pure, released, Disk.idBit]

theorem idBit_allocated (bm : BlockManager) {id other : Nat}
    (high : id < lastId) :
    (bm.allocated id).disk.idBit other =
      (bm.disk.idBit other || decide (other = id)) := by
  rw [allocated, Disk.idBit_put _ _ (bitmapBlock_lt high)]
  by_cases sameBlock : other / bpb = id / bpb
  · have sameBit : other % bpb = id % bpb ↔ other = id := by
      simp only [bpb, blockSize] at sameBlock ⊢
      omega
    rw [if_pos sameBlock, Block.bit_markBit _ (Nat.mod_lt _ (by decide))
      (Nat.mod_lt _ (by decide)), ← sameBlock, decide_eq_decide.mpr sameBit]
    rfl
  · have different : other ≠ id := fun same => sameBlock (by rw [same])
    simp [sameBlock, different]

theorem idBit_released (bm : BlockManager) {id other : Nat}
    (high : id < lastId) :
    (bm.released id).disk.idBit other =
      (bm.disk.idBit other && decide (other ≠ id)) := by
  rw [released, Disk.idBit_put _ _ (bitmapBlock_lt high)]
  by_cases sameBlock : other / bpb = id / bpb
  · have differentBit : other % bpb ≠ id % bpb ↔ other ≠ id := by
      simp only [bpb, blockSize] at sameBlock ⊢
      omega
    rw [if_pos sameBlock, Block.bit_unmarkBit _ (Nat.mod_lt _ (by decide))
      (Nat.mod_lt _ (by decide)), ← sameBlock,
      decide_eq_decide.mpr differentBit]
    rfl
  · have different : other ≠ id := fun same => sameBlock (by rw [same])
    simp [sameBlock, different]

theorem marks_allocated (bm : BlockManager) {used : Finset Nat} {id : Nat}
    (marks : bm.disk.Marks used) (high : id < lastId) :
    (bm.allocated id).disk.Marks (insert id used) := by
  intro other otherLow otherHigh
  rw [idBit_allocated bm high, Bool.or_eq_true, marks other otherLow otherHigh,
    decide_eq_true_eq, Finset.mem_insert, or_comm]

theorem marks_released (bm : BlockManager) {used : Finset Nat} {id : Nat}
    (marks : bm.disk.Marks used) (high : id < lastId) :
    (bm.released id).disk.Marks (used.erase id) := by
  intro other otherLow otherHigh
  rw [idBit_released bm high, Bool.and_eq_true, marks other otherLow otherHigh,
    decide_eq_true_eq, Finset.mem_erase, and_comm]

/-- The allocator writes bitmap blocks only. -/
theorem block_allocated (bm : BlockManager) {id other : Nat}
    (high : id < lastId) (outside : 10 ≤ other) :
    (bm.allocated id).disk.block other = bm.disk.block other := by
  have bitmapLt := div_bpb_lt high
  exact Disk.block_put_of_ne _ _ (bitmapBlock_lt high) (by omega)

theorem block_released (bm : BlockManager) {id other : Nat}
    (high : id < lastId) (outside : 10 ≤ other) :
    (bm.released id).disk.block other = bm.disk.block other := by
  have bitmapLt := div_bpb_lt high
  exact Disk.block_put_of_ne _ _ (bitmapBlock_lt high) (by omega)

end BlockManager

end Yfs
