import Yfs.Disk
import Yfs.Library.LittleEndian

/-!
# The block layer

The block manager keeps a bitmap of the allocated blocks on the disk, one bit a
block and `BPB` bits a bitmap block.  `alloc_block` scans the bitmap blocks
`BBLOCK(0)` to `BBLOCK(BLOCK_NUM - 1)` for the first clear bit and returns
`bitmap_id * BPB + i`; `free_block` clears the bit of an id in bitmap block
`BBLOCK(id) - BBLOCK(0)`.
-/

namespace Yfs

/-- Bitmap bits per block. -/
def bpb : Nat := blockSize * 8

/-- Block containing the bit for block `b`. -/
def bblock (b : Nat) : Nat := b / bpb + 2

/-- The value of a `blockid_t` that is assigned `-1`. -/
def noBlock : Nat := 2 ^ 32 - 1

/-- A call of the allocator, with the id it is about.  A call of `free_block`
also records whether the bit it clears was set. -/
inductive BlockCall
  | alloc (id : Nat)
  | free (id : Nat) (wasSet : Bool)
  deriving DecidableEq, Repr

/-- The block manager and the disk under it.  `calls` is no part of the source:
it is the history of its allocator calls, oldest first. -/
structure BlockManager where
  disk : Disk
  calls : List BlockCall

namespace Block

/-- `buf[i / 8] & (1 << i % 8)`. -/
def bit (buf : Block) (i : Nat) : Bool :=
  LittleEndian.testBit (buf.get (i / 8)) (i % 8)

/-- `buf[i / 8] |= (1 << i % 8)`. -/
def markBit (buf : Block) (i : Nat) : Block :=
  buf.set (i / 8) (LittleEndian.setBit (buf.get (i / 8)) (i % 8))

/-- `buf[i / 8] &= ~(1 << i % 8)`. -/
def unmarkBit (buf : Block) (i : Nat) : Block :=
  buf.set (i / 8) (LittleEndian.clearBit (buf.get (i / 8)) (i % 8))

/-- The inner loop of `alloc_block`: the first clear bit of a bitmap block. -/
def firstClear (buf : Block) : Option Nat :=
  (List.range bpb).find? fun i => !buf.bit i

theorem byteIndex_lt {i : Nat} (inside : i < bpb) : i / 8 < blockSize :=
  Nat.div_lt_of_lt_mul (by rw [Nat.mul_comm]; exact inside)

theorem bit_eq_getLsbD (buf : Block) (i : Nat) :
    buf.bit i = (buf.get (i / 8)).getLsbD (i % 8) :=
  LittleEndian.testBit_eq _ (Nat.mod_lt _ (by decide))

/-- Replacing the byte of bit `first` touches the eight bits of that byte. -/
theorem bit_set (buf : Block) (byte : Byte) {first second : Nat}
    (firstLt : first < bpb) (secondLt : second < bpb) :
    (buf.set (first / 8) byte).bit second =
      if second / 8 = first / 8 then byte.getLsbD (second % 8)
      else buf.bit second := by
  rw [bit_eq_getLsbD, get_set buf _ (byteIndex_lt firstLt)
    (byteIndex_lt secondLt), bit_eq_getLsbD]
  split <;> rfl

theorem bit_markBit (buf : Block) {first second : Nat}
    (firstLt : first < bpb) (secondLt : second < bpb) :
    (buf.markBit first).bit second =
      (buf.bit second || decide (second = first)) := by
  have bitLt : second % 8 < 8 := Nat.mod_lt _ (by decide)
  rw [markBit, bit_set buf _ firstLt secondLt,
    LittleEndian.getLsbD_setBit _ bitLt]
  by_cases sameByte : second / 8 = first / 8
  · have sameBit : second % 8 = first % 8 ↔ second = first := by omega
    rw [if_pos sameByte, bit_eq_getLsbD, sameByte, decide_eq_decide.mpr sameBit]
  · have different : second ≠ first := fun same => sameByte (by rw [same])
    simp [sameByte, different]

theorem bit_unmarkBit (buf : Block) {first second : Nat}
    (firstLt : first < bpb) (secondLt : second < bpb) :
    (buf.unmarkBit first).bit second =
      (buf.bit second && decide (second ≠ first)) := by
  have bitLt : second % 8 < 8 := Nat.mod_lt _ (by decide)
  rw [unmarkBit, bit_set buf _ firstLt secondLt,
    LittleEndian.getLsbD_clearBit _ bitLt]
  by_cases sameByte : second / 8 = first / 8
  · have differentBit : second % 8 ≠ first % 8 ↔ second ≠ first := by omega
    rw [if_pos sameByte, bit_eq_getLsbD, sameByte,
      decide_eq_decide.mpr differentBit]
  · have different : second ≠ first := fun same => sameByte (by rw [same])
    simp [sameByte, different]

@[simp]
theorem bit_zero (index : Nat) : zero.bit index = false := by
  simp [bit, LittleEndian.testBit]

end Block

namespace BlockManager

/-- The block manager of a freshly formatted disk. -/
def fresh : BlockManager where
  disk := Disk.fresh
  calls := []

def readBlock (manager : BlockManager) (id : Nat) : Except Fault Block :=
  manager.disk.readBlock id

def writeBlock (manager : BlockManager) (id : Nat) (buf : Block) :
    Except Fault BlockManager := do
  let disk ← manager.disk.writeBlock id buf
  return { manager with disk := disk }

/-- One iteration of the outer loop of `alloc_block`: the id, if bitmap block
`bitmapId` has a clear bit. -/
def allocIn (manager : BlockManager) (bitmapId : Nat) :
    Except Fault (Option (Nat × BlockManager)) := do
  let buf ← manager.readBlock bitmapId
  match buf.firstClear with
  | some i =>
      let after ← manager.writeBlock bitmapId (buf.markBit i)
      let id := bitmapId * bpb + i
      return some (id, { after with calls := after.calls ++ [.alloc id] })
  | none => return none

/-- The outer loop, over the bitmap blocks still to scan. -/
def allocFrom (manager : BlockManager) :
    List Nat → Except Fault (Nat × BlockManager)
  | [] => .ok (noBlock, { manager with
      calls := manager.calls ++ [.alloc noBlock] })
  | bitmapId :: rest => do
      match ← manager.allocIn bitmapId with
      | some allocated => return allocated
      | none => manager.allocFrom rest

/-- Allocate a free disk block. -/
def allocBlock (manager : BlockManager) : Except Fault (Nat × BlockManager) :=
  manager.allocFrom
    (List.range' (bblock 0) (bblock (blockNum - 1) + 1 - bblock 0))

def freeBlock (manager : BlockManager) (id : Nat) :
    Except Fault BlockManager := do
  let bitmapId := bblock id - bblock 0
  let buf ← manager.readBlock bitmapId
  let after ← manager.writeBlock bitmapId (buf.unmarkBit (id % bpb))
  return { after with calls := after.calls ++ [.free id (buf.bit (id % bpb))] }

end BlockManager

end Yfs
