import Mathlib.Algebra.GroupWithZero.Nat
import Mathlib.Logic.Function.Basic
import Mathlib.Tactic.TypeStar

/-!
# The disk layer

The disk is an array of `BLOCK_NUM` blocks of `BLOCK_SIZE` bytes.  `read_block`
and `write_block` copy whole blocks and do not check the block id, so an id at
or past `BLOCK_NUM` addresses memory outside the array.  The model makes that
access, and every other step that has no defined result, a `Fault`.
-/

namespace Yfs

/-- The ways in which a call has no defined result.  The last one is raised by
reference models only, never by a definition that embeds the source. -/
inductive Fault
  /-- The `NULL` returned by `get_inode` is dereferenced. -/
  | nullInode
  /-- The disk array is indexed at or past `BLOCK_NUM`. -/
  | outOfDisk
  /-- An indirect-pointer buffer is indexed at or past `NINDIRECT`. -/
  | overrun
  /-- `std::string::substr` throws `std::out_of_range`. -/
  | outOfRange
  /-- `std::string` throws `std::length_error` or `std::bad_alloc`. -/
  | lengthError
  /-- The process calls `exit`. -/
  | exited
  /-- A loop has used up its fuel. -/
  | diverged
  /-- The request exceeds the limits of a reference model. -/
  | beyondLimits
  deriving DecidableEq, Repr

/-- A computation that returns has a first part that returns. -/
theorem bind_ok {Error α β : Type} {first : Except Error α}
    {rest : α → Except Error β} {value : β} (returns : (first >>= rest) = .ok value) :
    ∃ read, first = .ok read ∧ rest read = .ok value := by
  cases first with
  | error error => cases returns
  | ok read => exact ⟨read, rfl, returns⟩

/-- A computation that stops has a part that stops. -/
theorem bind_stops {Error α β : Type} {first : Except Error α}
    {rest : α → Except Error β} {error : Error} (stops : (first >>= rest) = .error error) :
    first = .error error ∨ ∃ read, first = .ok read ∧ rest read = .error error := by
  cases first with
  | error other =>
      cases stops
      exact Or.inl rfl
  | ok read => exact Or.inr ⟨read, rfl, stops⟩

def diskSize : Nat := 1024 * 1024 * 16

def blockSize : Nat := 512

def blockNum : Nat := diskSize / blockSize

instance : NeZero blockSize := ⟨by decide⟩

abbrev Byte := BitVec 8

/-- A block buffer of `BLOCK_SIZE` chars. -/
abbrev Block := Fin blockSize → Byte

namespace Block

def zero : Block := fun _ => 0

/-- `buf[index]`; every index the source uses is below `BLOCK_SIZE`. -/
def get (block : Block) (index : Nat) : Byte :=
  block (Fin.ofNat blockSize index)

def set (block : Block) (index : Nat) (byte : Byte) : Block :=
  Function.update block (Fin.ofNat blockSize index) byte

theorem get_set (block : Block) {first second : Nat} (byte : Byte)
    (firstLt : first < blockSize) (secondLt : second < blockSize) :
    (block.set first byte).get second =
      if second = first then byte else block.get second := by
  have firstVal : first % blockSize = first := Nat.mod_eq_of_lt firstLt
  have secondVal : second % blockSize = second := Nat.mod_eq_of_lt secondLt
  simp [get, set, Function.update_apply, Fin.ext_iff, firstVal, secondVal]

theorem get_val (block : Block) (index : Fin blockSize) :
    block.get index.val = block index := by
  simp [get]

theorem ext_get {first second : Block}
    (same : ∀ index < blockSize, first.get index = second.get index) :
    first = second := by
  funext index
  rw [← get_val first, ← get_val second]
  exact same index.val index.isLt

@[simp]
theorem get_zero (index : Nat) : zero.get index = 0 :=
  rfl

/-- The bytes of a block in order. -/
def bytes (block : Block) : List Byte :=
  (List.range blockSize).map block.get

@[simp]
theorem length_bytes (block : Block) : block.bytes.length = blockSize := by
  simp [bytes]

end Block

/-- `unsigned char blocks[BLOCK_NUM][BLOCK_SIZE]`. -/
abbrev Disk := Fin blockNum → Block

namespace Disk

/-- The constructor zeroes the whole array. -/
def fresh : Disk := fun _ => Block.zero

def readBlock (disk : Disk) (id : Nat) : Except Fault Block :=
  if inside : id < blockNum then .ok (disk ⟨id, inside⟩)
  else .error .outOfDisk

def writeBlock (disk : Disk) (id : Nat) (buf : Block) : Except Fault Disk :=
  if inside : id < blockNum then .ok (Function.update disk ⟨id, inside⟩ buf)
  else .error .outOfDisk

/-- The content of block `id`, zero outside the disk. -/
def block (disk : Disk) (id : Nat) : Block :=
  if inside : id < blockNum then disk ⟨id, inside⟩ else Block.zero

/-- The disk with block `id` replaced. -/
def put (disk : Disk) (id : Nat) (buf : Block) : Disk :=
  if inside : id < blockNum then Function.update disk ⟨id, inside⟩ buf
  else disk

@[simp]
theorem block_fresh (id : Nat) : fresh.block id = Block.zero := by
  simp [Disk.block, fresh]

theorem readBlock_of_lt (disk : Disk) {id : Nat} (inside : id < blockNum) :
    disk.readBlock id = .ok (disk.block id) := by
  simp [readBlock, Disk.block, inside]

theorem writeBlock_of_lt (disk : Disk) {id : Nat} (buf : Block)
    (inside : id < blockNum) :
    disk.writeBlock id buf = .ok (disk.put id buf) := by
  simp [writeBlock, put, inside]

theorem writeBlock_of_ge (disk : Disk) {id : Nat} (buf : Block)
    (outside : blockNum ≤ id) :
    disk.writeBlock id buf = .error .outOfDisk := by
  simp [writeBlock, Nat.not_lt.mpr outside]

theorem block_put (disk : Disk) {id : Nat} (buf : Block) (inside : id < blockNum)
    (other : Nat) :
    (disk.put id buf).block other = if other = id then buf else disk.block other := by
  by_cases otherInside : other < blockNum
  · simp [Disk.block, put, inside, otherInside, Function.update_apply]
  · have different : other ≠ id := by
      rintro rfl
      exact otherInside inside
    simp [Disk.block, otherInside, different]

@[simp]
theorem block_put_self (disk : Disk) {id : Nat} (buf : Block)
    (inside : id < blockNum) : (disk.put id buf).block id = buf := by
  rw [block_put disk buf inside, if_pos rfl]

theorem block_put_of_ne (disk : Disk) {id other : Nat} (buf : Block)
    (inside : id < blockNum) (different : other ≠ id) :
    (disk.put id buf).block other = disk.block other := by
  rw [block_put disk buf inside, if_neg different]

end Disk

end Yfs
