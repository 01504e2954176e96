import Yfs.BlockManager

/-!
# Inodes on the disk

One inode fills the first 424 bytes of its block, in the layout of `struct
inode` for a 32-bit-aligned little-endian target: the type in bytes 0 and 1, two
bytes of padding, then `size`, `atime`, `mtime`, `ctime` and the `NDIRECT + 1`
block ids as 32-bit words.  Assigning a `struct inode` through `ino_disk` copies
the members and leaves the rest of the block.
-/

namespace Yfs

def inodeNum : Nat := 1024

/-- Block containing inode `i`; `IPB` is 1. -/
def iblock (i : Nat) : Nat := blockNum / bpb + i / 1 + 3

def nDirect : Nat := 100

/-- `BLOCK_SIZE / sizeof(uint)`. -/
def nIndirect : Nat := blockSize / 4

def maxFile : Nat := nDirect + nIndirect

structure Inode where
  type : BitVec 16
  size : BitVec 32
  atime : BitVec 32
  mtime : BitVec 32
  ctime : BitVec 32
  blocks : Fin (nDirect + 1) → BitVec 32

namespace Block

/-- The 32-bit word at byte offset `offset`. -/
def word (block : Block) (offset : Nat) : BitVec 32 :=
  LittleEndian.ofBytes fun i => block.get (offset + i)

/-- Entry `i` of a block used as an array of block ids. -/
def blockId (block : Block) (i : Nat) : Nat :=
  (block.word (4 * i)).toNat

/-- `buf[i] = id` on a block used as an array of block ids. -/
def setBlockId (block : Block) (i : Nat) (id : Nat) : Block := fun index =>
  if 4 * i ≤ index.val ∧ index.val < 4 * i + 4 then
    LittleEndian.byteOf (BitVec.ofNat 32 id) (index.val - 4 * i)
  else block index

theorem get_eq (block : Block) {index : Nat} (inside : index < blockSize) :
    block.get index = block ⟨index, inside⟩ := by
  simp [get, Fin.ofNat, Nat.mod_eq_of_lt inside]

theorem blockId_setBlockId (block : Block) {i j id : Nat}
    (iLt : i < nIndirect) (jLt : j < nIndirect) (idLt : id < 2 ^ 32) :
    (block.setBlockId i id).blockId j =
      if j = i then id else block.blockId j := by
  have bytes : ∀ k < 4, (block.setBlockId i id).get (4 * j + k) =
      if j = i then LittleEndian.byteOf (BitVec.ofNat 32 id) k
      else block.get (4 * j + k) := by
    intro k kLt
    have inside : 4 * j + k < blockSize := by
      simp only [nIndirect, blockSize] at jLt ⊢
      omega
    rw [get_eq _ inside, get_eq _ inside, setBlockId]
    by_cases equal : j = i
    · subst equal
      simp [kLt]
    · have outside : ¬(4 * i ≤ 4 * j + k ∧ 4 * j + k < 4 * i + 4) := by omega
      simp [equal, outside]
  unfold blockId word
  rw [LittleEndian.ofBytes_congr bytes]
  by_cases equal : j = i
  · simp only [equal, if_true]
    rw [LittleEndian.ofBytes_byteOf, BitVec.toNat_ofNat, Nat.mod_eq_of_lt idLt]
  · simp only [equal, if_false]

end Block

namespace Inode

/-- `ino->blocks[i]`. -/
def block (inode : Inode) (i : Nat) : Nat :=
  (inode.blocks (Fin.ofNat _ i)).toNat

/-- `ino->blocks[i] = id`. -/
def setBlock (inode : Inode) (i : Nat) (id : Nat) : Inode :=
  { inode with
    blocks := Function.update inode.blocks (Fin.ofNat _ i) (BitVec.ofNat 32 id) }

theorem block_setBlock (inode : Inode) {i j id : Nat} (iLe : i ≤ nDirect)
    (jLe : j ≤ nDirect) (idLt : id < 2 ^ 32) :
    (inode.setBlock i id).block j = if j = i then id else inode.block j := by
  have iVal : i % (nDirect + 1) = i := Nat.mod_eq_of_lt (by omega)
  have jVal : j % (nDirect + 1) = j := Nat.mod_eq_of_lt (by omega)
  by_cases equal : j = i
  · have stored : (inode.setBlock i id).block i = (BitVec.ofNat 32 id).toNat :=
      congrArg BitVec.toNat (Function.update_self _ _ _)
    rw [equal, if_pos rfl, stored, BitVec.toNat_ofNat, Nat.mod_eq_of_lt idLt]
  · simp [block, setBlock, Fin.ext_iff, iVal, jVal, equal]

/-- The 32-bit members in the order of the struct. -/
def word (inode : Inode) : Nat → BitVec 32
  | 0 => inode.size
  | 1 => inode.atime
  | 2 => inode.mtime
  | 3 => inode.ctime
  | k + 4 => inode.blocks (Fin.ofNat (nDirect + 1) k)

/-- `*ino_disk = *ino` on a block buffer. -/
def store (inode : Inode) (buf : Block) : Block := fun index =>
  if index.val < 2 then inode.type.extractLsb' (8 * index.val) 8
  else if index.val < 4 then buf index
  else if index.val < 4 * (nDirect + 1) + 20 then
    LittleEndian.byteOf (inode.word ((index.val - 4) / 4)) ((index.val - 4) % 4)
  else buf index

/-- `*ino = *ino_disk` from a block buffer. -/
def load (buf : Block) : Inode where
  type := buf.get 1 ++ buf.get 0
  size := buf.word 4
  atime := buf.word 8
  mtime := buf.word 12
  ctime := buf.word 16
  blocks i := buf.word (20 + 4 * i.val)

theorem word_store (inode : Inode) (buf : Block) {k : Nat}
    (kLt : k < nDirect + 5) :
    (inode.store buf).word (4 + 4 * k) = inode.word k := by
  have bytes : ∀ i < 4, (inode.store buf).get (4 + 4 * k + i) =
      LittleEndian.byteOf (inode.word k) i := by
    intro i iLt
    have inside : 4 + 4 * k + i < blockSize := by
      simp only [nDirect, blockSize] at kLt ⊢
      omega
    have member : (4 + 4 * k + i - 4) / 4 = k := by omega
    have offset : (4 + 4 * k + i - 4) % 4 = i := by omega
    have afterType : ¬4 + 4 * k + i < 2 := by omega
    have afterPadding : ¬4 + 4 * k + i < 4 := by omega
    have before : 4 + 4 * k + i < 4 * (nDirect + 1) + 20 := by
      simp only [nDirect] at kLt ⊢
      omega
    rw [Block.get_eq _ inside]
    simp only [store, afterType, afterPadding, before, if_true, if_false,
      member, offset]
  unfold Block.word
  rw [LittleEndian.ofBytes_congr bytes, LittleEndian.ofBytes_byteOf]

theorem type_store (inode : Inode) (buf : Block) :
    (inode.store buf).get 1 ++ (inode.store buf).get 0 = inode.type := by
  rw [Block.get_eq _ (by decide : 1 < blockSize),
    Block.get_eq _ (by decide : 0 < blockSize)]
  apply BitVec.eq_of_getLsbD_eq
  intro index indexLt
  simp only [store, BitVec.getLsbD_append]
  by_cases low : index < 8
  · simp [low]
  · have high : index - 8 < 8 := by omega
    have sum : 8 + (index - 8) = index := by omega
    simp [low, high, sum]

/-- A stored inode is read back unchanged. -/
@[simp]
theorem load_store (inode : Inode) (buf : Block) :
    load (inode.store buf) = inode := by
  have blocks : (fun i : Fin (nDirect + 1) =>
      (inode.store buf).word (20 + 4 * i.val)) = inode.blocks := by
    funext i
    have offset : 20 + 4 * i.val = 4 + 4 * (i.val + 4) := by omega
    rw [offset, word_store inode buf (by have := i.isLt; omega)]
    simp [word]
  have size := word_store inode buf (k := 0) (by decide)
  have atime := word_store inode buf (k := 1) (by decide)
  have mtime := word_store inode buf (k := 2) (by decide)
  have ctime := word_store inode buf (k := 3) (by decide)
  simp only [word] at size atime mtime ctime
  unfold load
  rw [type_store, size, atime, mtime, ctime, blocks]

theorem word_load (buf : Block) {k : Nat} (kLt : k < nDirect + 5) :
    (load buf).word k = buf.word (4 + 4 * k) := by
  match k with
  | 0 => rfl
  | 1 => rfl
  | 2 => rfl
  | 3 => rfl
  | k + 4 =>
      have index : (Fin.ofNat (nDirect + 1) k).val = k :=
        Nat.mod_eq_of_lt (by omega)
      have offset : 20 + 4 * k = 4 + 4 * (k + 4) := by omega
      change buf.word (20 + 4 * (Fin.ofNat (nDirect + 1) k).val) = _
      rw [index, offset]

/-- Storing an inode with another access time over itself changes four bytes. -/
theorem store_accessed (buf : Block) (now : BitVec 32) {index : Nat}
    (inside : index < blockSize) (outside : index < 8 ∨ 12 ≤ index) :
    (store { load buf with atime := now } buf).get index = buf.get index := by
  rw [Block.get_eq _ inside, Block.get_eq _ inside]
  unfold store
  by_cases isType : index < 2
  · rw [if_pos isType]
    rcases (by omega : index = 0 ∨ index = 1) with rfl | rfl
    · apply BitVec.eq_of_getLsbD_eq
      intro bit bitLt
      change ((buf.get 1 ++ buf.get 0).extractLsb' (8 * 0) 8).getLsbD bit = _
      rw [BitVec.getLsbD_extractLsb', BitVec.getLsbD_append]
      simp [bitLt, Block.get_eq buf inside]
    · apply BitVec.eq_of_getLsbD_eq
      intro bit bitLt
      change ((buf.get 1 ++ buf.get 0).extractLsb' (8 * 1) 8).getLsbD bit = _
      rw [BitVec.getLsbD_extractLsb', BitVec.getLsbD_append]
      simp [bitLt, Block.get_eq buf inside]
  · rw [if_neg isType]
    by_cases isPadding : index < 4
    · rw [if_pos isPadding]
    · rw [if_neg isPadding]
      by_cases isWord : index < 4 * (nDirect + 1) + 20
      · rw [if_pos isWord]
        have member : (index - 4) / 4 < nDirect + 5 := by omega
        have notAtime : (index - 4) / 4 ≠ 1 := by omega
        have same : word { load buf with atime := now } ((index - 4) / 4) =
            (load buf).word ((index - 4) / 4) := by
          match (index - 4) / 4, notAtime with
          | 0, _ => rfl
          | 2, _ => rfl
          | 3, _ => rfl
          | k + 4, _ => rfl
        have position : 4 + 4 * ((index - 4) / 4) + (index - 4) % 4 = index := by omega
        rw [same, word_load buf member, Block.word,
          LittleEndian.byteOf_ofBytes _ (Nat.mod_lt _ (by decide)), position,
          Block.get_eq buf inside]
      · rw [if_neg isWord]

/-- The inode that `memset` fills with zeros. -/
def cleared : Inode where
  type := 0
  size := 0
  atime := 0
  mtime := 0
  ctime := 0
  blocks _ := 0

@[simp]
theorem load_zero : (load Block.zero).type = 0 := by
  simp [load]

end Inode

end Yfs
