import Yfs.Inode

/-!
# The inode layer

`inode_manager` keeps the inode table in the blocks `IBLOCK(1)` onwards and
reads, rewrites and removes whole files.  Its loops walk the block ids of an
inode by byte counts: `NDIRECT` direct blocks first, then the entries of an
indirect block.

What C++ leaves to the environment is an `Env`: the readings of `time(NULL)` in
order, and the contents of uninitialised memory, one object for each `malloc`
whose bytes are used before they are written.
-/

namespace Yfs

structure Env where
  clock : Nat → BitVec 32
  heap : Nat → Nat → Byte

/-- `struct attr` of the extent protocol. -/
structure Attr where
  type : BitVec 32
  atime : BitVec 32
  mtime : BitVec 32
  ctime : BitVec 32
  size : BitVec 32
  deriving DecidableEq, Repr

def Attr.zero : Attr := ⟨0, 0, 0, 0, 0⟩

/-- `extent_protocol::T_DIR`. -/
abbrev tDir : BitVec 32 := 1

/-- `extent_protocol::T_FILE`. -/
abbrev tFile : BitVec 32 := 2

/-- The inode manager with the block manager under it.  `inum` is the static
counter of `alloc_inode`; `ticks` and `mallocs` count the clock readings and
the uninitialised objects taken from the environment so far. -/
structure InodeManager where
  bm : BlockManager
  inum : Nat
  ticks : Nat
  mallocs : Nat

/-- `for (i = 0; done < bound && i < limit; i++, done += BLOCK_SIZE)`, the shape
of every block loop of the inode layer.  The first argument is the number of
iterations left before `i` reaches the limit. -/
def blockLoop {State : Type} (bound : Int)
    (body : Nat → Nat → State → Except Fault State) :
    Nat → Nat → Nat → State → Except Fault (Nat × State)
  | 0, _, done, state => .ok (done, state)
  | left + 1, i, done, state =>
      if (done : Int) < bound then do
        let after ← body i done state
        blockLoop bound body left (i + 1) (done + blockSize) after
      else .ok (done, state)

/-- The loops over an indirect block have no limit on `i`, so their body checks
the index: entry `NINDIRECT` lies outside the buffer. -/
def indirectEntry (buf : Block) (i : Nat) : Except Fault Nat :=
  if i < nIndirect then .ok (buf.blockId i) else .error .overrun

namespace InodeManager

def time (im : InodeManager) (env : Env) : BitVec 32 × InodeManager :=
  (env.clock im.ticks, { im with ticks := im.ticks + 1 })

def malloc (im : InodeManager) (env : Env) : (Nat → Byte) × InodeManager :=
  (env.heap im.mallocs, { im with mallocs := im.mallocs + 1 })

/-- The inode of `inum`, `none` for the `NULL` of a free or out-of-range one. -/
def getInode (im : InodeManager) (inum : Nat) : Except Fault (Option Inode) :=
  if inodeNum ≤ inum then .ok none
  else do
    let buf ← im.bm.readBlock (iblock inum)
    let ino := Inode.load buf
    return if ino.type = 0 then none else some ino

/-- `get_inode` where the caller dereferences the result at once. -/
def derefInode (im : InodeManager) (inum : Nat) : Except Fault Inode := do
  match ← im.getInode inum with
  | some ino => return ino
  | none => .error .nullInode

def putInode (im : InodeManager) (inum : Nat) (ino : Inode) :
    Except Fault InodeManager := do
  let buf ← im.bm.readBlock (iblock inum)
  let bm ← im.bm.writeBlock (iblock inum) (ino.store buf)
  return { im with bm := bm }

/-- Create a new file and return its inum. -/
def allocInode (im : InodeManager) (env : Env) (type : BitVec 32) :
    Except Fault (Nat × InodeManager) := do
  let im := { im with inum := im.inum + 1 }
  let (memory, im) := im.malloc env
  let (now, im) := im.time env
  let ino : Inode :=
    { type := type.setWidth 16
      size := 0
      atime := now
      mtime := now
      ctime := now
      -- `malloc` leaves the block ids as they are
      blocks := fun i =>
        LittleEndian.ofBytes fun k => memory (20 + 4 * i.val + k) }
  let im ← im.putInode im.inum ino
  return (im.inum, im)

def freeInode (im : InodeManager) (inum : Nat) : Except Fault InodeManager := do
  match ← im.getInode inum with
  | none => return im
  | some _ =>
      let buf ← im.bm.readBlock (iblock inum)
      let bm ← im.bm.writeBlock (iblock inum) (Inode.cleared.store buf)
      return { im with bm := bm }

/-- The body of the direct loop of `read_file`. -/
def readDirect (bm : BlockManager) (ino : Inode) (i _readSize : Nat)
    (buf : List Byte) : Except Fault (List Byte) := do
  let block ← bm.readBlock (ino.block i)
  return buf ++ block.bytes

/-- The body of its indirect loop. -/
def readIndirect (bm : BlockManager) (blockidBuf : Block) (i _readSize : Nat)
    (buf : List Byte) : Except Fault (List Byte) := do
  let id ← indirectEntry blockidBuf i
  let block ← bm.readBlock id
  return buf ++ block.bytes

/-- The loops of `read_file`: the bytes copied to the buffer. -/
def readBlocks (bm : BlockManager) (ino : Inode) (size : Int) :
    Except Fault (List Byte) := do
  let (readSize, buf) ← blockLoop size (readDirect bm ino) nDirect 0 0 []
  if (readSize : Int) < size then do
    let blockidBuf ← bm.readBlock (ino.block nDirect)
    let (_, buf) ← blockLoop size (readIndirect bm blockidBuf) (nIndirect + 1)
      0 readSize buf
    return buf
  else return buf

/-- Get all the data of a file: the buffer the blocks are copied to, and the
size. -/
def readFile (im : InodeManager) (env : Env) (inum : Nat) :
    Except Fault ((List Byte × Int) × InodeManager) := do
  let ino ← im.derefInode inum
  let size := ino.size.toInt
  let buf ← readBlocks im.bm ino size
  let (now, im) := im.time env
  let im ← im.putInode inum { ino with atime := now }
  return ((buf, size), im)

/-- The loops that free the blocks of an inode, as `write_file` and
`remove_file` both have them, up to the type of the byte count they compare
with. -/
def releaseBlocks (bm : BlockManager) (ino : Inode) (size : Int) :
    Except Fault BlockManager := do
  let (freeSize, bm) ← blockLoop size
    (fun i _ bm => bm.freeBlock (ino.block i))
    nDirect 0 0 bm
  if (freeSize : Int) < size then do
    let id := ino.block nDirect
    let blockidBuf ← bm.readBlock id
    let (_, bm) ← blockLoop size
      (fun i _ bm => do
        let id ← indirectEntry blockidBuf i
        bm.freeBlock id) (nIndirect + 1) 0 freeSize bm
    bm.freeBlock id
  else return bm

/-- `BLOCK_SIZE` bytes of the caller's buffer from `offset`. -/
def bufferBlock (buf : Nat → Byte) (offset : Nat) : Block :=
  fun index => buf (offset + index.val)

/-- The body of the direct loop of `write_file`. -/
def writeDirect (buf : Nat → Byte) (i written : Nat)
    (state : BlockManager × Inode) : Except Fault (BlockManager × Inode) := do
  let (id, bm) ← state.1.allocBlock
  let ino := state.2.setBlock i id
  let bm ← bm.writeBlock id (bufferBlock buf written)
  return (bm, ino)

/-- The body of its indirect loop. -/
def writeIndirect (buf : Nat → Byte) (i written : Nat)
    (state : BlockManager × Block) : Except Fault (BlockManager × Block) := do
  let (indirectId, bm) ← state.1.allocBlock
  if i < nIndirect then do
    let blockidBuf := state.2.setBlockId i indirectId
    let bm ← bm.writeBlock indirectId (bufferBlock buf written)
    return (bm, blockidBuf)
  else .error .overrun

/-- The indirect part of `write_file`; `memory` is what `malloc` returns for the
block of pointers. -/
def writeIndirectBlocks (bm : BlockManager) (ino : Inode) (buf : Nat → Byte)
    (size : Int) (written : Nat) (memory : Nat → Byte) :
    Except Fault (BlockManager × Inode) := do
  let (id, bm) ← bm.allocBlock
  let ino := ino.setBlock nDirect id
  let (_, bm, blockidBuf) ← blockLoop size (writeIndirect buf)
    (nIndirect + 1) 0 written (bm, fun index => memory index.val)
  let bm ← bm.writeBlock id blockidBuf
  return (bm, ino)

/-- Replace the content of a file by the `size` bytes at `buf`. -/
def writeFile (im : InodeManager) (env : Env) (inum : Nat) (buf : Nat → Byte)
    (size : Int) : Except Fault InodeManager := do
  let ino ← im.derefInode inum
  -- `free_size < ino->size` compares unsigned
  let bm ← releaseBlocks im.bm ino ino.size.toNat
  let (writtenSize, bm, ino) ←
    blockLoop size (writeDirect buf) nDirect 0 0 (bm, ino)
  let (im, ino) ←
    if (writtenSize : Int) < size then do
      let (memory, im) := im.malloc env
      let (bm, ino) ← writeIndirectBlocks bm ino buf size writtenSize memory
      pure ({ im with bm := bm }, ino)
    else pure ({ im with bm := bm }, ino)
  let (now, im) := im.time env
  im.putInode inum
    { ino with size := BitVec.ofInt 32 size, mtime := now, ctime := now }

def getattr (im : InodeManager) (inum : Nat) (a : Attr) : Except Fault Attr := do
  match ← im.getInode inum with
  | some ino =>
      return { type := ino.type.signExtend 32
               atime := ino.atime
               mtime := ino.mtime
               ctime := ino.ctime
               size := ino.size }
  | none => return a

def removeFile (im : InodeManager) (inum : Nat) : Except Fault InodeManager := do
  let ino ← im.derefInode inum
  let bm ← releaseBlocks im.bm ino ino.size.toInt
  { im with bm := bm }.freeInode inum

/-- The constructor, in a process whose static counter is still zero. -/
def init (env : Env) : Except Fault InodeManager := do
  let im : InodeManager :=
    { bm := BlockManager.fresh, inum := 0, ticks := 0, mallocs := 0 }
  let (rootDir, im) ← im.allocInode env tDir
  if rootDir = 1 then return im else .error .exited

end InodeManager

end Yfs
