import Yfs.Bitmap
import Yfs.ExtentServer

/-!
# Files and the blocks they own

A `Layout` is the content of the store without its representation: for each
live inode the attributes, the bytes, and the ids of the blocks that hold them,
and the set of allocated blocks.  Uninitialised memory has no place in it.

`Layout.serve` answers the extent requests on layouts.  It stops with
`beyondLimits` where a request exceeds what the disk can hold: the inode table,
the size of one file, or the blocks 8192 to 32767.
-/

namespace Yfs

open ClientServer FirstFit

/-- Data blocks of a file of `size` bytes. -/
def dataBlocks (size : Nat) : Nat :=
  (size + blockSize - 1) / blockSize

/-- Blocks of a file of `size` bytes, with the indirect block. -/
def blocksFor (size : Nat) : Nat :=
  dataBlocks size + if nDirect * blockSize < size then 1 else 0

structure FileLayout where
  type : BitVec 16
  atime : BitVec 32
  mtime : BitVec 32
  ctime : BitVec 32
  data : List Byte
  /-- The data blocks in file order. -/
  blocks : List Nat
  indirect : Option Nat
  type_ne : type ≠ 0
  fits : data.length ≤ maxFile * blockSize
  length_blocks : blocks.length = dataBlocks data.length
  isSome_indirect : indirect.isSome ↔ nDirect * blockSize < data.length

namespace FileLayout

/-- All blocks of the file, in the order in which they are freed. -/
def owned (file : FileLayout) : List Nat :=
  file.blocks ++ file.indirect.toList

theorem length_owned (file : FileLayout) :
    file.owned.length = blocksFor file.data.length := by
  rw [owned, List.length_append, file.length_blocks, blocksFor]
  have isSome := file.isSome_indirect
  cases value : file.indirect with
  | none =>
      rw [value] at isSome
      have small : ¬nDirect * blockSize < file.data.length := by simpa using isSome
      rw [if_neg small]
      rfl
  | some block =>
      rw [value] at isSome
      have large : nDirect * blockSize < file.data.length := by simpa using isSome
      rw [if_pos large]
      rfl

def attr (file : FileLayout) : Attr where
  type := file.type.signExtend 32
  atime := file.atime
  mtime := file.mtime
  ctime := file.ctime
  size := BitVec.ofNat 32 file.data.length

/-- A new, empty file. -/
def empty (type : BitVec 16) (now : BitVec 32) (type_ne : type ≠ 0) :
    FileLayout where
  type := type
  atime := now
  mtime := now
  ctime := now
  data := []
  blocks := []
  indirect := none
  type_ne := type_ne
  fits := Nat.zero_le _
  length_blocks := by simp [dataBlocks, blockSize]
  isSome_indirect := by simp

theorem nDirect_lt_dataBlocks (size : Nat) :
    nDirect < dataBlocks size ↔ nDirect * blockSize < size := by
  simp only [nDirect, dataBlocks, blockSize]
  omega

/-- The file rewritten with `data` on the blocks `ids`, the indirect block being
allocated after the direct ones. -/
def rewritten (file : FileLayout) (now : BitVec 32) (data : List Byte)
    (ids : List Nat) (fits : data.length ≤ maxFile * blockSize)
    (exact : ids.length = blocksFor data.length) : FileLayout where
  type := file.type
  atime := file.atime
  mtime := now
  ctime := now
  data := data
  blocks := ids.take nDirect ++ ids.drop (nDirect + 1)
  indirect := ids[nDirect]?
  type_ne := file.type_ne
  fits := fits
  length_blocks := by
    have threshold := nDirect_lt_dataBlocks data.length
    rw [List.length_append, List.length_take, List.length_drop, exact, blocksFor]
    split
    · omega
    · omega
  isSome_indirect := by
    have threshold := nDirect_lt_dataBlocks data.length
    have isSome : ids[nDirect]?.isSome ↔ nDirect < ids.length := by simp
    rw [isSome, exact, blocksFor]
    split
    · omega
    · omega

/-- The file with its access time set. -/
def accessed (file : FileLayout) (now : BitVec 32) : FileLayout :=
  { file with atime := now }

end FileLayout

structure Layout where
  /-- The number of inodes ever created. -/
  inum : Nat
  ticks : Nat
  files : Nat → Option FileLayout
  used : Finset Nat
  calls : List BlockCall

namespace Layout

/-- The blocks that stay allocated when those of `file` are freed. -/
def kept (layout : Layout) (file : FileLayout) : Finset Nat :=
  layout.used \ file.owned.toFinset

/-- No file at all. -/
def blank : Layout where
  inum := 0
  ticks := 0
  files := fun _ => none
  used := ∅
  calls := []

/-- The store as the constructor leaves it: an empty root directory. -/
def init (clock : Nat → BitVec 32) : Layout :=
  { blank with
    inum := 1
    ticks := 1
    files := Function.update blank.files 1
      (some (.empty (tDir.setWidth 16) (clock 0) (by decide))) }

def create (clock : Nat → BitVec 32) (layout : Layout) (type : BitVec 32) :
    Except Fault ((Status × ExtentId) × Layout) :=
  let id := layout.inum + 1
  if inodeNum ≤ id then .error .beyondLimits
  else .ok ((.OK, BitVec.ofNat 64 id),
    { layout with
      inum := id
      ticks := layout.ticks + 1
      files := Function.update layout.files id
        (if live : type.setWidth 16 ≠ 0 then
          some (.empty (type.setWidth 16) (clock layout.ticks) live)
        else none) })

def put (clock : Nat → BitVec 32) (layout : Layout) (id : ExtentId)
    (buf : List Byte) : Except Fault (Status × Layout) :=
  match layout.files (inumOf id) with
  | none => .error .nullInode
  | some file =>
      if fits : buf.length ≤ maxFile * blockSize then
        let free := freeList firstId blockNum (layout.kept file)
        if room : blocksFor buf.length ≤ free.length then
          let ids := free.take (blocksFor buf.length)
          .ok (.OK,
            { layout with
              ticks := layout.ticks + 1
              files := Function.update layout.files (inumOf id)
                (some (file.rewritten (clock layout.ticks) buf ids fits
                  (List.length_take_of_le room)))
              used := layout.kept file ∪ ids.toFinset
              calls := layout.calls ++ file.owned.map (.free · true) ++
                ids.map .alloc })
        else .error .beyondLimits
      else .error .beyondLimits

def get (clock : Nat → BitVec 32) (layout : Layout) (id : ExtentId) :
    Except Fault ((Status × List Byte) × Layout) :=
  match layout.files (inumOf id) with
  | none => .error .nullInode
  | some file => .ok ((.OK, file.data),
      { layout with
        ticks := layout.ticks + 1
        files := Function.update layout.files (inumOf id)
          (some (file.accessed (clock layout.ticks))) })

def getattr (layout : Layout) (id : ExtentId) :
    Except Fault ((Status × Attr) × Layout) :=
  .ok ((.OK, ((layout.files (inumOf id)).map FileLayout.attr).getD Attr.zero),
    layout)

def remove (layout : Layout) (id : ExtentId) :
    Except Fault (Status × Layout) :=
  match layout.files (inumOf id) with
  | none => .error .nullInode
  | some file => .ok (.OK,
      { layout with
        files := Function.update layout.files (inumOf id) none
        used := layout.kept file
        calls := layout.calls ++ file.owned.map (.free · true) })

def serve (clock : Nat → BitVec 32) :
    Server ExtentRequest ExtentReply Fault Layout
  | .create type, layout => layout.create clock type
  | .put id buf, layout => layout.put clock id buf
  | .get id, layout => layout.get clock id
  | .getattr id, layout => layout.getattr id
  | .remove id, layout => layout.remove id

section Answers

variable {clock : Nat → BitVec 32} {layout after : Layout} {id : ExtentId}

theorem create_ok {type : BitVec 32} {reply : Status × ExtentId}
    (served : layout.create clock type = .ok (reply, after)) :
    layout.inum + 1 < inodeNum ∧
      reply = (.OK, BitVec.ofNat 64 (layout.inum + 1)) ∧
      after = { layout with
        inum := layout.inum + 1
        ticks := layout.ticks + 1
        files := Function.update layout.files (layout.inum + 1)
          (if live : type.setWidth 16 ≠ 0 then
            some (.empty (type.setWidth 16) (clock layout.ticks) live)
          else none) } := by
  simp only [create] at served
  split at served
  · cases served
  · rename_i inside
    cases served
    exact ⟨Nat.lt_of_not_le inside, rfl, rfl⟩

theorem create_error {type : BitVec 32} {error : Fault}
    (stops : layout.create clock type = .error error) :
    inodeNum ≤ layout.inum + 1 ∧ error = .beyondLimits := by
  simp only [create] at stops
  split at stops
  · rename_i full
    cases stops
    exact ⟨full, rfl⟩
  · cases stops

theorem put_ok {buf : List Byte} {reply : Status}
    (served : layout.put clock id buf = .ok (reply, after)) :
    ∃ file, layout.files (inumOf id) = some file ∧
      ∃ (fits : buf.length ≤ maxFile * blockSize)
        (exact : ((freeList firstId blockNum (layout.kept file)).take
          (blocksFor buf.length)).length = blocksFor buf.length),
        reply = .OK ∧
        after = { layout with
          ticks := layout.ticks + 1
          files := Function.update layout.files (inumOf id)
            (some (file.rewritten (clock layout.ticks) buf _ fits exact))
          used := layout.kept file ∪
            ((freeList firstId blockNum (layout.kept file)).take
              (blocksFor buf.length)).toFinset
          calls := layout.calls ++ file.owned.map (.free · true) ++
            ((freeList firstId blockNum (layout.kept file)).take
              (blocksFor buf.length)).map .alloc } := by
  simp only [put] at served
  split at served
  · cases served
  · rename_i file live
    split at served
    · rename_i fits
      split at served
      · rename_i room
        cases served
        exact ⟨file, live, fits, List.length_take_of_le room, rfl, rfl⟩
      · cases served
    · cases served

/-- `put` stops at a missing file, for the size, or for want of blocks. -/
theorem put_error {buf : List Byte} {error : Fault}
    (stops : layout.put clock id buf = .error error) :
    (layout.files (inumOf id) = none ∧ error = .nullInode) ∨
      ∃ file, layout.files (inumOf id) = some file ∧ error = .beyondLimits ∧
        (buf.length ≤ maxFile * blockSize →
          (freeList firstId blockNum (layout.kept file)).length <
            blocksFor buf.length) := by
  simp only [put] at stops
  split at stops
  · rename_i dead
    cases stops
    exact Or.inl ⟨dead, rfl⟩
  · rename_i file live
    apply Or.inr
    split at stops
    · split at stops
      · cases stops
      · rename_i full
        cases stops
        exact ⟨file, live, rfl, fun _ => Nat.lt_of_not_le full⟩
    · rename_i large
      cases stops
      exact ⟨file, live, rfl, fun fits => absurd fits large⟩

theorem get_ok {reply : Status × List Byte}
    (served : layout.get clock id = .ok (reply, after)) :
    ∃ file, layout.files (inumOf id) = some file ∧ reply = (.OK, file.data) ∧
      after = { layout with
        ticks := layout.ticks + 1
        files := Function.update layout.files (inumOf id)
          (some (file.accessed (clock layout.ticks))) } := by
  simp only [get] at served
  split at served
  · cases served
  · rename_i file live
    cases served
    exact ⟨file, live, rfl, rfl⟩

theorem get_error {error : Fault} (stops : layout.get clock id = .error error) :
    layout.files (inumOf id) = none ∧ error = .nullInode := by
  simp only [get] at stops
  split at stops
  · rename_i dead
    cases stops
    exact ⟨dead, rfl⟩
  · cases stops

theorem remove_ok {reply : Status}
    (served : layout.remove id = .ok (reply, after)) :
    ∃ file, layout.files (inumOf id) = some file ∧ reply = .OK ∧
      after = { layout with
        files := Function.update layout.files (inumOf id) none
        used := layout.kept file
        calls := layout.calls ++ file.owned.map (.free · true) } := by
  simp only [remove] at served
  split at served
  · cases served
  · rename_i file live
    cases served
    exact ⟨file, live, rfl, rfl⟩

theorem remove_error {error : Fault} (stops : layout.remove id = .error error) :
    layout.files (inumOf id) = none ∧ error = .nullInode := by
  simp only [remove] at stops
  split at stops
  · rename_i dead
    cases stops
    exact ⟨dead, rfl⟩
  · cases stops

end Answers

end Layout

end Yfs
