import Yfs.BlockLoops
import Yfs.Library.Chunks

/-!
# The read loops

The loops of `read_file` copy the data blocks of a file one after the other, and
the first `size` bytes of the copy are the content of the file.
-/

namespace Yfs

/-- The bytes of the blocks `blocks`, one after the other. -/
def blockBytes (disk : Disk) (blocks : List Nat) : List Byte :=
  blocks.flatMap fun block => (disk.block block).bytes

theorem blockBytes_take_succ (disk : Disk) {blocks : List Nat} {i : Nat}
    (inside : i < blocks.length) :
    blockBytes disk (blocks.take (i + 1)) =
      blockBytes disk (blocks.take i) ++ (disk.block blocks[i]).bytes := by
  rw [List.take_succ_eq_append_getElem inside, blockBytes, List.flatMap_append]
  simp [blockBytes]

/-- What the data blocks of a stored file hold, up to its size, is its content. -/
theorem Stores.take_blockBytes {disk : Disk} {ino : Inode} {file : FileLayout}
    (stores : Stores disk ino file) :
    (blockBytes disk file.blocks).take file.data.length = file.data := by
  refine Chunks.take_flatMap_eq _ (by decide) (fun block => Block.length_bytes _)
    file.blocks file.data ?_
  intro index inside
  have blockInside : index / blockSize < file.blocks.length := by
    rw [file.length_blocks]
    exact div_lt_dataBlocks inside
  have offsetLt : index % blockSize < blockSize := Nat.mod_lt _ (by decide)
  have position : index / blockSize * blockSize + index % blockSize = index :=
    Nat.div_add_mod' _ _
  have byte := stores.content (index / blockSize) blockInside
    (index % blockSize) offsetLt (by rw [position]; exact inside)
  rw [List.getElem?_eq_getElem blockInside, Option.bind_some, Block.bytes,
    List.getElem?_map, List.getElem?_range offsetLt, Option.map_some, byte]
  congr 2

/-- `read_file` copies the data blocks of a stored file in order. -/
theorem readBlocks_spec {bm : BlockManager} {ino : Inode} {file : FileLayout}
    (stores : Stores bm.disk ino file)
    (inside : ∀ block ∈ file.owned, block < blockNum) :
    InodeManager.readBlocks bm ino file.data.length =
      .ok (blockBytes bm.disk file.blocks) := by
  have lengthBlocks := file.length_blocks
  have few := dataBlocks_le file.fits
  have blockInside : ∀ k (h : k < file.blocks.length),
      file.blocks[k] < blockNum := fun k h =>
    inside _ (List.mem_append_left _ (List.getElem_mem h))
  have direct := blockLoop_data (InodeManager.readDirect bm ino)
    (fun i state => state = blockBytes bm.disk (file.blocks.take i))
    file.data.length 0 nDirect []
    (by
      rintro i belowDirect belowCount state rfl
      have iInside : i < file.blocks.length := by omega
      refine ⟨_, ?_, (blockBytes_take_succ bm.disk iInside).symm⟩
      rw [InodeManager.readDirect, stores.direct i iInside belowDirect,
        bm.readBlock_of_lt (blockInside i iInside)]
      rfl)
    rfl
  rcases direct with ⟨buf, directLoop, rfl⟩
  simp only [Nat.zero_mul, Nat.zero_add, Nat.sub_zero] at directLoop
  unfold InodeManager.readBlocks
  simp only [directLoop, bind, Except.bind]
  by_cases many : nDirect < dataBlocks file.data.length
  · rw [if_pos (direct_count_lt.mpr many), Nat.min_eq_left many.le]
    obtain ⟨block, isIndirect⟩ := Option.isSome_iff_exists.mp
      (file.isSome_indirect.mpr ((FileLayout.nDirect_lt_dataBlocks _).mp many))
    have indirectInside := inside block (by simp [FileLayout.owned, isIndirect])
    have indirect := blockLoop_data
      (InodeManager.readIndirect bm (bm.disk.block block))
      (fun i state => state = blockBytes bm.disk (file.blocks.take (nDirect + i)))
      file.data.length nDirect (nIndirect + 1)
      (blockBytes bm.disk (file.blocks.take nDirect))
      (by
        rintro i _ belowCount state rfl
        have iInside : nDirect + i < file.blocks.length := by omega
        have entry := stores.entries block isIndirect (nDirect + i) iInside
          (by omega)
        rw [Nat.add_sub_cancel_left] at entry
        have iBelow : i < nIndirect := by omega
        refine ⟨_, ?_, (blockBytes_take_succ bm.disk iInside).symm⟩
        simp only [InodeManager.readIndirect, indirectEntry, iBelow, if_true,
          bind, Except.bind, entry, bm.readBlock_of_lt (blockInside _ iInside),
          pure, Except.pure])
      rfl
    rcases indirect with ⟨all, indirectLoop, rfl⟩
    have total : nDirect + min (nIndirect + 1)
        (dataBlocks file.data.length - nDirect) = file.blocks.length := by omega
    rw [total, List.take_length] at indirectLoop
    simp only [stores.indirect block isIndirect,
      bm.readBlock_of_lt indirectInside, indirectLoop, pure, Except.pure]
  · rw [if_neg (direct_count_lt.not.mpr many),
      Nat.min_eq_right (Nat.le_of_not_lt many), ← lengthBlocks, List.take_length]
    rfl

end Yfs
