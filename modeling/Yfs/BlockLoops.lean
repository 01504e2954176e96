import Yfs.Layout

/-!
# The block loops of the inode layer

The invariant rule for the loops of the inode layer, and the release loops of
`write_file` and `remove_file`: on an inode whose pointers are those of a
`FileLayout` they free exactly the blocks the file owns, each once.
-/

namespace Yfs


section LoopRule

variable {State : Type} {bound : Int}
  {body : Nat → Nat → State → Except Fault State}

/-- The invariant rule for a block loop that runs `count` times from byte count
`first * BLOCK_SIZE`. -/
theorem blockLoop_rule (holds : Nat → State → Prop) (first count limit : Nat)
    (countLe : count ≤ limit)
    (continues : ∀ i < count, (((first + i) * blockSize : Nat) : Int) < bound)
    (stops : count = limit ∨ bound ≤ (((first + count) * blockSize : Nat) : Int))
    (step : ∀ i < count, ∀ state, holds i state → ∃ after,
      body i ((first + i) * blockSize) state = .ok after ∧ holds (i + 1) after)
    {state : State} (start : holds 0 state) :
    ∃ after, blockLoop bound body limit 0 (first * blockSize) state =
      .ok ((first + count) * blockSize, after) ∧ holds count after := by
  have from_index : ∀ left i state, i + left = count → holds i state →
      ∃ after, blockLoop bound body (limit - i) i ((first + i) * blockSize)
        state = .ok ((first + count) * blockSize, after) ∧
          holds count after := by
    intro left
    induction left with
    | zero =>
        intro i state total current
        obtain rfl : i = count := by omega
        refine ⟨state, ?_, current⟩
        rcases stops with atLimit | atBound
        · rw [atLimit, Nat.sub_self, blockLoop]
        · cases remaining : limit - i with
          | zero => rw [blockLoop]
          | succ left => rw [blockLoop, if_neg (not_lt.mpr atBound)]
    | succ left ih =>
        intro i state total current
        obtain ⟨middle, performed, next⟩ := step i (by omega) state current
        obtain ⟨after, rest, final⟩ := ih (i + 1) middle (by omega) next
        refine ⟨after, ?_, final⟩
        have remaining : limit - i = limit - (i + 1) + 1 := by omega
        have advanced : (first + i) * blockSize + blockSize =
            (first + (i + 1)) * blockSize := by
          rw [← Nat.add_assoc, Nat.succ_mul]
        rw [remaining, blockLoop, if_pos (continues i (by omega)), performed]
        simpa only [bind, Except.bind, advanced] using rest
  simpa using from_index count 0 state (by omega) start

end LoopRule

theorem mul_lt_of_lt_dataBlocks {i size : Nat} (less : i < dataBlocks size) :
    i * blockSize < size := by
  simp only [dataBlocks, blockSize] at less ⊢
  omega

theorem le_mul_dataBlocks (size : Nat) : size ≤ dataBlocks size * blockSize := by
  simp only [dataBlocks, blockSize]
  omega

theorem div_lt_dataBlocks {index size : Nat} (inside : index < size) :
    index / blockSize < dataBlocks size := by
  simp only [dataBlocks, blockSize]
  omega

theorem dataBlocks_le {size : Nat} (fits : size ≤ maxFile * blockSize) :
    dataBlocks size ≤ nDirect + nIndirect := by
  simp only [maxFile, nDirect, nIndirect, dataBlocks, blockSize] at fits ⊢
  omega

/-- A block loop over the data blocks of `size` bytes from block `first` runs
until the blocks or the limit are used up. -/
theorem blockLoop_data {State : Type}
    (body : Nat → Nat → State → Except Fault State) (holds : Nat → State → Prop)
    (size first limit : Nat) (state : State)
    (step : ∀ i, i < limit → first + i < dataBlocks size →
      ∀ state, holds i state → ∃ after,
        body i ((first + i) * blockSize) state = .ok after ∧ holds (i + 1) after)
    (start : holds 0 state) :
    ∃ after, blockLoop (size : Int) body limit 0 (first * blockSize) state =
        .ok ((first + min limit (dataBlocks size - first)) * blockSize, after) ∧
      holds (min limit (dataBlocks size - first)) after := by
  refine blockLoop_rule holds first _ limit (Nat.min_le_left _ _) ?_ ?_ ?_ start
  · intro i iLt
    have := (lt_min_iff.mp iLt).2
    exact_mod_cast mul_lt_of_lt_dataBlocks
      (show first + i < dataBlocks size by omega)
  · rcases Nat.le_total limit (dataBlocks size - first) with le | le
    · exact Or.inl (Nat.min_eq_left le)
    · right
      rw [Nat.min_eq_right le]
      have enough : dataBlocks size * blockSize ≤
          (first + (dataBlocks size - first)) * blockSize :=
        Nat.mul_le_mul_right _ (by omega)
      exact_mod_cast le_trans (le_mul_dataBlocks size) enough
  · intro i iLt
    obtain ⟨belowLimit, belowCount⟩ := lt_min_iff.mp iLt
    exact step i belowLimit (by omega)

/-- The direct loop leaves no byte over unless there is an indirect block. -/
theorem direct_count_lt {size : Nat} :
    ((min nDirect (dataBlocks size) * blockSize : Nat) : Int) < (size : Int) ↔
      nDirect < dataBlocks size := by
  rcases Nat.lt_or_ge nDirect (dataBlocks size) with many | few
  · rw [Nat.min_eq_left many.le]
    exact ⟨fun _ => many, fun _ => by exact_mod_cast mul_lt_of_lt_dataBlocks many⟩
  · rw [Nat.min_eq_right few]
    have finished := le_mul_dataBlocks size
    constructor
    · intro less
      have : dataBlocks size * blockSize < size := by exact_mod_cast less
      omega
    · intro less
      omega

/-- The inode and the blocks of `disk` hold the file. -/
structure Stores (disk : Disk) (ino : Inode) (file : FileLayout) : Prop where
  type : ino.type = file.type
  size : ino.size = BitVec.ofNat 32 file.data.length
  atime : ino.atime = file.atime
  mtime : ino.mtime = file.mtime
  ctime : ino.ctime = file.ctime
  direct : ∀ k (inside : k < file.blocks.length), k < nDirect →
    ino.block k = file.blocks[k]
  indirect : ∀ block, file.indirect = some block → ino.block nDirect = block
  entries : ∀ block, file.indirect = some block →
    ∀ k (inside : k < file.blocks.length), nDirect ≤ k →
      (disk.block block).blockId (k - nDirect) = file.blocks[k]
  content : ∀ k (inside : k < file.blocks.length) j, j < blockSize →
    ∀ within : k * blockSize + j < file.data.length,
      (disk.block file.blocks[k]).get j = file.data[k * blockSize + j]

/-- A file depends on its own blocks only. -/
theorem Stores.congr {disk other : Disk} {ino : Inode} {file : FileLayout}
    (stores : Stores disk ino file)
    (same : ∀ block ∈ file.owned, other.block block = disk.block block) :
    Stores other ino file where
  type := stores.type
  size := stores.size
  atime := stores.atime
  mtime := stores.mtime
  ctime := stores.ctime
  direct := stores.direct
  indirect := stores.indirect
  entries := by
    intro block isIndirect k inside above
    have member : block ∈ file.owned := by simp [FileLayout.owned, isIndirect]
    rw [same block member]
    exact stores.entries block isIndirect k inside above
  content := by
    intro k inside j jLt within
    have member : file.blocks[k] ∈ file.owned :=
      List.mem_append_left _ (List.getElem_mem inside)
    rw [same _ member]
    exact stores.content k inside j jLt within

section Release

/-- Freeing `ids`, all of them allocated, leads from `before` to `after`. -/
structure Released (before : BlockManager) (used : Finset Nat)
    (ids : List Nat) (after : BlockManager) : Prop where
  marks : after.disk.Marks (used \ ids.toFinset)
  frame : ∀ block, 10 ≤ block →
    after.disk.block block = before.disk.block block
  calls : after.calls = before.calls ++ ids.map (.free · true)

variable {before after : BlockManager} {used : Finset Nat} {ids : List Nat}

theorem Released.refl (marks : before.disk.Marks used) :
    Released before used [] before where
  marks := by simpa using marks
  frame := fun _ _ => rfl
  calls := by simp

/-- One more call of `free_block`, on a block that is allocated. -/
theorem Released.free (released : Released before used ids after) {id : Nat}
    (within : used ⊆ Finset.Ico firstId blockNum) (isUsed : id ∈ used)
    (fresh : id ∉ ids) :
    ∃ next, after.freeBlock id = .ok next ∧
      Released before used (ids ++ [id]) next := by
  have bounds := Finset.mem_Ico.mp (within isUsed)
  have high : id < lastId := lt_trans bounds.2 (by decide)
  refine ⟨after.released id, after.freeBlock_of_lt high, ?_, ?_, ?_⟩
  · have marks := after.marks_released released.marks high
    have erased : (used \ ids.toFinset).erase id =
        used \ (ids ++ [id]).toFinset := by
      ext other
      simp only [Finset.mem_erase, Finset.mem_sdiff, List.mem_toFinset,
        List.mem_append, List.mem_singleton, not_or]
      tauto
    rwa [erased] at marks
  · intro block outside
    rw [after.block_released high outside, released.frame block outside]
  · have wasSet : after.disk.idBit id = true :=
      (released.marks id bounds.1 high).mpr
        (Finset.mem_sdiff.mpr ⟨isUsed, by simpa using fresh⟩)
    simp [BlockManager.released, wasSet, released.calls]

variable {bm : BlockManager} {ino : Inode} {file : FileLayout}

/-- After the first `k` data blocks of a file the next one is free to go. -/
theorem Released.free_next (nodup : file.owned.Nodup)
    (owns : ∀ block ∈ file.owned, block ∈ used)
    (within : used ⊆ Finset.Ico firstId blockNum) {k : Nat} (inside : k < file.blocks.length)
    (released : Released before used (file.blocks.take k) after) :
    ∃ next, after.freeBlock file.blocks[k] = .ok next ∧
      Released before used (file.blocks.take (k + 1)) next := by
  have blocksNodup : file.blocks.Nodup := (List.nodup_append.mp nodup).1
  have isUsed : file.blocks[k] ∈ used :=
    owns _ (List.mem_append_left _ (List.getElem_mem inside))
  have fresh : file.blocks[k] ∉ file.blocks.take k := by
    intro member
    obtain ⟨j, jLt, equal⟩ := List.mem_take_iff_getElem.mp member
    have := (List.Nodup.getElem_inj_iff blocksNodup).mp equal
    omega
  rw [List.take_succ_eq_append_getElem inside]
  exact released.free within isUsed fresh

/-- The first loop frees the direct blocks. -/
theorem releaseDirect_loop (stores : Stores bm.disk ino file) (nodup : file.owned.Nodup)
    (marks : bm.disk.Marks used) (owns : ∀ block ∈ file.owned, block ∈ used)
    (within : used ⊆ Finset.Ico firstId blockNum) :
    ∃ after, blockLoop file.data.length (fun i _ bm => bm.freeBlock (ino.block i)) nDirect 0 0
        bm = .ok (min nDirect (dataBlocks file.data.length) * blockSize, after) ∧
      Released bm used (file.blocks.take (min nDirect (dataBlocks file.data.length))) after := by
  have lengthBlocks := file.length_blocks
  have direct := blockLoop_data
    (fun i _ bm => bm.freeBlock (ino.block i))
    (fun i state => Released bm used (file.blocks.take i) state)
    file.data.length 0 nDirect bm
    (by
      intro i belowDirect belowCount state current
      have inside : i < file.blocks.length := by omega
      rw [stores.direct i inside belowDirect]
      exact current.free_next nodup owns within inside)
    (by simpa using Released.refl marks)
  simp only [Nat.zero_mul, Nat.zero_add, Nat.sub_zero] at direct
  exact direct

/-- The second loop frees the others, which it finds in the indirect block. -/
theorem releaseIndirect_loop (stores : Stores bm.disk ino file) (nodup : file.owned.Nodup)
    (owns : ∀ block ∈ file.owned, block ∈ used) (within : used ⊆ Finset.Ico firstId blockNum)
    {block : Nat} (isIndirect : file.indirect = some block)
    (many : nDirect < dataBlocks file.data.length)
    (released : Released bm used (file.blocks.take nDirect) after) :
    ∃ total last, blockLoop file.data.length
        (fun i _ bm' => do
          let id ← indirectEntry (bm.disk.block block) i
          bm'.freeBlock id)
        (nIndirect + 1) 0 (nDirect * blockSize) after = .ok (total, last) ∧
      Released bm used file.blocks last := by
  have lengthBlocks := file.length_blocks
  have count := dataBlocks_le file.fits
  have indirect := blockLoop_data
    (fun i _ bm' => do
      let id ← indirectEntry (bm.disk.block block) i
      bm'.freeBlock id)
    (fun i state => Released bm used (file.blocks.take (nDirect + i)) state)
    file.data.length nDirect (nIndirect + 1) after
    (by
      intro i _ belowCount state current
      have inside : nDirect + i < file.blocks.length := by omega
      have entry := stores.entries block isIndirect (nDirect + i) inside (by omega)
      rw [Nat.add_sub_cancel_left] at entry
      have iBelow : i < nIndirect := by omega
      simp only [indirectEntry, iBelow, if_true, bind, Except.bind, entry]
      exact current.free_next nodup owns within inside)
    (by simpa using released)
  have total : nDirect + min (nIndirect + 1)
      (dataBlocks file.data.length - nDirect) = file.blocks.length := by omega
  rw [total, List.take_length] at indirect
  rcases indirect with ⟨last, loop, freed⟩
  exact ⟨_, last, loop, freed⟩

/-- The release loops free the blocks the file owns, each once. -/
theorem releaseBlocks_spec (stores : Stores bm.disk ino file) (nodup : file.owned.Nodup)
    (marks : bm.disk.Marks used) (owns : ∀ block ∈ file.owned, block ∈ used)
    (within : used ⊆ Finset.Ico firstId blockNum) :
    ∃ released, InodeManager.releaseBlocks bm ino file.data.length =
        .ok released ∧ Released bm used file.owned released := by
  obtain ⟨afterDirect, directLoop, directReleased⟩ :=
    releaseDirect_loop stores nodup marks owns within
  unfold InodeManager.releaseBlocks
  rw [directLoop]
  simp only [bind, Except.bind]
  cases isIndirect : file.indirect with
  | none =>
      have few : ¬nDirect < dataBlocks file.data.length := by
        rw [FileLayout.nDirect_lt_dataBlocks, ← file.isSome_indirect, isIndirect]
        simp
      rw [if_neg (direct_count_lt.not.mpr few)]
      refine ⟨afterDirect, rfl, ?_⟩
      have all : file.blocks.take (min nDirect (dataBlocks file.data.length)) =
          file.owned := by
        rw [Nat.min_eq_right (Nat.le_of_not_lt few), ← file.length_blocks,
          List.take_length, FileLayout.owned, isIndirect]
        simp
      rwa [all] at directReleased
  | some block =>
      have many : nDirect < dataBlocks file.data.length := by
        rw [FileLayout.nDirect_lt_dataBlocks, ← file.isSome_indirect, isIndirect]
        rfl
      rw [if_pos (direct_count_lt.mpr many), Nat.min_eq_left many.le]
      rw [Nat.min_eq_left many.le] at directReleased
      have member : block ∈ file.owned := by simp [FileLayout.owned, isIndirect]
      have bounds := Finset.mem_Ico.mp (within (owns block member))
      have blockFresh : block ∉ file.blocks := by
        rw [FileLayout.owned, isIndirect] at nodup
        exact fun inBlocks =>
          List.disjoint_of_nodup_append nodup inBlocks (by simp)
      obtain ⟨total, afterIndirect, indirectLoop, indirectReleased⟩ :=
        releaseIndirect_loop stores nodup owns within isIndirect many directReleased
      simp only [bind, Except.bind] at indirectLoop
      rw [stores.indirect block isIndirect,
        afterDirect.readBlock_of_lt bounds.2,
        directReleased.frame block (le_trans (by decide) bounds.1)]
      simp only [indirectLoop]
      obtain ⟨final, freed, released⟩ :=
        indirectReleased.free within (owns block member) blockFresh
      refine ⟨final, freed, ?_⟩
      have all : file.blocks ++ [block] = file.owned := by
        rw [FileLayout.owned, isIndirect]
        rfl
      rwa [all] at released

end Release

end Yfs
