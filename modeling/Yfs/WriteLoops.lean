import Yfs.BlockLoops

/-!
# The write loops

The loops of `write_file` allocate first fit, direct blocks first, then the
indirect block, then the blocks it points to, and copy the caller's buffer to
them block by block.  Afterwards the inode stores the rewritten file.
-/

namespace Yfs

open FirstFit
open InodeManager (bufferBlock)

/-- Allocating `ids` leads from `before` to `after`; the blocks `ids` may have
been written since. -/
structure Taken (before : BlockManager) (kept : Finset Nat) (ids : List Nat)
    (after : BlockManager) : Prop where
  marks : after.disk.Marks (kept ∪ ids.toFinset)
  frame : ∀ block, 10 ≤ block → block ∉ ids →
    after.disk.block block = before.disk.block block
  calls : after.calls = before.calls ++ ids.map .alloc

variable {before after : BlockManager} {kept : Finset Nat}

theorem Taken.refl (marks : before.disk.Marks kept) :
    Taken before kept [] before where
  marks := by simpa using marks
  frame := fun _ _ _ => rfl
  calls := by simp

/-- The ids of the disk that are free when the blocks `kept` are not. -/
def freeIds (kept : Finset Nat) : List Nat :=
  freeList firstId blockNum kept

theorem freeIds_bounds {m : Nat} (inside : m < (freeIds kept).length) :
    firstId ≤ (freeIds kept)[m] ∧ (freeIds kept)[m] < blockNum ∧
      (freeIds kept)[m] ∉ kept := by
  have member := mem_freeList.mp (List.getElem_mem inside)
  exact ⟨member.1.1, member.1.2, member.2⟩

theorem freeIds_inj {m n : Nat} (mInside : m < (freeIds kept).length)
    (nInside : n < (freeIds kept).length) :
    (freeIds kept)[m] = (freeIds kept)[n] ↔ m = n :=
  List.Nodup.getElem_inj_iff nodup_freeList

theorem Taken.alloc {m : Nat} (inside : m < (freeIds kept).length)
    (taken : Taken before kept ((freeIds kept).take m) after) :
    ∃ next, after.allocBlock = .ok ((freeIds kept)[m], next) ∧
      Taken before kept ((freeIds kept).take (m + 1)) next ∧
      ∀ block, 10 ≤ block → next.disk.block block = after.disk.block block := by
  have first : IsFirst firstId lastId
      (kept ∪ ((freeIds kept).take m).toFinset) (freeIds kept)[m] :=
    (isFirst_getElem inside).mono (by decide)
  refine ⟨_, after.allocBlock_of_isFirst taken.marks first, ⟨?_, ?_, ?_⟩, ?_⟩
  · have marks := after.marks_allocated taken.marks first.lt_high
    have extended : insert (freeIds kept)[m]
        (kept ∪ ((freeIds kept).take m).toFinset) =
          kept ∪ ((freeIds kept).take (m + 1)).toFinset := by
      rw [List.take_succ_eq_append_getElem inside]
      ext block
      simp only [Finset.mem_insert, Finset.mem_union, List.mem_toFinset,
        List.mem_append, List.mem_singleton]
      tauto
    rw [← extended]
    exact marks
  · intro block outside notTaken
    rw [List.take_succ_eq_append_getElem inside, List.mem_append, not_or] at notTaken
    rw [after.block_allocated first.lt_high outside,
      taken.frame block outside notTaken.1]
  · rw [List.take_succ_eq_append_getElem inside, List.map_append, ← List.append_assoc,
      ← taken.calls]
    rfl
  · exact fun block outside => after.block_allocated first.lt_high outside

theorem Taken.write {ids : List Nat} (taken : Taken before kept ids after)
    {id : Nat} (isTaken : id ∈ ids) (low : 10 ≤ id) (inside : id < blockNum)
    (buf : Block) :
    after.writeBlock id buf = .ok { after with disk := after.disk.put id buf } ∧
      Taken before kept ids { after with disk := after.disk.put id buf } := by
  refine ⟨after.writeBlock_of_lt buf inside,
    taken.marks.put buf inside low, ?_, taken.calls⟩
  intro block outside notTaken
  have different : block ≠ id := fun same => notTaken (same ▸ isTaken)
  rw [Disk.block_put_of_ne _ _ inside different]
  exact taken.frame block outside notTaken

theorem Taken.after_release {start : BlockManager} {used : Finset Nat} {freed ids : List Nat}
    (released : Released start used freed before) (taken : Taken before kept ids after) :
    after.calls = start.calls ++ freed.map (.free · true) ++ ids.map .alloc ∧
      ∀ block, 10 ≤ block → block ∉ ids → after.disk.block block = start.disk.block block := by
  refine ⟨by rw [taken.calls, released.calls], fun block outside notTaken => ?_⟩
  rw [taken.frame block outside notTaken, released.frame block outside]

/-- The first `count` free ids from `first` hold the caller's buffer from block
`start`. -/
def Filled (disk : Disk) (kept : Finset Nat) (buf : Nat → Byte)
    (first start count : Nat) : Prop :=
  ∀ k < count, ∀ inside : first + k < (freeIds kept).length,
    disk.block (freeIds kept)[first + k] =
      bufferBlock buf ((start + k) * blockSize)

/-- A block outside the filled part may change. -/
theorem Filled.keep {disk other : Disk} {buf : Nat → Byte} {first start count m : Nat}
    {content : Block} (filled : Filled disk kept buf first start count)
    (changed : ∀ k, ∀ inside : k < (freeIds kept).length,
      other.block (freeIds kept)[k] =
        if k = m then content else disk.block (freeIds kept)[k])
    (outside : ∀ k < count, first + k ≠ m) : Filled other kept buf first start count := by
  intro k kLt inside
  rw [changed _ inside, if_neg (outside k kLt)]
  exact filled k kLt inside

/-- Writing block `first + count` extends the part that is filled. -/
theorem Filled.grow {disk other : Disk} {buf : Nat → Byte} {first start count : Nat}
    (filled : Filled disk kept buf first start count)
    (changed : ∀ k, ∀ inside : k < (freeIds kept).length,
      other.block (freeIds kept)[k] =
        if k = first + count then bufferBlock buf ((start + count) * blockSize)
        else disk.block (freeIds kept)[k]) :
    Filled other kept buf first start (count + 1) := by
  intro k kLt inside
  rw [changed _ inside]
  by_cases last : k = count
  · subst last
    rw [if_pos rfl]
  · rw [if_neg (by omega)]
    exact filled k (by omega) inside

theorem low_le_freeIds {m : Nat} (inside : m < (freeIds kept).length) :
    10 ≤ (freeIds kept)[m] :=
  le_trans (by decide) (freeIds_bounds inside).1

/-- What a write of block `m` changes of the blocks that were free. -/
theorem block_put_freeIds (disk : Disk) {m : Nat} (inside : m < (freeIds kept).length)
    (content : Block) {k : Nat} (kInside : k < (freeIds kept).length) :
    (disk.put (freeIds kept)[m] content).block (freeIds kept)[k] =
      if k = m then content else disk.block (freeIds kept)[k] := by
  rw [Disk.block_put _ _ (freeIds_bounds inside).2.1]
  simp only [freeIds_inj kInside inside]

/-- One step of a write loop: the next free id is allocated, and its block written. -/
theorem Taken.next {m : Nat} (inside : m < (freeIds kept).length)
    (taken : Taken before kept ((freeIds kept).take m) after) (content : Block) :
    ∃ next last, after.allocBlock = .ok ((freeIds kept)[m], next) ∧
      next.writeBlock (freeIds kept)[m] content = .ok last ∧
      Taken before kept ((freeIds kept).take (m + 1)) last ∧
      ∀ k, ∀ kInside : k < (freeIds kept).length, last.disk.block (freeIds kept)[k] =
        if k = m then content else after.disk.block (freeIds kept)[k] := by
  obtain ⟨next, allocated, takenNext, same⟩ := taken.alloc inside
  have isTaken : (freeIds kept)[m] ∈ (freeIds kept).take (m + 1) :=
    List.mem_take_iff_getElem.mpr ⟨m, by omega, rfl⟩
  obtain ⟨written, takenLast⟩ := takenNext.write isTaken (low_le_freeIds inside)
    (freeIds_bounds inside).2.1 content
  refine ⟨next, _, allocated, written, takenLast, fun k kInside => ?_⟩
  rw [← same _ (low_le_freeIds kInside)]
  exact block_put_freeIds next.disk inside content kInside

theorem InodeManager.writeDirect_eq {buf : Nat → Byte} {i done id : Nat}
    {state : BlockManager × Inode} {next : BlockManager}
    (allocates : state.1.allocBlock = .ok (id, next)) :
    writeDirect buf i done state =
      (next.writeBlock id (bufferBlock buf done) >>= fun bm =>
        pure (bm, state.2.setBlock i id)) := by
  rw [writeDirect, allocates]
  rfl

theorem InodeManager.writeIndirect_eq {buf : Nat → Byte} {i done id : Nat}
    {state : BlockManager × Block} {next : BlockManager}
    (allocates : state.1.allocBlock = .ok (id, next)) :
    writeIndirect buf i done state =
      if i < nIndirect then
        (next.writeBlock id (bufferBlock buf done) >>= fun bm =>
          pure (bm, state.2.setBlockId i id))
      else .error .overrun := by
  rw [writeIndirect, allocates]
  rfl

theorem writeDirect_loop (ino : Inode) (buf : Nat → Byte) (size : Nat)
    (marks : before.disk.Marks kept)
    (room : blocksFor size ≤ (freeIds kept).length) :
    ∃ after written, blockLoop (size : Int) (InodeManager.writeDirect buf)
        nDirect 0 0 (before, ino) =
          .ok (min nDirect (dataBlocks size) * blockSize, after, written) ∧
      written = { ino with blocks := written.blocks } ∧
      Taken before kept
        ((freeIds kept).take (min nDirect (dataBlocks size))) after ∧
      Filled after.disk kept buf 0 0 (min nDirect (dataBlocks size)) ∧
      ∀ k < min nDirect (dataBlocks size),
        ∀ inside : k < (freeIds kept).length,
          written.block k = (freeIds kept)[k] := by
  have dataLe : dataBlocks size ≤ blocksFor size := Nat.le_add_right _ _
  have loop := blockLoop_data (InodeManager.writeDirect buf)
    (fun i state =>
      Taken before kept ((freeIds kept).take i) state.1 ∧
      Filled state.1.disk kept buf 0 0 i ∧
      state.2 = { ino with blocks := state.2.blocks } ∧
      ∀ k < i, ∀ inside : k < (freeIds kept).length,
        state.2.block k = (freeIds kept)[k])
    size 0 nDirect (before, ino)
    (by
      rintro i belowDirect belowCount ⟨mid, current⟩
        ⟨taken, filled, header, pointers⟩
      have inside : i < (freeIds kept).length := by omega
      obtain ⟨next, last, allocated, written, takenLast, changed⟩ :=
        taken.next inside (bufferBlock buf ((0 + i) * blockSize))
      refine ⟨(last, current.setBlock i (freeIds kept)[i]), ?_, takenLast, ?_, ?_⟩
      · rw [InodeManager.writeDirect_eq allocated, written]
        rfl
      · exact filled.grow (by simpa using changed)
      · refine ⟨?_, ?_⟩
        · simp only at header ⊢
          rw [header]
          rfl
        · intro k kLt kInside
          have idLt : (freeIds kept)[i] < 2 ^ 32 :=
            lt_trans (freeIds_bounds inside).2.1 (by decide)
          change (current.setBlock i (freeIds kept)[i]).block k = _
          rw [Inode.block_setBlock _ (by omega) (by omega) idLt]
          by_cases last : k = i
          · subst last
            rw [if_pos rfl]
          · rw [if_neg last]
            exact pointers k (by omega) kInside)
    ⟨by simpa using Taken.refl marks, fun k kLt => absurd kLt (Nat.not_lt_zero k),
      rfl, fun k kLt => absurd kLt (Nat.not_lt_zero k)⟩
  rcases loop with ⟨⟨after, written⟩, result, taken, filled, header, pointers⟩
  simp only [Nat.zero_mul, Nat.zero_add, Nat.sub_zero] at result taken filled pointers
  exact ⟨after, written, result, header, taken, filled, pointers⟩

/-- The loop of `write_file` over the blocks behind the direct ones, from the state in
which the indirect block has been allocated. -/
theorem writeIndirect_loop (buf : Nat → Byte) (size : Nat) (memory : Block)
    (fits : size ≤ maxFile * blockSize) (many : nDirect < dataBlocks size)
    (room : dataBlocks size + 1 ≤ (freeIds kept).length)
    (taken : Taken before kept ((freeIds kept).take (nDirect + 1)) after)
    (filled : Filled after.disk kept buf 0 0 nDirect) :
    ∃ total last pointers, blockLoop (size : Int) (InodeManager.writeIndirect buf)
        (nIndirect + 1) 0 (nDirect * blockSize) (after, memory) =
          .ok (total, last, pointers) ∧
      Taken before kept ((freeIds kept).take (dataBlocks size + 1)) last ∧
      Filled last.disk kept buf 0 0 nDirect ∧
      Filled last.disk kept buf (nDirect + 1) nDirect (dataBlocks size - nDirect) ∧
      ∀ k < dataBlocks size - nDirect, ∀ inside : nDirect + 1 + k < (freeIds kept).length,
        pointers.blockId k = (freeIds kept)[nDirect + 1 + k] := by
  have few := dataBlocks_le fits
  have loop := blockLoop_data (InodeManager.writeIndirect buf)
    (fun i state =>
      Taken before kept ((freeIds kept).take (nDirect + 1 + i)) state.1 ∧
      Filled state.1.disk kept buf 0 0 nDirect ∧
      Filled state.1.disk kept buf (nDirect + 1) nDirect i ∧
      ∀ k < i, ∀ inside : nDirect + 1 + k < (freeIds kept).length,
        state.2.blockId k = (freeIds kept)[nDirect + 1 + k])
    size nDirect (nIndirect + 1) (after, memory)
    (by
      rintro i _ belowCount ⟨mid, pointers⟩ ⟨takenMid, filledDirect, filledMid, entries⟩
      have inside : nDirect + 1 + i < (freeIds kept).length := by omega
      have iBelow : i < nIndirect := by omega
      obtain ⟨next, last, allocated, written, takenLast, changed⟩ :=
        takenMid.next inside (bufferBlock buf ((nDirect + i) * blockSize))
      refine ⟨(last, pointers.setBlockId i (freeIds kept)[nDirect + 1 + i]), ?_,
        takenLast, ?_, filledMid.grow changed, ?_⟩
      · rw [InodeManager.writeIndirect_eq allocated, if_pos iBelow, written]
        rfl
      · exact filledDirect.keep changed fun k kLt => by omega
      · intro k kLt kInside
        have idLt : (freeIds kept)[nDirect + 1 + i] < 2 ^ 32 :=
          lt_trans (freeIds_bounds inside).2.1 (by decide)
        change (pointers.setBlockId i _).blockId k = _
        rw [Block.blockId_setBlockId _ iBelow (by omega) idLt]
        by_cases last : k = i
        · subst last
          rw [if_pos rfl]
        · rw [if_neg last]
          exact entries k (by omega) kInside)
    ⟨taken, filled, fun k kLt => absurd kLt (Nat.not_lt_zero k),
      fun k kLt => absurd kLt (Nat.not_lt_zero k)⟩
  have count : min (nIndirect + 1) (dataBlocks size - nDirect) =
      dataBlocks size - nDirect := by omega
  have total : nDirect + 1 + (dataBlocks size - nDirect) = dataBlocks size + 1 := by
    omega
  rcases loop with ⟨⟨last, pointers⟩, result, takenLast, filledDirect, filledLast, entries⟩
  rw [count] at takenLast filledLast entries
  rw [total] at takenLast
  exact ⟨_, last, pointers, result, takenLast, filledDirect, filledLast, entries⟩

theorem writeIndirectBlocks_spec (ino : Inode) (buf : Nat → Byte) (size : Nat)
    (memory : Nat → Byte) (fits : size ≤ maxFile * blockSize)
    (many : nDirect < dataBlocks size)
    (room : dataBlocks size + 1 ≤ (freeIds kept).length)
    (taken : Taken before kept ((freeIds kept).take nDirect) after)
    (filled : Filled after.disk kept buf 0 0 nDirect)
    (indirectInside : nDirect < (freeIds kept).length) :
    ∃ last, InodeManager.writeIndirectBlocks after ino buf size
        (nDirect * blockSize) memory =
          .ok (last, ino.setBlock nDirect (freeIds kept)[nDirect]) ∧
      Taken before kept ((freeIds kept).take (dataBlocks size + 1)) last ∧
      Filled last.disk kept buf 0 0 nDirect ∧
      Filled last.disk kept buf (nDirect + 1) nDirect
        (dataBlocks size - nDirect) ∧
      ∀ k < dataBlocks size - nDirect,
        ∀ inside : nDirect + 1 + k < (freeIds kept).length,
          (last.disk.block (freeIds kept)[nDirect]).blockId k =
            (freeIds kept)[nDirect + 1 + k] := by
  obtain ⟨allocated, allocates, takenIndirect, same⟩ := taken.alloc indirectInside
  have filledNext : Filled allocated.disk kept buf 0 0 nDirect := fun k kLt inside =>
    (same _ (low_le_freeIds inside)).trans (filled k kLt inside)
  obtain ⟨total, mid, pointers, result, takenMid, filledDirect, filledMid, entries⟩ :=
    writeIndirect_loop buf size (fun index => memory index.val) fits many room takenIndirect
      filledNext
  have bounds := freeIds_bounds indirectInside
  have isTaken : (freeIds kept)[nDirect] ∈
      (freeIds kept).take (dataBlocks size + 1) :=
    List.mem_take_iff_getElem.mpr ⟨nDirect, by omega, rfl⟩
  obtain ⟨written, takenLast⟩ := takenMid.write isTaken
    (low_le_freeIds indirectInside) bounds.2.1 pointers
  have changed := fun k => block_put_freeIds (k := k) mid.disk indirectInside pointers
  refine ⟨_, ?_, takenLast, ?_, ?_, ?_⟩
  · simp only [InodeManager.writeIndirectBlocks, allocates, bind, Except.bind,
      result, written, pure, Except.pure]
  · exact filledDirect.keep changed fun k kLt => by omega
  · exact filledMid.keep changed fun k _ => by omega
  · intro k kLt kInside
    rw [Disk.block_put_self _ _ bounds.2.1]
    exact entries k kLt kInside

/-- The data blocks of a rewritten file skip the id of the indirect block. -/
theorem getElem_rewritten_blocks {file : FileLayout} {now : BitVec 32}
    {data : List Byte} {fits : data.length ≤ maxFile * blockSize}
    {exact : ((freeIds kept).take (blocksFor data.length)).length =
      blocksFor data.length} {k : Nat}
    (inside : k < (file.rewritten now data _ fits exact).blocks.length) :
    (k < nDirect → ∃ h : k < (freeIds kept).length,
      (file.rewritten now data _ fits exact).blocks[k] = (freeIds kept)[k]) ∧
    (nDirect ≤ k → ∃ h : k + 1 < (freeIds kept).length,
      (file.rewritten now data _ fits exact).blocks[k] =
        (freeIds kept)[k + 1]) := by
  have enough := exact
  rw [List.length_take] at enough
  have count : k < dataBlocks data.length :=
    lt_of_lt_of_eq inside (FileLayout.length_blocks _)
  have total : dataBlocks data.length ≤ blocksFor data.length :=
    Nat.le_add_right _ _
  constructor
  · intro below
    refine ⟨by omega, ?_⟩
    simp only [FileLayout.rewritten]
    rw [List.getElem_append_left (by rw [List.length_take, exact]; omega),
      List.getElem_take, List.getElem_take]
  · intro above
    have withIndirect : blocksFor data.length = dataBlocks data.length + 1 := by
      rw [blocksFor, if_pos ((FileLayout.nDirect_lt_dataBlocks _).mp (by omega))]
    have direct : (((freeIds kept).take (blocksFor data.length)).take
        nDirect).length = nDirect := by
      rw [List.length_take, exact]
      omega
    refine ⟨by omega, ?_⟩
    simp only [FileLayout.rewritten]
    rw [List.getElem_append_right (by omega), List.getElem_drop, List.getElem_take]
    congr 1
    omega

/-- The indirect block of a rewritten file exists only above the direct blocks. -/
theorem indirect_rewritten {file : FileLayout} {now : BitVec 32}
    {data : List Byte} {fits : data.length ≤ maxFile * blockSize}
    {exact : ((freeIds kept).take (blocksFor data.length)).length =
      blocksFor data.length} {block : Nat}
    (isIndirect : (file.rewritten now data _ fits exact).indirect = some block) :
    nDirect < dataBlocks data.length ∧
      ∃ inside : nDirect < (freeIds kept).length, block = (freeIds kept)[nDirect] := by
  have enough := exact
  rw [List.length_take] at enough
  have present : (file.rewritten now data _ fits exact).indirect.isSome := by
    rw [isIndirect]
    rfl
  rw [FileLayout.isSome_indirect] at present
  have many := (FileLayout.nDirect_lt_dataBlocks _).mpr present
  have total : dataBlocks data.length ≤ blocksFor data.length :=
    Nat.le_add_right _ _
  have below : nDirect < blocksFor data.length := lt_of_lt_of_le many total
  refine ⟨many, by omega, ?_⟩
  simp only [FileLayout.rewritten] at isIndirect
  rw [List.getElem?_take_of_lt below,
    List.getElem?_eq_getElem (by omega)] at isIndirect
  exact (Option.some.inj isIndirect).symm

theorem block_rewritten {disk : Disk} {file : FileLayout} {now : BitVec 32}
    {data : List Byte} {fits : data.length ≤ maxFile * blockSize}
    {exact : ((freeIds kept).take (blocksFor data.length)).length =
      blocksFor data.length} {buf : Nat → Byte}
    (direct : Filled disk kept buf 0 0 (min nDirect (dataBlocks data.length)))
    (indirect : Filled disk kept buf (nDirect + 1) nDirect
      (dataBlocks data.length - nDirect)) {k : Nat}
    (inside : k < (file.rewritten now data _ fits exact).blocks.length) :
    disk.block (file.rewritten now data _ fits exact).blocks[k] =
      bufferBlock buf (k * blockSize) := by
  have count : k < dataBlocks data.length :=
    lt_of_lt_of_eq inside (FileLayout.length_blocks _)
  rcases Nat.lt_or_ge k nDirect with below | above
  · obtain ⟨freeInside, equal⟩ := (getElem_rewritten_blocks inside).1 below
    have block := direct k (lt_min below count) (by rw [Nat.zero_add]; exact freeInside)
    simp only [Nat.zero_add] at block
    rw [equal, block]
  · obtain ⟨freeInside, equal⟩ := (getElem_rewritten_blocks inside).2 above
    have position : nDirect + 1 + (k - nDirect) = k + 1 := by omega
    have offset : nDirect + (k - nDirect) = k := by omega
    have block := indirect (k - nDirect) (by omega)
      (by rw [position]; exact freeInside)
    simp only [position, offset] at block
    rw [equal, block]

theorem get_bufferBlock (buf : Nat → Byte) (offset : Nat) {index : Nat}
    (inside : index < blockSize) :
    (bufferBlock buf offset).get index = buf (offset + index) := by
  rw [Block.get_eq _ inside]
  rfl

theorem cStr_of_lt (data : List Byte) (beyond : Nat → Byte) {index : Nat}
    (inside : index < data.length) : cStr data beyond index = data[index] := by
  rw [cStr, List.getElem?_append_left inside, List.getElem?_eq_getElem inside]
  rfl

/-- After the write loops the inode, with its new size and times, stores the
rewritten file. -/
theorem stores_rewritten {disk : Disk} {ino : Inode} {file : FileLayout}
    (now : BitVec 32) (data : List Byte) (beyond : Nat → Byte)
    (fits : data.length ≤ maxFile * blockSize)
    (exact : ((freeIds kept).take (blocksFor data.length)).length =
      blocksFor data.length)
    (type : ino.type = file.type) (atime : ino.atime = file.atime)
    (pointers : ∀ k < min nDirect (dataBlocks data.length),
      ∀ inside : k < (freeIds kept).length, ino.block k = (freeIds kept)[k])
    (direct : Filled disk kept (cStr data beyond) 0 0
      (min nDirect (dataBlocks data.length)))
    (indirectPointer : nDirect < dataBlocks data.length →
      ∀ inside : nDirect < (freeIds kept).length,
        ino.block nDirect = (freeIds kept)[nDirect])
    (entries : nDirect < dataBlocks data.length →
      ∀ inside : nDirect < (freeIds kept).length,
        ∀ k < dataBlocks data.length - nDirect,
          ∀ entryInside : nDirect + 1 + k < (freeIds kept).length,
            (disk.block (freeIds kept)[nDirect]).blockId k =
              (freeIds kept)[nDirect + 1 + k])
    (indirect : Filled disk kept (cStr data beyond) (nDirect + 1) nDirect
      (dataBlocks data.length - nDirect)) :
    Stores disk { ino with
        size := BitVec.ofInt 32 data.length, mtime := now, ctime := now }
      (file.rewritten now data _ fits exact) := by
  have lengthBlocks := (file.rewritten now data _ fits exact).length_blocks
  refine
    { type := type
      size := by simp [FileLayout.rewritten, BitVec.ofInt_natCast]
      atime := atime
      mtime := rfl
      ctime := rfl
      direct := ?direct
      indirect := ?indirect
      entries := ?entries
      content := ?content }
  case direct =>
    intro k inside below
    obtain ⟨freeInside, equal⟩ := (getElem_rewritten_blocks inside).1 below
    rw [equal]
    exact pointers k (lt_min below (lt_of_lt_of_eq inside lengthBlocks)) freeInside
  case indirect =>
    intro block isIndirect
    obtain ⟨many, freeInside, rfl⟩ := indirect_rewritten isIndirect
    exact indirectPointer many freeInside
  case entries =>
    intro block isIndirect k inside above
    obtain ⟨many, freeInside, rfl⟩ := indirect_rewritten isIndirect
    obtain ⟨entryInside, equal⟩ := (getElem_rewritten_blocks inside).2 above
    have count : k < dataBlocks data.length :=
      lt_of_lt_of_eq inside lengthBlocks
    have position : nDirect + 1 + (k - nDirect) = k + 1 := by omega
    have entry := entries many freeInside (k - nDirect) (by omega)
      (by rw [position]; exact entryInside)
    rw [equal, entry]
    congr 1
  case content =>
    intro k inside j jLt within
    rw [block_rewritten direct indirect inside, get_bufferBlock _ _ jLt]
    exact cStr_of_lt data beyond within

/-- The same above the direct blocks, where the indirect block is stored last. -/
theorem stores_rewritten_indirect {disk : Disk} {ino : Inode} {file : FileLayout}
    (now : BitVec 32) (data : List Byte) (beyond : Nat → Byte)
    (fits : data.length ≤ maxFile * blockSize)
    (exact : ((freeIds kept).take (blocksFor data.length)).length =
      blocksFor data.length)
    (many : nDirect < dataBlocks data.length)
    (indirectInside : nDirect < (freeIds kept).length)
    (type : ino.type = file.type) (atime : ino.atime = file.atime)
    (pointers : ∀ k < nDirect,
      ∀ inside : k < (freeIds kept).length, ino.block k = (freeIds kept)[k])
    (direct : Filled disk kept (cStr data beyond) 0 0 nDirect)
    (entries : ∀ k < dataBlocks data.length - nDirect,
      ∀ entryInside : nDirect + 1 + k < (freeIds kept).length,
        (disk.block (freeIds kept)[nDirect]).blockId k =
          (freeIds kept)[nDirect + 1 + k])
    (indirect : Filled disk kept (cStr data beyond) (nDirect + 1) nDirect
      (dataBlocks data.length - nDirect)) :
    Stores disk { ino.setBlock nDirect (freeIds kept)[nDirect] with
        size := BitVec.ofInt 32 data.length, mtime := now, ctime := now }
      (file.rewritten now data _ fits exact) := by
  have count := Nat.min_eq_left many.le
  have idLt : (freeIds kept)[nDirect] < 2 ^ 32 :=
    lt_trans (freeIds_bounds indirectInside).2.1 (by decide)
  refine stores_rewritten now data beyond fits exact type atime ?_ (count.symm ▸ direct) ?_
    (fun _ _ => entries) indirect
  · intro k kLt kInside
    rw [count] at kLt
    rw [Inode.block_setBlock _ (le_refl _) kLt.le idLt, if_neg kLt.ne]
    exact pointers k kLt kInside
  · intro _ _
    rw [Inode.block_setBlock _ (le_refl _) (le_refl _) idLt, if_pos rfl]

end Yfs
