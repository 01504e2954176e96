import Yfs.Ownership

/-!
# Writing without room

A file is written only if the free blocks, together with those the file gives
back, are enough for it: past the last of them `alloc_block` hands out ids
outside the disk, and the next write to the disk stops.
-/

namespace Yfs

open FirstFit
open InodeManager (bufferBlock)

section LoopRule

variable {State : Type} {bound : Int}
  {body : Nat → Nat → State → Except Fault State}

/-- What holds before every iteration holds after a loop that returns. -/
theorem blockLoop_returns {left i done total : Nat} {state after : State}
    (returns : blockLoop bound body left i done state = .ok (total, after))
    (holds : Nat → State → Prop) (start : holds i state)
    (step : ∀ i done state after, holds i state →
      body i done state = .ok after → holds (i + 1) after) :
    ∃ more, holds (i + more) after ∧ total = done + more * blockSize ∧
      more ≤ left ∧ (more = left ∨ bound ≤ total) := by
  induction left generalizing i done state with
  | zero =>
      cases returns
      exact ⟨0, start, by omega, le_refl _, Or.inl rfl⟩
  | succ left ih =>
      rw [blockLoop] at returns
      split at returns
      · cases performed : body i done state with
        | error fault =>
            rw [performed] at returns
            cases returns
        | ok middle =>
            rw [performed] at returns
            obtain ⟨more, final, total_eq, few, ends⟩ :=
              ih returns (step _ _ _ _ start performed)
            refine ⟨more + 1, ?_, ?_, Nat.succ_le_succ few, ?_⟩
            · rw [show i + (more + 1) = i + 1 + more by omega]
              exact final
            · rw [total_eq, Nat.succ_mul]
              omega
            · exact ends.imp (congrArg (· + 1)) id
      · rename_i stops
        cases returns
        exact ⟨0, start, by omega, Nat.zero_le _, Or.inr (Int.not_lt.mp stops)⟩

/-- A loop that stops, stops in one of its iterations. -/
theorem blockLoop_stops {left i done : Nat} {state : State} {fault : Fault}
    (stops : blockLoop bound body left i done state = .error fault)
    (holds : Nat → State → Prop) (start : holds i state)
    (step : ∀ i done state after, holds i state →
      body i done state = .ok after → holds (i + 1) after) :
    ∃ more middle, holds (i + more) middle ∧
      body (i + more) (done + more * blockSize) middle = .error fault ∧
      ((done + more * blockSize : Nat) : Int) < bound := by
  induction left generalizing i done state with
  | zero => cases stops
  | succ left ih =>
      rw [blockLoop] at stops
      split at stops
      · rename_i unfinished
        cases performed : body i done state with
        | error error =>
            rw [performed] at stops
            cases stops
            exact ⟨0, state, start, by simpa using performed, by simpa using unfinished⟩
        | ok next =>
            rw [performed] at stops
            obtain ⟨more, middle, held, stopped, below⟩ :=
              ih stops (step _ _ _ _ start performed)
            have index : i + (more + 1) = i + 1 + more := by omega
            have offset : done + (more + 1) * blockSize =
                done + blockSize + more * blockSize := by
              rw [Nat.succ_mul]
              omega
            refine ⟨more + 1, middle, ?_, ?_, ?_⟩
            · rw [index]
              exact held
            · rw [index, offset]
              exact stopped
            · rw [offset]
              exact below
      · cases stops

end LoopRule

theorem blocksFor_le_direct {size count : Nat} (isDirect : count ≤ nDirect)
    (enough : size ≤ count * blockSize) : blocksFor size ≤ count := by
  rw [blocksFor, dataBlocks]
  split
  · simp only [nDirect, blockSize] at *
    omega
  · simp only [nDirect, blockSize] at *
    omega

theorem blocksFor_le_indirect {size more : Nat}
    (enough : size ≤ (nDirect + more) * blockSize) :
    blocksFor size ≤ nDirect + 1 + more := by
  rw [blocksFor, dataBlocks]
  split
  · simp only [nDirect, blockSize] at *
    omega
  · simp only [nDirect, blockSize] at *
    omega

/-- `count` blocks of the disk have been taken that `kept` does not hold. -/
def Took (bm : BlockManager) (kept : Finset Nat) (count : Nat) : Prop :=
  ∃ taken : Finset Nat, taken.card = count ∧
    taken ⊆ Finset.Ico firstId blockNum \ kept ∧ bm.disk.Marks (kept ∪ taken)

namespace Took

variable {bm next last : BlockManager} {kept used : Finset Nat} {count id : Nat}

/-- An id that can be written afterwards was free, and is taken now. -/
theorem alloc_of_inside (marks : bm.disk.Marks used)
    (allocates : bm.allocBlock = .ok (id, next)) (inside : id < blockNum) :
    firstId ≤ id ∧ id ∉ used ∧ next.disk.Marks (insert id used) := by
  rcases bm.allocBlock_cases marks with ⟨first, isFirst, result⟩ | ⟨-, result⟩
  · rw [result] at allocates
    cases allocates
    exact ⟨isFirst.low_le, isFirst.free, bm.marks_allocated marks isFirst.lt_high⟩
  · rw [result] at allocates
    cases allocates
    exact absurd inside (by decide)

theorem inside_of_write {buf : Block} (writes : bm.writeBlock id buf = .ok last) :
    id < blockNum := by
  by_contra outside
  rw [bm.writeBlock_of_ge buf (Nat.le_of_not_lt outside)] at writes
  cases writes

theorem take (took : Took bm kept count) (allocates : bm.allocBlock = .ok (id, next))
    (inside : id < blockNum) : firstId ≤ id ∧ Took next kept (count + 1) := by
  rcases took with ⟨taken, card, within, marks⟩
  obtain ⟨low, free, marksNext⟩ := alloc_of_inside marks allocates inside
  rw [Finset.mem_union, not_or] at free
  refine ⟨low, insert id taken, ?_, ?_, ?_⟩
  · rw [Finset.card_insert_of_notMem free.2, card]
  · refine Finset.insert_subset ?_ within
    exact Finset.mem_sdiff.mpr ⟨Finset.mem_Ico.mpr ⟨low, inside⟩, free.1⟩
  · rw [Finset.union_insert]
    exact marksNext

theorem alloc (took : Took bm kept count) {buf : Block}
    (allocates : bm.allocBlock = .ok (id, next))
    (writes : next.writeBlock id buf = .ok last) : Took last kept (count + 1) := by
  have inside := inside_of_write writes
  obtain ⟨low, taken, card, within, marks⟩ := took.take allocates inside
  rw [next.writeBlock_of_lt buf inside] at writes
  cases writes
  exact ⟨taken, card, within, marks.put buf inside (le_trans (by decide) low)⟩

theorem card_le (took : Took bm kept count) : count ≤ (freeIds kept).length := by
  rcases took with ⟨taken, rfl, within, -⟩
  have free : (freeIds kept).toFinset = Finset.Ico firstId blockNum \ kept := by
    ext number
    simp [freeIds]
  have nodup : (freeIds kept).Nodup := nodup_freeList
  rw [← List.toFinset_card_of_nodup nodup, free]
  exact Finset.card_le_card within

theorem writeDirect {buf : Nat → Byte} {i done : Nat} {state after : BlockManager × Inode}
    (took : Took state.1 kept count)
    (returns : InodeManager.writeDirect buf i done state = .ok after) :
    Took after.1 kept (count + 1) := by
  obtain ⟨⟨id, next⟩, allocates, -⟩ := bind_ok returns
  rw [InodeManager.writeDirect_eq allocates] at returns
  obtain ⟨last, writes, returns⟩ := bind_ok returns
  cases returns
  exact took.alloc allocates writes

theorem writeIndirect {buf : Nat → Byte} {i done : Nat}
    {state after : BlockManager × Block} (took : Took state.1 kept count)
    (returns : InodeManager.writeIndirect buf i done state = .ok after) :
    Took after.1 kept (count + 1) := by
  obtain ⟨⟨id, next⟩, allocates, -⟩ := bind_ok returns
  rw [InodeManager.writeIndirect_eq allocates] at returns
  split at returns
  · obtain ⟨last, writes, returns⟩ := bind_ok returns
    cases returns
    exact took.alloc allocates writes
  · cases returns

theorem writeIndirectBlocks_ok {ino written : Inode} {buf memory : Nat → Byte}
    {size : Int} {done : Nat}
    (returns : InodeManager.writeIndirectBlocks bm ino buf size done memory =
      .ok (last, written)) :
    ∃ id next total filled pointers, bm.allocBlock = .ok (id, next) ∧
      blockLoop size (InodeManager.writeIndirect buf) (nIndirect + 1) 0 done
        (next, fun index => memory index.val) = .ok (total, filled, pointers) ∧
      filled.writeBlock id pointers = .ok last := by
  cases allocates : bm.allocBlock with
  | error fault =>
      rw [InodeManager.writeIndirectBlocks, allocates] at returns
      cases returns
  | ok answer =>
      rcases answer with ⟨id, next⟩
      cases loops : blockLoop size (InodeManager.writeIndirect buf) (nIndirect + 1) 0
          done (next, fun index => memory index.val) with
      | error fault =>
          simp only [InodeManager.writeIndirectBlocks, allocates, loops, bind,
            Except.bind, reduceCtorEq] at returns
      | ok answer =>
          rcases answer with ⟨total, filled, pointers⟩
          cases writes : filled.writeBlock id pointers with
          | error fault =>
              simp only [InodeManager.writeIndirectBlocks, allocates, loops, writes,
                bind, Except.bind, reduceCtorEq] at returns
          | ok final =>
              simp only [InodeManager.writeIndirectBlocks, allocates, loops, writes,
                bind, Except.bind, pure, Except.pure, Except.ok.injEq,
                Prod.mk.injEq] at returns
              rcases returns with ⟨rfl, -⟩
              exact ⟨id, next, total, filled, pointers, rfl, loops, writes⟩

/-- The indirect part takes its pointer block, which it writes last, and the data
blocks that are left. -/
theorem writeIndirectBlocks {ino written : Inode} {buf memory : Nat → Byte}
    {size first : Nat} (took : Took bm kept count)
    (returns : InodeManager.writeIndirectBlocks bm ino buf size (first * blockSize) memory =
      .ok (last, written)) :
    ∃ more, count + 1 + more ≤ (freeIds kept).length ∧
      (more = nIndirect + 1 ∨ size ≤ (first + more) * blockSize) := by
  obtain ⟨id, next, total, filled, pointers, allocates, loops, writes⟩ :=
    writeIndirectBlocks_ok returns
  obtain ⟨-, tookId⟩ := took.take allocates (inside_of_write writes)
  obtain ⟨more, tookAll, ends, -, stops⟩ := blockLoop_returns loops
    (fun i state => Took state.1 kept (count + 1 + i)) tookId
    fun _ _ _ _ => writeIndirect
  rw [Nat.zero_add] at tookAll
  refine ⟨more, tookAll.card_le, stops.imp_right fun enough => ?_⟩
  rw [Nat.add_mul, ← ends]
  exact_mod_cast enough

end Took

theorem InodeManager.writeFile_ok {im after : InodeManager} {env : Env} {id : Nat}
    {buf : Nat → Byte} {size : Int} (returns : im.writeFile env id buf size = .ok after) :
    ∃ ino bm total direct written, im.derefInode id = .ok ino ∧
      InodeManager.releaseBlocks im.bm ino ino.size.toNat = .ok bm ∧
      blockLoop size (InodeManager.writeDirect buf) nDirect 0 0 (bm, ino) =
        .ok (total, direct, written) ∧
      ((total : Int) < size → ∃ last whole,
        InodeManager.writeIndirectBlocks direct written buf size total
          (env.heap im.mallocs) = .ok (last, whole)) ∧
      ∃ mid whole, InodeManager.putInode mid id whole = .ok after ∧
        mid.ticks = im.ticks + 1 ∧ whole.size = BitVec.ofInt 32 size ∧
        whole.mtime = env.clock im.ticks ∧ whole.ctime = env.clock im.ticks := by
  obtain ⟨ino, derefs, returns⟩ := bind_ok returns
  obtain ⟨bm, releases, returns⟩ := bind_ok returns
  obtain ⟨⟨total, direct, written⟩, loops, returns⟩ := bind_ok returns
  refine ⟨ino, bm, total, direct, written, derefs, releases, loops, ?_⟩
  by_cases unfinished : (total : Int) < size
  · cases indirect : InodeManager.writeIndirectBlocks direct written buf size total
        (env.heap im.mallocs) with
    | error fault =>
        simp only [if_pos unfinished, InodeManager.malloc, indirect, bind, Except.bind,
          reduceCtorEq] at returns
    | ok answer =>
        rcases answer with ⟨last, whole⟩
        simp only [if_pos unfinished, InodeManager.malloc, indirect, bind, Except.bind,
          pure, Except.pure] at returns
        exact ⟨fun _ => ⟨last, whole, rfl⟩, _, _, returns, rfl, rfl, rfl, rfl⟩
  · simp only [if_neg unfinished, bind, Except.bind, pure, Except.pure] at returns
    exact ⟨fun below => absurd below unfinished, _, _, returns, rfl, rfl, rfl, rfl⟩

/-- The bitmap is that of some set of blocks. -/
def Marked (bm : BlockManager) : Prop :=
  ∃ used, bm.disk.Marks used

namespace Marked

variable {bm next last : BlockManager} {id : Nat} {buf : Block} {fault : Fault}

theorem alloc (marked : Marked bm) :
    ∃ id next, bm.allocBlock = .ok (id, next) ∧ 10 ≤ id ∧ Marked next := by
  rcases marked with ⟨used, marks⟩
  rcases bm.allocBlock_cases marks with ⟨first, isFirst, result⟩ | ⟨-, result⟩
  · exact ⟨first, _, result, le_trans (by decide) isFirst.low_le, _,
      bm.marks_allocated marks isFirst.lt_high⟩
  · exact ⟨noBlock, _, result, by decide, used, marks⟩

theorem write (marked : Marked bm) (low : 10 ≤ id)
    (writes : bm.writeBlock id buf = .ok last) : Marked last := by
  rcases marked with ⟨used, marks⟩
  have inside := Took.inside_of_write writes
  rw [bm.writeBlock_of_lt buf inside] at writes
  cases writes
  exact ⟨used, marks.put buf inside low⟩

theorem write_stops (stops : bm.writeBlock id buf = .error fault) : fault = .outOfDisk := by
  rcases Nat.lt_or_ge id blockNum with inside | outside
  · rw [bm.writeBlock_of_lt buf inside] at stops
    cases stops
  · rw [bm.writeBlock_of_ge buf outside] at stops
    cases stops
    rfl

variable {bytes : Nat → Byte} {i done : Nat}

theorem writeDirect {state after : BlockManager × Inode} (marked : Marked state.1)
    (returns : InodeManager.writeDirect bytes i done state = .ok after) :
    Marked after.1 := by
  obtain ⟨id, next, allocates, low, markedNext⟩ := marked.alloc
  rw [InodeManager.writeDirect_eq allocates] at returns
  obtain ⟨last, writes, returns⟩ := bind_ok returns
  cases returns
  exact markedNext.write low writes

theorem writeDirect_stops {state : BlockManager × Inode} (marked : Marked state.1)
    (stops : InodeManager.writeDirect bytes i done state = .error fault) :
    fault = .outOfDisk := by
  obtain ⟨id, next, allocates, low, markedNext⟩ := marked.alloc
  rw [InodeManager.writeDirect_eq allocates] at stops
  rcases bind_stops stops with writes | ⟨last, -, returns⟩
  · exact write_stops writes
  · cases returns

theorem writeIndirect {state after : BlockManager × Block} (marked : Marked state.1)
    (returns : InodeManager.writeIndirect bytes i done state = .ok after) :
    Marked after.1 := by
  obtain ⟨id, next, allocates, low, markedNext⟩ := marked.alloc
  rw [InodeManager.writeIndirect_eq allocates] at returns
  split at returns
  · obtain ⟨last, writes, returns⟩ := bind_ok returns
    cases returns
    exact markedNext.write low writes
  · cases returns

/-- The body of the indirect loop stops outside the disk or past the entries. -/
theorem writeIndirect_stops {state : BlockManager × Block} (marked : Marked state.1)
    (stops : InodeManager.writeIndirect bytes i done state = .error fault) :
    fault = .outOfDisk ∨ nIndirect ≤ i ∧ fault = .overrun := by
  obtain ⟨id, next, allocates, low, markedNext⟩ := marked.alloc
  rw [InodeManager.writeIndirect_eq allocates] at stops
  split at stops
  · rcases bind_stops stops with writes | ⟨last, -, returns⟩
    · exact Or.inl (write_stops writes)
    · cases returns
  · rename_i past
    cases stops
    exact Or.inr ⟨Nat.le_of_not_lt past, rfl⟩

/-- The indirect part stops outside the disk, or past the entries if the size is
above the maximum. -/
theorem writeIndirectBlocks_stops {ino : Inode} {memory : Nat → Byte} {size : Nat}
    (marked : Marked bm)
    (stops : InodeManager.writeIndirectBlocks bm ino bytes size (nDirect * blockSize)
      memory = .error fault) :
    fault = .outOfDisk ∨ maxFile * blockSize < size ∧ fault = .overrun := by
  obtain ⟨id, next, allocates, low, markedNext⟩ := marked.alloc
  cases loops : blockLoop size (InodeManager.writeIndirect bytes) (nIndirect + 1) 0
      (nDirect * blockSize) (next, fun index => memory index.val) with
  | error error =>
      simp only [InodeManager.writeIndirectBlocks, allocates, loops, bind,
        Except.bind] at stops
      cases stops
      obtain ⟨more, middle, markedMiddle, stopped, below⟩ :=
        blockLoop_stops loops (fun _ state => Marked state.1) markedNext
          fun _ _ _ _ => writeIndirect
      refine (writeIndirect_stops markedMiddle stopped).imp_right fun past => ?_
      refine ⟨?_, past.2⟩
      have entries := past.1
      simp only [maxFile, nDirect, nIndirect, blockSize] at *
      omega
  | ok answer =>
      rcases answer with ⟨total, filled, pointers⟩
      simp only [InodeManager.writeIndirectBlocks, allocates, loops, bind,
        Except.bind] at stops
      cases writes : filled.writeBlock id pointers with
      | error error =>
          rw [writes] at stops
          cases stops
          exact Or.inl (write_stops writes)
      | ok final =>
          rw [writes] at stops
          cases stops

end Marked

namespace Represents

variable {im after : InodeManager} {layout : Layout} {id : Nat} {file : FileLayout}

/-- `write_file` returns only if there is room for the new content. -/
theorem room_of_writeFile (env : Env) (represents : Represents im layout)
    (live : layout.files id = some file) {buf : Nat → Byte} {size : Nat}
    (fits : size ≤ maxFile * blockSize)
    (returns : im.writeFile env id buf size = .ok after) :
    blocksFor size ≤ (freeIds (layout.kept file)).length := by
  have stores := represents.stores id file live
  obtain ⟨bm, releases, released⟩ := releaseBlocks_spec stores
    (represents.wf.nodup id file live) represents.marks
    (represents.wf.owned_subset live) represents.wf.within
  have tookNone : Took bm (layout.kept file) 0 :=
    ⟨∅, rfl, Finset.empty_subset _, by rw [Finset.union_empty]; exact released.marks⟩
  obtain ⟨ino, freed, total, direct, written, derefs, frees, loops, indirect, -⟩ :=
    InodeManager.writeFile_ok returns
  rw [represents.derefInode_live live] at derefs
  cases derefs
  rw [stores.toNat_size, releases] at frees
  obtain rfl := Except.ok.inj frees
  obtain ⟨count, took, rfl, isDirect, stops⟩ := blockLoop_returns loops
    (fun i state => Took state.1 (layout.kept file) i) tookNone
    fun _ _ _ _ => Took.writeDirect
  rw [Nat.zero_add] at took
  rw [Nat.zero_add] at stops indirect
  by_cases unfinished : ((count * blockSize : Nat) : Int) < size
  · obtain ⟨last, whole, writes⟩ := indirect unfinished
    obtain ⟨more, enough, finished⟩ := took.writeIndirectBlocks writes
    obtain rfl : count = nDirect := stops.resolve_right (Int.not_le.mpr unfinished)
    refine le_trans (blocksFor_le_indirect ?_) enough
    rcases finished with rfl | finished
    · exact le_trans fits (by decide)
    · exact finished
  · refine le_trans (blocksFor_le_direct isDirect ?_) took.card_le
    exact_mod_cast Int.not_lt.mp unfinished

/-- `write_file` stops outside the disk, or past the entries of the indirect block
if the size is above the maximum. -/
theorem writeFile_stops (env : Env) (represents : Represents im layout)
    (live : layout.files id = some file) {buf : Nat → Byte} {size : Nat} {fault : Fault}
    (stops : im.writeFile env id buf size = .error fault) :
    fault = .outOfDisk ∨ maxFile * blockSize < size ∧ fault = .overrun := by
  have inside := represents.wf.live_lt live
  have stores := represents.stores id file live
  obtain ⟨bm, releases, released⟩ := releaseBlocks_spec stores
    (represents.wf.nodup id file live) represents.marks
    (represents.wf.owned_subset live) represents.wf.within
  have marked : Marked bm := ⟨_, released.marks⟩
  simp only [InodeManager.writeFile, represents.derefInode_live live, bind,
    Except.bind, stores.toNat_size, releases] at stops
  cases loops : blockLoop (size : Int) (InodeManager.writeDirect buf) nDirect 0 0
      (bm, im.inodeAt id) with
  | error error =>
      rw [loops] at stops
      cases stops
      obtain ⟨more, middle, markedMiddle, stopped, -⟩ :=
        blockLoop_stops loops (fun _ state => Marked state.1) marked
          fun _ _ _ _ => Marked.writeDirect
      exact Or.inl (Marked.writeDirect_stops markedMiddle stopped)
  | ok answer =>
      rcases answer with ⟨total, direct, written⟩
      obtain ⟨count, markedDirect, rfl, -, ends⟩ := blockLoop_returns loops
        (fun _ state => Marked state.1) marked fun _ _ _ _ => Marked.writeDirect
      rw [Nat.zero_add] at ends
      simp only [loops, Nat.zero_add] at stops
      by_cases unfinished : ((count * blockSize : Nat) : Int) < size
      · obtain rfl : count = nDirect := ends.resolve_right (Int.not_le.mpr unfinished)
        cases indirect : InodeManager.writeIndirectBlocks direct written buf size
            (nDirect * blockSize) (env.heap im.mallocs) with
        | error error =>
            simp only [if_pos unfinished, InodeManager.malloc, indirect] at stops
            cases stops
            exact Marked.writeIndirectBlocks_stops markedDirect indirect
        | ok answer =>
            rcases answer with ⟨last, whole⟩
            simp only [if_pos unfinished, InodeManager.malloc, indirect, pure, Except.pure,
              InodeManager.time, InodeManager.putInode_of_lt _ _ inside,
              reduceCtorEq] at stops
      · simp only [if_neg unfinished, pure, Except.pure, InodeManager.time,
          InodeManager.putInode_of_lt _ _ inside, reduceCtorEq] at stops

/-- Without room, `write_file` addresses memory outside the disk. -/
theorem writeFile_full (env : Env) (represents : Represents im layout)
    (live : layout.files id = some file) {buf : Nat → Byte} {size : Nat}
    (fits : size ≤ maxFile * blockSize)
    (full : (freeIds (layout.kept file)).length < blocksFor size) :
    im.writeFile env id buf size = .error .outOfDisk := by
  cases written : im.writeFile env id buf size with
  | ok after =>
      exact absurd (represents.room_of_writeFile env live fits written)
        (Nat.not_le.mpr full)
  | error fault =>
      rcases represents.writeFile_stops env live written with rfl | ⟨large, -⟩
      · rfl
      · exact absurd fits (Nat.not_le.mpr large)

theorem put_full (env : Env) (represents : Represents im layout) {target : ExtentId}
    (live : layout.files (inumOf target) = some file) {buf : List Byte}
    (fits : buf.length ≤ maxFile * blockSize)
    (full : (freeIds (layout.kept file)).length < blocksFor buf.length) :
    ExtentServer.put env im target buf = .error .outOfDisk := by
  have allocated : Represents ⟨im.bm, im.inum, im.ticks, im.mallocs + 1⟩ layout :=
    { represents with }
  have stops : InodeManager.writeFile ⟨im.bm, im.inum, im.ticks, im.mallocs + 1⟩ env
      (inumOf target) (cStr buf (env.heap im.mallocs)) buf.length = .error .outOfDisk :=
    allocated.writeFile_full env live fits full
  simp only [ExtentServer.put, InodeManager.malloc, toInt_ofNat_of_le fits, stops, bind,
    Except.bind]

end Represents

end Yfs
