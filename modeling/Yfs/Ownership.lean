import Yfs.StoreRuns

/-!
# Block ownership on the disk

Which blocks an inode owns can be read off the disk: the first 100 ids of its
data blocks stand in the inode, the others in the indirect block, which exists
exactly above 100 blocks.  In every reachable state the bits set in the bitmap
are those of the blocks owned by the live inodes, and no block is owned twice.
`put` and `remove` free each block of the old file once, and its bit is set then.
-/

namespace Yfs

open ClientServer FirstFit

namespace InodeManager

/-- `get_inode` finds the inode. -/
def IsLive (im : InodeManager) (id : Nat) : Prop :=
  id < inodeNum ∧ (im.inodeAt id).type ≠ 0

/-- The id of data block `k` of an inode. -/
def dataBlock (im : InodeManager) (ino : Inode) (k : Nat) : Nat :=
  if k < nDirect then ino.block k
  else (im.bm.disk.block (ino.block nDirect)).blockId (k - nDirect)

/-- The data blocks of an inode in file order, then its indirect block. -/
def ownedBlocks (im : InodeManager) (id : Nat) : List Nat :=
  let ino := im.inodeAt id
  (List.range (dataBlocks ino.size.toNat)).map (im.dataBlock ino) ++
    if nDirect * blockSize < ino.size.toNat then [ino.block nDirect] else []

/-- The bitmap blocks 2 to 9 mark exactly the owned blocks, and no block is
owned twice. -/
structure Ownership (im : InodeManager) : Prop where
  marked : ∀ block, firstId ≤ block → block < lastId →
    (im.bm.disk.idBit block = true ↔
      ∃ id, im.IsLive id ∧ block ∈ im.ownedBlocks id)
  within : ∀ id, im.IsLive id → ∀ block ∈ im.ownedBlocks id,
    firstId ≤ block ∧ block < blockNum
  nodup : ∀ id, im.IsLive id → (im.ownedBlocks id).Nodup
  disjoint : ∀ first second, im.IsLive first → im.IsLive second →
    first ≠ second → (im.ownedBlocks first).Disjoint (im.ownedBlocks second)

/-- The blocks that a request gives back. -/
def freedBy (im : InodeManager) : ExtentRequest → List Nat
  | .put id _ => im.ownedBlocks (inumOf id)
  | .remove id => im.ownedBlocks (inumOf id)
  | _ => []

/-- The blocks that a request has taken, in the state after it. -/
def takenBy (im : InodeManager) : ExtentRequest → List Nat
  | .put id _ => im.ownedBlocks (inumOf id)
  | _ => []

end InodeManager

namespace Represents

variable {im : InodeManager} {layout : Layout} {id : Nat}

theorem isLive_iff (represents : Represents im layout) :
    im.IsLive id ↔ ∃ file, layout.files id = some file := by
  constructor
  · rintro ⟨inside, isLive⟩
    cases live : layout.files id with
    | none => exact absurd (represents.free id live inside) isLive
    | some file => exact ⟨file, rfl⟩
  · rintro ⟨file, live⟩
    refine ⟨represents.wf.live_lt live, ?_⟩
    rw [(represents.stores id file live).type]
    exact file.type_ne

/-- The blocks read off the disk are those of the layout. -/
theorem ownedBlocks_eq (represents : Represents im layout) {file : FileLayout}
    (live : layout.files id = some file) : im.ownedBlocks id = file.owned := by
  have stores := represents.stores id file live
  have blocks : (List.range (dataBlocks (im.inodeAt id).size.toNat)).map
      (im.dataBlock (im.inodeAt id)) = file.blocks := by
    rw [stores.toNat_size, ← file.length_blocks]
    refine List.ext_getElem (by simp) fun k kLt inside => ?_
    rw [List.getElem_map, List.getElem_range, InodeManager.dataBlock]
    split
    · rename_i below
      exact stores.direct k inside below
    · rename_i above
      have many : nDirect < dataBlocks file.data.length := by
        rw [← file.length_blocks]
        omega
      obtain ⟨block, isIndirect⟩ := Option.isSome_iff_exists.mp
        (file.isSome_indirect.mpr ((FileLayout.nDirect_lt_dataBlocks _).mp many))
      rw [stores.indirect block isIndirect]
      exact stores.entries block isIndirect k inside (Nat.le_of_not_lt above)
  have indirect : (if nDirect * blockSize < (im.inodeAt id).size.toNat then
      [(im.inodeAt id).block nDirect] else []) = file.indirect.toList := by
    have isSome := file.isSome_indirect
    rw [stores.toNat_size]
    cases value : file.indirect with
    | none =>
        rw [value] at isSome
        have small : ¬nDirect * blockSize < file.data.length := by simpa using isSome
        rw [if_neg small]
        rfl
    | some block =>
        rw [value] at isSome
        have large : nDirect * blockSize < file.data.length := by simpa using isSome
        rw [if_pos large, stores.indirect block value]
        rfl
  rw [InodeManager.ownedBlocks, blocks, indirect, FileLayout.owned]

theorem ownership (represents : Represents im layout) : im.Ownership where
  marked := by
    intro block low high
    rw [represents.marks block low high, represents.wf.mem_used]
    constructor
    · rintro ⟨id, file, live, member⟩
      refine ⟨id, represents.isLive_iff.mpr ⟨file, live⟩, ?_⟩
      rwa [represents.ownedBlocks_eq live]
    · rintro ⟨id, isLive, member⟩
      obtain ⟨file, live⟩ := represents.isLive_iff.mp isLive
      rw [represents.ownedBlocks_eq live] at member
      exact ⟨id, file, live, member⟩
  within := by
    intro id isLive block member
    obtain ⟨file, live⟩ := represents.isLive_iff.mp isLive
    rw [represents.ownedBlocks_eq live] at member
    exact represents.wf.owned_bounds live block member
  nodup := by
    intro id isLive
    obtain ⟨file, live⟩ := represents.isLive_iff.mp isLive
    rw [represents.ownedBlocks_eq live]
    exact represents.wf.nodup id file live
  disjoint := by
    intro first second firstLive secondLive different
    obtain ⟨one, oneLive⟩ := represents.isLive_iff.mp firstLive
    obtain ⟨other, otherLive⟩ := represents.isLive_iff.mp secondLive
    rw [represents.ownedBlocks_eq oneLive, represents.ownedBlocks_eq otherLive]
    exact represents.wf.disjoint first second one other oneLive otherLive different

end Represents

namespace Layout

variable {layout after : Layout}

/-- What one request does to the allocator: it frees the blocks of the file it
replaces or removes, then takes those of the new one. -/
theorem serve_calls (clock : Nat → BitVec 32) (request : ExtentRequest)
    {reply : ExtentReply request} {im next : InodeManager}
    (represents : Represents im layout)
    (served : serve clock request layout = .ok (reply, after))
    (representsNext : Represents next after) :
    ∃ taken : List Nat,
      after.calls = layout.calls ++ (im.freedBy request).map (.free · true) ++
      taken.map .alloc ∧ taken.Perm (next.takenBy request) := by
  cases request with
  | create type =>
      obtain ⟨-, -, rfl⟩ := create_ok served
      exact ⟨[], by simp [InodeManager.freedBy], List.Perm.refl _⟩
  | put target buf =>
      obtain ⟨file, live, fits, exact, -, rfl⟩ := put_ok served
      refine ⟨_, by rw [InodeManager.freedBy, represents.ownedBlocks_eq live], ?_⟩
      rw [InodeManager.takenBy, representsNext.ownedBlocks_eq (by
        exact Function.update_self _ _ _)]
      exact owned_rewritten_perm.symm
  | get target =>
      obtain ⟨file, -, -, rfl⟩ := get_ok served
      exact ⟨[], by simp [InodeManager.freedBy], List.Perm.refl _⟩
  | getattr target =>
      cases served
      exact ⟨[], by simp [InodeManager.freedBy], List.Perm.refl _⟩
  | remove target =>
      obtain ⟨file, live, -, rfl⟩ := remove_ok served
      refine ⟨[], ?_, List.Perm.refl _⟩
      rw [InodeManager.freedBy, represents.ownedBlocks_eq live]
      simp

end Layout

/-- In every state that a run within the limits of the disk reaches, whatever types it
asks for, the bitmap marks exactly the blocks owned by the live inodes, each owned once.
The next request frees exactly the blocks of the file it replaces or removes, each once
and each with its bit set, and the blocks it takes are those the new file owns. -/
theorem blocks_owned_exactly_once (env : Env) (requests : List ExtentRequest)
    (history : List Exchange) (layout : Layout)
    (allowed : (session exchange requests).run (Layout.serve env.clock)
      (Layout.init env.clock) = .ok (history, layout)) :
    ∃ start im, InodeManager.init env = .ok start ∧
      (session exchange requests).run (ExtentServer.serve env) start =
        .ok (history, im) ∧
      im.Ownership ∧
      ∀ request reply after,
        Layout.serve env.clock request layout = .ok (reply, after) →
          ∃ (next : InodeManager) (taken : List Nat),
            ExtentServer.serve env request im = .ok (reply, next) ∧
            next.Ownership ∧
            next.bm.calls = im.bm.calls ++
              (im.freedBy request).map (.free · true) ++ taken.map .alloc ∧
            taken.Perm (next.takenBy request) := by
  obtain ⟨start, im, starts, returns, represents⟩ := server_returns env allowed
  refine ⟨start, im, starts, returns, represents.ownership, ?_⟩
  intro request reply after served
  have serverStep := simulates_layout env request im layout represents
  rw [served] at serverStep
  rcases serverStep with ⟨next, serverServed, nextRepresents⟩
  obtain ⟨taken, calls, perm⟩ :=
    Layout.serve_calls env.clock request represents served nextRepresents
  refine ⟨next, taken, serverServed, nextRepresents.ownership, ?_, perm⟩
  rw [nextRepresents.calls, represents.calls, calls]

/-- An inode of a type that is cut to 16 bits is written, then removed. -/
theorem blocks_owned_exactly_once_remove :
    ∃ start im, InodeManager.init Env.zero = .ok start ∧
      (session exchange [.create 65538, .put 2 [7]]).run
          (ExtentServer.serve Env.zero) start =
        .ok ([⟨.create 65538, (.OK, 2)⟩, ⟨.put 2 [7], .OK⟩], im) ∧
      im.Ownership ∧
      ∃ (next : InodeManager) (taken : List Nat),
        ExtentServer.serve Env.zero (.remove 2) im = .ok (Status.OK, next) ∧
          next.Ownership ∧
          next.bm.calls = im.bm.calls ++
            (im.freedBy (.remove 2)).map (.free · true) ++ taken.map .alloc ∧
          taken.Perm (next.takenBy (.remove 2)) := by
  have created : ∃ made file, (Layout.init Env.zero.clock).create Env.zero.clock 65538 =
      .ok ((.OK, 2), made) ∧ made.used = ∅ ∧ made.files (inumOf 2) = some file :=
    ⟨_, _, rfl, rfl, rfl⟩
  obtain ⟨made, file, created, unused, live⟩ := created
  have room : blocksFor [(7 : Byte)].length ≤
      (freeList firstId blockNum (made.kept file)).length := by
    have count := length_freeList_add_card (Finset.empty_subset (Finset.Ico firstId blockNum))
    rw [Layout.kept, unused, Finset.empty_sdiff]
    rw [Finset.card_empty, Nat.add_zero] at count
    rw [count]
    decide
  obtain ⟨layout, new, put, -, -, files, -⟩ :=
    Layout.put_live Env.zero.clock live (by decide) room
  have allowed : (session exchange [.create 65538, .put 2 [7]]).run
      (Layout.serve Env.zero.clock) (Layout.init Env.zero.clock) =
        .ok ([⟨.create 65538, (.OK, 2)⟩, ⟨.put 2 [7], .OK⟩], layout) := by
    simp only [run_session_cons, exchange, Program.run_bind, Program.run_send, Layout.serve,
      created, put, Program.run_pure, run_session_nil]
  have removed : ∃ after, Layout.serve Env.zero.clock (.remove 2) layout =
      .ok (Status.OK, after) := by
    simp only [Layout.serve, Layout.remove, files, Function.update_self]
    exact ⟨_, rfl⟩
  obtain ⟨after, removed⟩ := removed
  obtain ⟨start, im, starts, returns, owns, next⟩ :=
    blocks_owned_exactly_once Env.zero [.create 65538, .put 2 [7]] _ layout allowed
  exact ⟨start, im, starts, returns, owns, next (.remove 2) _ after removed⟩

end Yfs
