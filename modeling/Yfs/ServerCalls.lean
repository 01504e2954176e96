import Yfs.WriteRoom
import Yfs.YfsRuns

/-!
# Single calls to the extent server

What one request does to a disk that holds given contents, with no assumption
that it stays within the limits of the store.  `put` of a string of at most the
maximum size replaces the bytes of one inode if there is room for them, and
addresses memory outside the disk if there is not.
-/

namespace Yfs

open ClientServer FirstFit
open ClientServer.Program (Ensures)

namespace InodeManager

/-- The blocks of the disk that are free or that the inode gives back are enough
for `size` bytes. -/
def RoomFor (im : InodeManager) (id size : Nat) : Prop :=
  blocksFor size ≤ ((Finset.Ico firstId blockNum).filter fun block =>
    im.bm.disk.idBit block = false ∨ block ∈ im.ownedBlocks id).card

instance (im : InodeManager) (id size : Nat) : Decidable (im.RoomFor id size) :=
  inferInstanceAs (Decidable (_ ≤ _))

/-- No byte of the disk has changed but those of the access time of one inode. -/
def OnlyAtime (im : InodeManager) (id : Nat) (after : InodeManager) : Prop :=
  ∀ block < blockNum, ∀ index < blockSize,
    ¬(block = iblock id ∧ 8 ≤ index ∧ index < 12) →
      (after.bm.disk.block block).get index = (im.bm.disk.block block).get index

theorem onlyAtime_withInode (im : InodeManager) {id : Nat} (inside : id < inodeNum)
    (ticks mallocs : Nat) (now : BitVec 32) :
    im.OnlyAtime id (InodeManager.withInode ⟨im.bm, im.inum, ticks, mallocs⟩ id
      { im.inodeAt id with atime := now }) := by
  intro block blockLt index indexLt outside
  by_cases isInode : block = iblock id
  · subst isInode
    rw [withInode, Disk.block_put_self _ _ blockLt]
    exact Inode.store_accessed _ now indexLt (by omega)
  · rw [InodeManager.block_withInode _ _ inside isInode]

end InodeManager

namespace Represents

variable {im : InodeManager} {layout : Layout} {id : Nat} {file : FileLayout}

theorem roomFor_iff (represents : Represents im layout)
    (live : layout.files id = some file) {size : Nat} :
    im.RoomFor id size ↔ blocksFor size ≤ (freeIds (layout.kept file)).length := by
  have nodup : (freeIds (layout.kept file)).Nodup := nodup_freeList
  have same : ((Finset.Ico firstId blockNum).filter fun block =>
      im.bm.disk.idBit block = false ∨ block ∈ im.ownedBlocks id) =
        (freeIds (layout.kept file)).toFinset := by
    ext block
    rw [Finset.mem_filter, List.mem_toFinset, freeIds, mem_freeList, Finset.mem_Ico,
      represents.ownedBlocks_eq live]
    refine and_congr_right fun bounds => ?_
    have marks := represents.marks block bounds.1 (lt_trans bounds.2 (by decide))
    rw [Layout.kept, Finset.mem_sdiff, List.mem_toFinset, ← marks, not_and_or, not_not,
      Bool.not_eq_true]
  rw [InodeManager.RoomFor, same, List.toFinset_card_of_nodup nodup]

/-- A file has room for its own bytes. -/
theorem roomFor_self (represents : Represents im layout)
    (live : layout.files id = some file) : im.RoomFor id file.data.length := by
  rw [represents.roomFor_iff live, ← file.length_owned]
  refine List.Subperm.length_le (List.Nodup.subperm
    (represents.wf.nodup id file live) fun block owned => ?_)
  have bounds := represents.wf.owned_bounds live block owned
  refine mem_freeList.mpr ⟨bounds, fun kept => ?_⟩
  exact (Finset.mem_sdiff.mp kept).2 (List.mem_toFinset.mpr owned)

end Represents

/-- The attributes of an inode. -/
def Inode.attr (ino : Inode) : Attr where
  type := ino.type.signExtend 32
  atime := ino.atime
  mtime := ino.mtime
  ctime := ino.ctime
  size := ino.size

namespace ExtentServer

/-- `getattr` copies the inode of a live one. -/
theorem getattr_live {im : InodeManager} {id : ExtentId} (live : im.IsLive (inumOf id)) :
    getattr im id = .ok ((.OK, (im.inodeAt (inumOf id)).attr), im) := by
  rw [getattr, InodeManager.getattr, im.getInode_of_lt live.1, if_neg live.2]
  rfl

/-- It reports zeros and success for every other one. -/
theorem getattr_dead {im : InodeManager} {id : ExtentId} (dead : ¬im.IsLive (inumOf id)) :
    getattr im id = .ok ((.OK, Attr.zero), im) := by
  rw [getattr, InodeManager.getattr]
  by_cases inside : inumOf id < inodeNum
  · have free : (im.inodeAt (inumOf id)).type = 0 := by
      by_contra isLive
      exact dead ⟨inside, isLive⟩
    rw [im.getInode_of_lt inside, if_pos free]
    rfl
  · rw [InodeManager.getInode, if_pos (Nat.le_of_not_lt inside)]
    rfl

/-- `getattr` changes nothing and never stops. -/
theorem getattr_returns (im : InodeManager) (id : ExtentId) :
    ∃ a, getattr im id = .ok ((.OK, a), im) := by
  by_cases live : im.IsLive (inumOf id)
  · exact ⟨_, getattr_live live⟩
  · exact ⟨_, getattr_dead live⟩

/-- After `put` the inode has the low 32 bits of the length as its size. -/
theorem size_put {env : Env} {im after : InodeManager} {id : ExtentId}
    {buf : List Byte} {reply : Status} (inside : inumOf id < inodeNum)
    (served : put env im id buf = .ok (reply, after)) :
    (after.inodeAt (inumOf id)).size = BitVec.ofNat 32 buf.length := by
  obtain ⟨next, writes, returns⟩ := bind_ok served
  cases returns
  obtain ⟨ino, bm, total, direct, written, -, -, -, -, mid, whole, puts, -, size, -⟩ :=
    InodeManager.writeFile_ok writes
  rw [mid.putInode_of_lt whole inside] at puts
  cases puts
  rw [mid.inodeAt_withInode whole inside, size, BitVec.ofInt_toInt]

end ExtentServer

namespace InodeManager

namespace Shows

variable {im : InodeManager} {contents : Contents} {id : ExtentId} {type : BitVec 32}
  {old : List Byte}

/-- The file of a live inode. -/
theorem file (shows : im.Shows contents)
    (entry : contents.ledger (inumOf id) = some (type, old)) :
    ∃ layout map file, Represents im layout ∧ layout.Abstracts map ∧
      map.Shows contents ∧ layout.files (inumOf id) = some file ∧
      file.type.signExtend 32 = type ∧ file.data = old := by
  rcases shows with ⟨map, ⟨layout, represents, abstracts⟩, shows⟩
  have views := shows.views (inumOf id)
  rw [entry, abstracts.extents] at views
  cases live : layout.files (inumOf id) with
  | none =>
      rw [live] at views
      cases views
  | some file =>
      rw [live] at views
      cases views
      exact ⟨layout, map, file, represents, abstracts, shows, live, rfl, rfl⟩

theorem entry (shows : im.Shows contents) (live : im.IsLive (inumOf id)) :
    ∃ type old, contents.ledger (inumOf id) = some (type, old) := by
  rw [shows.isLive_iff, Option.ne_none_iff_exists'] at live
  rcases live with ⟨⟨type, old⟩, entry⟩
  exact ⟨type, old, entry⟩

theorem inside (shows : im.Shows contents)
    (entry : contents.ledger (inumOf id) = some (type, old)) :
    inumOf id < inodeNum := by
  obtain ⟨layout, map, file, represents, -, -, live, -⟩ := shows.file entry
  exact represents.wf.live_lt live

theorem fits (shows : im.Shows contents)
    (entry : contents.ledger (inumOf id) = some (type, old)) :
    old.length ≤ maxFile * blockSize := by
  obtain ⟨layout, map, file, -, -, -, -, -, rfl⟩ := shows.file entry
  exact file.fits

/-- The inode has the length as its size. -/
theorem size (shows : im.Shows contents)
    (entry : contents.ledger (inumOf id) = some (type, old)) :
    (im.inodeAt (inumOf id)).size.toNat = old.length := by
  obtain ⟨layout, map, file, represents, -, -, live, -, rfl⟩ := shows.file entry
  exact (represents.stores _ file live).toNat_size

theorem typeOf_inode (shows : im.Shows contents)
    (entry : contents.ledger (inumOf id) = some (type, old)) :
    (im.inodeAt (inumOf id)).type.signExtend 32 = type := by
  obtain ⟨layout, map, file, represents, -, -, live, isType, -⟩ := shows.file entry
  rw [(represents.stores _ file live).type, isType]

theorem roomFor_self (shows : im.Shows contents)
    (entry : contents.ledger (inumOf id) = some (type, old)) :
    im.RoomFor (inumOf id) old.length := by
  obtain ⟨layout, map, file, represents, -, -, live, -, rfl⟩ := shows.file entry
  exact represents.roomFor_self live

theorem sizeOf_eq (entry : contents.ledger (inumOf id) = some (type, old)) :
    contents.sizeOf id = BitVec.ofNat 64 old.length := by
  rw [Contents.sizeOf, entry]
  rfl

/-- `getattr` of the extent server reports the type and the size. -/
theorem getattr (shows : im.Shows contents) (id : ExtentId) :
    ∃ a, ExtentServer.getattr im id = .ok ((.OK, a), im) ∧
      a.type = contents.typeOf id ∧ a.size.setWidth 64 = contents.sizeOf id := by
  obtain ⟨a, served⟩ := ExtentServer.getattr_returns im id
  have ensured : ∃ value after map, (ExtentClient.getattr id).run
      (ExtentServer.serve Env.zero) im = .ok (value, after) ∧ Holds after map ∧
        value.2.type = contents.typeOf id ∧
          value.2.size.setWidth 64 = contents.sizeOf id :=
    shows.run fun map showsMap => Ensures.of_bind_pure
      (ensures_getattr showsMap fun b type size => ⟨type, size⟩)
  rcases ensured with ⟨value, after, map, returned, -, type, size⟩
  rw [ExtentClient.getattr, Program.run_send, ExtentServer.serve, served] at returned
  cases returned
  exact ⟨a, served, type, size⟩

/-- `get` reads the bytes and changes one inode. -/
theorem get (env : Env) (shows : im.Shows contents)
    (entry : contents.ledger (inumOf id) = some (type, old)) :
    ∃ after, ExtentServer.get env im id = .ok ((.OK, old), after) ∧
      after = InodeManager.withInode ⟨im.bm, im.inum, im.ticks + 1, im.mallocs⟩
        (inumOf id) { im.inodeAt (inumOf id) with atime := env.clock im.ticks } ∧
      after.Shows contents ∧
      ∀ size, after.RoomFor (inumOf id) size ↔ im.RoomFor (inumOf id) size := by
  obtain ⟨layout, map, file, represents, abstracts, showsMap, live, -, rfl⟩ :=
    shows.file entry
  have served := represents.get_live env live
  have onLayout : layout.get env.clock id = .ok ((.OK, file.data),
      { layout with
        ticks := layout.ticks + 1
        files := Function.update layout.files (inumOf id)
          (some (file.accessed (env.clock layout.ticks))) }) := by
    simp only [Layout.get, live]
  have agree := represents.get env id
  rw [onLayout] at agree
  rcases agree with ⟨after, same, representsAfter⟩
  rw [served] at same
  cases same
  refine ⟨_, served, rfl, ?_, fun size => ?_⟩
  · have ensured : ∃ value last after, (ExtentClient.get id).run
        (ExtentServer.serve env) im = .ok (value, last) ∧ Holds last after ∧
          after.Shows contents :=
      shows.run fun map showsMap => Ensures.of_bind_pure (ensures_get showsMap
        (fun data read _ showsRead => showsRead) fun dead => by
          rw [Contents.get, entry] at dead
          cases dead)
    rcases ensured with ⟨value, last, after, returned, holds, showsAfter⟩
    rw [ExtentClient.get, Program.run_send, ExtentServer.serve, served] at returned
    cases returned
    exact ⟨after, holds, showsAfter⟩
  · rw [represents.roomFor_iff live,
      representsAfter.roomFor_iff (Function.update_self _ _ _)]
    rfl

theorem created (shows : im.Shows contents) :
    contents.created = im.inum ∧ im.inum < inodeNum := by
  rcases shows with ⟨map, ⟨layout, represents, abstracts⟩, showsMap⟩
  rw [← showsMap.created, ← abstracts.created, represents.inum]
  exact ⟨rfl, represents.wf.inum_lt⟩

theorem le_created (shows : im.Shows contents)
    (entry : contents.ledger (inumOf id) = some (type, old)) : inumOf id ≤ im.inum := by
  obtain ⟨layout, map, file, represents, -, -, live, -⟩ := shows.file entry
  rw [represents.inum]
  exact (represents.wf.live_le _ file live).2

/-- A disk determines its contents. -/
theorem unique {other : Contents} (shows : im.Shows contents) (showsOther : im.Shows other) :
    contents = other := by
  have ledger : ∀ id, contents.ledger id = other.ledger id := by
    intro id
    by_cases live : im.IsLive id
    · have here : inumOf (BitVec.ofNat 64 id) = id := inumOf_ofNat live.1
      rw [← here] at live ⊢
      obtain ⟨type, data, entry⟩ := shows.entry live
      obtain ⟨otherType, otherData, otherEntry⟩ := showsOther.entry live
      obtain ⟨after, got, -⟩ := shows.get Env.zero entry
      obtain ⟨last, same, -⟩ := showsOther.get Env.zero otherEntry
      rw [got] at same
      cases same
      rw [entry, otherEntry, ← shows.typeOf_inode entry, showsOther.typeOf_inode otherEntry]
    · have first := shows.isLive_iff.not.mp live
      have second := showsOther.isLive_iff.not.mp live
      rw [not_not.mp first, not_not.mp second]
  cases contents
  cases other
  rw [Contents.mk.injEq]
  exact ⟨shows.created.1.trans showsOther.created.1.symm, funext ledger⟩

/-- With room, `write_file` replaces the bytes, whatever memory follows them. -/
theorem writeFile (env : Env) (shows : im.Shows contents)
    (entry : contents.ledger (inumOf id) = some (type, old)) {data : List Byte}
    (fits : data.length ≤ maxFile * blockSize)
    (room : im.RoomFor (inumOf id) data.length) (beyond : Nat → Byte) :
    ∃ after, im.writeFile env (inumOf id) (cStr data beyond) data.length = .ok after ∧
      after.Shows { contents with
        ledger := Function.update contents.ledger (inumOf id) (some (type, data)) } := by
  obtain ⟨layout, map, file, represents, abstracts, showsMap, live, -, rfl⟩ :=
    shows.file entry
  rw [represents.roomFor_iff live] at room
  have within := (abstracts.room_iff live
    (file.extent.rewritten (env.clock map.ticks) data) (map.ticks + 1)).mp room
  have onMap : ∃ after, ExtentMap.serve env.clock (.put id data) map =
      .ok (Status.OK, after) := by
    simp only [ExtentMap.serve, ExtentMap.put, abstracts.extents, live, Option.map_some]
    rw [if_pos ⟨fits, within⟩]
    exact ⟨_, rfl⟩
  rcases onMap with ⟨after, put⟩
  have agree := layout_simulates_map env.clock (.put id data) layout map abstracts
  rw [put] at agree
  rcases agree with ⟨next, served, abstractsNext⟩
  obtain ⟨-, -, last, writes, representsLast⟩ := represents.writeFile env beyond served
  obtain ⟨views, wf⟩ := showsMap.step put
  obtain ⟨extent, -, -, -, -, rfl⟩ := ExtentMap.put_ok put
  rw [Ledger.record, entry] at views
  exact ⟨last, writes, _, ⟨next, representsLast, abstractsNext⟩, showsMap.created, views, wf⟩

/-- `malloc` does not touch the disk. -/
theorem allocated (shows : im.Shows contents) :
    InodeManager.Shows ⟨im.bm, im.inum, im.ticks, im.mallocs + 1⟩ contents := by
  rcases shows with ⟨map, ⟨layout, represents, abstracts⟩, showsMap⟩
  exact ⟨map, ⟨layout, { represents with }, abstracts⟩, showsMap⟩

/-- `put` with room replaces the bytes. -/
theorem put (env : Env) (shows : im.Shows contents)
    (entry : contents.ledger (inumOf id) = some (type, old)) {data : List Byte}
    (fits : data.length ≤ maxFile * blockSize)
    (room : im.RoomFor (inumOf id) data.length) :
    ∃ after, ExtentServer.put env im id data = .ok (.OK, after) ∧
      after.Shows { contents with
        ledger := Function.update contents.ledger (inumOf id) (some (type, data)) } := by
  obtain ⟨after, writes, showsAfter⟩ := shows.allocated.writeFile env entry fits room
    (env.heap im.mallocs)
  refine ⟨after, ?_, showsAfter⟩
  simp only [ExtentServer.put, InodeManager.malloc, toInt_ofNat_of_le fits, writes, bind,
    Except.bind, pure, Except.pure]

/-- `put` without room addresses memory outside the disk. -/
theorem put_full (env : Env) (shows : im.Shows contents)
    (entry : contents.ledger (inumOf id) = some (type, old)) {data : List Byte}
    (fits : data.length ≤ maxFile * blockSize)
    (full : ¬im.RoomFor (inumOf id) data.length) :
    ExtentServer.put env im id data = .error .outOfDisk := by
  obtain ⟨layout, map, file, represents, abstracts, showsMap, live, -, rfl⟩ :=
    shows.file entry
  rw [represents.roomFor_iff live] at full
  exact represents.put_full env live fits (Nat.lt_of_not_le full)

end Shows

end InodeManager

end Yfs
