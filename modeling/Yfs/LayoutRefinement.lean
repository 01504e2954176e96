import Yfs.LayoutInvariant
import Yfs.ReadLoops
import Yfs.WriteLoops

/-!
# The extent server refines the layouts

`Represents` relates the memory of the inode manager to a layout: the bitmap
marks the used blocks, the inode of each live file stores it, and every other
inode of the table has type 0.  From related states the server and the layout
answer every request alike, as long as the layout is not driven beyond its
limits.
-/

namespace Yfs

open ClientServer FirstFit

/-- File sizes are below the sign bit of a 32-bit word. -/
theorem toInt_ofNat_of_le {size : Nat} (fits : size ≤ maxFile * blockSize) :
    (BitVec.ofNat 32 size).toInt = size := by
  simp only [maxFile, nDirect, nIndirect, blockSize] at fits
  have small : size < 2 ^ 31 := by omega
  rw [BitVec.toInt_eq_toNat_of_lt, BitVec.toNat_ofNat, Nat.mod_eq_of_lt (by omega)]
  · rw [BitVec.toNat_ofNat]
    omega

theorem iblock_bounds {id : Nat} (inside : id < inodeNum) :
    10 ≤ iblock id ∧ iblock id < firstId ∧ iblock id < blockNum := by
  simp only [iblock, inodeNum, firstId, blockNum, diskSize, bpb, blockSize] at *
  omega

theorem iblock_ne {id other : Nat} (different : other ≠ id) :
    iblock other ≠ iblock id := by
  simp only [iblock]
  omega

namespace InodeManager

/-- The inode that block `IBLOCK(id)` holds. -/
def inodeAt (im : InodeManager) (id : Nat) : Inode :=
  Inode.load (im.bm.disk.block (iblock id))

/-- The inode manager with `ino` written to the inode table. -/
def withInode (im : InodeManager) (id : Nat) (ino : Inode) : InodeManager :=
  { im with bm := { im.bm with
      disk := im.bm.disk.put (iblock id) (ino.store (im.bm.disk.block (iblock id))) } }

variable (im : InodeManager) {id : Nat} (ino : Inode)

theorem getInode_of_lt (inside : id < inodeNum) :
    im.getInode id =
      .ok (if (im.inodeAt id).type = 0 then none else some (im.inodeAt id)) := by
  simp only [getInode, if_neg (Nat.not_le.mpr inside), bind, Except.bind,
    im.bm.readBlock_of_lt (iblock_bounds inside).2.2, pure, Except.pure]
  rfl

theorem putInode_of_lt (inside : id < inodeNum) :
    im.putInode id ino = .ok (im.withInode id ino) := by
  have bound := (iblock_bounds inside).2.2
  simp only [putInode, im.bm.readBlock_of_lt bound, im.bm.writeBlock_of_lt _ bound,
    bind, Except.bind, pure, Except.pure]
  rfl

theorem inodeAt_withInode (inside : id < inodeNum) :
    (im.withInode id ino).inodeAt id = ino := by
  have bound := (iblock_bounds inside).2.2
  rw [inodeAt, withInode, Disk.block_put_self _ _ bound, Inode.load_store]

theorem freeInode_of_lt (inside : id < inodeNum)
    (isLive : (im.inodeAt id).type ≠ 0) :
    im.freeInode id = .ok (im.withInode id Inode.cleared) := by
  have bound := (iblock_bounds inside).2.2
  simp only [freeInode, im.getInode_of_lt inside, if_neg isLive, bind, Except.bind,
    im.bm.readBlock_of_lt bound, im.bm.writeBlock_of_lt _ bound, pure, Except.pure]
  rfl

theorem block_withInode (inside : id < inodeNum) {block : Nat}
    (different : block ≠ iblock id) :
    (im.withInode id ino).bm.disk.block block = im.bm.disk.block block :=
  Disk.block_put_of_ne _ _ (iblock_bounds inside).2.2 different

theorem marks_withInode (inside : id < inodeNum) {used : Finset Nat}
    (marks : im.bm.disk.Marks used) :
    (im.withInode id ino).bm.disk.Marks used :=
  marks.put _ (iblock_bounds inside).2.2 (iblock_bounds inside).1

/-- `alloc_inode` while the counter is inside the inode table. -/
theorem allocInode_of_lt (env : Env) (type : BitVec 32)
    (inside : im.inum + 1 < inodeNum) :
    ∃ ino, im.allocInode env type = .ok (im.inum + 1,
        withInode ⟨im.bm, im.inum + 1, im.ticks + 1, im.mallocs + 1⟩
          (im.inum + 1) ino) ∧
      ino.type = type.setWidth 16 ∧ ino.size = 0 ∧
      ino.atime = env.clock im.ticks ∧ ino.mtime = env.clock im.ticks ∧
      ino.ctime = env.clock im.ticks := by
  simp only [allocInode, malloc, time, bind, Except.bind,
    putInode_of_lt _ _ inside, pure, Except.pure]
  exact ⟨_, rfl, rfl, rfl, rfl, rfl, rfl⟩

end InodeManager

structure Represents (im : InodeManager) (layout : Layout) : Prop where
  wf : layout.WF
  inum : im.inum = layout.inum
  ticks : im.ticks = layout.ticks
  calls : im.bm.calls = layout.calls
  marks : im.bm.disk.Marks layout.used
  free : ∀ id, layout.files id = none → id < inodeNum →
    (im.inodeAt id).type = 0
  stores : ∀ id file, layout.files id = some file →
    Stores im.bm.disk (im.inodeAt id) file

theorem Stores.toNat_size {disk : Disk} {ino : Inode} {file : FileLayout}
    (stores : Stores disk ino file) : ino.size.toNat = file.data.length := by
  have fits := file.fits
  simp only [maxFile, nDirect, nIndirect, blockSize] at fits
  rw [stores.size, BitVec.toNat_ofNat, Nat.mod_eq_of_lt (by omega)]

/-- The size of a stored file is not negative as an `int`. -/
theorem Stores.toInt_size {disk : Disk} {ino : Inode} {file : FileLayout}
    (stores : Stores disk ino file) : ino.size.toInt = file.data.length := by
  rw [stores.size]
  exact toInt_ofNat_of_le file.fits

namespace Represents

variable {im after : InodeManager} {layout next : Layout} {id : Nat}

/-- Replacing the file of one inode: its inode block and blocks that no other
file owns may have been written. -/
theorem update (represents : Represents im layout) (inside : id < inodeNum)
    {new : Option FileLayout}
    (files : next.files = Function.update layout.files id new)
    (wf : next.WF) (inum : after.inum = next.inum)
    (ticks : after.ticks = next.ticks) (calls : after.bm.calls = next.calls)
    (marks : after.bm.disk.Marks next.used)
    (frame : ∀ block, 10 ≤ block → block ≠ iblock id →
      block < firstId ∨ layout.OwnedByOthers id block →
        after.bm.disk.block block = im.bm.disk.block block)
    (free : new = none → (after.inodeAt id).type = 0)
    (stores : ∀ file, new = some file →
      Stores after.bm.disk (after.inodeAt id) file) :
    Represents after next := by
  have sameInode : ∀ other, other ≠ id → other < inodeNum →
      after.inodeAt other = im.inodeAt other := by
    intro other different inside
    have bounds := iblock_bounds inside
    apply congrArg Inode.load
    exact frame _ bounds.1 (iblock_ne different) (Or.inl bounds.2.1)
  refine
    { wf := wf
      inum := inum
      ticks := ticks
      calls := calls
      marks := marks
      free := ?_
      stores := ?_ }
  · intro other dead inside
    by_cases same : other = id
    · subst same
      rw [files, Function.update_self] at dead
      exact free dead
    · rw [files, Function.update_of_ne same] at dead
      rw [sameInode other same inside]
      exact represents.free other dead inside
  · intro other file live
    by_cases same : other = id
    · subst same
      rw [files, Function.update_self] at live
      exact stores file live
    · rw [files, Function.update_of_ne same] at live
      rw [sameInode other same (represents.wf.live_lt live)]
      refine (represents.stores other file live).congr fun block owned => ?_
      have bounds := Finset.mem_Ico.mp
        (represents.wf.within (represents.wf.owned_subset live block owned))
      have inTable := (iblock_bounds inside).2.1
      exact frame block (le_trans (by decide) bounds.1) (by omega)
        (Or.inr ⟨other, file, same, live, owned⟩)

theorem getInode_live (represents : Represents im layout) {file : FileLayout}
    (live : layout.files id = some file) :
    im.getInode id = .ok (some (im.inodeAt id)) := by
  have isLive : (im.inodeAt id).type ≠ 0 := by
    rw [(represents.stores id file live).type]
    exact file.type_ne
  rw [im.getInode_of_lt (represents.wf.live_lt live), if_neg isLive]

theorem getInode_dead (represents : Represents im layout)
    (dead : layout.files id = none) : im.getInode id = .ok none := by
  by_cases inside : id < inodeNum
  · rw [im.getInode_of_lt inside, if_pos (represents.free id dead inside)]
  · rw [InodeManager.getInode, if_pos (Nat.le_of_not_lt inside)]

theorem derefInode_live (represents : Represents im layout) {file : FileLayout}
    (live : layout.files id = some file) :
    im.derefInode id = .ok (im.inodeAt id) := by
  simp only [InodeManager.derefInode, represents.getInode_live live, bind,
    Except.bind, pure, Except.pure]

theorem derefInode_dead (represents : Represents im layout)
    (dead : layout.files id = none) : im.derefInode id = .error .nullInode := by
  simp only [InodeManager.derefInode, represents.getInode_dead dead, bind,
    Except.bind]

end Represents

namespace Represents

variable {im : InodeManager} {layout next : Layout} {id : Nat}

/-- Every request that changes a file ends by writing its inode. -/
theorem withInode (represents : Represents im layout) (mid : InodeManager)
    (ino : Inode) (inside : id < inodeNum) {new : Option FileLayout}
    (files : next.files = Function.update layout.files id new)
    (wf : next.WF) (inum : mid.inum = next.inum) (ticks : mid.ticks = next.ticks)
    (calls : mid.bm.calls = next.calls) (marks : mid.bm.disk.Marks next.used)
    (frame : ∀ block, 10 ≤ block →
      block < firstId ∨ layout.OwnedByOthers id block →
        mid.bm.disk.block block = im.bm.disk.block block)
    (free : new = none → ino.type = 0)
    (stores : ∀ file, new = some file → Stores mid.bm.disk ino file) :
    Represents (mid.withInode id ino) next := by
  refine represents.update inside files wf inum ticks calls
    (mid.marks_withInode ino inside marks) ?_ ?_ ?_
  · intro block outside different untouched
    rw [mid.block_withInode ino inside different]
    exact frame block outside untouched
  · intro isNone
    rw [mid.inodeAt_withInode ino inside]
    exact free isNone
  · intro file isNew
    rw [mid.inodeAt_withInode ino inside]
    refine (stores file isNew).congr fun block owned => ?_
    have live : next.files id = some file := by
      rw [files, Function.update_self, isNew]
    have bounds := Finset.mem_Ico.mp
      (wf.within (wf.owned_subset live block owned))
    have inTable := (iblock_bounds inside).2.1
    exact mid.block_withInode ino inside (by omega)

theorem stores_empty {disk : Disk} {ino : Inode} {type : BitVec 16}
    {now : BitVec 32} {type_ne : type ≠ 0} (isType : ino.type = type)
    (size : ino.size = 0) (atime : ino.atime = now) (mtime : ino.mtime = now)
    (ctime : ino.ctime = now) : Stores disk ino (.empty type now type_ne) where
  type := isType
  size := by rw [size]; rfl
  atime := atime
  mtime := mtime
  ctime := ctime
  direct := fun _ inside => absurd inside (Nat.not_lt_zero _)
  indirect := fun _ isIndirect => nomatch isIndirect
  entries := fun _ isIndirect => nomatch isIndirect
  content := fun _ inside => absurd inside (Nat.not_lt_zero _)

theorem create (env : Env) (represents : Represents im layout)
    (type : BitVec 32) :
    Agree Represents (· = .beyondLimits) (ExtentServer.create env im type)
      (layout.create env.clock type) := by
  cases served : layout.create env.clock type with
  | error error =>
      exact Or.inl (Layout.create_error served).2
  | ok answer =>
      rcases answer with ⟨reply, next⟩
      have wf := represents.wf.create served
      obtain ⟨layoutInside, rfl, rfl⟩ := Layout.create_ok served
      have inside : im.inum + 1 < inodeNum := by
        rw [represents.inum]
        exact layoutInside
      obtain ⟨ino, allocates, isType, size, atime, mtime, ctime⟩ :=
        im.allocInode_of_lt env type inside
      rw [represents.ticks] at atime mtime ctime
      have same : im.inum + 1 = layout.inum + 1 := by rw [represents.inum]
      refine ⟨_, ?_, represents.withInode
        ⟨im.bm, im.inum + 1, im.ticks + 1, im.mallocs + 1⟩ ino inside
        (by rw [same]) wf same (congrArg (· + 1) represents.ticks)
        represents.calls represents.marks (fun _ _ _ => rfl) ?_ ?_⟩
      · simp only [ExtentServer.create, allocates, bind, Except.bind, pure,
          Except.pure, represents.inum]
      · intro isNone
        split at isNone
        · cases isNone
        · rename_i zero
          rw [isType]
          exact not_not.mp zero
      · intro file isNew
        split at isNew
        · cases isNew
          exact stores_empty isType size atime mtime ctime
        · cases isNew

theorem readFile_live (env : Env) (represents : Represents im layout)
    {file : FileLayout} (live : layout.files id = some file) :
    im.readFile env id =
      .ok ((blockBytes im.bm.disk file.blocks, (file.data.length : Int)),
        InodeManager.withInode ⟨im.bm, im.inum, im.ticks + 1, im.mallocs⟩ id
          { im.inodeAt id with atime := env.clock im.ticks }) := by
  have stores := represents.stores id file live
  have blocks := readBlocks_spec stores fun block owned =>
    (represents.wf.owned_bounds live block owned).2
  simp only [InodeManager.readFile, represents.derefInode_live live, bind,
    Except.bind, stores.toInt_size, blocks, InodeManager.time,
    InodeManager.putInode_of_lt _ _ (represents.wf.live_lt live), pure, Except.pure]

/-- `get` returns the bytes and writes the inode with a new access time. -/
theorem get_live (env : Env) (represents : Represents im layout) {target : ExtentId}
    {file : FileLayout} (live : layout.files (inumOf target) = some file) :
    ExtentServer.get env im target = .ok ((.OK, file.data),
      InodeManager.withInode ⟨im.bm, im.inum, im.ticks + 1, im.mallocs⟩ (inumOf target)
        { im.inodeAt (inumOf target) with atime := env.clock im.ticks }) := by
  have content := (represents.stores _ file live).take_blockBytes
  rw [ExtentServer.get, represents.readFile_live env live]
  simp only [bind, Except.bind, pure, Except.pure, Int.natCast_eq_zero,
    List.length_eq_zero_iff, Int.toNat_natCast, content,
    if_neg (not_lt.mpr (Int.natCast_nonneg _))]
  split
  · rename_i empty
    rw [empty]
  · rfl

theorem get (env : Env) (represents : Represents im layout) (target : ExtentId) :
    Agree Represents (· = .beyondLimits) (ExtentServer.get env im target)
      (layout.get env.clock target) := by
  cases served : layout.get env.clock target with
  | error error =>
      obtain ⟨dead, rfl⟩ := Layout.get_error served
      apply Or.inr
      simp only [ExtentServer.get, InodeManager.readFile,
        represents.derefInode_dead dead, bind, Except.bind]
  | ok answer =>
      rcases answer with ⟨reply, next⟩
      have wf := represents.wf.get served
      obtain ⟨file, live, rfl, rfl⟩ := Layout.get_ok served
      have stores := represents.stores _ file live
      refine ⟨_, represents.get_live env live, represents.withInode
        ⟨im.bm, im.inum, im.ticks + 1, im.mallocs⟩
        { im.inodeAt (inumOf target) with atime := env.clock im.ticks }
        (represents.wf.live_lt live) rfl wf represents.inum
        (congrArg (· + 1) represents.ticks) represents.calls represents.marks
        (fun _ _ _ => rfl) (fun isNone => absurd isNone (Option.some_ne_none _)) ?_⟩
      rintro _ ⟨⟩
      rw [represents.ticks]
      exact { stores with atime := rfl }

theorem getattr (represents : Represents im layout) (target : ExtentId) :
    Agree Represents (· = .beyondLimits) (ExtentServer.getattr im target)
      (layout.getattr target) := by
  refine ⟨im, ?_, represents⟩
  unfold ExtentServer.getattr InodeManager.getattr
  cases live : layout.files (inumOf target) with
  | none =>
      simp only [represents.getInode_dead live, bind, Except.bind, pure,
        Except.pure, Option.map_none, Option.getD_none]
  | some file =>
      have stores := represents.stores _ file live
      simp only [represents.getInode_live live, bind, Except.bind, pure,
        Except.pure, Option.map_some, Option.getD_some, stores.type, stores.size,
        stores.atime, stores.mtime, stores.ctime]
      rfl

theorem remove (represents : Represents im layout) (target : ExtentId) :
    Agree Represents (· = .beyondLimits) (ExtentServer.remove im target)
      (layout.remove target) := by
  cases served : layout.remove target with
  | error error =>
      obtain ⟨dead, rfl⟩ := Layout.remove_error served
      apply Or.inr
      simp only [ExtentServer.remove, InodeManager.removeFile,
        represents.derefInode_dead dead, bind, Except.bind]
  | ok answer =>
      rcases answer with ⟨reply, next⟩
      have wf := represents.wf.remove served
      obtain ⟨file, live, rfl, rfl⟩ := Layout.remove_ok served
      have inside := represents.wf.live_lt live
      have stores := represents.stores _ file live
      obtain ⟨bm, releases, released⟩ := releaseBlocks_spec stores
        (represents.wf.nodup _ file live) represents.marks
        (represents.wf.owned_subset live) represents.wf.within
      have sameInode : InodeManager.inodeAt ⟨bm, im.inum, im.ticks, im.mallocs⟩
          (inumOf target) = im.inodeAt (inumOf target) :=
        congrArg Inode.load (released.frame _ (iblock_bounds inside).1)
      have isLive : (InodeManager.inodeAt ⟨bm, im.inum, im.ticks, im.mallocs⟩
          (inumOf target)).type ≠ 0 := by
        rw [sameInode, stores.type]
        exact file.type_ne
      refine ⟨_, ?_, represents.withInode
        ⟨bm, im.inum, im.ticks, im.mallocs⟩ Inode.cleared inside rfl wf
        represents.inum represents.ticks ?_ released.marks
        (fun block outside _ => released.frame block outside) (fun _ => rfl)
        (fun _ isNone => absurd isNone.symm (Option.some_ne_none _))⟩
      · simp only [ExtentServer.remove, InodeManager.removeFile,
          represents.derefInode_live live, bind, Except.bind, stores.toInt_size,
          releases, InodeManager.freeInode_of_lt _ inside isLive, pure, Except.pure]
      · rw [← represents.calls]
        exact released.calls

/-- The blocks that `write_file` takes for a file of `size` bytes. -/
theorem writeFile_live (env : Env) (represents : Represents im layout)
    {file : FileLayout} (live : layout.files id = some file) (data : List Byte)
    (beyond : Nat → Byte) (fits : data.length ≤ maxFile * blockSize)
    (exact : ((freeIds (layout.kept file)).take (blocksFor data.length)).length =
      blocksFor data.length) :
    ∃ (mid : InodeManager) (ino : Inode),
      im.writeFile env id (cStr data beyond) data.length =
        .ok (mid.withInode id ino) ∧
      mid.inum = im.inum ∧ mid.ticks = im.ticks + 1 ∧
      mid.bm.disk.Marks (layout.kept file ∪
        ((freeIds (layout.kept file)).take (blocksFor data.length)).toFinset) ∧
      mid.bm.calls = im.bm.calls ++ file.owned.map (.free · true) ++
        ((freeIds (layout.kept file)).take (blocksFor data.length)).map .alloc ∧
      (∀ block, 10 ≤ block →
        block ∉ (freeIds (layout.kept file)).take (blocksFor data.length) →
          mid.bm.disk.block block = im.bm.disk.block block) ∧
      Stores mid.bm.disk ino
        (file.rewritten (env.clock im.ticks) data _ fits exact) := by
  have inside := represents.wf.live_lt live
  have stores := represents.stores id file live
  have room : blocksFor data.length ≤ (freeIds (layout.kept file)).length := by
    rw [List.length_take] at exact
    omega
  obtain ⟨bm, releases, released⟩ := releaseBlocks_spec stores
    (represents.wf.nodup id file live) represents.marks
    (represents.wf.owned_subset live) represents.wf.within
  have marks : bm.disk.Marks (layout.kept file) := released.marks
  obtain ⟨direct, ino, directLoop, header, taken, filled, pointers⟩ :=
    writeDirect_loop (im.inodeAt id) (cStr data beyond) data.length marks room
  have type : ino.type = file.type := by
    rw [header]
    exact stores.type
  have atime : ino.atime = file.atime := by
    rw [header]
    exact stores.atime
  by_cases many : nDirect < dataBlocks data.length
  · have total : blocksFor data.length = dataBlocks data.length + 1 := by
      rw [blocksFor, if_pos ((FileLayout.nDirect_lt_dataBlocks _).mp many)]
    have indirectInside : nDirect < (freeIds (layout.kept file)).length := by omega
    have count := Nat.min_eq_left many.le
    have unfinished := direct_count_lt.mpr many
    rw [count] at taken filled pointers directLoop unfinished
    obtain ⟨last, indirectLoop, takenLast, filledDirect, filledIndirect, entries⟩ :=
      writeIndirectBlocks_spec ino (cStr data beyond) data.length
        (env.heap im.mallocs) fits many (by omega) taken filled indirectInside
    rw [← total] at takenLast
    have outcome := takenLast.after_release released
    have stored := stores_rewritten_indirect (env.clock im.ticks) data beyond fits exact many
      indirectInside type atime pointers filledDirect entries filledIndirect
    refine ⟨⟨last, im.inum, im.ticks + 1, im.mallocs + 1⟩, _, ?_, rfl, rfl,
      takenLast.marks, outcome.1, outcome.2, stored⟩
    simp only [InodeManager.writeFile, represents.derefInode_live live, bind,
      Except.bind, stores.toNat_size, releases, directLoop,
      if_pos unfinished, InodeManager.malloc, indirectLoop,
      InodeManager.time, InodeManager.putInode_of_lt _ _ inside, pure, Except.pure]
  · have total : blocksFor data.length = dataBlocks data.length := by
      rw [blocksFor, if_neg ((FileLayout.nDirect_lt_dataBlocks _).not.mp many),
        Nat.add_zero]
    have count := Nat.min_eq_right (Nat.le_of_not_lt many)
    have takenAll := taken
    rw [count, ← total] at takenAll
    have outcome := takenAll.after_release released
    refine ⟨⟨direct, im.inum, im.ticks + 1, im.mallocs⟩, _, ?_, rfl, rfl,
      takenAll.marks, outcome.1, outcome.2,
      stores_rewritten (env.clock im.ticks) data beyond fits exact type atime
        pointers filled (fun above => absurd above many)
        (fun above => absurd above many) ?_⟩
    · simp only [InodeManager.writeFile, represents.derefInode_live live, bind,
        Except.bind, stores.toNat_size, releases, directLoop,
        if_neg (direct_count_lt.not.mpr many), InodeManager.time,
        InodeManager.putInode_of_lt _ _ inside, pure, Except.pure]
    · intro k kLt
      omega

/-- `write_file` with any memory after the string does what the layout says. -/
theorem writeFile (env : Env) (represents : Represents im layout) {target : ExtentId}
    {data : List Byte} {reply : Status} (beyond : Nat → Byte)
    (served : layout.put env.clock target data = .ok (reply, next)) :
    reply = .OK ∧ data.length ≤ maxFile * blockSize ∧
      ∃ after, im.writeFile env (inumOf target) (cStr data beyond) data.length =
        .ok after ∧ Represents after next := by
  have wf := represents.wf.put served
  obtain ⟨file, live, fits, exact, rfl, rfl⟩ := Layout.put_ok served
  obtain ⟨mid, ino, writes, inum, ticks, marks, calls, frame, stores⟩ :=
    represents.writeFile_live env live data beyond fits exact
  refine ⟨rfl, fits, _, writes, represents.withInode mid ino
    (represents.wf.live_lt live) rfl wf (inum.trans represents.inum)
    (ticks.trans (congrArg (· + 1) represents.ticks)) ?_ marks ?_
    (fun isNone => absurd isNone (Option.some_ne_none _)) ?_⟩
  · rw [calls, represents.calls]
    rfl
  · intro block outside untouched
    refine frame block outside fun taken => ?_
    have free := mem_freeList.mp (List.mem_of_mem_take taken)
    rcases untouched with low | owned
    · exact absurd free.1.1 (Nat.not_le.mpr low)
    · exact free.2 ((represents.wf.mem_kept live block).mpr owned)
  · rintro _ ⟨⟩
    rw [← represents.ticks]
    exact stores

theorem put (env : Env) (represents : Represents im layout) (target : ExtentId)
    (buf : List Byte) :
    Agree Represents (· = .beyondLimits) (ExtentServer.put env im target buf)
      (layout.put env.clock target buf) := by
  have allocated : Represents
      ⟨im.bm, im.inum, im.ticks, im.mallocs + 1⟩ layout := { represents with }
  cases served : layout.put env.clock target buf with
  | error error =>
      rcases Layout.put_error served with ⟨dead, rfl⟩ | ⟨_, -, rfl, -⟩
      · apply Or.inr
        simp only [ExtentServer.put, InodeManager.malloc, InodeManager.writeFile,
          allocated.derefInode_dead dead, bind, Except.bind]
      · exact Or.inl rfl
  | ok answer =>
      rcases answer with ⟨reply, next⟩
      obtain ⟨rfl, fits, after, writes, representsAfter⟩ :=
        allocated.writeFile env (env.heap im.mallocs) served
      refine ⟨after, ?_, representsAfter⟩
      simp only [ExtentServer.put, InodeManager.malloc, toInt_ofNat_of_le fits, writes,
        bind, Except.bind, pure, Except.pure]

end Represents

/-- The extent server refines the layouts, request by request. -/
theorem simulates_layout (env : Env) :
    Simulates (ExtentServer.serve env) (Layout.serve env.clock) Represents
      (· = .beyondLimits) := by
  intro request im layout represents
  cases request with
  | create type => exact represents.create env type
  | put target buf => exact represents.put env target buf
  | get target => exact represents.get env target
  | getattr target => exact represents.getattr target
  | remove target => exact represents.remove target

/-- A new inode manager holds an empty root directory. -/
theorem init_represents (env : Env) :
    ∃ im, InodeManager.init env = .ok im ∧
      Represents im (Layout.init env.clock) := by
  have blank : Represents ⟨BlockManager.fresh, 0, 0, 0⟩ Layout.blank :=
    { wf := Layout.wf_blank
      inum := rfl
      ticks := rfl
      calls := rfl
      marks := Disk.marks_fresh
      free := fun _ _ _ => by
        simp [InodeManager.inodeAt, BlockManager.fresh]
      stores := fun _ _ live => nomatch live }
  have created := blank.create env tDir
  rw [Layout.create_blank] at created
  rcases created with ⟨im, server, represents⟩
  refine ⟨im, ?_, represents⟩
  obtain ⟨ino, allocates, -⟩ := InodeManager.allocInode_of_lt
    ⟨BlockManager.fresh, 0, 0, 0⟩ env tDir (by decide)
  simp only [ExtentServer.create, allocates, bind, Except.bind, pure, Except.pure,
    Except.ok.injEq, Prod.mk.injEq] at server
  simp only [InodeManager.init, allocates, bind, Except.bind, Nat.zero_add, if_true,
    pure, Except.pure, server.2]

end Yfs
