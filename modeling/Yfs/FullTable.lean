import Yfs.Ownership
import Yfs.WriteRoom

/-!
# Past the end of the inode table

`alloc_inode` does not ask whether the table has an entry left.  The inodes past
its end go to the blocks behind the table, where `get_inode` never looks.  As long
as these lie before the data blocks, the disk holds the same files as before.
Only `alloc_inode` reads the counter, so every other request is answered as if it
still stood at the last entry.
-/

namespace Yfs

open ClientServer

namespace InodeManager

def withCounter (im : InodeManager) (inum : Nat) : InodeManager :=
  { im with inum := inum }

/-- The counter, held at the last entry of the table. -/
def atTable (im : InodeManager) : InodeManager :=
  im.withCounter (min im.inum (inodeNum - 1))

theorem atTable_of_lt {im : InodeManager} (inside : im.inum < inodeNum) :
    im.atTable = im := by
  have same : min im.inum (inodeNum - 1) = im.inum := by omega
  rw [atTable, same]
  rfl

section Counter

variable (im : InodeManager) (inum : Nat)

theorem putInode_withCounter (id : Nat) (ino : Inode) :
    (im.withCounter inum).putInode id ino =
      (im.putInode id ino).map (·.withCounter inum) := by
  simp only [putInode, withCounter, bind, Except.bind]
  cases im.bm.readBlock (iblock id) with
  | error fault => rfl
  | ok buf =>
      dsimp only
      cases im.bm.writeBlock (iblock id) (ino.store buf) with
      | error fault => rfl
      | ok bm => rfl

theorem freeInode_withCounter (id : Nat) :
    (im.withCounter inum).freeInode id =
      (im.freeInode id).map (·.withCounter inum) := by
  have same : (im.withCounter inum).getInode id = im.getInode id := rfl
  simp only [freeInode, same, bind, Except.bind]
  cases im.getInode id with
  | error fault => rfl
  | ok found =>
      cases found with
      | none => rfl
      | some ino =>
          simp only [withCounter]
          cases im.bm.readBlock (iblock id) with
          | error fault => rfl
          | ok buf =>
              dsimp only
              cases im.bm.writeBlock (iblock id) (Inode.cleared.store buf) with
              | error fault => rfl
              | ok bm => rfl

theorem readFile_withCounter (env : Env) (id : Nat) :
    (im.withCounter inum).readFile env id =
      (im.readFile env id).map fun answer => (answer.1, answer.2.withCounter inum) := by
  have same : (im.withCounter inum).derefInode id = im.derefInode id := rfl
  simp only [readFile, same, bind, Except.bind]
  cases im.derefInode id with
  | error fault => rfl
  | ok ino =>
      have blocks : readBlocks (im.withCounter inum).bm ino ino.size.toInt =
        readBlocks im.bm ino ino.size.toInt := rfl
      simp only [blocks]
      cases readBlocks im.bm ino ino.size.toInt with
      | error fault => rfl
      | ok buf =>
          have puts := putInode_withCounter (im.time env).2 inum id
            { ino with atime := (im.time env).1 }
          change _ = _ at puts
          simp only [time, withCounter] at puts ⊢
          rw [puts]
          cases putInode _ id _ with
          | error fault => rfl
          | ok after => rfl

theorem removeFile_withCounter (id : Nat) :
    (im.withCounter inum).removeFile id =
      (im.removeFile id).map (·.withCounter inum) := by
  have same : (im.withCounter inum).derefInode id = im.derefInode id := rfl
  simp only [removeFile, same, bind, Except.bind]
  cases im.derefInode id with
  | error fault => rfl
  | ok ino =>
      simp only [withCounter]
      cases releaseBlocks im.bm ino ino.size.toInt with
      | error fault => rfl
      | ok bm => exact freeInode_withCounter { im with bm := bm } inum id

theorem writeFile_withCounter (env : Env) (id : Nat) (buf : Nat → Byte) (size : Int) :
    (im.withCounter inum).writeFile env id buf size =
      (im.writeFile env id buf size).map (·.withCounter inum) := by
  have same : (im.withCounter inum).derefInode id = im.derefInode id := rfl
  simp only [writeFile, same, bind, Except.bind]
  cases im.derefInode id with
  | error fault => rfl
  | ok ino =>
      simp only [withCounter]
      cases releaseBlocks im.bm ino ino.size.toNat with
      | error fault => rfl
      | ok bm =>
          dsimp only
          cases blockLoop size (writeDirect buf) nDirect 0 0 (bm, ino) with
          | error fault => rfl
          | ok answer =>
              rcases answer with ⟨total, direct, written⟩
              dsimp only
              by_cases unfinished : (total : Int) < size
              · simp only [if_pos unfinished, malloc]
                cases writeIndirectBlocks direct written buf size total
                    (env.heap im.mallocs) with
                | error fault => rfl
                | ok answer =>
                    exact putInode_withCounter
                      ⟨answer.1, im.inum, im.ticks + 1, im.mallocs + 1⟩ inum id _
              · simp only [if_neg unfinished]
                exact putInode_withCounter
                  ⟨direct, im.inum, im.ticks + 1, im.mallocs⟩ inum id _

end Counter

end InodeManager

/-- `put_inode` stops only outside the disk. -/
theorem InodeManager.putInode_stops {im : InodeManager} {id : Nat} {ino : Inode}
    {fault : Fault} (stops : im.putInode id ino = .error fault) : fault = .outOfDisk := by
  by_cases whole : iblock id < blockNum
  · simp only [putInode, im.bm.readBlock_of_lt whole, im.bm.writeBlock_of_lt _ whole, bind,
      Except.bind, pure, Except.pure, reduceCtorEq] at stops
  · simp only [putInode, BlockManager.readBlock, Disk.readBlock, dif_neg whole, bind,
      Except.bind] at stops
    cases stops
    rfl

/-- Only `create` reads the counter. -/
theorem serve_withCounter (env : Env) (im : InodeManager) (inum : Nat)
    {request : ExtentRequest} (notCreate : ∀ type, request ≠ .create type) :
    ExtentServer.serve env request (im.withCounter inum) =
      (ExtentServer.serve env request im).map fun answer =>
        (answer.1, answer.2.withCounter inum) := by
  cases request with
  | create type => exact absurd rfl (notCreate type)
  | put id buf =>
      have writes := InodeManager.writeFile_withCounter (im.malloc env).2 inum env (inumOf id)
        (cStr buf (im.malloc env).1) (BitVec.ofNat 32 buf.length).toInt
      simp only [ExtentServer.serve, ExtentServer.put, InodeManager.malloc,
        InodeManager.withCounter, bind, Except.bind] at writes ⊢
      rw [writes]
      cases InodeManager.writeFile _ env (inumOf id) _ _ with
      | error fault => rfl
      | ok after => rfl
  | get id =>
      simp only [ExtentServer.serve, ExtentServer.get, InodeManager.readFile_withCounter,
        bind, Except.bind]
      cases im.readFile env (inumOf id) with
      | error fault => rfl
      | ok answer =>
          rcases answer with ⟨⟨cbuf, size⟩, after⟩
          simp only [Except.map]
          split
          · rfl
          · split
            · rfl
            · rfl
  | getattr id =>
      have same : (im.withCounter inum).getattr (inumOf id) Attr.zero =
        im.getattr (inumOf id) Attr.zero := rfl
      simp only [ExtentServer.serve, ExtentServer.getattr, same, bind, Except.bind]
      cases im.getattr (inumOf id) Attr.zero with
      | error fault => rfl
      | ok a => rfl
  | remove id =>
      simp only [ExtentServer.serve, ExtentServer.remove,
        InodeManager.removeFile_withCounter, bind, Except.bind]
      cases im.removeFile (inumOf id) with
      | error fault => rfl
      | ok after => rfl

namespace Represents

variable {im after : InodeManager} {layout : Layout}

/-- A block behind the inode table and before the data blocks belongs to no file. -/
theorem putBehind (represents : Represents im layout) {block : Nat} (buf : Block)
    (behind : iblock inodeNum ≤ block) (before : block < firstId) (mallocs : Nat) :
    Represents ⟨{ im.bm with disk := im.bm.disk.put block buf }, layout.inum, im.ticks + 1,
      mallocs⟩ { layout with ticks := layout.ticks + 1 } := by
  have whole : block < blockNum := lt_trans before (by decide)
  have low : 10 ≤ block := le_trans (by decide) behind
  have sameInode : ∀ id, id < inodeNum →
      Inode.load ((im.bm.disk.put block buf).block (iblock id)) = im.inodeAt id := by
    intro id inside
    have different : iblock id ≠ block := by
      simp only [iblock] at behind ⊢
      omega
    rw [Disk.block_put_of_ne _ _ whole different]
    rfl
  exact
    { wf := { represents.wf with }
      inum := rfl
      ticks := congrArg (· + 1) represents.ticks
      calls := represents.calls
      marks := represents.marks.put buf whole low
      free := by
        intro id dead inside
        change (Inode.load _).type = 0
        rw [sameInode id inside]
        exact represents.free id dead inside
      stores := by
        intro id file live
        change Stores _ (Inode.load _) file
        rw [sameInode id (represents.wf.live_lt live)]
        refine (represents.stores id file live).congr fun other owned => ?_
        have bounds := represents.wf.owned_bounds live other owned
        exact Disk.block_put_of_ne _ _ whole (by omega) }

/-- `create` with a full table writes behind it. -/
theorem create_full (env : Env) (represents : Represents im.atTable layout)
    (type : BitVec 32)
    (full : inodeNum ≤ im.inum + 1) (before : iblock (im.inum + 1) < firstId) :
    ∃ after, ExtentServer.create env im type =
        .ok ((.OK, BitVec.ofNat 64 (im.inum + 1)), after) ∧
      after.inum = im.inum + 1 ∧
      Represents after.atTable { layout with ticks := layout.ticks + 1 } := by
  have whole : iblock (im.inum + 1) < blockNum := lt_trans before (by decide)
  have behind : iblock inodeNum ≤ iblock (im.inum + 1) := by
    simp only [iblock]
    omega
  have counter : min (im.inum + 1) (inodeNum - 1) = layout.inum := by
    have same := represents.inum
    simp only [InodeManager.atTable, InodeManager.withCounter] at same
    omega
  simp only [ExtentServer.create, InodeManager.allocInode, InodeManager.malloc,
    InodeManager.time, InodeManager.putInode, im.bm.readBlock_of_lt whole,
    im.bm.writeBlock_of_lt _ whole, bind, Except.bind, pure, Except.pure]
  refine ⟨_, rfl, rfl, ?_⟩
  simp only [InodeManager.atTable, InodeManager.withCounter, counter]
  exact represents.putBehind _ behind before _

end Represents

/-- A `put` stays within the maximum file size. -/
def ExtentRequest.Fits : ExtentRequest → Prop
  | .put _ buf => buf.length ≤ maxFile * blockSize
  | _ => True

instance (request : ExtentRequest) : Decidable request.Fits :=
  match request with
  | .put _ _ => inferInstanceAs (Decidable (_ ≤ _))
  | .create _ => isTrue trivial
  | .get _ => isTrue trivial
  | .getattr _ => isTrue trivial
  | .remove _ => isTrue trivial

namespace Layout

variable {clock : Nat → BitVec 32} {layout : Layout} {request : ExtentRequest}

/-- A request of a moderate size that makes no inode stops at a missing one, or for want
of blocks. -/
theorem serve_error {fault : Fault} (fits : request.Fits)
    (notCreate : ∀ type, request ≠ .create type)
    (stops : Layout.serve clock request layout = .error fault) :
    fault = .nullInode ∨ ∃ id buf file, request = .put id buf ∧
      layout.files (inumOf id) = some file ∧
      (freeIds (layout.kept file)).length < blocksFor buf.length := by
  cases request with
  | create type => exact absurd rfl (notCreate type)
  | put id buf =>
      rcases put_error stops with ⟨-, isNull⟩ | ⟨file, live, -, full⟩
      · exact Or.inl isNull
      · exact Or.inr ⟨id, buf, file, rfl, live, full fits⟩
  | get id => exact Or.inl (get_error stops).2
  | getattr id => cases stops
  | remove id => exact Or.inl (remove_error stops).2

end Layout

section Steps

variable {env : Env} {im after : InodeManager} {layout : Layout} {request : ExtentRequest}
  {reply : ExtentReply request}

theorem ExtentServer.create_counter {type : BitVec 32} {reply : Status × ExtentId}
    (served : ExtentServer.create env im type = .ok (reply, after)) :
    reply = (.OK, BitVec.ofNat 64 (im.inum + 1)) ∧ after.inum = im.inum + 1 := by
  obtain ⟨⟨id, last⟩, allocates, returns⟩ := bind_ok served
  cases returns
  obtain ⟨written, puts, returns⟩ := bind_ok allocates
  cases returns
  obtain ⟨buf, -, puts⟩ := bind_ok puts
  obtain ⟨bm, -, returns⟩ := bind_ok puts
  cases returns
  exact ⟨rfl, rfl⟩

/-- A new inode lies on the disk. -/
theorem ExtentServer.create_inside {type : BitVec 32} {reply : Status × ExtentId}
    {after : InodeManager} (served : ExtentServer.create env im type = .ok (reply, after)) :
    iblock after.inum < blockNum := by
  rw [(ExtentServer.create_counter served).2]
  obtain ⟨⟨made, last⟩, allocates, -⟩ := bind_ok served
  obtain ⟨written, puts, -⟩ := bind_ok allocates
  obtain ⟨buf, reads, -⟩ := bind_ok puts
  by_contra outside
  rw [BlockManager.readBlock, Disk.readBlock, dif_neg outside] at reads
  cases reads

theorem inum_of_serve (notCreate : ∀ type, request ≠ .create type)
    (served : ExtentServer.serve env request im = .ok (reply, after)) :
    after.inum = im.inum := by
  have same := serve_withCounter env im im.inum notCreate
  change ExtentServer.serve env request im = _ at same
  rw [served] at same
  exact congrArg (fun answer => answer.2.inum) (Except.ok.inj same)

/-- The counter never falls. -/
theorem inum_le_of_serve (served : ExtentServer.serve env request im = .ok (reply, after)) :
    im.inum ≤ after.inum := by
  by_cases isCreate : ∃ type, request = .create type
  · rcases isCreate with ⟨type, rfl⟩
    rw [(ExtentServer.create_counter served).2]
    exact Nat.le_succ _
  · rw [inum_of_serve (fun type equal => isCreate ⟨type, equal⟩) served]

/-- Every other request is answered as if the counter stood at the last entry. -/
theorem serve_atTable (notCreate : ∀ type, request ≠ .create type)
    (served : ExtentServer.serve env request im = .ok (reply, after)) :
    ExtentServer.serve env request im.atTable = .ok (reply, after.atTable) := by
  rw [InodeManager.atTable, serve_withCounter env im _ notCreate, served]
  rw [InodeManager.atTable, inum_of_serve notCreate served]
  rfl

theorem serve_of_atTable (notCreate : ∀ type, request ≠ .create type)
    (served : ExtentServer.serve env request im.atTable = .ok (reply, after)) :
    ∃ last, ExtentServer.serve env request im = .ok (reply, last) ∧ last.atTable = after := by
  cases same : ExtentServer.serve env request im with
  | error fault =>
      rw [InodeManager.atTable, serve_withCounter env im _ notCreate, same] at served
      cases served
  | ok answer =>
      rcases answer with ⟨other, last⟩
      have held := serve_atTable notCreate same
      cases held.symm.trans served
      exact ⟨last, rfl, rfl⟩

theorem serve_atTable_error (notCreate : ∀ type, request ≠ .create type) {fault : Fault} :
    ExtentServer.serve env request im.atTable = .error fault ↔
      ExtentServer.serve env request im = .error fault := by
  rw [InodeManager.atTable, serve_withCounter env im _ notCreate]
  cases ExtentServer.serve env request im with
  | error other => rfl
  | ok answer => simp only [Except.map, reduceCtorEq]

/-- What the server answers to a request of a moderate size, the layout answers. -/
theorem Represents.serve_layout (represents : Represents im.atTable layout)
    (fits : request.Fits) (notCreate : ∀ type, request ≠ .create type)
    (served : ExtentServer.serve env request im = .ok (reply, after)) :
    ∃ next, Layout.serve env.clock request layout = .ok (reply, next) ∧
      Represents after.atTable next := by
  have answered := serve_atTable notCreate served
  have agree := simulates_layout env request im.atTable layout represents
  rw [answered] at agree
  rcases agree.of_ok with returned | ⟨error, beyond, rfl⟩
  · exact returned
  · rcases Layout.serve_error fits notCreate beyond with same | ⟨id, buf, file, rfl, live, full⟩
    · cases same
    · cases (represents.put_full env live fits full).symm.trans answered

/-- `create` leaves the files of the table alone. -/
theorem Represents.create_layout {type : BitVec 32} {reply : Status × ExtentId}
    (represents : Represents im.atTable layout)
    (served : ExtentServer.create env im type = .ok (reply, after))
    (before : iblock after.inum < firstId) :
    ∃ next, Represents after.atTable next ∧
      ∀ id file, layout.files id = some file → next.files id = some file := by
  have counter := (ExtentServer.create_counter served).2
  by_cases full : inodeNum ≤ im.inum + 1
  · rw [counter] at before
    obtain ⟨last, made, -, representsLast⟩ :=
      represents.create_full env type full before
    cases made.symm.trans served
    exact ⟨_, representsLast, fun id file live => live⟩
  · have same := represents.inum
    rw [InodeManager.atTable_of_lt (by omega)] at represents same ⊢
    have agree := represents.create env type
    rw [served] at agree
    rcases agree.of_ok with ⟨next, onLayout, representsNext⟩ | ⟨error, beyond, -⟩
    · refine ⟨next, representsNext, fun id file live => ?_⟩
      simp only [Layout.create, ← same, if_neg full] at onLayout
      cases onLayout
      have older := (represents.wf.live_le id file live).2
      exact (Function.update_of_ne (by omega) _ _).trans live
    · simp only [Layout.create, ← same, if_neg full, reduceCtorEq] at beyond

/-- An answered request of a moderate size leaves a disk that stores some files. -/
theorem Represents.serve_held (represents : Represents im.atTable layout)
    (fits : request.Fits)
    (served : ExtentServer.serve env request im = .ok (reply, after))
    (before : iblock after.inum < firstId) :
    ∃ next, Represents after.atTable next := by
  by_cases isCreate : ∃ type, request = .create type
  · rcases isCreate with ⟨type, rfl⟩
    obtain ⟨next, representsNext, -⟩ := represents.create_layout served before
    exact ⟨next, representsNext⟩
  · obtain ⟨next, -, representsNext⟩ :=
      represents.serve_layout fits (fun type equal => isCreate ⟨type, equal⟩) served
    exact ⟨next, representsNext⟩

/-- A request of a moderate size stops at a missing inode or outside the disk. -/
theorem Represents.serve_stops (represents : Represents im.atTable layout)
    (fits : request.Fits) {fault : Fault}
    (stops : ExtentServer.serve env request im = .error fault) :
    fault = .nullInode ∨ fault = .outOfDisk := by
  by_cases isCreate : ∃ type, request = .create type
  · rcases isCreate with ⟨type, rfl⟩
    apply Or.inr
    rcases bind_stops stops with allocates | ⟨made, -, returns⟩
    · rcases bind_stops allocates with puts | ⟨written, -, returns⟩
      · exact InodeManager.putInode_stops puts
      · cases returns
    · cases returns
  · have notCreate : ∀ type, request ≠ .create type := fun type equal => isCreate ⟨type, equal⟩
    have answered := (serve_atTable_error notCreate).mpr stops
    have agree := simulates_layout env request im.atTable layout represents
    rw [answered] at agree
    cases onLayout : Layout.serve env.clock request layout with
    | ok answer =>
        rw [onLayout] at agree
        rcases agree with ⟨last, same, -⟩
        cases same
    | error other =>
        rcases Layout.serve_error fits notCreate onLayout with
          rfl | ⟨id, buf, file, rfl, live, full⟩
        · rw [onLayout] at agree
          rcases agree with beyond | same
          · cases beyond
          · cases same
            exact Or.inl rfl
        · cases (represents.put_full env live fits full).symm.trans answered
          exact Or.inr rfl

theorem Represents.ne_overrun (represents : Represents im.atTable layout)
    (fits : request.Fits) : ExtentServer.serve env request im ≠ .error .overrun := by
  intro overrun
  rcases represents.serve_stops fits overrun with same | same
  · cases same
  · cases same

/-- A run of the server of requests of a moderate size, with any number of inodes
whose blocks lie before the data blocks. -/
theorem Represents.run_held (represents : Represents im.atTable layout)
    {requests : List ExtentRequest} {history : List Exchange}
    (fits : ∀ request ∈ requests, request.Fits)
    (returns : (session exchange requests).run (ExtentServer.serve env) im =
      .ok (history, after))
    (before : iblock after.inum < firstId) :
    ∃ next, Represents after.atTable next := by
  refine session_preserves (ExtentServer.serve env) exchange
    (fun im => iblock im.inum < firstId → ∃ next, Represents im.atTable next)
    ?_ (fun _ => ⟨layout, represents⟩) returns before
  intro request member state output next held performed before
  obtain ⟨reply, served, -⟩ := (run_exchange _).mp performed
  have lower := inum_le_of_serve served
  have earlier : iblock state.inum < firstId := by
    simp only [iblock] at before ⊢
    omega
  obtain ⟨middle, representsMiddle⟩ := held earlier
  exact representsMiddle.serve_held (fits request member) served before

/-- What a run of the server from its constructor leaves. -/
theorem represents_of_run {start : InodeManager} {requests : List ExtentRequest}
    {history : List Exchange} (starts : InodeManager.init env = .ok start)
    (fits : ∀ request ∈ requests, request.Fits)
    (returns : (session exchange requests).run (ExtentServer.serve env) start =
      .ok (history, im))
    (before : iblock im.inum < firstId) : ∃ layout, Represents im.atTable layout := by
  obtain ⟨fresh, same, represents⟩ := init_represents env
  cases starts.symm.trans same
  have one : start.inum < inodeNum := by
    rw [represents.inum]
    exact (by decide : 1 < inodeNum)
  rw [← InodeManager.atTable_of_lt one] at represents
  exact represents.run_held fits returns before

end Steps

end Yfs
