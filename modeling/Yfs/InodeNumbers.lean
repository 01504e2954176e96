import Yfs.FullTable

/-!
# Inode numbers

`alloc_inode` takes the next value of a counter and never looks for a free
inode.  A new inode is usable as long as the counter stays inside the inode
table; after that `create` still reports success, with a number that `get_inode`
refuses.
-/

namespace Yfs

open ClientServer

/-- What a client expects of `create`: if it reports success, the number is one
of the table and was free, the new extent has the type and is empty, every other
live extent is as before, and nothing outside the inode table was written. -/
structure UsableCreate (env : Env) (im : InodeManager) (type : BitVec 32)
    (id : ExtentId) (after : InodeManager) : Prop where
  inTable : 1 ≤ id.toNat ∧ id.toNat < inodeNum
  wasFree : ¬im.IsLive (inumOf id)
  isNew : ∃ attr, ExtentServer.getattr after id = .ok ((.OK, attr), after) ∧
    attr.type = type ∧ attr.size = 0
  sameAttr : ∀ other attr, im.IsLive (inumOf other) →
    ExtentServer.getattr im other = .ok ((.OK, attr), im) →
      ExtentServer.getattr after other = .ok ((.OK, attr), after)
  sameData : ∀ other data next, im.IsLive (inumOf other) →
    ExtentServer.get env im other = .ok ((.OK, data), next) →
      ∃ last, ExtentServer.get env after other = .ok ((.OK, data), last)
  frame : ∀ block, block < iblock 0 ∨ iblock (inodeNum - 1) < block →
    after.bm.disk.block block = im.bm.disk.block block

/-- `create` stays on the disk, and if it reports success the inode is usable. -/
def CreatesUsable (env : Env) (im : InodeManager) (type : BitVec 32) : Prop :=
  ∃ reply after, ExtentServer.create env im type = .ok (reply, after) ∧
    (reply.1 = .OK → UsableCreate env im type reply.2 after)

/-- The number of inodes that a run creates. -/
def creates (requests : List ExtentRequest) : Nat :=
  requests.countP fun request => match request with
    | .create _ => true
    | _ => false

/-- The type survives the narrowing to `short`. -/
def Narrows (type : BitVec 32) : Prop :=
  (type.setWidth 16).signExtend 32 = type

instance (type : BitVec 32) : Decidable (Narrows type) :=
  inferInstanceAs (Decidable (_ = _))

/-- Start the extent server and send it the requests. -/
def serverRun (env : Env) (requests : List ExtentRequest) :
    Except Fault (List Exchange × InodeManager) := do
  let im ← InodeManager.init env
  (session exchange requests).run (ExtentServer.serve env) im

/-- The server answers whatever is sent before the inode table is full. -/
def AnsweredInTable (env : Env) (requests : List ExtentRequest) : Prop :=
  ∀ before later, requests = before ++ later → creates before + 1 < inodeNum →
    ∃ history im, serverRun env before = .ok (history, im)

/-- Every `create` of the run is usable. -/
def AllCreatesUsable (env : Env) (requests : List ExtentRequest) : Prop :=
  ∀ before type later history im, requests = before ++ .create type :: later →
    serverRun env before = .ok (history, im) → CreatesUsable env im type

/-- The file that `create` makes, none if its type is narrowed to zero. -/
def newFile (type : BitVec 32) (now : BitVec 32) : Option FileLayout :=
  if live : type.setWidth 16 ≠ 0 then some (.empty (type.setWidth 16) now live)
  else none

section Counting

variable {env : Env} {requests : List ExtentRequest}

theorem creates_append (before later : List ExtentRequest) :
    creates (before ++ later) = creates before + creates later :=
  List.countP_append

theorem creates_create (type : BitVec 32) (rest : List ExtentRequest) :
    creates (.create type :: rest) = creates rest + 1 :=
  List.countP_cons_of_pos rfl

/-- A run with more creates than `count` has one that comes after `count` others. -/
theorem split_create {count : Nat} (more : count < creates requests) :
    ∃ before type later, requests = before ++ .create type :: later ∧
      creates before = count := by
  induction requests generalizing count with
  | nil => exact absurd more (Nat.not_lt_zero _)
  | cons request rest ih =>
      cases request with
      | create type =>
          cases count with
          | zero => exact ⟨[], type, rest, rfl, rfl⟩
          | succ count =>
              rw [creates_create] at more
              obtain ⟨before, other, later, rfl, isCount⟩ := ih (Nat.lt_of_succ_lt_succ more)
              refine ⟨.create type :: before, other, later, rfl, ?_⟩
              rw [creates_create, isCount]
      | _ =>
          obtain ⟨before, type, later, rfl, isCount⟩ := ih more
          exact ⟨_ :: before, type, later, rfl, isCount⟩

theorem inum_serve {im after : InodeManager} {request : ExtentRequest}
    {reply : ExtentReply request}
    (served : ExtentServer.serve env request im = .ok (reply, after)) :
    after.inum = im.inum + creates [request] := by
  cases request with
  | create type => exact (ExtentServer.create_counter served).2
  | _ => exact inum_of_serve (by rintro type ⟨⟩) served

/-- The counter of the server counts the creates of a run. -/
theorem inum_run {start im : InodeManager} {history : List Exchange}
    (returns : (session exchange requests).run (ExtentServer.serve env) start =
      .ok (history, im)) : im.inum = start.inum + creates requests := by
  induction requests generalizing start history with
  | nil =>
      cases returns
      rfl
  | cons request rest ih =>
      obtain ⟨output, others, middle, -, performed, remaining⟩ :=
        run_session_ok _ _ returns
      obtain ⟨reply, served, -⟩ := (run_exchange _).mp performed
      have counted : creates ([request] ++ rest) = creates [request] + creates rest :=
        creates_append _ _
      rw [List.singleton_append] at counted
      rw [ih remaining, inum_serve served, counted, Nat.add_assoc]

/-- If the whole run is answered, so is what comes before the table is full. -/
theorem answeredInTable_of_run {history : List Exchange} {im : InodeManager}
    (returns : serverRun env requests = .ok (history, im)) :
    AnsweredInTable env requests := by
  rintro before later rfl -
  obtain ⟨start, starts, returns⟩ := bind_ok returns
  rw [run_session_append] at returns
  rw [serverRun, starts]
  cases begun : (session exchange before).run (ExtentServer.serve env) start with
  | error fault =>
      rw [begun] at returns
      cases returns
  | ok answer => exact ⟨answer.1, answer.2, begun⟩

/-- The counter after a run from the constructor. -/
theorem inum_serverRun {history : List Exchange} {im : InodeManager}
    (returns : serverRun env requests = .ok (history, im)) :
    im.inum = creates requests + 1 := by
  obtain ⟨start, starts, returns⟩ := bind_ok returns
  obtain ⟨fresh, same, represents⟩ := init_represents env
  cases starts.symm.trans same
  rw [inum_run returns, represents.inum, Nat.add_comm]
  rfl

end Counting

namespace Represents

variable {im : InodeManager} {layout : Layout}

/-- What `getattr` answers. -/
theorem getattr_eq (represents : Represents im layout) (id : ExtentId) :
    ExtentServer.getattr im id = .ok ((.OK,
      ((layout.files (inumOf id)).map FileLayout.attr).getD Attr.zero), im) := by
  have agree := represents.getattr id
  rcases agree with ⟨same, served, -⟩
  have unchanged : same = im := by
    simp only [ExtentServer.getattr, bind, Except.bind] at served
    split at served
    · cases served
    · cases served
      rfl
  rwa [unchanged] at served

/-- What `get` answers on a live inode. -/
theorem get_eq (env : Env) (represents : Represents im layout) {id : ExtentId}
    {file : FileLayout} (live : layout.files (inumOf id) = some file) :
    ∃ next, ExtentServer.get env im id = .ok ((.OK, file.data), next) := by
  have agree := represents.get env id
  have layoutGet : ∃ next, layout.get env.clock id = .ok ((.OK, file.data), next) := by
    simp only [Layout.get, live]
    exact ⟨_, rfl⟩
  rcases layoutGet with ⟨next, served⟩
  rw [served] at agree
  rcases agree with ⟨after, got, -⟩
  exact ⟨after, got⟩

theorem attr_newFile (type now : BitVec 32) :
    (((newFile type now).map FileLayout.attr).getD Attr.zero).type =
        (type.setWidth 16).signExtend 32 ∧
      (((newFile type now).map FileLayout.attr).getD Attr.zero).size = 0 := by
  rw [newFile]
  split
  · exact ⟨rfl, rfl⟩
  · rename_i zero
    rw [not_not.mp zero]
    exact ⟨rfl, rfl⟩

/-- `create` inside the table. -/
theorem create_inside (env : Env) (represents : Represents im layout)
    (inside : layout.inum + 1 < inodeNum) (type : BitVec 32) :
    ∃ after next, ExtentServer.create env im type =
        .ok ((.OK, BitVec.ofNat 64 (layout.inum + 1)), after) ∧
      Represents after next ∧
      next.files = Function.update layout.files (layout.inum + 1)
        (newFile type (env.clock layout.ticks)) := by
  have layoutCreate : ∃ next, layout.create env.clock type =
      .ok ((.OK, BitVec.ofNat 64 (layout.inum + 1)), next) ∧
        next.files = Function.update layout.files (layout.inum + 1)
          (newFile type (env.clock layout.ticks)) := by
    rw [Layout.create, if_neg (Nat.not_le.mpr inside)]
    exact ⟨_, rfl, rfl⟩
  rcases layoutCreate with ⟨next, served, files⟩
  have agree := represents.create env type
  rw [served] at agree
  rcases agree with ⟨after, created, nextRepresents⟩
  exact ⟨after, next, created, nextRepresents, files⟩

/-- Inside the table `create` is usable exactly if the type survives the
narrowing to `short`. -/
theorem usable_inside (env : Env) (represents : Represents im layout)
    (inside : layout.inum + 1 < inodeNum) (type : BitVec 32) :
    CreatesUsable env im type ↔ Narrows type := by
  obtain ⟨created, next, served, nextRepresents, files⟩ :=
    represents.create_inside env inside type
  have inum := inumOf_ofNat inside
  have newAttr := nextRepresents.getattr_eq (BitVec.ofNat 64 (layout.inum + 1))
  rw [inum, files, Function.update_self] at newAttr
  have sameFile : ∀ other, im.IsLive other → next.files other = layout.files other := by
    intro other isLive
    obtain ⟨file, live⟩ := represents.isLive_iff.mp isLive
    rw [files, Function.update_of_ne]
    rintro rfl
    rw [represents.wf.dead_next] at live
    cases live
  constructor
  · rintro ⟨reply, after, creates, usable⟩
    rw [served] at creates
    cases creates
    obtain ⟨attr, reported, isType, -⟩ := (usable rfl).isNew
    rw [newAttr] at reported
    cases reported
    exact (attr_newFile _ _).1.symm.trans isType
  · intro fits
    refine ⟨_, created, served, fun _ => ?_⟩
    refine
      { inTable := ?_
        wasFree := ?_
        isNew := ⟨_, newAttr, (attr_newFile _ _).1.trans fits, (attr_newFile _ _).2⟩
        sameAttr := ?_
        sameData := ?_
        frame := ?_ }
    · have small : layout.inum + 1 < 2 ^ 64 := lt_trans inside (by decide)
      rw [BitVec.toNat_ofNat, Nat.mod_eq_of_lt small]
      exact ⟨Nat.succ_pos _, inside⟩
    · rw [inum, represents.isLive_iff, represents.wf.dead_next]
      rintro ⟨_, ⟨⟩⟩
    · intro other attr isLive reported
      rw [represents.getattr_eq] at reported
      cases reported
      rw [nextRepresents.getattr_eq, sameFile _ isLive]
    · intro other data last isLive got
      obtain ⟨file, live⟩ := represents.isLive_iff.mp isLive
      obtain ⟨_, gives⟩ := represents.get_eq env live
      rw [gives] at got
      cases got
      exact nextRepresents.get_eq env ((sameFile _ isLive).trans live)
    · intro block outside
      have counter : im.inum + 1 < inodeNum := by rw [represents.inum]; exact inside
      obtain ⟨ino, allocates, -⟩ := im.allocInode_of_lt env type counter
      simp only [ExtentServer.create, allocates, bind, Except.bind, pure, Except.pure,
        Except.ok.injEq, Prod.mk.injEq] at served
      rw [← served.2]
      apply InodeManager.block_withInode _ ino counter
      rintro rfl
      simp only [iblock, inodeNum] at outside counter
      omega

end Represents

/-- With the table full, `alloc_inode` writes the block after it and returns a
number outside the table. -/
theorem create_full (env : Env) {im : InodeManager} (full : im.inum + 1 = inodeNum)
    (type : BitVec 32) :
    ∃ after, ExtentServer.create env im type =
      .ok ((.OK, BitVec.ofNat 64 inodeNum), after) := by
  have bound : iblock inodeNum < blockNum := by decide
  simp only [ExtentServer.create, InodeManager.allocInode, InodeManager.malloc,
    InodeManager.time, InodeManager.putInode, bind, Except.bind, full,
    im.bm.readBlock_of_lt bound, im.bm.writeBlock_of_lt _ bound, pure, Except.pure]
  exact ⟨_, rfl⟩

/-- Once the table is full, no `create` is usable. -/
theorem not_usable_full (env : Env) {im : InodeManager} (full : inodeNum ≤ im.inum + 1)
    (type : BitVec 32) : ¬CreatesUsable env im type := by
  rintro ⟨reply, after, served, usable⟩
  have inside := ExtentServer.create_inside served
  obtain ⟨rfl, counter⟩ := ExtentServer.create_counter served
  have inTable := (usable rfl).inTable.2
  rw [counter] at inside
  simp only [iblock, blockNum, diskSize, blockSize, bpb] at inside
  rw [BitVec.toNat_ofNat, Nat.mod_eq_of_lt (by omega)] at inTable
  exact absurd inTable (Nat.not_lt.mpr full)

section Runs

variable {env : Env} {requests : List ExtentRequest}

/-- After a run of any length the next `create` is usable exactly if the table has an
entry left and the type survives. -/
theorem usable_iff_of_run (fits : ∀ request ∈ requests, request.Fits)
    {history : List Exchange} {im : InodeManager}
    (returns : serverRun env requests = .ok (history, im)) (type : BitVec 32) :
    CreatesUsable env im type ↔ creates requests + 2 < inodeNum ∧ Narrows type := by
  have counter := inum_serverRun returns
  by_cases room : creates requests + 2 < inodeNum
  · obtain ⟨start, starts, returns⟩ := bind_ok returns
    have table : im.inum < inodeNum := by omega
    have before : iblock im.inum < firstId :=
      (iblock_bounds table).2.1
    obtain ⟨layout, represents⟩ := represents_of_run starts fits returns before
    rw [InodeManager.atTable_of_lt table] at represents
    rw [represents.usable_inside env (by rw [← represents.inum, counter]; exact room)]
    exact ⟨fun narrows => ⟨room, narrows⟩, fun both => both.2⟩
  · have full : inodeNum ≤ im.inum + 1 := by omega
    exact iff_of_false (not_usable_full env full type) fun both => room both.1

end Runs

/-- The creates of a run are all usable exactly if there are at most `INODE_NUM - 2` of
them and each type survives the narrowing to `short`.  After a run of any length, the
next `create` is usable exactly if there were fewer than that and its type survives. -/
theorem create_usable_iff (env : Env) {requests : List ExtentRequest}
    (fits : ∀ request ∈ requests, request.Fits) (answered : AnsweredInTable env requests) :
    (AllCreatesUsable env requests ↔
      creates requests ≤ inodeNum - 2 ∧ ∀ type, .create type ∈ requests → Narrows type) ∧
    ∀ history im, serverRun env requests = .ok (history, im) → ∀ type,
      (CreatesUsable env im type ↔ creates requests < inodeNum - 2 ∧ Narrows type) := by
  have table : 2 < inodeNum := by decide
  refine ⟨⟨?_, ?_⟩, ?_⟩
  · intro usable
    have step : ∀ before type later, requests = before ++ .create type :: later →
        creates before + 1 < inodeNum → creates before + 2 < inodeNum ∧ Narrows type := by
      intro before type later split few
      obtain ⟨history, im, returns⟩ := answered before _ split few
      have fitsBefore : ∀ request ∈ before, request.Fits := by
        intro request member
        apply fits
        rw [split]
        exact List.mem_append_left _ member
      exact (usable_iff_of_run fitsBefore returns type).mp
        (usable before type later history im split returns)
    have few : creates requests ≤ inodeNum - 2 := by
      by_contra many
      obtain ⟨before, type, later, split, count⟩ := split_create (Nat.lt_of_not_le many)
      have room := (step before type later split (by omega)).1
      omega
    refine ⟨few, ?_⟩
    intro type member
    obtain ⟨before, later, split⟩ := List.append_of_mem member
    refine (step before type later split ?_).2
    rw [split, creates_append, creates_create] at few
    omega
  · rintro ⟨few, narrow⟩ before type later history im split returns
    have fitsBefore : ∀ request ∈ before, request.Fits := by
      intro request member
      apply fits
      rw [split]
      exact List.mem_append_left _ member
    apply (usable_iff_of_run fitsBefore returns type).mpr
    refine ⟨?_, narrow type ?_⟩
    · rw [split, creates_append, creates_create] at few
      omega
    · rw [split]
      exact List.mem_append_right _ List.mem_cons_self
  · intro history im returns type
    rw [usable_iff_of_run fits returns]
    have same : creates requests + 2 < inodeNum ↔ creates requests < inodeNum - 2 := by omega
    rw [same]

/-- A file is created, written and removed, then another one is created. -/
theorem create_usable_iff_second :
    AllCreatesUsable Env.zero [.create tFile, .put 2 [7], .remove 2, .create tFile] := by
  obtain ⟨layout, allowed, -⟩ := layout_returns Env.zero.clock
    [.create tFile, .put 2 [7], .remove 2, .create tFile] rfl
  obtain ⟨start, im, starts, returns, -⟩ := server_returns Env.zero allowed
  have run : ∃ history, serverRun Env.zero
      [.create tFile, .put 2 [7], .remove 2, .create tFile] = .ok (history, im) := by
    rw [serverRun, starts]
    exact ⟨_, returns⟩
  obtain ⟨history, run⟩ := run
  have fits : ∀ request ∈ [ExtentRequest.create tFile, .put 2 [7], .remove 2, .create tFile],
      request.Fits := by decide
  refine (create_usable_iff Env.zero fits (answeredInTable_of_run run)).1.mpr ⟨by decide, ?_⟩
  intro type member
  have isFile : type = tFile := by simpa using member
  subst isFile
  decide

/-- Create a file and remove it again, `count` times. -/
def rounds : Nat → List ExtentRequest
  | 0 => []
  | count + 1 =>
      rounds count ++ [.create tFile, .remove (BitVec.ofNat 64 (count + 2))]

/-- The rounds use up the numbers and leave only the root. -/
theorem run_rounds (clock : Nat → BitVec 32) (count : Nat)
    (inside : count + 1 < inodeNum) :
    ∃ history, (session exchange (rounds count)).run (ExtentMap.serve clock)
      (ExtentMap.init clock) =
        .ok (history, ⟨count + 1, count + 1, (ExtentMap.init clock).extents⟩) := by
  induction count with
  | zero => exact ⟨[], rfl⟩
  | succ count ih =>
      obtain ⟨history, returns⟩ := ih (by omega)
      have unused := ExtentMap.init_of_ne clock (show count + 2 ≠ 1 by omega)
      have created : ExtentMap.create clock
          ⟨count + 1, count + 1, (ExtentMap.init clock).extents⟩ tFile =
            .ok ((.OK, BitVec.ofNat 64 (count + 2)), ⟨count + 2, count + 2,
              Function.update (ExtentMap.init clock).extents (count + 2)
                (some (.empty tFile (clock (count + 1))))⟩) := by
        rw [ExtentMap.create, if_pos ⟨inside, by decide⟩]
      have removed : ExtentMap.remove ⟨count + 2, count + 2,
          Function.update (ExtentMap.init clock).extents (count + 2)
            (some (.empty tFile (clock (count + 1))))⟩ (BitVec.ofNat 64 (count + 2)) =
            .ok (.OK, ⟨count + 2, count + 2, (ExtentMap.init clock).extents⟩) := by
        simp only [ExtentMap.remove, inumOf_ofNat inside, Function.update_self,
          Function.update_idem]
        rw [← unused, Function.update_eq_self]
      refine ⟨history ++ [⟨.create tFile, (.OK, BitVec.ofNat 64 (count + 2))⟩,
        ⟨.remove (BitVec.ofNat 64 (count + 2)), .OK⟩], ?_⟩
      rw [rounds, run_session_append, returns]
      simp only [run_session_cons, exchange, Program.run_bind, Program.run_send,
        ExtentMap.serve, created, removed, Program.run_pure, run_session_nil]

theorem rounds_exhaust (env : Env) (count : Nat) (last : count + 2 = inodeNum) :
    ∃ start history im after, InodeManager.init env = .ok start ∧
      (session exchange (rounds count)).run (ExtentServer.serve env) start =
        .ok (history, im) ∧
      (∀ id, im.IsLive id → id = 1) ∧
      ExtentServer.create env im tFile =
        .ok ((.OK, BitVec.ofNat 64 inodeNum), after) ∧
      ¬CreatesUsable env im tFile := by
  obtain ⟨history, allowed⟩ := run_rounds env.clock count (by omega)
  obtain ⟨start, starts, holds⟩ := init_holds env
  have runs := (simulates_map env).run (session exchange (rounds count)) holds
  rw [allowed] at runs
  rcases runs with ⟨im, returns, layout, represents, abstracts⟩
  have full : im.inum + 1 = inodeNum := by
    rw [represents.inum, abstracts.created]
    exact last
  obtain ⟨after, served⟩ := create_full env full tFile
  refine ⟨start, history, im, after, starts, returns, ?_, served,
    not_usable_full env full.ge tFile⟩
  intro id isLive
  obtain ⟨file, live⟩ := represents.isLive_iff.mp isLive
  by_contra notRoot
  have known := abstracts.extents id
  rw [live] at known
  rw [ExtentMap.init_of_ne _ notRoot] at known
  cases known

/-- After 1022 files have been created and removed only the root is live, but
`create` returns 1024, which is no inode of the table. -/
theorem create_leaves_table :
    ∃ start history im after, InodeManager.init Env.zero = .ok start ∧
      (session exchange (rounds 1022)).run (ExtentServer.serve Env.zero) start =
        .ok (history, im) ∧
      (∀ id, im.IsLive id → id = 1) ∧
      ExtentServer.create Env.zero im tFile = .ok ((.OK, 1024), after) ∧
      ¬CreatesUsable Env.zero im tFile :=
  rounds_exhaust Env.zero 1022 (by decide)

end Yfs
