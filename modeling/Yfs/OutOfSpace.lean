import Yfs.FullTable
import Yfs.ServerCalls

/-!
# Running out of space

`write_file` never asks whether `alloc_block` found a block: without room for the
new content it writes to memory outside the disk, after it has freed the old
blocks.
-/

namespace Yfs

open ClientServer FirstFit

/-- What a client expects of `put` when the store is full: an error that leaves
everything as it was.  No block outside the disk is ever written or kept. -/
structure FailsCleanly (env : Env) (im : InodeManager) (id : ExtentId)
    (buf : List Byte) : Prop where
  refuses : ¬im.RoomFor (inumOf id) buf.length →
    ∃ status after, ExtentServer.put env im id buf = .ok (status, after) ∧
      status ≠ .OK ∧
      (∀ other, (ExtentServer.get env after other).map Prod.fst =
        (ExtentServer.get env im other).map Prod.fst) ∧
      (∀ other, inumOf other ≠ inumOf id →
        ExtentServer.getattr after other =
          (ExtentServer.getattr im other).map fun answer => (answer.1, after)) ∧
      ∀ block, after.bm.disk.idBit block = im.bm.disk.idBit block
  inside : ExtentServer.put env im id buf ≠ .error .outOfDisk
  keeps : ∀ status after, ExtentServer.put env im id buf = .ok (status, after) →
    ∀ other, after.IsLive other → ∀ block ∈ after.ownedBlocks other, block < blockNum

/-- `put` of at most the maximum size fails cleanly, if at all, exactly if there is
room for it. -/
theorem Represents.failsCleanly_iff (env : Env) {im : InodeManager} {layout : Layout}
    (represents : Represents im.atTable layout) {id : ExtentId}
    (live : im.IsLive (inumOf id)) {buf : List Byte}
    (fits : buf.length ≤ maxFile * blockSize) :
    FailsCleanly env im id buf ↔ im.RoomFor (inumOf id) buf.length := by
  have notCreate : ∀ type, ExtentRequest.put id buf ≠ .create type := by
    intro type same
    cases same
  obtain ⟨file, hasFile⟩ : ∃ file, layout.files (inumOf id) = some file :=
    represents.isLive_iff.mp live
  have room_iff : im.RoomFor (inumOf id) buf.length ↔
      blocksFor buf.length ≤ (freeIds (layout.kept file)).length :=
    represents.roomFor_iff hasFile
  constructor
  · intro cleanly
    by_contra full
    rw [room_iff] at full
    have stops := represents.put_full env hasFile fits (Nat.lt_of_not_le full)
    exact cleanly.inside ((serve_atTable_error notCreate).mp stops)
  · intro room
    obtain ⟨next, new, onLayout, -⟩ :=
      Layout.put_live env.clock hasFile fits (room_iff.mp room)
    have agree := represents.put env id buf
    rw [onLayout] at agree
    rcases agree with ⟨held, answers, representsHeld⟩
    obtain ⟨after, served, rfl⟩ := serve_of_atTable notCreate answers
    change ExtentServer.put env im id buf = _ at served
    refine ⟨fun full => absurd room full, ?_, ?_⟩
    · rw [served]
      simp only [ne_eq, reduceCtorEq, not_false_eq_true]
    · intro status last returned other isLive block owned
      rw [served] at returned
      cases returned
      exact (representsHeld.ownership.within other isLive block owned).2

/-- In every state that a run of requests of at most the maximum size reaches, with
its inodes before the data blocks, `put` fails cleanly, if at all, exactly if there
is room for the bytes. -/
theorem put_fails_cleanly_iff (env : Env) (requests : List ExtentRequest)
    (history : List Exchange) (start im : InodeManager)
    (starts : InodeManager.init env = .ok start)
    (sizes : ∀ request ∈ requests, request.Fits)
    (returns : (session exchange requests).run (ExtentServer.serve env) start =
      .ok (history, im))
    (before : iblock im.inum < firstId) (id : ExtentId) (live : im.IsLive (inumOf id))
    (buf : List Byte) (fits : buf.length ≤ maxFile * blockSize) :
    FailsCleanly env im id buf ↔ im.RoomFor (inumOf id) buf.length := by
  obtain ⟨layout, represents⟩ := represents_of_run starts sizes returns before
  exact represents.failsCleanly_iff env live fits

/-- One byte is put to a new file. -/
theorem put_fails_cleanly_iff_create :
    ∃ start im, InodeManager.init Env.zero = .ok start ∧
      (session exchange [.create tFile]).run (ExtentServer.serve Env.zero) start =
        .ok ([⟨.create tFile, (.OK, 2)⟩], im) ∧
      (FailsCleanly Env.zero im 2 [7] ↔ im.RoomFor (inumOf 2) [(7 : Byte)].length) := by
  obtain ⟨start, starts, represents⟩ := init_represents Env.zero
  have runs := (simulates_layout Env.zero).run (session exchange [.create tFile]) represents
  rcases runs with ⟨im, returns, representsIm⟩
  have live : im.IsLive (inumOf 2) := representsIm.isLive_iff.mpr ⟨_, rfl⟩
  have before : iblock im.inum < firstId := by
    rw [representsIm.inum]
    decide
  exact ⟨start, im, starts, returns, put_fails_cleanly_iff Env.zero [.create tFile] _ start im
    starts (by decide) returns before 2 live [7] (by decide)⟩

/-- A file of the maximum size. -/
def wholeFile : List Byte :=
  List.replicate (maxFile * blockSize) 0

theorem length_wholeFile : wholeFile.length = maxFile * blockSize :=
  List.length_replicate

/-- Create files of the maximum size. -/
def fill : Nat → List ExtentRequest
  | 0 => []
  | count + 1 =>
      fill count ++ [.create tFile] ++ [.put (BitVec.ofNat 64 (count + 2)) wholeFile]

theorem fits_fill (count : Nat) : ∀ request ∈ fill count, request.Fits := by
  induction count with
  | zero => simp [fill]
  | succ count ih =>
      intro request member
      simp only [fill, List.mem_append, List.mem_singleton] at member
      rcases member with (earlier | rfl) | rfl
      · exact ih request earlier
      · trivial
      · exact length_wholeFile.le

section Fill

variable (clock : Nat → BitVec 32) {map : ExtentMap}

theorem ExtentMap.create_inside (inside : map.created + 1 < inodeNum) :
    ∃ last, ExtentMap.serve clock (.create tFile) map =
        .ok ((Status.OK, BitVec.ofNat 64 (map.created + 1)), last) ∧
      last.created = map.created + 1 ∧ last.blocksInUse = map.blocksInUse ∧
      last.extents (map.created + 1) = some (.empty tFile (clock map.ticks)) :=
  ⟨⟨map.created + 1, map.ticks + 1, Function.update map.extents (map.created + 1)
      (some (.empty tFile (clock map.ticks)))⟩, if_pos ⟨inside, by decide⟩, rfl,
    map.blocksInUse_create tFile _ _, Function.update_self _ _ _⟩

theorem ExtentMap.put_inside {id : ExtentId} {extent : Extent} {buf : List Byte}
    (live : map.extents (inumOf id) = some extent) (inside : inumOf id ≤ map.created)
    (fits : buf.length ≤ maxFile * blockSize) (empty : blocksFor extent.data.length = 0)
    (room : map.blocksInUse + blocksFor buf.length ≤ maxBlocks) :
    ∃ last, ExtentMap.serve clock (.put id buf) map = .ok (Status.OK, last) ∧
      last.created = map.created ∧
      last.blocksInUse = map.blocksInUse + blocksFor buf.length := by
  have changed := map.blocksInUse_update inside (extent.rewritten (clock map.ticks) buf)
    (map.ticks + 1)
  have held : ExtentMap.blocksOf map.extents (inumOf id) = 0 := by
    rw [ExtentMap.blocksOf, live]
    exact empty
  rw [held, Nat.add_zero] at changed
  refine ⟨⟨map.created, map.ticks + 1, Function.update map.extents (inumOf id)
    (some (extent.rewritten (clock map.ticks) buf))⟩, ?_, rfl, changed⟩
  simp only [ExtentMap.serve, ExtentMap.put, live]
  exact if_pos ⟨fits, changed.le.trans room⟩

theorem blocksFor_wholeFile : blocksFor wholeFile.length = 229 := by
  rw [length_wholeFile]
  decide

/-- Each file takes 229 blocks. -/
theorem run_fill (count : Nat) (inside : count + 1 < inodeNum)
    (fits : count * 229 ≤ maxBlocks) :
    ∃ history map, (session exchange (fill count)).run (ExtentMap.serve clock)
        (ExtentMap.init clock) = .ok (history, map) ∧
      map.created = count + 1 ∧ map.blocksInUse = count * 229 := by
  induction count with
  | zero =>
      exact ⟨[], ExtentMap.init clock, rfl, rfl, ExtentMap.blocksInUse_init clock⟩
  | succ count ih =>
      obtain ⟨history, map, returns, created, inUse⟩ := ih (by omega) (by omega)
      obtain ⟨next, made, createdNext, inUseNext, live⟩ :=
        ExtentMap.create_inside clock (by omega : map.created + 1 < inodeNum)
      have here : inumOf (BitVec.ofNat 64 (count + 2)) = map.created + 1 := by
        rw [inumOf_ofNat inside, created]
      rw [← here] at live
      obtain ⟨last, written, createdLast, inUseLast⟩ := ExtentMap.put_inside clock
        live (by omega) length_wholeFile.le (by decide : blocksFor 0 = 0) (by
          rw [blocksFor_wholeFile]
          omega)
      have ran := run_exchange_snoc _ (run_exchange_snoc _ returns made) written
      rw [blocksFor_wholeFile] at inUseLast
      exact ⟨_, last, ran, by omega, by omega⟩

/-- When the files of the maximum size leave no room for another, it does not fail
cleanly. -/
theorem fill_not_cleanly (env : Env) (count : Nat) (inside : count + 2 < inodeNum)
    (fits : count * 229 ≤ maxBlocks) (full : maxBlocks < (count + 1) * 229) :
    ∃ history start im, InodeManager.init env = .ok start ∧
      (session exchange (fill count ++ [.create tFile])).run (ExtentServer.serve env) start =
        .ok (history, im) ∧
      im.inum = count + 2 ∧ im.IsLive (inumOf (BitVec.ofNat 64 (count + 2))) ∧
      ¬FailsCleanly env im (BitVec.ofNat 64 (count + 2)) wholeFile := by
  obtain ⟨history, map, filled, created, inUse⟩ :=
    run_fill env.clock count (by omega) fits
  obtain ⟨last, made, createdLast, inUseLast, live⟩ :=
    ExtentMap.create_inside env.clock (by omega : map.created + 1 < inodeNum)
  have ran := run_exchange_snoc _ filled made
  obtain ⟨start, starts, holds⟩ := init_holds env
  have runs := (simulates_map env).run (session exchange (fill count ++ [.create tFile])) holds
  rw [ran] at runs
  rcases runs with ⟨im, returns, layout, represents, abstracts⟩
  have counter : im.inum = count + 2 := by
    rw [represents.inum, abstracts.created]
    omega
  have here : inumOf (BitVec.ofNat 64 (count + 2)) = map.created + 1 := by
    rw [inumOf_ofNat inside, created]
  rw [← here, abstracts.extents] at live
  obtain ⟨file, isFile, isEmpty⟩ := Option.map_eq_some_iff.mp live
  have isLive := represents.isLive_iff.mpr ⟨file, isFile⟩
  refine ⟨_, start, im, starts, returns, counter, isLive, ?_⟩
  have table : im.inum < inodeNum := by omega
  rw [← InodeManager.atTable_of_lt table] at represents
  rw [represents.failsCleanly_iff env isLive length_wholeFile.le]
  have whole : (file.extent.rewritten 0 wholeFile).data = wholeFile := rfl
  have among : inumOf (BitVec.ofNat 64 (count + 2)) ≤ last.created := by omega
  have changed := last.blocksInUse_update among
    (file.extent.rewritten 0 wholeFile) last.ticks
  have held : ExtentMap.blocksOf last.extents (inumOf (BitVec.ofNat 64 (count + 2))) = 0 := by
    rw [ExtentMap.blocksOf, abstracts.extents, live]
    exact (by decide : blocksFor 0 = 0)
  rw [held, whole, blocksFor_wholeFile] at changed
  have room := abstracts.room_iff isFile (file.extent.rewritten 0 wholeFile) last.ticks
  rw [whole] at room
  intro enough
  have within := room.mp ((represents.roomFor_iff isFile).mp enough)
  omega

end Fill

/-- 107 files of the maximum size leave 73 blocks, too few for one more. -/
theorem put_fails_cleanly_fails :
    ∃ requests history start im, InodeManager.init Env.zero = .ok start ∧
      (∀ request ∈ requests, request.Fits) ∧
      (session exchange requests).run (ExtentServer.serve Env.zero) start =
        .ok (history, im) ∧
      iblock im.inum < firstId ∧ im.IsLive (inumOf 109) ∧
      wholeFile.length ≤ maxFile * blockSize ∧
      ¬FailsCleanly Env.zero im 109 wholeFile := by
  obtain ⟨history, start, im, starts, returns, counter, live, unclean⟩ :=
    fill_not_cleanly Env.zero 107 (by decide) (by decide) (by decide)
  have before : iblock im.inum < firstId := by
    rw [counter]
    decide
  refine ⟨_, history, start, im, starts, ?_, returns, before, live, length_wholeFile.le, unclean⟩
  intro request member
  rcases List.mem_append.mp member with filling | last
  · exact fits_fill 107 request filling
  · rw [List.mem_singleton.mp last]
    trivial

end Yfs
