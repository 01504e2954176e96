import Yfs.NonDirectories
import Yfs.StoreRuns

/-!
# Timestamps

`read_file` stamps the access time and `write_file` the other two, each with one
reading of the clock, and writes the inode back with everything else as it was.  So a
read changes four bytes of the disk, and the end of every call that changes a directory
is a `put` that stamps it.
-/

namespace Yfs

open ClientServer
open ClientServer.Program (Sends)

section Bytes

variable {first second : Block}

theorem Block.word_congr {offset : Nat}
    (same : ∀ k < 4, first.get (offset + k) = second.get (offset + k)) :
    first.word offset = second.word offset :=
  LittleEndian.ofBytes_congr same

/-- Blocks that differ in the bytes of the access time hold inodes that differ there. -/
theorem Inode.load_congr
    (same : ∀ index < blockSize, index < 8 ∨ 12 ≤ index → first.get index = second.get index) :
    Inode.load first = { Inode.load second with atime := (Inode.load first).atime } := by
  have words : ∀ offset, offset + 4 ≤ blockSize → offset + 4 ≤ 8 ∨ 12 ≤ offset →
      first.word offset = second.word offset := by
    intro offset inside outside
    apply Block.word_congr
    intro k kLt
    exact same (offset + k) (by omega) (by omega)
  have blocks : (fun i : Fin (nDirect + 1) => first.word (20 + 4 * i.val)) =
      fun i => second.word (20 + 4 * i.val) := by
    funext i
    have inside := i.isLt
    simp only [nDirect] at inside
    exact words _ (by simp only [blockSize]; omega) (by omega)
  unfold Inode.load
  rw [same 0 (by decide) (by decide), same 1 (by decide) (by decide),
    words 4 (by decide) (by decide), words 12 (by decide) (by decide),
    words 16 (by decide) (by decide), blocks]

end Bytes

/-- No byte of the disk has changed but those of access times. -/
def InodeManager.OnlyAtimes (im after : InodeManager) : Prop :=
  ∀ block < blockNum, ∀ index < blockSize,
    ¬(iblock 0 ≤ block ∧ block < iblock inodeNum ∧ 8 ≤ index ∧ index < 12) →
      (after.bm.disk.block block).get index = (im.bm.disk.block block).get index

/-- The requests that read. -/
def ExtentRequest.IsRead : ExtentRequest → Prop
  | .get _ => True
  | .getattr _ => True
  | _ => False

namespace InodeManager

variable {im middle after : InodeManager}

theorem OnlyAtime.atimes {id : Nat} (inside : id < inodeNum) (only : im.OnlyAtime id after) :
    im.OnlyAtimes after := by
  intro block blockLt index indexLt outside
  apply only block blockLt index indexLt
  rintro ⟨rfl, low, high⟩
  exact outside ⟨by simp only [iblock]; omega, by simp only [iblock]; omega, low, high⟩

theorem OnlyAtimes.trans (first : im.OnlyAtimes middle) (second : middle.OnlyAtimes after) :
    im.OnlyAtimes after := by
  intro block blockLt index indexLt outside
  rw [second block blockLt index indexLt outside, first block blockLt index indexLt outside]

/-- The inodes are the same up to their access times. -/
theorem OnlyAtimes.inodeAt (only : im.OnlyAtimes after) {id : Nat} (inside : id < inodeNum) :
    after.inodeAt id = { im.inodeAt id with atime := (after.inodeAt id).atime } := by
  apply Inode.load_congr
  intro index indexLt outside
  apply only _ (iblock_bounds inside).2.2 index indexLt
  omega

/-- What a reading request may change. -/
theorem OnlyAtimes.serve {env : Env} {request : ExtentRequest} {reply : ExtentReply request}
    (isRead : request.IsRead) (only : im.OnlyAtimes middle)
    (served : ExtentServer.serve env request middle = .ok (reply, after)) :
    im.OnlyAtimes after := by
  cases request with
  | get id =>
      obtain ⟨-, -, live, changed⟩ := ExtentServer.get_ok served
      exact only.trans (changed.atimes live.1)
  | getattr id =>
      obtain ⟨a, same⟩ := ExtentServer.getattr_returns middle id
      cases same.symm.trans served
      exact only
  | create type => cases isRead
  | put id buf => cases isRead
  | remove id => cases isRead

/-- Reading requests change no contents. -/
theorem Shows.serve_read {env : Env} {contents : Contents} {request : ExtentRequest}
    {reply : ExtentReply request} (isRead : request.IsRead) (shows : im.Shows contents)
    (served : ExtentServer.serve env request im = .ok (reply, after)) :
    after.Shows contents := by
  cases request with
  | get id =>
      obtain ⟨-, -, live, -⟩ := ExtentServer.get_ok served
      obtain ⟨type, old, entry⟩ := shows.entry live
      obtain ⟨last, got, -, showsLast, -⟩ := shows.get env entry
      cases got.symm.trans served
      exact showsLast
  | getattr id =>
      obtain ⟨a, same⟩ := ExtentServer.getattr_returns im id
      cases same.symm.trans served
      exact shows
  | create type => cases isRead
  | put id buf => cases isRead
  | remove id => cases isRead

end InodeManager

/-! The calls that only read. -/

namespace YfsClient

theorem sends_getattr (inum : ExtentId) :
    Sends ExtentRequest.IsRead (ExtentClient.getattr inum) :=
  Sends.send trivial

theorem sends_isdir (inum : ExtentId) : Sends ExtentRequest.IsRead (isdir inum) := by
  unfold isdir
  apply Sends.bind (sends_getattr inum)
  rintro ⟨r, a⟩
  dsimp only
  split
  · trivial
  · trivial

theorem sends_issymlink (host : Host) (inum : ExtentId) :
    Sends ExtentRequest.IsRead (issymlink host inum) := by
  unfold issymlink
  apply Sends.bind (sends_getattr inum)
  rintro ⟨r, a⟩
  dsimp only
  split
  · trivial
  · trivial

theorem sends_readdir (dir : ExtentId) (list : List Dirent) :
    Sends ExtentRequest.IsRead (readdir dir list) := by
  unfold readdir
  apply Sends.bind (sends_isdir dir)
  intro isDir
  cases isDir with
  | false => trivial
  | true =>
      apply Sends.bind (Sends.send trivial)
      rintro ⟨r, data⟩
      dsimp only
      split
      · trivial
      · exact Sends.bind (Sends.ofExcept _) fun _ => trivial

theorem sends_lookup (parent : ExtentId) (name : CString) (found : Bool) (inoOut : ExtentId) :
    Sends ExtentRequest.IsRead (lookup parent name found inoOut) := by
  unfold lookup
  apply Sends.bind (sends_isdir parent)
  intro isDir
  cases isDir with
  | false => trivial
  | true =>
      apply Sends.bind (sends_readdir parent [])
      rintro ⟨r, list⟩
      dsimp only
      split
      · trivial
      · trivial

theorem sends_readlink (host : Host) (sym : ExtentId) :
    Sends ExtentRequest.IsRead (readlink host sym) := by
  unfold readlink
  apply Sends.bind (sends_issymlink host sym)
  intro isLink
  cases isLink with
  | false => trivial
  | true => exact Sends.bind (Sends.send trivial) fun _ => trivial

end YfsClient

/-- The calls that look at directories and links. -/
inductive LooksUp : Operation → Prop
  | lookup (parent : ExtentId) (name : CString) : LooksUp (.lookup parent name)
  | readdir (dir : ExtentId) : LooksUp (.readdir dir)
  | readlink (sym : ExtentId) : LooksUp (.readlink sym)

theorem LooksUp.sends {operation : Operation} (looksUp : LooksUp operation)
    (host : Host) (garbage : Garbage) :
    Sends ExtentRequest.IsRead (perform host (operation, garbage)) := by
  cases looksUp with
  | lookup parent name =>
      exact Sends.bind (YfsClient.sends_lookup parent name _ _) fun _ => trivial
  | readdir dir => exact Sends.bind (YfsClient.sends_readdir dir []) fun _ => trivial
  | readlink sym => exact Sends.bind (YfsClient.sends_readlink host sym) fun _ => trivial

/-- The times of modification and change are one reading of the clock, taken after those
of the state before. -/
def InodeManager.Stamped (env : Env) (im : InodeManager) (id : Nat) (after : InodeManager) :
    Prop :=
  ∃ tick, im.ticks ≤ tick ∧ tick < after.ticks ∧
    (after.inodeAt id).mtime = env.clock tick ∧ (after.inodeAt id).ctime = env.clock tick

section Stamps

open ClientServer.Program (Ensures)

variable {env : Env} {im : InodeManager} {β : Type}

/-- The clock is read in order. -/
theorem ticks_serve {request : ExtentRequest} {reply : ExtentReply request}
    {after : InodeManager} (served : ExtentServer.serve env request im = .ok (reply, after)) :
    im.ticks ≤ after.ticks := by
  cases request with
  | create type =>
      have := (ExtentServer.create_ok served).2
      omega
  | put id buf =>
      have := (ExtentServer.put_ok served).2.1
      omega
  | get id =>
      have := (ExtentServer.get_ok served).2.1
      omega
  | getattr id =>
      obtain ⟨a, same⟩ := ExtentServer.getattr_returns im id
      cases same.symm.trans served
      exact le_refl _
  | remove id =>
      have := (ExtentServer.remove_ok served).2
      omega

theorem ensures_later (program : Client β) :
    Ensures (ExtentServer.serve env) program im (fun _ after => im.ticks ≤ after.ticks)
      (fun _ => True) := by
  unfold Ensures
  split
  · rename_i value after returned
    refine Program.run_preserves (ExtentServer.serve env) (fun state => im.ticks ≤ state.ticks)
      ?_ program (le_refl _) returned
    intro request state reply next earlier served
    exact earlier.trans (ticks_serve served)
  · trivial

theorem stamped_put {middle after : InodeManager} {id : ExtentId} {buf : List Byte}
    {reply : Status} (later : im.ticks ≤ middle.ticks)
    (served : ExtentServer.put env middle id buf = .ok (reply, after)) :
    im.Stamped env (inumOf id) after := by
  obtain ⟨-, ticks, -, mtime, ctime⟩ := ExtentServer.put_ok served
  exact ⟨middle.ticks, later, by omega, mtime, ctime⟩

/-- `create` and `mkdir` stamp the parent. -/
theorem createEntry_stamps {type : BitVec 32} {parent : ExtentId} {name : CString}
    {exist : Bool} {inoOut : ExtentId} :
    Ensures (ExtentServer.serve env)
      (YfsClient.createEntry type parent name exist inoOut) im
      (fun reply after => reply.1 = .OK → im.Stamped env (inumOf parent) after)
      (fun _ => True) := by
  unfold YfsClient.createEntry
  refine Ensures.bind (ensures_later _) fun result looked later => ?_
  rcases result with ⟨r, exist, ino⟩
  cases exist with
  | true => exact Ensures.pure fun isOk => nomatch isOk
  | false =>
      refine ensures_request (fun reply made served => ?_) fun _ => trivial
      have ticks := ticks_serve served
      rcases reply with ⟨r, ino⟩
      obtain ⟨rfl, -⟩ := ExtentServer.create_ok served
      refine ensures_append (fun r => (r, ino)) fun middle after buf later served _ => ?_
      exact stamped_put (by omega) served

theorem symlink_stamps {host : Host} {parent : ExtentId} {link name : CString} :
    Ensures (ExtentServer.serve env) (YfsClient.symlink host parent link name) im
      (fun _ after => im.Stamped env (inumOf parent) after) (fun _ => True) := by
  unfold YfsClient.symlink
  refine ensures_request (fun reply made served => ?_) fun _ => trivial
  have first := ticks_serve served
  rcases reply with ⟨r, ino⟩
  obtain ⟨rfl, -⟩ := ExtentServer.create_ok served
  refine ensures_request (fun reply linked served => ?_) fun _ => trivial
  have second := ticks_serve served
  obtain ⟨rfl, -⟩ := ExtentServer.put_ok served
  refine ensures_request (fun reply read served => ?_) fun _ => trivial
  have third := ticks_serve served
  refine ensures_append (fun r => (r, ino)) fun middle after buf later served => ?_
  exact stamped_put (by omega) served

theorem unlink_stamps {parent : ExtentId} {name : CString} {exist : Bool}
    {inoOut : ExtentId} :
    Ensures (ExtentServer.serve env) (YfsClient.unlink parent name exist inoOut) im
      (fun r after => r = .OK → im.Stamped env (inumOf parent) after) (fun _ => True) := by
  unfold YfsClient.unlink
  refine Ensures.bind (ensures_later _) fun result looked later => ?_
  rcases result with ⟨r, exist, ino⟩
  cases exist with
  | false => exact Ensures.pure fun isOk => nomatch isOk
  | true =>
      refine ensures_request (fun reply removed served => ?_) fun _ => trivial
      have ticks := ticks_serve served
      obtain ⟨rfl, -⟩ := ExtentServer.remove_ok served
      refine Ensures.bind (ensures_later _) fun listing listed further => ?_
      refine ensures_request (fun reply after served => ?_) fun _ => trivial
      exact fun _ => stamped_put (by omega) served

theorem ChangesDirectory.stamps {operation : Operation} {parent : ExtentId}
    (changes : ChangesDirectory operation parent) (host : Host)
    (garbage : Garbage) :
    Ensures (ExtentServer.serve env) (perform host (operation, garbage)) im
      (fun output after => output.r = .OK → im.Stamped env (inumOf parent) after)
      (fun _ => True) := by
  cases changes with
  | create _ name => exact Ensures.bind createEntry_stamps fun reply after stamped => stamped
  | mkdir _ name => exact Ensures.bind createEntry_stamps fun reply after stamped => stamped
  | symlink _ link name =>
      exact Ensures.bind symlink_stamps fun reply after stamped _ => stamped
  | unlink _ name => exact Ensures.bind unlink_stamps fun reply after stamped => stamped

end Stamps

/-- What the calls do to the times and the contents. -/
structure KeepsTimes (env : Env) (host : Host) (im : InodeManager) : Prop where
  get : ∀ id reply after, ExtentServer.get env im id = .ok (reply, after) →
    im.OnlyAtime (inumOf id) after
  looksUp : ∀ operation garbage output after, LooksUp operation →
    (perform host (operation, garbage)).run (ExtentServer.serve env) im =
      .ok (output, after) →
    im.OnlyAtimes after ∧
      (∀ id < inodeNum, (after.inodeAt id).mtime = (im.inodeAt id).mtime ∧
        (after.inodeAt id).ctime = (im.inodeAt id).ctime) ∧
      ∀ contents, im.Shows contents → after.Shows contents
  changes : ∀ operation parent garbage output after, ChangesDirectory operation parent →
    (perform host (operation, garbage)).run (ExtentServer.serve env) im =
      .ok (output, after) →
    output.r = .OK → im.Stamped env (inumOf parent) after

/-- In any state whatsoever. -/
theorem keepsTimes (env : Env) (host : Host) (im : InodeManager) :
    KeepsTimes env host im := by
  refine ⟨?_, ?_, ?_⟩
  · intro id reply after served
    exact (ExtentServer.get_ok served).2.2.2
  · intro operation garbage output after looksUp returned
    have sends := looksUp.sends host garbage
    have only : im.OnlyAtimes after :=
      sends.preserves (fun state => im.OnlyAtimes state)
        (fun request before reply after isRead only served => only.serve isRead served)
        (fun _ _ _ _ _ => rfl) returned
    refine ⟨only, fun id inside => ?_, fun contents shows => ?_⟩
    · rw [only.inodeAt inside]
      exact ⟨rfl, rfl⟩
    · exact sends.preserves (fun state => state.Shows contents)
        (fun request before reply after isRead shows served => shows.serve_read isRead served)
        shows returned
  · intro operation parent garbage output after changes returned
    exact (changes.stamps host garbage).ok returned

/-! The times after a run. -/

/-- What the times of the inodes should be: the number of readings so far, the reading at
the latest `put` of each inode, and the one at its latest `get`, or those at its
`create`. -/
structure Stamps where
  ticks : Nat
  written : Nat → BitVec 32
  accessed : Nat → BitVec 32

namespace Stamps

/-- The constructor makes the root directory. -/
def init (clock : Nat → BitVec 32) : Stamps where
  ticks := 1
  written := fun _ => clock 0
  accessed := fun _ => clock 0

def record (clock : Nat → BitVec 32) (stamps : Stamps) : Exchange → Stamps
  | ⟨.create _, (_, id)⟩ =>
      { ticks := stamps.ticks + 1
        written := Function.update stamps.written (inumOf id) (clock stamps.ticks)
        accessed := Function.update stamps.accessed (inumOf id) (clock stamps.ticks) }
  | ⟨.put id _, _⟩ =>
      { stamps with
        ticks := stamps.ticks + 1
        written := Function.update stamps.written (inumOf id) (clock stamps.ticks) }
  | ⟨.get id, _⟩ =>
      { stamps with
        ticks := stamps.ticks + 1
        accessed := Function.update stamps.accessed (inumOf id) (clock stamps.ticks) }
  | ⟨.getattr _, _⟩ => stamps
  | ⟨.remove _, _⟩ => stamps

/-- The stamps after a history. -/
def of (clock : Nat → BitVec 32) (history : List Exchange) : Stamps :=
  history.foldl (record clock) (init clock)

/-- The times of the live inodes are those. -/
def Recorded (stamps : Stamps) (im : InodeManager) : Prop :=
  im.ticks = stamps.ticks ∧ ∀ id, im.IsLive id →
    (im.inodeAt id).mtime = stamps.written id ∧ (im.inodeAt id).ctime = stamps.written id ∧
      (im.inodeAt id).atime = stamps.accessed id

/-- The times of a file. -/
def Dates (stamps : Stamps) (id : Nat) (file : FileLayout) : Prop :=
  file.mtime = stamps.written id ∧ file.ctime = stamps.written id ∧
    file.atime = stamps.accessed id

/-- The times of the files of the layout are those. -/
structure Tracks (stamps : Stamps) (layout : Layout) : Prop where
  ticks : layout.ticks = stamps.ticks
  dates : ∀ id file, layout.files id = some file → stamps.Dates id file

namespace Tracks

variable {clock : Nat → BitVec 32} {stamps : Stamps} {layout after : Layout}

theorem init (clock : Nat → BitVec 32) : (init clock).Tracks (Layout.init clock) := by
  refine ⟨rfl, ?_⟩
  intro id file live
  by_cases isRoot : id = 1
  · subst isRoot
    cases live
    exact ⟨rfl, rfl, rfl⟩
  · cases (Function.update_of_ne isRoot _ _).symm.trans live

/-- One file is replaced, and the stamps of no other. -/
theorem update (tracks : stamps.Tracks layout) {next : Stamps} {id : Nat}
    {new : Option FileLayout} (ticks : after.ticks = next.ticks)
    (files : after.files = Function.update layout.files id new)
    (dates : ∀ file, new = some file → next.Dates id file)
    (others : ∀ other, other ≠ id → next.written other = stamps.written other ∧
      next.accessed other = stamps.accessed other) : next.Tracks after := by
  refine ⟨ticks, ?_⟩
  intro other file live
  rw [files] at live
  by_cases same : other = id
  · subst same
    rw [Function.update_self] at live
    exact dates file live
  · rw [Function.update_of_ne same] at live
    obtain ⟨mtime, ctime, atime⟩ := tracks.dates other file live
    obtain ⟨written, accessed⟩ := others other same
    exact ⟨mtime.trans written.symm, ctime.trans written.symm, atime.trans accessed.symm⟩

/-- One answered request. -/
theorem step (tracks : stamps.Tracks layout) {request : ExtentRequest}
    {reply : ExtentReply request}
    (served : Layout.serve clock request layout = .ok (reply, after)) :
    (stamps.record clock ⟨request, reply⟩).Tracks after := by
  have ticks := tracks.ticks
  cases request with
  | create type =>
      obtain ⟨inside, rfl, rfl⟩ := Layout.create_ok served
      have here := inumOf_ofNat inside
      apply tracks.update (congrArg (· + 1) ticks) rfl
      · intro file isNew
        split at isNew
        · cases isNew
          simp only [record, Dates, FileLayout.empty, here, Function.update_self, ticks,
            and_self]
        · cases isNew
      · intro other different
        simp only [record, here, Function.update_of_ne different, and_self]
  | put id buf =>
      obtain ⟨file, live, fits, exact, rfl, rfl⟩ := Layout.put_ok served
      apply tracks.update (congrArg (· + 1) ticks) rfl
      · rintro _ ⟨⟩
        have atime := (tracks.dates _ file live).2.2
        simp only [record, Dates, FileLayout.rewritten, Function.update_self, ticks, atime,
          and_self]
      · intro other different
        simp only [record, Function.update_of_ne different, and_self]
  | get id =>
      obtain ⟨file, live, rfl, rfl⟩ := Layout.get_ok served
      apply tracks.update (congrArg (· + 1) ticks) rfl
      · rintro _ ⟨⟩
        obtain ⟨mtime, ctime, -⟩ := tracks.dates _ file live
        simp only [record, Dates, FileLayout.accessed, Function.update_self, ticks, mtime,
          ctime, and_self]
      · intro other different
        simp only [record, Function.update_of_ne different, and_self]
  | getattr id =>
      cases served
      exact tracks
  | remove id =>
      obtain ⟨file, live, rfl, rfl⟩ := Layout.remove_ok served
      refine tracks.update ticks rfl ?_ fun other _ => ⟨rfl, rfl⟩
      intro file isNone
      cases isNone

theorem run (tracks : stamps.Tracks layout) {requests : List ExtentRequest}
    {history : List Exchange}
    (returns : (session exchange requests).run (Layout.serve clock) layout =
      .ok (history, after)) : (history.foldl (record clock) stamps).Tracks after := by
  refine session_foldl (Layout.serve clock) exchange (record clock) Tracks ?_ tracks returns
  intro stamps layout request output next tracks performed
  obtain ⟨reply, served, rfl⟩ := (run_exchange _).mp performed
  exact tracks.step served

/-- The inodes hold the times of the files. -/
theorem recorded (tracks : stamps.Tracks layout) {im : InodeManager}
    (represents : Represents im layout) : stamps.Recorded im := by
  refine ⟨represents.ticks.trans tracks.ticks, ?_⟩
  intro id isLive
  obtain ⟨file, live⟩ := represents.isLive_iff.mp isLive
  have stores := represents.stores id file live
  rw [stores.mtime, stores.ctime, stores.atime]
  exact tracks.dates id file live

end Tracks

end Stamps

/-- After every run within the limits of the disk, whatever types it asks for, each live
inode has the readings of its latest `put` and its latest `get` as its times.  In any
state whatsoever a `get` and the calls that look things up change access times only, and
a call that changes a directory stamps it. -/
theorem times_recorded (env : Env) (host : Host) :
    (∀ (requests : List ExtentRequest) (history : List Exchange) (layout : Layout),
      (session exchange requests).run (Layout.serve env.clock)
        (Layout.init env.clock) = .ok (history, layout) →
      ∃ start im, InodeManager.init env = .ok start ∧
        (session exchange requests).run (ExtentServer.serve env) start =
          .ok (history, im) ∧ (Stamps.of env.clock history).Recorded im) ∧
    ∀ im, KeepsTimes env host im := by
  refine ⟨?_, keepsTimes env host⟩
  intro requests history layout allowed
  obtain ⟨start, im, starts, returns, represents⟩ := server_returns env allowed
  have tracks := (Stamps.Tracks.init env.clock).run allowed
  exact ⟨start, im, starts, returns, tracks.recorded represents⟩

/-- A clock that counts its readings. -/
def Env.counting : Env where
  clock := BitVec.ofNat 32
  heap := fun _ _ => 0

/-- A file is made at reading 1, written at 2 and read at 3. -/
theorem times_recorded_file :
    (∃ start im, InodeManager.init Env.counting = .ok start ∧
      (session exchange [.create tFile, .put 2 [7], .get 2]).run
          (ExtentServer.serve Env.counting) start =
        .ok ([⟨.create tFile, (.OK, 2)⟩, ⟨.put 2 [7], .OK⟩, ⟨.get 2, (.OK, [7])⟩], im) ∧
      im.ticks = 4 ∧ (im.inodeAt 2).mtime = 2 ∧ (im.inodeAt 2).ctime = 2 ∧
        (im.inodeAt 2).atime = 3) ∧
    ∀ im, KeepsTimes Env.counting .three im := by
  obtain ⟨allRuns, keeps⟩ := times_recorded Env.counting .three
  obtain ⟨layout, allowed, abstracts⟩ := layout_returns Env.counting.clock
    [.create tFile, .put 2 [7], .get 2] rfl
  obtain ⟨start, im, starts, returns, ticks, dates⟩ :=
    allRuns [.create tFile, .put 2 [7], .get 2] _ layout allowed
  obtain ⟨fresh, last, same, ran, represents⟩ := server_returns Env.counting allowed
  cases starts.symm.trans same
  cases returns.symm.trans ran
  have holds : Holds im _ := ⟨layout, represents, abstracts⟩
  have live : im.IsLive 2 := holds.isLive_iff.mpr (Option.some_ne_none _)
  exact ⟨⟨start, im, starts, returns, ticks, dates 2 live⟩, keeps⟩

end Yfs
