import Yfs.Attributes
import Yfs.Library.SparseFile
import Yfs.Namespace

/-!
# Reading and writing files

Within the limits `write` and `setattr` are those of sparse files: what lies
between the old end and the offset is filled with zeros.  The count that `write`
reports includes this gap.  `read` hands an offset to `std::string::substr`
without looking at the length.
-/

namespace Yfs

open ClientServer

section Overwrite

variable {maxString : Nat} {old data : List Byte} {off : BitVec 64}

theorem suffix_eq (oldFits : old.length ≤ maxFile * blockSize)
    (dataFits : off.toNat + data.length ≤ maxFile * blockSize) :
    YfsClient.suffix old off data = .ok (old.drop (off.toNat + data.length)) := by
  simp only [maxFile, nDirect, nIndirect, blockSize] at oldFits dataFits
  have length : (BitVec.ofNat 64 old.length).toNat = old.length := by
    rw [BitVec.toNat_ofNat, Nat.mod_eq_of_lt (by omega)]
  have ends : (off + BitVec.ofNat 64 data.length).toNat = off.toNat + data.length := by
    rw [BitVec.toNat_add, BitVec.toNat_ofNat, Nat.mod_eq_of_lt (by omega),
      Nat.mod_eq_of_lt (by omega)]
  unfold YfsClient.suffix
  by_cases inside : off.toNat + data.length < old.length
  · rw [if_pos (by rwa [BitVec.ult_iff_lt, BitVec.lt_def, ends, length]), substr, ends,
      if_pos inside.le, List.take_of_length_le]
    rw [List.length_drop]
    have npos : (-1 : BitVec 64).toNat = 2 ^ 64 - 1 := rfl
    omega
  · rw [if_neg (by rwa [BitVec.ult_iff_lt, BitVec.lt_def, ends, length]),
      List.drop_of_length_le (Nat.le_of_not_lt inside)]

/-- The bytes that `write` counts: the data, and the gap before it. -/
def counted (old : List Byte) (off : BitVec 64) (data : List Byte) : Nat :=
  off.toNat - old.length + data.length

theorem fill_eq (holds : maxFile * blockSize ≤ maxString)
    (oldFits : old.length ≤ maxFile * blockSize)
    (dataFits : off.toNat + data.length ≤ maxFile * blockSize) :
    YfsClient.fill maxString old off data =
      .ok (old.take off.toNat ++ List.replicate (off.toNat - old.length) 0,
        BitVec.ofNat 64 (counted old off data)) := by
  simp only [maxFile, nDirect, nIndirect, blockSize] at holds dataFits
  have small : off.toInt = off.toNat := BitVec.toInt_eq_toNat_of_lt (by omega)
  unfold YfsClient.fill counted
  rw [toInt_ofNat_of_le oldFits, small]
  simp only [maxFile, nDirect, nIndirect, blockSize] at oldFits
  by_cases gap : old.length < off.toNat
  · have length : (BitVec.ofNat 64 old.length).toNat = old.length := by
      rw [BitVec.toNat_ofNat, Nat.mod_eq_of_lt (by omega)]
    have count : (off - BitVec.ofNat 64 old.length).toNat = off.toNat - old.length := by
      rw [BitVec.toNat_sub, length]
      omega
    rw [if_pos (by exact_mod_cast gap), appendZeros, count, if_pos (by omega),
      List.take_of_length_le gap.le]
    have total : off - BitVec.ofNat 64 old.length + BitVec.ofNat 64 data.length =
        BitVec.ofNat 64 (off.toNat - old.length + data.length) := by
      apply BitVec.eq_of_toNat_eq
      rw [BitVec.toNat_add, count, BitVec.toNat_ofNat, BitVec.toNat_ofNat]
      omega
    rw [← total]
    rfl
  · have inside := Nat.le_of_not_lt gap
    rw [if_neg (by exact_mod_cast gap), substr_zero, Nat.sub_eq_zero_of_le inside,
      Nat.zero_add, List.replicate_zero, List.append_nil]
    rfl

/-- `write` makes the bytes of a sparse file. -/
theorem overwrite_eq (holds : maxFile * blockSize ≤ maxString)
    (oldFits : old.length ≤ maxFile * blockSize)
    (dataFits : off.toNat + data.length ≤ maxFile * blockSize) :
    YfsClient.overwrite maxString old off data =
      .ok (SparseFile.write 0 old off.toNat data,
        BitVec.ofNat 64 (counted old off data)) := by
  rw [YfsClient.overwrite, suffix_eq oldFits dataFits,
    fill_eq holds oldFits dataFits, SparseFile.write_eq]
  rfl

theorem resized_eq_resize (old : List Byte) (size : Nat) :
    resized old size = SparseFile.resize 0 old size := by
  rw [resized, SparseFile.resize_eq]

end Overwrite

/-- A change of one file. -/
inductive Edit
  | write (off : BitVec 64) (data : List Byte)
  | setattr (size : BitVec 64)

namespace Edit

def call (ino : ExtentId) : Edit → Call
  | .write off data => (.write ino off data, ⟨false, 0⟩)
  | .setattr size => (.setattr ino size, ⟨false, 0⟩)

def apply (old : List Byte) : Edit → List Byte
  | .write off data => SparseFile.write 0 old off.toNat data
  | .setattr size => SparseFile.resize 0 old size.toNat

/-- No change makes the file too long. -/
def Fit : List Byte → List Edit → Prop
  | _, [] => True
  | old, edit :: rest =>
      (edit.apply old).length ≤ maxFile * blockSize ∧ Fit (edit.apply old) rest

def Writes (i : Nat) : Edit → Prop
  | .write off data => off.toNat ≤ i ∧ i < off.toNat + data.length
  | .setattr _ => False

theorem read_foldl (edits : List Edit) {content : List Byte} {i : Nat}
    (zero : SparseFile.read 0 content i = 0) (unwritten : ∀ edit ∈ edits, ¬edit.Writes i) :
    SparseFile.read 0 (edits.foldl apply content) i = 0 := by
  induction edits generalizing content with
  | nil => exact zero
  | cons edit rest ih =>
      refine ih ?_ fun other member => unwritten other (List.mem_cons_of_mem _ member)
      have untouched := unwritten edit List.mem_cons_self
      cases edit with
      | write off data =>
          unfold apply
          unfold Writes at untouched
          rw [SparseFile.read_write, if_neg untouched]
          exact zero
      | setattr size =>
          unfold apply
          rw [SparseFile.read_resize]
          split
          · exact zero
          · rfl

/-- What a size change cuts off reads zero until it is written again. -/
theorem read_cut {old : List Byte} {before later : List Edit} {cut : BitVec 64} {i : Nat}
    (off : cut.toNat ≤ i) (unwritten : ∀ edit ∈ later, ¬edit.Writes i) :
    SparseFile.read 0 ((before ++ .setattr cut :: later).foldl apply old) i = 0 := by
  rw [List.foldl_append, List.foldl_cons]
  refine read_foldl later ?_ unwritten
  rw [apply, SparseFile.read_resize, if_neg (Nat.not_lt.mpr off)]

end Edit

namespace Contents

/-- The contents with another text in one extent. -/
def withData (contents : Contents) (id : ExtentId) (type : BitVec 32)
    (data : List Byte) : Contents :=
  { contents with
    ledger := Function.update contents.ledger (inumOf id) (some (type, data)) }

variable {contents : Contents} {host : Host} {ino : ExtentId}
  {type : BitVec 32} {old : List Byte}

theorem withData_self (entry : contents.ledger (inumOf ino) = some (type, old)) :
    contents.withData ino type old = contents := by
  unfold withData
  rw [← entry, Function.update_eq_self]

theorem step_edit (entry : contents.ledger (inumOf ino) = some (type, old))
    (oldFits : old.length ≤ maxFile * blockSize) {edit : Edit}
    (fits : (edit.apply old).length ≤ maxFile * blockSize) :
    ∃ output, contents.step host (edit.call ino) =
      .ok (output, contents.withData ino type (edit.apply old)) := by
  have got : contents.get ino = .ok old := by
    rw [get, entry]
  have put : ∀ data, contents.put ino data = .ok (contents.withData ino type data) := by
    intro data
    rw [Contents.put, entry]
    rfl
  cases edit with
  | write off data =>
      have dataFits : off.toNat + data.length ≤ maxFile * blockSize := by
        rw [Edit.apply, SparseFile.length_write] at fits
        omega
      refine ⟨.written .OK (some (BitVec.ofNat 64 (counted old off data))), ?_⟩
      simp only [Edit.call, step, write, got,
        overwrite_eq host.holdsFiles oldFits dataFits, put, bind, Except.bind, pure,
        Except.pure]
      rfl
  | setattr size =>
      have sizeFits : size.toNat ≤ maxFile * blockSize := by
        rwa [Edit.apply, SparseFile.length_resize] at fits
      have sizeOf : contents.sizeOf ino = BitVec.ofNat 64 old.length := by
        rw [Contents.sizeOf, entry]
        rfl
      refine ⟨.status .OK, ?_⟩
      simp only [Edit.call, step, setattr, sizeOf, Edit.apply, ← resized_eq_resize]
      by_cases same : BitVec.ofNat 64 old.length = size
      · have bound : maxFile * blockSize < 2 ^ 31 := by decide
        have length : size.toNat = old.length := by
          rw [← same, BitVec.toNat_ofNat, Nat.mod_eq_of_lt (by omega)]
        rw [if_pos same, length, resized_length, withData_self entry]
      · simp only [if_neg same, got, resize_eq host.holdsFiles oldFits sizeFits, put,
          bind, Except.bind, pure, Except.pure]

theorem run_edits (edits : List Edit)
    (entry : contents.ledger (inumOf ino) = some (type, old))
    (oldFits : old.length ≤ maxFile * blockSize) (fit : Edit.Fit old edits) :
    ∃ outputs, Machine.run (Contents.step host) contents
      (edits.map (Edit.call ino)) =
        .ok (outputs, contents.withData ino type (edits.foldl Edit.apply old)) := by
  induction edits generalizing contents old with
  | nil => exact ⟨[], by rw [List.foldl_nil, withData_self entry]; rfl⟩
  | cons edit rest ih =>
      rcases fit with ⟨fits, fitRest⟩
      have begun : ∃ output, contents.step host (edit.call ino) =
          .ok (output, contents.withData ino type (edit.apply old)) :=
        step_edit entry oldFits fits
      rcases begun with ⟨output, first⟩
      have stored : (contents.withData ino type (edit.apply old)).ledger (inumOf ino) =
          some (type, edit.apply old) := Function.update_self _ _ _
      obtain ⟨outputs, later⟩ := ih stored fits fitRest
      refine ⟨output :: outputs, ?_⟩
      rw [List.map_cons, List.foldl_cons]
      have same : (contents.withData ino type (edit.apply old)).withData ino type
          (rest.foldl Edit.apply (edit.apply old)) =
            contents.withData ino type (rest.foldl Edit.apply (edit.apply old)) := by
        unfold withData
        rw [Function.update_idem]
      rw [same] at later
      exact Machine.run_cons first later

end Contents

/-- After any history, any sequence of writes and size changes of a file leaves it
with the content of the sparse file, as long as no length exceeds the maximum and
the store does not run full; nothing else changes.  What a size change cuts off reads
zero until it is written again. -/
theorem edits_follow_sparse_file (env : Env) (host : Host)
    (calls : List Call) (edits : List Edit) (ino : ExtentId)
    (within : WithinLimits env.clock host (calls ++ edits.map (Edit.call ino)))
    (seen : List Output) (im : InodeManager)
    (returns : yfsRun env host calls = .ok (seen, im)) (contents : Contents)
    (shows : im.Shows contents) (old : List Byte)
    (isFile : contents.ledger (inumOf ino) = some (tFile, old))
    (fit : Edit.Fit old edits) :
    (∃ all last, yfsRun env host (calls ++ edits.map (Edit.call ino)) =
        .ok (all, last) ∧
      last.Shows (contents.withData ino tFile (edits.foldl Edit.apply old))) ∧
    ∀ before later cut i, edits = before ++ .setattr cut :: later → cut.toNat ≤ i →
      (∀ edit ∈ later, ¬edit.Writes i) →
        SparseFile.read 0 (edits.foldl Edit.apply old) i = 0 := by
  obtain ⟨same, said, showsSame⟩ := yfsRun_returns within.of_append returns
  obtain rfl := shows.unique showsSame
  have edited : ∃ outputs, Machine.run (Contents.step host) contents
      (edits.map (Edit.call ino)) =
        .ok (outputs, contents.withData ino tFile (edits.foldl Edit.apply old)) :=
    Contents.run_edits edits isFile (shows.fits isFile) fit
  rcases edited with ⟨outputs, later⟩
  obtain ⟨all, last, ran, -, showsLast⟩ := yfsRun_ok within (Machine.run_append said later)
  refine ⟨⟨all, last, ran, showsLast⟩, ?_⟩
  rintro before later cut i rfl off unwritten
  exact Edit.read_cut off unwritten

/-- A file is written past its end, cut and extended again. -/
theorem edits_follow_sparse_file_extend :
    ∃ all last contents, yfsRun Env.zero .three (oneByte ++
        [Edit.write 2 [8], Edit.setattr 1, Edit.setattr 3].map (Edit.call 2)) =
          .ok (all, last) ∧
      last.Shows (Contents.withData contents 2 tFile [7, 0, 0]) := by
  rcases oneByte_run with ⟨seen, im, contents, returns, -, shows, entry⟩
  have fit : Edit.Fit [7] [Edit.write 2 [8], Edit.setattr 1, Edit.setattr 3] := by
    refine ⟨?_, ?_, ?_, trivial⟩ <;> decide
  obtain ⟨⟨all, last, ran, showsLast⟩, -⟩ := edits_follow_sparse_file Env.zero .three oneByte
    [.write 2 [8], .setattr 1, .setattr 3] 2 (withinLimits_of_ok rfl) seen im returns
    contents shows [7] entry fit
  exact ⟨all, last, contents, ran, showsLast⟩

/-- A server that does what the extent server does as long as this stays on the disk.
What it does behind the end of the disk array is not known. -/
def FollowsOnDisk (env : Env) (server : Server ExtentRequest ExtentReply Fault InodeManager) :
    Prop :=
  ∀ request im, ExtentServer.serve env request im ≠ .error .outOfDisk →
    server request im = ExtentServer.serve env request im

theorem FollowsOnDisk.of_ok {env : Env}
    {server : Server ExtentRequest ExtentReply Fault InodeManager}
    (follows : FollowsOnDisk env server) {request : ExtentRequest} {im after : InodeManager}
    {reply : ExtentReply request}
    (served : ExtentServer.serve env request im = .ok (reply, after)) :
    server request im = .ok (reply, after) := by
  rw [follows request im (by rw [served]; simp), served]

theorem followsOnDisk_self (env : Env) : FollowsOnDisk env (ExtentServer.serve env) :=
  fun _ _ _ => rfl

/-- A `put` that goes on where it writes behind the end of the disk. -/
def ExtentServer.putAnyway (env : Env) (im : InodeManager) (id : ExtentId) (buf : List Byte) :
    Except Fault (Status × InodeManager) :=
  match ExtentServer.put env im id buf with
  | .error .outOfDisk => .ok (.OK, im)
  | result => result

def ExtentServer.serveAnyway (env : Env) :
    Server ExtentRequest ExtentReply Fault InodeManager
  | .put id buf, im => ExtentServer.putAnyway env im id buf
  | request, im => ExtentServer.serve env request im

theorem ExtentServer.serveAnyway_follows (env : Env) :
    FollowsOnDisk env (ExtentServer.serveAnyway env) := by
  intro request im inside
  cases request with
  | put id buf =>
      change ExtentServer.putAnyway env im id buf = ExtentServer.put env im id buf
      unfold ExtentServer.putAnyway
      split
      · rename_i outside
        exact absurd outside inside
      · rfl
  | _ => rfl

namespace InodeManager.Shows

variable {im : InodeManager} {contents : Contents} {ino : ExtentId} {old : List Byte}

theorem read_run (env : Env) (shows : im.Shows contents)
    (isFile : contents.ledger (inumOf ino) = some (tFile, old)) (off size : BitVec 64) :
    ∃ after, im.OnlyAtime (inumOf ino) after ∧
      (YfsClient.read ino size off).run (ExtentServer.serve env) im =
        if off.toNat ≤ old.length then
          .ok ((.OK, (old.drop off.toNat).take size.toNat), after)
        else .error .outOfRange := by
  obtain ⟨a, served, isType, -⟩ := shows.getattr ino
  obtain ⟨after, got, isAfter, -, -⟩ := shows.get env isFile
  have typeOf : a.type = tFile := by
    rw [isType, Contents.typeOf, isFile]
    rfl
  refine ⟨after, ?_, ?_⟩
  · rw [isAfter]
    exact im.onlyAtime_withInode (shows.inside isFile) _ _ _
  · rw [YfsClient.read, Program.run_bind_ok _ (isfile_run served), decide_eq_true typeOf]
    change Program.run _ (ExtentClient.get ino >>= _) im = _
    rw [Program.run_bind, ExtentClient.get, Program.run_send, ExtentServer.serve, got]
    change Program.run _ (Program.ofExcept (substr old off size) >>= _) after = _
    unfold substr
    by_cases inside : off.toNat ≤ old.length
    · rw [if_pos inside, if_pos inside]
      rfl
    · rw [if_neg inside, if_neg inside]
      rfl

/-- `write` within the limits is one `put` of the whole file. -/
theorem write_run (env : Env) (host : Host) (shows : im.Shows contents) {type : BitVec 32}
    (entry : contents.ledger (inumOf ino) = some (type, old)) {off : BitVec 64}
    {data : List Byte} (dataFits : off.toNat + data.length ≤ maxFile * blockSize) :
    ∃ mid, mid.Shows contents ∧
      (∀ length, mid.RoomFor (inumOf ino) length ↔ im.RoomFor (inumOf ino) length) ∧
      ∀ server, FollowsOnDisk env server →
        (YfsClient.write host ino off data).run server im =
          match server (.put ino (SparseFile.write 0 old off.toNat data)) mid with
          | .ok (r, after) =>
              .ok ((r, some (BitVec.ofNat 64 (counted old off data))), after)
          | .error fault => .error fault := by
  obtain ⟨mid, got, -, showsMid, room⟩ := shows.get env entry
  refine ⟨mid, showsMid, room, ?_⟩
  intro server follows
  have served : server (.get ino) im = .ok ((.OK, old), mid) := follows.of_ok got
  rw [YfsClient.write, Program.run_bind, ExtentClient.get, Program.run_send, served]
  change Program.run _
    (Program.ofExcept (YfsClient.overwrite host.maxString old off data) >>= _) mid = _
  rw [overwrite_eq host.holdsFiles (shows.fits entry) dataFits]
  change Program.run _ (ExtentClient.put ino _ >>= _) mid = _
  rw [Program.run_bind, ExtentClient.put, Program.run_send]
  cases server (.put ino (SparseFile.write 0 old off.toNat data)) mid with
  | error fault => rfl
  | ok answer => rfl

end InodeManager.Shows

/-- `read` returns the requested part of a regular file and changes nothing but the
access time. -/
def ReadsWindow (env : Env) (im : InodeManager) (ino : ExtentId)
    (off size : BitVec 64) : Prop :=
  ∀ contents old, im.Shows contents → contents.ledger (inumOf ino) = some (tFile, old) →
    ∃ after, (YfsClient.read ino size off).run (ExtentServer.serve env) im =
        .ok ((.OK, (old.drop off.toNat).take size.toNat), after) ∧
      im.OnlyAtime (inumOf ino) after

theorem InodeManager.Shows.readsWindow_iff {env : Env} {im : InodeManager}
    {contents : Contents} {ino : ExtentId} {old : List Byte} (shows : im.Shows contents)
    (isFile : contents.ledger (inumOf ino) = some (tFile, old)) {off size : BitVec 64} :
    ReadsWindow env im ino off size ↔ off.toNat ≤ old.length := by
  obtain ⟨after, onlyAtime, run⟩ := shows.read_run env isFile off size
  constructor
  · intro reads
    obtain ⟨last, returned, -⟩ := reads contents old shows isFile
    by_contra past
    rw [run, if_neg past] at returned
    cases returned
  · intro inside other data showsOther entry
    obtain rfl := shows.unique showsOther
    cases isFile.symm.trans entry
    refine ⟨after, ?_, onlyAtime⟩
    rw [run, if_pos inside]

/-- In every state that a run within the limits reaches, `read` of a regular file
returns the requested part exactly if the offset is not past the end. -/
theorem read_window_iff (env : Env) (host : Host) (calls : List Call)
    (seen : List Output) (im : InodeManager)
    (within : WithinLimits env.clock host calls)
    (returns : yfsRun env host calls = .ok (seen, im)) (ino : ExtentId)
    (live : im.IsLive (inumOf ino))
    (isFile : (im.inodeAt (inumOf ino)).type.signExtend 32 = tFile)
    (off size : BitVec 64) :
    ReadsWindow env im ino off size ↔
      off.toNat ≤ (im.inodeAt (inumOf ino)).size.toNat := by
  obtain ⟨contents, -, shows⟩ := yfsRun_returns within returns
  obtain ⟨type, old, entry⟩ := shows.entry live
  obtain rfl := (shows.typeOf_inode entry).symm.trans isFile
  rw [shows.size entry]
  exact shows.readsWindow_iff entry

/-- Reading at the end of the file of one byte. -/
theorem read_window_iff_end :
    ∃ seen im, yfsRun Env.zero .three oneByte = .ok (seen, im) ∧
      (ReadsWindow Env.zero im 2 1 5 ↔
        (1 : BitVec 64).toNat ≤ (im.inodeAt (inumOf 2)).size.toNat) := by
  rcases oneByte_run with ⟨seen, im, contents, returns, live, shows, entry⟩
  exact ⟨seen, im, returns, read_window_iff Env.zero .three oneByte seen im
    (withinLimits_of_ok rfl) returns 2 live (shows.typeOf_inode entry) 1 5⟩

/-- Reading behind the end of the file of one byte. -/
theorem read_past_end_throws :
    ∃ seen im, yfsRun Env.zero .three oneByte = .ok (seen, im) ∧
      im.IsLive (inumOf 2) ∧ (im.inodeAt (inumOf 2)).type.signExtend 32 = tFile ∧
      ¬ReadsWindow Env.zero im 2 2 5 := by
  rcases oneByte_run with ⟨seen, im, contents, returns, live, shows, entry⟩
  refine ⟨seen, im, returns, live, shows.typeOf_inode entry, ?_⟩
  rw [shows.readsWindow_iff entry]
  decide

/-- A `write` that returns `OK` reports the bytes it was asked to write, and no more
of them are passed on to the kernel, whatever lies behind the end of the disk. -/
def ReportsWritten (env : Env) (host : Host) (im : InodeManager) (ino : ExtentId)
    (off : BitVec 64) (data : List Byte) : Prop :=
  ∀ server, FollowsOnDisk env server →
    (∀ count after, (YfsClient.write host ino off data).run server im =
      .ok ((.OK, count), after) → count = some (BitVec.ofNat 64 data.length)) ∧
    ∀ count after, (Fuse.fuseserverWrite host ino data off).run server im =
      .ok (.write count, after) → count.toNat ≤ data.length

theorem fuseserverWrite_le {server : Server ExtentRequest ExtentReply Fault InodeManager}
    {host : Host} {im last : InodeManager} {ino : ExtentId} {off : BitVec 64}
    {data : List Byte} {passed : BitVec 64}
    (reports : ∀ count after, (YfsClient.write host ino off data).run server im =
      .ok ((.OK, count), after) → count = some (BitVec.ofNat 64 data.length))
    (returned : (Fuse.fuseserverWrite host ino data off).run server im =
      .ok (.write passed, last)) : passed.toNat ≤ data.length := by
  cases written : (YfsClient.write host ino off data).run server im with
  | error fault =>
      rw [Fuse.fuseserverWrite, Program.run_bind_error _ written] at returned
      cases returned
  | ok answer =>
      rcases answer with ⟨⟨r, reported⟩, after⟩
      rw [Fuse.fuseserverWrite, Program.run_bind_ok _ written] at returned
      by_cases isOk : r = .OK
      · subst isOk
        obtain rfl := reports reported after written
        cases returned
        rw [Option.getD_some, BitVec.toNat_ofNat]
        exact Nat.mod_le _ _
      · simp only [if_neg isOk] at returned
        cases returned

/-- A server that goes on behind the end of the disk returns from every `put` of a
moderate size to a live inode. -/
theorem InodeManager.Shows.put_anyway {env : Env} {im : InodeManager} {contents : Contents}
    {ino : ExtentId} {type : BitVec 32} {old new : List Byte} (shows : im.Shows contents)
    (entry : contents.ledger (inumOf ino) = some (type, old))
    (fits : new.length ≤ maxFile * blockSize) :
    ∃ after, ExtentServer.serveAnyway env (.put ino new) im = .ok (Status.OK, after) := by
  change ∃ after, ExtentServer.putAnyway env im ino new = .ok (.OK, after)
  unfold ExtentServer.putAnyway
  by_cases room : im.RoomFor (inumOf ino) new.length
  · obtain ⟨after, put, -⟩ := shows.put env entry fits room
    rw [put]
    exact ⟨after, rfl⟩
  · rw [shows.put_full env entry fits room]
    exact ⟨im, rfl⟩

theorem InodeManager.Shows.reportsWritten_iff {env : Env} {host : Host} {im : InodeManager}
    {contents : Contents} {ino : ExtentId} {type : BitVec 32} {old : List Byte}
    (shows : im.Shows contents) (entry : contents.ledger (inumOf ino) = some (type, old))
    {off : BitVec 64} {data : List Byte}
    (dataFits : off.toNat + data.length ≤ maxFile * blockSize) :
    ReportsWritten env host im ino off data ↔ off.toNat ≤ old.length := by
  obtain ⟨mid, showsMid, -, run⟩ := shows.write_run env host entry dataFits
  have bound : maxFile * blockSize < 2 ^ 31 := by decide
  have newFits : (SparseFile.write 0 old off.toNat data).length ≤ maxFile * blockSize := by
    rw [SparseFile.length_write]
    exact max_le (shows.fits entry) dataFits
  constructor
  · intro reports
    have follows := ExtentServer.serveAnyway_follows env
    obtain ⟨after, put⟩ : ∃ after, ExtentServer.serveAnyway env
        (.put ino (SparseFile.write 0 old off.toNat data)) mid = .ok (Status.OK, after) :=
      showsMid.put_anyway entry newFits
    have returned := run _ follows
    rw [put] at returned
    have equal := congrArg (fun count => count.map BitVec.toNat)
      ((reports _ follows).1 _ after returned)
    simp only [Option.map_some, Option.some.injEq, BitVec.toNat_ofNat, counted] at equal
    by_contra past
    omega
  · intro inside server follows
    have exactly : counted old off data = data.length := by
      unfold counted
      omega
    have reports : ∀ count after, (YfsClient.write host ino off data).run server im =
        .ok ((.OK, count), after) → count = some (BitVec.ofNat 64 data.length) := by
      intro count after returned
      rw [run server follows, exactly] at returned
      split at returned
      · cases returned
        rfl
      · cases returned
    exact ⟨reports, fun count after => fuseserverWrite_le reports⟩

/-- In every state that a run within the limits reaches, `write` to a live inode reports
what it was asked to write exactly if the offset is not past the end. -/
theorem write_count_iff (env : Env) (host : Host) (calls : List Call)
    (seen : List Output) (im : InodeManager)
    (within : WithinLimits env.clock host calls)
    (returns : yfsRun env host calls = .ok (seen, im)) (ino : ExtentId)
    (live : im.IsLive (inumOf ino)) (off : BitVec 64) (data : List Byte)
    (fits : off.toNat + data.length ≤ maxFile * blockSize) :
    ReportsWritten env host im ino off data ↔
      off.toNat ≤ (im.inodeAt (inumOf ino)).size.toNat := by
  obtain ⟨contents, -, shows⟩ := yfsRun_returns within returns
  obtain ⟨type, old, entry⟩ := shows.entry live
  rw [shows.size entry]
  exact shows.reportsWritten_iff entry fits

/-- Appending to the file of one byte. -/
theorem write_count_iff_append :
    ∃ seen im, yfsRun Env.zero .three oneByte = .ok (seen, im) ∧
      ReportsWritten Env.zero .three im 2 1 [8] := by
  rcases oneByte_run with ⟨seen, im, contents, returns, live, shows, entry⟩
  refine ⟨seen, im, returns, ?_⟩
  apply (write_count_iff Env.zero .three oneByte seen im (withinLimits_of_ok rfl) returns 2
    live 1 [8] (by decide)).mpr
  rw [shows.size entry]
  decide

/-- One byte is written behind the end of the file of one byte, at offset 3. -/
theorem write_counts_gap :
    ∃ seen im, yfsRun Env.zero .three oneByte = .ok (seen, im) ∧ im.IsLive (inumOf 2) ∧
      ¬ReportsWritten Env.zero .three im 2 3 [8] := by
  rcases oneByte_run with ⟨seen, im, contents, returns, live, shows, entry⟩
  refine ⟨seen, im, returns, live, ?_⟩
  rw [shows.reportsWritten_iff entry (by decide)]
  decide

end Yfs
