import Yfs.FileData
import Yfs.FullTable
import Yfs.NonDirectories
import Yfs.SetattrRuns

/-!
# Requests above the maximum file size

`write_file` compares byte counts only.  A string of more than
`MAXFILE * BLOCK_SIZE` bytes runs its loop past the entries of the indirect
block, and no caller checks the length before.
-/

namespace Yfs

open ClientServer
open ClientServer.Program (Ensures)

/-- The disk holds these bytes for the inode. -/
def InodeManager.Stored (im : InodeManager) (id : Nat) (data : List Byte) : Prop :=
  ∃ layout file, Represents im.atTable layout ∧ layout.files id = some file ∧
    file.data = data

/-- The request does not change the bytes of the inode. -/
def ExtentRequest.Spares (id : Nat) : ExtentRequest → Prop
  | .create _ => False
  | .put target _ => inumOf target ≠ id
  | .remove target => inumOf target ≠ id
  | .get _ => True
  | .getattr _ => True

theorem Layout.data_serve {clock : Nat → BitVec 32} {layout next : Layout} {id : Nat}
    {file : FileLayout} {request : ExtentRequest} {reply : ExtentReply request}
    (live : layout.files id = some file) (spares : request.Spares id)
    (served : Layout.serve clock request layout = .ok (reply, next)) :
    ∃ other, next.files id = some other ∧ other.data = file.data := by
  cases request with
  | create type => cases spares
  | put target buf =>
      obtain ⟨found, -, _, _, -, rfl⟩ := Layout.put_ok served
      exact ⟨file, (Function.update_of_ne (Ne.symm spares) _ _).trans live, rfl⟩
  | get target =>
      obtain ⟨found, isFile, -, rfl⟩ := Layout.get_ok served
      by_cases same : id = inumOf target
      · subst same
        cases live.symm.trans isFile
        exact ⟨_, Function.update_self _ _ _, rfl⟩
      · exact ⟨file, (Function.update_of_ne same _ _).trans live, rfl⟩
  | getattr target =>
      cases served
      exact ⟨file, live, rfl⟩
  | remove target =>
      obtain ⟨found, -, -, rfl⟩ := Layout.remove_ok served
      exact ⟨file, (Function.update_of_ne (Ne.symm spares) _ _).trans live, rfl⟩

namespace InodeManager.Stored

variable {env : Env} {im after : InodeManager} {id : Nat} {data : List Byte}
  {request : ExtentRequest} {reply : ExtentReply request}

theorem serve (stored : im.Stored id data) (fits : request.Fits) (spares : request.Spares id)
    (served : ExtentServer.serve env request im = .ok (reply, after)) :
    after.Stored id data := by
  rcases stored with ⟨layout, file, represents, live, isData⟩
  have notCreate : ∀ type, request ≠ .create type := by
    rintro type rfl
    exact spares
  obtain ⟨next, onLayout, representsNext⟩ := represents.serve_layout fits notCreate served
  obtain ⟨other, liveNext, same⟩ := Layout.data_serve live spares onLayout
  exact ⟨next, other, representsNext, liveNext, same.trans isData⟩

theorem create {type : BitVec 32} {answer : Status × ExtentId} (stored : im.Stored id data)
    (served : ExtentServer.create env im type = .ok (answer, after))
    (before : iblock after.inum < firstId) : after.Stored id data := by
  rcases stored with ⟨layout, file, represents, live, isData⟩
  obtain ⟨next, representsNext, keeps⟩ := represents.create_layout served before
  exact ⟨next, file, representsNext, keeps id file live, isData⟩

theorem get {target : ExtentId} {answer : Status × List Byte}
    (stored : im.Stored (inumOf target) data)
    (served : ExtentServer.get env im target = .ok (answer, after)) :
    answer = (.OK, data) := by
  rcases stored with ⟨layout, file, represents, live, rfl⟩
  have answered : ExtentServer.serve env (.get target) im.atTable = .ok (answer, after.atTable) :=
    serve_atTable (by rintro type ⟨⟩) served
  have same := Except.ok.inj ((represents.get_live env live).symm.trans answered)
  exact (congrArg Prod.fst same).symm

theorem not_overrun (stored : im.Stored id data) (fits : request.Fits) :
    ExtentServer.serve env request im ≠ .error .overrun := by
  rcases stored with ⟨layout, file, represents, -, -⟩
  exact represents.ne_overrun fits

end InodeManager.Stored

theorem InodeManager.Shows.stored {im : InodeManager} {contents : Contents} {id : ExtentId}
    {type : BitVec 32} {data : List Byte} (shows : im.Shows contents)
    (entry : contents.ledger (inumOf id) = some (type, data)) : im.Stored (inumOf id) data := by
  obtain ⟨layout, map, file, represents, -, -, live, -, isData⟩ := shows.file entry
  rw [← InodeManager.atTable_of_lt shows.created.2] at represents
  exact ⟨layout, file, represents, live, isData⟩

section Appending

variable {env : Env} {im : InodeManager} {id : Nat} {data : List Byte} {β : Type}
  {post : β → InodeManager → Prop}

/-- A request that does not run past the entries. -/
theorem ensures_within {request : ExtentRequest} {next : ExtentReply request → Client β}
    (stored : im.Stored id data) (fits : request.Fits)
    (rest : ∀ reply after, ExtentServer.serve env request im = .ok (reply, after) →
      Ensures (ExtentServer.serve env) (next reply) after post (· ≠ .overrun)) :
    Ensures (ExtentServer.serve env) (Program.send request >>= next) im post
      (· ≠ .overrun) := by
  cases served : ExtentServer.serve env request im with
  | error fault =>
      apply Ensures.send_bind_error served
      rintro rfl
      exact stored.not_overrun fits served
  | ok answer =>
      rcases answer with ⟨reply, after⟩
      exact Ensures.send_bind served (rest reply after served)

/-- The end of `create`, `mkdir` and `symlink`, where the text stays short enough. -/
theorem append_within (result : Status → β) {parent : ExtentId} {name : CString}
    {ino : ExtentId} (stored : im.Stored (inumOf parent) data)
    (fits : data.length + (entryText name.text ino).length ≤ maxFile * blockSize) :
    Ensures (ExtentServer.serve env)
      (do
        let (r, buf) ← ExtentClient.get parent
        if r ≠ .OK then return result r
        let r ← ExtentClient.put parent (buf ++ entryText name.text ino)
        return result r)
      im (fun _ _ => True) (· ≠ .overrun) := by
  refine ensures_within stored trivial fun reply after served => ?_
  have storedAfter := stored.serve (by trivial) (by trivial) served
  obtain rfl := stored.get served
  refine ensures_within storedAfter ?_ fun reply after served => trivial
  change (data ++ _).length ≤ _
  rw [List.length_append]
  exact fits

end Appending

/-- The program stays inside the block of pointers, and if one of the lengths it asks
for is above the maximum it returns an error and leaves every extent as it was. -/
def RefusesOversize {α : Type} (env : Env) (im : InodeManager) (status : α → Status)
    (program : Client α) (lengths : List Nat) : Prop :=
  program.run (ExtentServer.serve env) im ≠ .error .overrun ∧
  ((∃ length ∈ lengths, maxFile * blockSize < length) →
    ∃ value after, program.run (ExtentServer.serve env) im = .ok (value, after) ∧
      status value ≠ .OK ∧
      ∀ id, (ExtentServer.get env after id).map Prod.fst =
        (ExtentServer.get env im id).map Prod.fst)

/-- A program that reports success whenever it returns refuses nothing. -/
theorem refusesOversize_iff {α : Type} {env : Env} {im : InodeManager} {status : α → Status}
    {program : Client α} {lengths : List Nat}
    (reports : (∃ length ∈ lengths, maxFile * blockSize < length) →
      Ensures (ExtentServer.serve env) program im (fun value _ => status value = .OK)
        (fun _ => True))
    (inside : (∀ length ∈ lengths, length ≤ maxFile * blockSize) →
      Ensures (ExtentServer.serve env) program im (fun _ _ => True) (· ≠ .overrun)) :
    RefusesOversize env im status program lengths ↔
      ∀ length ∈ lengths, length ≤ maxFile * blockSize := by
  constructor
  · rintro ⟨-, refuses⟩
    by_contra some
    have large : ∃ length ∈ lengths, maxFile * blockSize < length := by
      simpa only [not_forall, not_le, exists_prop] using some
    obtain ⟨value, after, returned, failed, -⟩ := refuses large
    exact failed ((reports large).ok returned)
  · intro fits
    refine ⟨fun overrun => (inside fits).error overrun rfl, ?_⟩
    rintro ⟨length, member, large⟩
    exact absurd (fits length member) (Nat.not_le.mpr large)

namespace Contents

/-- The bytes of an inode, none for a missing one. -/
def bytes (contents : Contents) (id : ExtentId) : List Byte :=
  ((contents.ledger (inumOf id)).map Prod.snd).getD []

/-- The length of a directory with an entry for the next inode. -/
def grown (contents : Contents) (parent : ExtentId) (name : CString) : Nat :=
  (contents.bytes parent).length +
    (entryText name.text (BitVec.ofNat 64 (contents.created + 1))).length

/-- The lengths of the extents that a call asks for. -/
def lengths (contents : Contents) : Call → List Nat
  | (.create parent name, garbage) =>
      if (contents.lookup parent name garbage).2.1 then [] else [contents.grown parent name]
  | (.mkdir parent name, garbage) =>
      if (contents.lookup parent name garbage).2.1 then [] else [contents.grown parent name]
  | (.symlink parent link name, _) => [link.text.length, contents.grown parent name]
  | (.write ino off data, _) =>
      [max (contents.bytes ino).length (off.toNat + data.length)]
  | (.setattr _ size, _) => [size.toNat]
  | _ => []

end Contents

/-- The calls that put an extent of a length of the caller's choice. -/
inductive Lengthens : Operation → ExtentId → Prop
  | create (parent : ExtentId) (name : CString) : Lengthens (.create parent name) parent
  | mkdir (parent : ExtentId) (name : CString) : Lengthens (.mkdir parent name) parent
  | symlink (parent : ExtentId) (link name : CString) :
      Lengthens (.symlink parent link name) parent
  | write (ino : ExtentId) (off : BitVec 64) (data : List Byte) :
      Lengthens (.write ino off data) ino
  | setattr (ino : ExtentId) (size : BitVec 64) : Lengthens (.setattr ino size) ino

section Reports

variable {env : Env} {host : Host} {im : InodeManager} {ino : ExtentId}

theorem put_reports {data : List Byte} :
    Ensures (ExtentServer.serve env) (ExtentClient.put ino data) im
      (fun r _ => r = .OK) (fun _ => True) := by
  apply Ensures.of_bind_pure
  refine ensures_request (fun reply after served => ?_) fun _ => trivial
  exact (ExtentServer.put_ok served).1

theorem write_reports {off : BitVec 64} {data : List Byte} :
    Ensures (ExtentServer.serve env) (YfsClient.write host ino off data) im
      (fun reply _ => reply.1 = .OK) (fun _ => True) := by
  unfold YfsClient.write
  refine ensures_request (fun reply after served => ?_) fun _ => trivial
  rcases reply with ⟨r, buf⟩
  obtain ⟨rfl, -⟩ := ExtentServer.get_ok served
  apply Ensures.ofExcept_bind
  · intro written _
    refine ensures_request (fun reply after served => ?_) fun _ => trivial
    exact (ExtentServer.put_ok served).1
  · intro fault _
    trivial

theorem setattr_reports {size : BitVec 64} :
    Ensures (ExtentServer.serve env) (YfsClient.setattr host ino size) im
      (fun r _ => r = .OK) (fun _ => True) := by
  unfold YfsClient.setattr
  obtain ⟨a, served⟩ := ExtentServer.getattr_returns im ino
  apply Ensures.send_bind served
  dsimp only
  split
  · rename_i failed
    exact absurd rfl failed
  · split
    · rfl
    · refine ensures_request (fun reply after served => ?_) fun _ => trivial
      rcases reply with ⟨r, buf⟩
      obtain ⟨rfl, -⟩ := ExtentServer.get_ok served
      apply Ensures.ofExcept_bind
      · intro data _
        exact put_reports
      · intro fault _
        trivial

end Reports

namespace InodeManager.Shows

variable {env : Env} {host : Host} {im : InodeManager} {contents : Contents} {id : ExtentId}
  {type : BitVec 32} {old : List Byte}

theorem bytes_eq (entry : contents.ledger (inumOf id) = some (type, old)) :
    contents.bytes id = old := by
  rw [Contents.bytes, entry]
  rfl

/-- A `put` of at most the maximum size does not run past the entries. -/
theorem put_ne_overrun (shows : im.Shows contents)
    (entry : contents.ledger (inumOf id) = some (type, old)) {data : List Byte}
    (fits : data.length ≤ maxFile * blockSize) :
    ExtentServer.put env im id data ≠ .error .overrun :=
  (shows.stored entry).not_overrun (by exact fits : ExtentRequest.Fits (.put id data))

theorem write_within (shows : im.Shows contents)
    (entry : contents.ledger (inumOf id) = some (type, old)) {off : BitVec 64}
    {data : List Byte} (fits : max old.length (off.toNat + data.length) ≤ maxFile * blockSize) :
    Ensures (ExtentServer.serve env) (YfsClient.write host id off data) im (fun _ _ => True)
      (· ≠ .overrun) := by
  obtain ⟨mid, showsMid, -, run⟩ := shows.write_run env host entry ((le_max_right _ _).trans fits)
  have within : ExtentServer.put env mid id (SparseFile.write 0 old off.toNat data) ≠
      .error .overrun := by
    apply showsMid.put_ne_overrun entry
    rw [SparseFile.length_write]
    exact fits
  unfold Ensures
  rw [run _ (followsOnDisk_self env), ExtentServer.serve]
  cases put : ExtentServer.put env mid id (SparseFile.write 0 old off.toNat data) with
  | error fault =>
      rintro rfl
      exact within put
  | ok answer => trivial

theorem setattr_within (shows : im.Shows contents)
    (entry : contents.ledger (inumOf id) = some (type, old)) {size : BitVec 64}
    (fits : size.toNat ≤ maxFile * blockSize) :
    Ensures (ExtentServer.serve env) (YfsClient.setattr host id size) im (fun _ _ => True)
      (· ≠ .overrun) := by
  unfold Ensures
  by_cases same : BitVec.ofNat 64 old.length = size
  · rw [shows.setattr_same host entry same]
    trivial
  · obtain ⟨mid, showsMid, -, run⟩ := shows.setattr_other env host entry same
    have within : ExtentServer.put env mid id (resized old size.toNat) ≠ .error .overrun := by
      apply showsMid.put_ne_overrun entry
      rw [length_resized]
      exact fits
    rw [run, if_pos (fits.trans host.holdsFiles)]
    cases put : ExtentServer.put env mid id (resized old size.toNat) with
    | error fault =>
        rintro rfl
        exact within put
    | ok answer => trivial

/-- The state after `lookup` shows the same contents. -/
theorem lookup_run (env : Env) (shows : im.Shows contents) (parent : ExtentId)
    (name : CString) (garbage : Garbage) :
    ∃ after, (YfsClient.lookup parent name garbage.exist garbage.ino).run
        (ExtentServer.serve env) im = .ok (contents.lookup parent name garbage, after) ∧
      after.Shows contents := by
  have ensured : ∃ value after map, (YfsClient.lookup parent name garbage.exist
      garbage.ino).run (ExtentServer.serve env) im = .ok (value, after) ∧ Holds after map ∧
        value = contents.lookup parent name garbage ∧ map.Shows contents :=
    shows.run fun map showsMap => Ensures.of_bind_pure
      (ensures_lookup showsMap fun after showsAfter => ⟨rfl, showsAfter⟩)
  rcases ensured with ⟨value, after, map, returned, holds, rfl, showsAfter⟩
  exact ⟨after, returned, map, holds, showsAfter⟩

/-- The block of the next inode lies before the data blocks. -/
theorem iblock_next (shows : im.Shows contents) : iblock (im.inum + 1) < firstId := by
  have inside := shows.created.2
  simp only [iblock, inodeNum, firstId, blockNum, diskSize, bpb, blockSize] at *
  omega

/-- The next inode is none of those there are. -/
theorem inumOf_next_ne (shows : im.Shows contents)
    (entry : contents.ledger (inumOf id) = some (type, old)) :
    inumOf (BitVec.ofNat 64 (im.inum + 1)) ≠ inumOf id := by
  have inside := shows.created.2
  have older := shows.le_created entry
  have same : (BitVec.ofNat 64 (im.inum + 1)).toNat = im.inum + 1 := by
    rw [BitVec.toNat_ofNat]
    simp only [inodeNum] at inside
    omega
  rw [inumOf_of_lt (by simp only [inodeNum] at inside; omega), same]
  omega

/-- `create` and `mkdir` where the directory stays short enough. -/
theorem createEntry_within (shows : im.Shows contents)
    (entry : contents.ledger (inumOf id) = some (type, old)) {kind : BitVec 32}
    {name : CString} {garbage : Garbage}
    (fits : (contents.lookup id name garbage).2.1 = false →
      contents.grown id name ≤ maxFile * blockSize) :
    Ensures (ExtentServer.serve env)
      (YfsClient.createEntry kind id name garbage.exist garbage.ino) im (fun _ _ => True)
      (· ≠ .overrun) := by
  obtain ⟨looked, run, showsLooked⟩ := shows.lookup_run env id name garbage
  unfold YfsClient.createEntry
  apply Ensures.after_run run
  cases found : (contents.lookup id name garbage).2.1 with
  | true =>
      simp only [found, if_true]
      exact Ensures.pure trivial
  | false =>
      simp only [found, Bool.false_eq_true, if_false]
      have stored := showsLooked.stored entry
      refine ensures_within stored trivial fun reply after served => ?_
      obtain ⟨rfl, counter⟩ := ExtentServer.create_counter served
      have storedAfter := stored.create served (counter ▸ showsLooked.iblock_next)
      apply append_within (fun r => (r, _)) storedAfter
      rw [← showsLooked.created.1, ← bytes_eq entry]
      exact fits found

/-- `symlink` where the link and the directory stay short enough. -/
theorem symlink_within (host : Host) (shows : im.Shows contents)
    (entry : contents.ledger (inumOf id) = some (type, old)) {link name : CString}
    (short : link.text.length ≤ maxFile * blockSize)
    (fits : contents.grown id name ≤ maxFile * blockSize) :
    Ensures (ExtentServer.serve env) (YfsClient.symlink host id link name) im
      (fun _ _ => True) (· ≠ .overrun) := by
  have stored := shows.stored entry
  unfold YfsClient.symlink
  refine ensures_within stored trivial fun reply after served => ?_
  obtain ⟨rfl, counter⟩ := ExtentServer.create_counter served
  have storedMade := stored.create served (counter ▸ shows.iblock_next)
  refine ensures_within storedMade short fun reply linked served => ?_
  obtain ⟨rfl, -⟩ := ExtentServer.put_ok served
  have storedLinked := storedMade.serve (by exact short)
    (by exact shows.inumOf_next_ne entry) served
  refine ensures_within storedLinked trivial fun reply read served => ?_
  have storedRead := storedLinked.serve (by trivial) (by trivial) served
  apply append_within (fun r => (r, _)) storedRead
  rw [← shows.created.1, ← bytes_eq entry]
  exact fits

theorem createEntry_new (shows : im.Shows contents) {kind : BitVec 32} {parent : ExtentId}
    {name : CString} {garbage : Garbage}
    (new : (contents.lookup parent name garbage).2.1 = false) :
    Ensures (ExtentServer.serve env)
      (YfsClient.createEntry kind parent name garbage.exist garbage.ino) im
      (fun reply _ => reply.1 = .OK) (fun _ => True) := by
  obtain ⟨looked, run, -⟩ := shows.lookup_run env parent name garbage
  generalize contents.lookup parent name garbage = result at run new
  rcases result with ⟨r, exist, ino⟩
  obtain rfl : exist = false := new
  exact createEntry_reports run

theorem new_of_large {name : CString} {garbage : Garbage}
    (large : ∃ length ∈ if (contents.lookup id name garbage).2.1 then []
      else [contents.grown id name], maxFile * blockSize < length) :
    (contents.lookup id name garbage).2.1 = false := by
  cases found : (contents.lookup id name garbage).2.1 with
  | false => rfl
  | true => simp [found] at large

theorem grown_of_fits {name : CString} {garbage : Garbage}
    (fits : ∀ length ∈ if (contents.lookup id name garbage).2.1 then []
      else [contents.grown id name], length ≤ maxFile * blockSize)
    (new : (contents.lookup id name garbage).2.1 = false) :
    contents.grown id name ≤ maxFile * blockSize := by
  simpa [new] using fits

/-- A call that lengthens an extent refuses what is too long exactly if nothing it asks
for is. -/
theorem refuses_iff (env : Env) (host : Host) (shows : im.Shows contents)
    {operation : Operation} (lengthens : Lengthens operation id)
    (live : im.IsLive (inumOf id)) (garbage : Garbage) :
    RefusesOversize env im Output.r (perform host (operation, garbage))
        (contents.lengths (operation, garbage)) ↔
      ∀ length ∈ contents.lengths (operation, garbage), length ≤ maxFile * blockSize := by
  obtain ⟨type, old, entry⟩ := shows.entry live
  apply refusesOversize_iff
  · intro large
    cases lengthens with
    | create _ name =>
        exact Ensures.bind (shows.createEntry_new (new_of_large large))
          fun reply after isOk => isOk
    | mkdir _ name =>
        exact Ensures.bind (shows.createEntry_new (new_of_large large))
          fun reply after isOk => isOk
    | symlink _ link name => exact Ensures.bind symlink_reports fun reply after isOk => isOk
    | write _ off data => exact Ensures.bind write_reports fun reply after isOk => isOk
    | setattr _ size => exact Ensures.bind setattr_reports fun reply after isOk => isOk
  · intro fits
    cases lengthens with
    | create _ name =>
        exact Ensures.bind (shows.createEntry_within entry (grown_of_fits fits))
          fun reply after _ => trivial
    | mkdir _ name =>
        exact Ensures.bind (shows.createEntry_within entry (grown_of_fits fits))
          fun reply after _ => trivial
    | symlink _ link name =>
        have short := fits _ List.mem_cons_self
        have grown := fits _ (List.mem_cons_of_mem _ List.mem_cons_self)
        exact Ensures.bind (shows.symlink_within host entry short grown)
          fun reply after _ => trivial
    | write _ off data =>
        have fits := fits _ List.mem_cons_self
        rw [bytes_eq entry] at fits
        exact Ensures.bind (shows.write_within entry fits) fun reply after _ => trivial
    | setattr _ size =>
        have fits := fits _ List.mem_cons_self
        exact Ensures.bind (shows.setattr_within entry fits) fun reply after _ => trivial

end InodeManager.Shows

theorem InodeManager.Shows.represents {im : InodeManager} {contents : Contents}
    (shows : im.Shows contents) : ∃ layout, Represents im.atTable layout := by
  rw [InodeManager.atTable_of_lt shows.created.2]
  rcases shows with ⟨map, ⟨layout, represents, abstracts⟩, -⟩
  exact ⟨layout, represents⟩

/-- `read_file` and `remove_file` stay inside the block of pointers. -/
def ReadsWithin (env : Env) (im : InodeManager) : Prop :=
  ∀ id, ExtentServer.get env im id ≠ .error .overrun ∧
    ExtentServer.remove im id ≠ .error .overrun

namespace Represents

variable (env : Env) {im : InodeManager} {layout : Layout}

theorem readsWithin (represents : Represents im.atTable layout) : ReadsWithin env im := by
  intro id
  have reads : ExtentServer.serve env (.get id) im ≠ .error .overrun :=
    represents.ne_overrun trivial
  have removes : ExtentServer.serve env (.remove id) im ≠ .error .overrun :=
    represents.ne_overrun trivial
  exact ⟨reads, removes⟩

theorem put_refuses_iff (represents : Represents im.atTable layout) (id : ExtentId)
    (buf : List Byte) :
    RefusesOversize env im (fun r => r) (ExtentClient.put id buf) [buf.length] ↔
      buf.length ≤ maxFile * blockSize := by
  have one : (∀ length ∈ [buf.length], length ≤ maxFile * blockSize) ↔
      buf.length ≤ maxFile * blockSize := by
    rw [List.forall_mem_singleton]
  rw [← one]
  apply refusesOversize_iff
  · intro _
    exact put_reports
  · intro fits
    have within : ExtentServer.serve env (.put id buf) im ≠ .error .overrun :=
      represents.ne_overrun (by exact one.mp fits)
    unfold Ensures
    rw [ExtentClient.put, Program.run_send]
    split
    · trivial
    · rename_i fault stopped
      rintro rfl
      exact within stopped

end Represents

/-- In every state that a run of the extent server reaches, with its puts of at most
the maximum size and its inodes before the data blocks, and in every state that a run
of the file system within the limits reaches, the blocks of pointers are not overrun by
reads and removals, and a request refuses what is too long exactly if it asks for nothing
too long. -/
theorem oversize_refused_iff (env : Env) (host : Host) :
    (∀ (requests : List ExtentRequest) (history : List Exchange) (start im : InodeManager),
      InodeManager.init env = .ok start → (∀ request ∈ requests, request.Fits) →
      (session exchange requests).run (ExtentServer.serve env) start = .ok (history, im) →
      iblock im.inum < firstId →
        ReadsWithin env im ∧ ∀ id buf,
          (RefusesOversize env im (fun r => r) (ExtentClient.put id buf) [buf.length] ↔
            buf.length ≤ maxFile * blockSize)) ∧
    ∀ (calls : List Call) (seen : List Output) (im : InodeManager),
      WithinLimits env.clock host calls →
      yfsRun env host calls = .ok (seen, im) →
        ReadsWithin env im ∧ ∃ contents, im.Shows contents ∧
          ∀ operation target garbage, Lengthens operation target →
            im.IsLive (inumOf target) →
              (RefusesOversize env im Output.r (perform host (operation, garbage))
                  (contents.lengths (operation, garbage)) ↔
                ∀ length ∈ contents.lengths (operation, garbage),
                  length ≤ maxFile * blockSize) := by
  constructor
  · intro requests history start im starts sizes returns before
    obtain ⟨layout, represents⟩ := represents_of_run starts sizes returns before
    exact ⟨represents.readsWithin env, represents.put_refuses_iff env⟩
  · intro calls seen im within returns
    obtain ⟨contents, -, shows⟩ := yfsRun_returns within returns
    obtain ⟨layout, represents⟩ := shows.represents
    refine ⟨represents.readsWithin env, contents, shows, ?_⟩
    intro operation target garbage lengthens live
    exact shows.refuses_iff env host lengthens live garbage

/-- Puts to a new file, and calls on the file of one byte. -/
theorem oversize_refused_iff_small :
    (∃ start im, InodeManager.init Env.zero = .ok start ∧
      (session exchange [.create tFile]).run (ExtentServer.serve Env.zero) start =
        .ok ([⟨.create tFile, (.OK, 2)⟩], im) ∧
      ReadsWithin Env.zero im ∧ ∀ id buf,
        (RefusesOversize Env.zero im (fun r => r) (ExtentClient.put id buf) [buf.length] ↔
          buf.length ≤ maxFile * blockSize)) ∧
    ∃ seen im contents, yfsRun Env.zero .three oneByte = .ok (seen, im) ∧
      im.Shows contents ∧
      (RefusesOversize Env.zero im Output.r (perform .three (.setattr 2 5, .zero)) [5] ↔
        ∀ length ∈ [5], length ≤ maxFile * blockSize) := by
  constructor
  · obtain ⟨start, starts, represents⟩ := init_represents Env.zero
    have runs := (simulates_layout Env.zero).run (session exchange [.create tFile]) represents
    rcases runs with ⟨im, returns, representsIm⟩
    have before : iblock im.inum < firstId := by
      rw [representsIm.inum]
      decide
    exact ⟨start, im, starts, returns, (oversize_refused_iff Env.zero .three).1
      [.create tFile] _ start im starts (by decide) returns before⟩
  · rcases oneByte_run with ⟨seen, im, contents, returns, live, shows, entry⟩
    obtain ⟨-, same, showsSame, refuses⟩ :=
      (oversize_refused_iff Env.zero .three).2 oneByte seen im (withinLimits_of_ok rfl) returns
    exact ⟨seen, im, same, returns, showsSame, refuses _ 2 .zero (.setattr 2 5) live⟩

/-- One byte more than the maximum is put to a new file. -/
theorem oversize_not_refused :
    ∃ start im, InodeManager.init Env.zero = .ok start ∧
      (session exchange [.create tFile]).run (ExtentServer.serve Env.zero) start =
        .ok ([⟨.create tFile, (.OK, 2)⟩], im) ∧ im.IsLive (inumOf 2) ∧
      ¬RefusesOversize Env.zero im (fun r => r)
        (ExtentClient.put 2 (List.replicate (maxFile * blockSize + 1) 7))
        [(List.replicate (maxFile * blockSize + 1) (7 : Byte)).length] := by
  obtain ⟨start, starts, represents⟩ := init_represents Env.zero
  have runs := (simulates_layout Env.zero).run (session exchange [.create tFile]) represents
  rcases runs with ⟨im, returns, representsIm⟩
  have live : im.IsLive (inumOf 2) := representsIm.isLive_iff.mpr ⟨_, rfl⟩
  refine ⟨start, im, starts, returns, live, ?_⟩
  have table : im.inum < inodeNum := by
    rw [representsIm.inum]
    decide
  rw [← InodeManager.atTable_of_lt table] at representsIm
  rw [representsIm.put_refuses_iff Env.zero 2, List.length_replicate]
  exact Nat.not_succ_le_self _

end Yfs
