import Yfs.FullTable
import Yfs.FuseRuns
import Yfs.NonDirectories
import Yfs.Timestamps

/-!
# Replies of the FUSE server

What holds of the replies from every state and for every request, allowed or not:
which errors a handler can report, and that every new inode has a number that no
inode had before, so that a generation of 0 is enough.
-/

namespace Yfs

open ClientServer
open ClientServer.Program (Ensures Sends)

/-- The replies that a handler can make.  A reply with an entry is about a new inode
for all handlers but `lookup`. -/
def FuseRequest.CanAnswer : FuseRequest → FuseAnswer → Prop
  | .getattr ino, answer => ∃ st, answer = .attr st ∧ st.stIno = ino
  | .statfs, answer => answer = .statfs ⟨255, 512⟩
  | .readdir _ size _, answer =>
      answer = .err .ENOTDIR ∨ ∃ bytes, answer = .buf bytes ∧ bytes.length ≤ size.toNat
  | .lookup _ _, answer => answer = .err .ENOENT ∨ ∃ e, answer = .entry e ∧ e.attr.stIno = e.ino
  | .create _ _, answer => answer = .err .EEXIST ∨ ∃ e, answer = .create e ∧ e.attr.stIno = e.ino
  | .mknod _ _, answer => answer = .err .EEXIST ∨ ∃ e, answer = .entry e ∧ e.attr.stIno = e.ino
  | .mkdir _ _, answer => answer = .err .EEXIST ∨ ∃ e, answer = .entry e ∧ e.attr.stIno = e.ino
  | .symlink _ _ _, answer => ∃ e, answer = .entry e ∧ e.attr.stIno = e.ino
  | .opened _, answer => answer = .opened
  | .read _ size _, answer =>
      answer = .err .ENOENT ∨ ∃ bytes, answer = .buf bytes ∧ bytes.length ≤ size.toNat
  | .write _ _ _, answer => ∃ count, answer = .write count
  | .setattr ino _ _, answer => answer = .err .ENOSYS ∨ ∃ st, answer = .attr st ∧ st.stIno = ino
  | .unlink _ _, answer => answer = .err .zero ∨ answer = .err .ENOENT
  | .readlink _, answer => answer = .err .ENOENT ∨ ∃ bytes, answer = .buf bytes

/-- The inode that a request has made. -/
def FuseRequest.made : FuseRequest → FuseAnswer → Option ExtentId
  | .create _ _, .create e => some e.ino
  | .mknod _ _, .entry e => some e.ino
  | .mkdir _ _, .entry e => some e.ino
  | .symlink _ _ _, .entry e => some e.ino
  | _, _ => none

/-- The counter of inodes moves on with each new inode, and gives its number. -/
def Counts (im : InodeManager) (made : Option ExtentId) (after : InodeManager) : Prop :=
  match made with
  | some ino => ino = BitVec.ofNat 64 (im.inum + 1) ∧ after.inum = im.inum + 1 ∧
      iblock after.inum < blockNum
  | none => after.inum = im.inum

/-- A request that makes no inode. -/
def ExtentRequest.NotCreate (request : ExtentRequest) : Prop :=
  ∀ type, request ≠ .create type

section Programs

variable {env : Env} {host : Host} {im : InodeManager} {β : Type}
  {post : β → InodeManager → Prop}

/-- A program that makes no inode leaves the counter where it is. -/
theorem ensures_counter {program : Client β} (sends : Sends ExtentRequest.NotCreate program) :
    Ensures (ExtentServer.serve env) program im (fun _ after => after.inum = im.inum)
      (fun _ => True) := by
  unfold Ensures
  split
  · rename_i value after returned
    apply sends.preserves (fun state => state.inum = im.inum) _ rfl returned
    intro request before reply next notCreate same served
    rw [inum_of_serve notCreate served, same]
  · trivial

theorem ExtentRequest.IsRead.notCreate {request : ExtentRequest} (isRead : request.IsRead) :
    request.NotCreate := by
  rintro type rfl
  exact isRead

theorem sends_reads {program : Client β} (sends : Sends ExtentRequest.IsRead program) :
    Sends ExtentRequest.NotCreate program := by
  induction program with
  | ret value => trivial
  | fail error => trivial
  | call request next ih => exact ⟨sends.1.notCreate, fun reply => ih reply (sends.2 reply)⟩

/-- A request that makes no inode, and the rest of the program. -/
theorem ensures_send {request : ExtentRequest} {next : ExtentReply request → Client β}
    (notCreate : request.NotCreate)
    (rest : ∀ reply after, ExtentServer.serve env request im = .ok (reply, after) →
      after.inum = im.inum →
        Ensures (ExtentServer.serve env) (next reply) after post (fun _ => True)) :
    Ensures (ExtentServer.serve env) (Program.send request >>= next) im post
      (fun _ => True) := by
  apply ensures_request
  · intro reply after served
    exact rest reply after served (inum_of_serve notCreate served)
  · exact fun _ => trivial

theorem Fuse.ensures_getattr {inum : ExtentId} {next : Status × Stat → Client β}
    (rest : ∀ st, st.stIno = inum →
      Ensures (ExtentServer.serve env) (next (.OK, st)) im post (fun _ => True)) :
    Ensures (ExtentServer.serve env) (Fuse.getattr inum >>= next) im post
      (fun _ => True) := by
  obtain ⟨a, served⟩ := ExtentServer.getattr_returns im inum
  apply Ensures.after_run (Fuse.getattr_run served)
  apply rest
  rw [Attr.stat]
  split
  · rfl
  · split
    · rfl
    · rfl

/-- The end of `create`, `mkdir` and `symlink` makes no other inode. -/
theorem ensures_append_counts (result : Status → β) {parent : ExtentId} {name : CString}
    {ino : ExtentId} (rest : ∀ after, after.inum = im.inum → post (result .OK) after) :
    Ensures (ExtentServer.serve env)
      (do
        let (r, buf) ← ExtentClient.get parent
        if r ≠ .OK then return result r
        let r ← ExtentClient.put parent (buf ++ entryText name.text ino)
        return result r)
      im post (fun _ => True) := by
  apply ensures_send (fun type => by simp)
  rintro ⟨r, buf⟩ middle served same
  obtain ⟨rfl, -⟩ := ExtentServer.get_ok served
  apply ensures_send (fun type => by simp)
  intro r after served again
  obtain ⟨rfl, -⟩ := ExtentServer.put_ok served
  exact rest after (again.trans same)

/-- `create` and `mkdir` of the client. -/
theorem ensures_createEntry_counts {type : BitVec 32} {parent : ExtentId} {name : CString}
    {exist : Bool} {inoOut : ExtentId} :
    Ensures (ExtentServer.serve env) (YfsClient.createEntry type parent name exist inoOut) im
      (fun result after => (result.1 = .EXIST ∧ Counts im none after) ∨
        (result.1 = .OK ∧ Counts im (some result.2) after)) (fun _ => True) := by
  unfold YfsClient.createEntry
  apply Ensures.bind (ensures_counter (sends_reads (YfsClient.sends_lookup parent name exist
    inoOut)))
  rintro ⟨r, found, ino⟩ looked same
  cases found with
  | true => exact Or.inl ⟨rfl, same⟩
  | false =>
      apply ensures_request
      · rintro ⟨r, made⟩ after served
        obtain ⟨reply, counter⟩ := ExtentServer.create_counter served
        obtain ⟨rfl, rfl⟩ := Prod.mk.inj reply
        apply ensures_append_counts (fun r => (r, BitVec.ofNat 64 (looked.inum + 1)))
        intro last unchanged
        have inside := ExtentServer.create_inside served
        refine Or.inr ⟨rfl, ?_, ?_, ?_⟩
        · rw [same]
        · rw [unchanged, counter, same]
        · rwa [unchanged]
      · exact fun _ => trivial

theorem ensures_symlink_counts {host : Host} {parent : ExtentId}
    {link name : CString} :
    Ensures (ExtentServer.serve env) (YfsClient.symlink host parent link name) im
      (fun result after => result.1 = .OK ∧ Counts im (some result.2) after)
      (fun _ => True) := by
  unfold YfsClient.symlink
  apply ensures_request
  · rintro ⟨r, made⟩ after served
    obtain ⟨reply, counter⟩ := ExtentServer.create_counter served
    obtain ⟨rfl, rfl⟩ := Prod.mk.inj reply
    have inside := ExtentServer.create_inside served
    apply ensures_send (fun type => by simp)
    intro r linked served same
    obtain ⟨rfl, -⟩ := ExtentServer.put_ok served
    apply ensures_send (fun type => by simp)
    intro reply reread _ again
    apply ensures_append_counts (fun r => (r, BitVec.ofNat 64 (im.inum + 1)))
    intro last unchanged
    have held : last.inum = after.inum := unchanged.trans (again.trans same)
    refine ⟨rfl, rfl, ?_, ?_⟩
    · rw [held, counter]
    · rwa [held]
  · exact fun _ => trivial

/-- `unlink` reports no other status. -/
theorem ensures_unlink_counts {parent : ExtentId} {name : CString} {exist : Bool}
    {inoOut : ExtentId} :
    Ensures (ExtentServer.serve env) (YfsClient.unlink parent name exist inoOut) im
      (fun r after => (r = .OK ∨ r = .NOENT) ∧ Counts im none after) (fun _ => True) := by
  unfold YfsClient.unlink
  apply Ensures.bind (ensures_counter (sends_reads (YfsClient.sends_lookup parent name exist
    inoOut)))
  rintro ⟨r, found, ino⟩ looked same
  cases found with
  | false => exact ⟨Or.inr rfl, same⟩
  | true =>
      apply ensures_send (fun type => by simp)
      intro r removed served afterRemove
      obtain ⟨rfl, -⟩ := ExtentServer.remove_ok served
      apply Ensures.bind (ensures_counter (sends_reads (YfsClient.sends_readdir parent [])))
      rintro ⟨r, list⟩ listed afterList
      apply ensures_send (fun type => by simp)
      intro reply last _ afterPut
      exact ⟨Or.inl rfl, afterPut.trans (afterList.trans (afterRemove.trans same))⟩

theorem ensures_write_counts {ino : ExtentId} {off : BitVec 64} {data : List Byte} :
    Ensures (ExtentServer.serve env) (YfsClient.write host ino off data) im
      (fun result after => result.1 = .OK ∧ Counts im none after) (fun _ => True) := by
  unfold YfsClient.write
  apply ensures_send (fun type => by simp)
  rintro ⟨r, buf⟩ middle served same
  obtain ⟨rfl, -⟩ := ExtentServer.get_ok served
  apply Ensures.ofExcept_bind
  · rintro ⟨new, count⟩ _
    apply ensures_send (fun type => by simp)
    intro r after served again
    obtain ⟨rfl, -⟩ := ExtentServer.put_ok served
    exact ⟨rfl, again.trans same⟩
  · exact fun _ _ => trivial

theorem sends_setattr {ino : ExtentId} {size : BitVec 64} :
    Sends ExtentRequest.NotCreate (YfsClient.setattr host ino size) := by
  unfold YfsClient.setattr
  apply Sends.bind (Sends.send fun type => by simp)
  rintro ⟨r, a⟩
  dsimp only
  split
  · trivial
  · split
    · trivial
    · apply Sends.bind (Sends.send fun type => by simp)
      rintro ⟨r, buf⟩
      dsimp only
      split
      · trivial
      · apply Sends.bind (Sends.ofExcept _)
        intro new
        exact Sends.send fun type => by simp

theorem sends_isfile (inum : ExtentId) :
    Sends ExtentRequest.NotCreate (YfsClient.isfile inum) := by
  unfold YfsClient.isfile
  apply Sends.bind (Sends.send fun type => by simp)
  rintro ⟨r, a⟩
  dsimp only
  split
  · trivial
  · trivial

/-- `read` hands out no more than was asked for. -/
theorem ensures_read_counts {ino : ExtentId} {size off : BitVec 64} :
    Ensures (ExtentServer.serve env) (YfsClient.read ino size off) im
      (fun result after => result.2.length ≤ size.toNat ∧ Counts im none after)
      (fun _ => True) := by
  unfold YfsClient.read
  apply Ensures.bind (ensures_counter (sends_isfile ino))
  intro isFile asked same
  cases isFile with
  | false => exact ⟨Nat.zero_le _, same⟩
  | true =>
      apply ensures_send (fun type => by simp)
      rintro ⟨r, buf⟩ after served again
      obtain ⟨rfl, -⟩ := ExtentServer.get_ok served
      apply Ensures.ofExcept_bind
      · intro data taken
        refine ⟨?_, again.trans same⟩
        rw [substr] at taken
        split at taken
        · cases taken
          exact List.length_take_le _ _
        · cases taken
      · exact fun _ _ => trivial

end Programs

section Handlers

variable {env : Env} {fenv : FuseEnv} {im : InodeManager}

/-- The handler of a request replies as it can, and counts what it makes. -/
def Replies (env : Env) (im : InodeManager) (request : FuseRequest)
    (handler : Client FuseAnswer) : Prop :=
  Ensures (ExtentServer.serve env) handler im
    (fun answer after => request.CanAnswer answer ∧ Counts im (request.made answer) after)
    (fun _ => True)

/-- `create`, `mknod` and `mkdir`. -/
theorem replyCreated_replies {request : FuseRequest} {reply : EntryParam → FuseAnswer}
    {type : BitVec 32} {parent : ExtentId} {name : CString} {garbage : Garbage}
    (bound : request.CanAnswer (.err .EEXIST) ∧ request.made (.err .EEXIST) = none)
    (makes : ∀ e : EntryParam, e.attr.stIno = e.ino →
      request.CanAnswer (reply e) ∧ request.made (reply e) = some e.ino) :
    Replies env im request (Fuse.replyCreated reply type parent name garbage) := by
  have called : ∃ code, Fuse.createOrMkdir type parent name garbage =
      YfsClient.createEntry code parent name garbage.exist garbage.ino := by
    rw [Fuse.createOrMkdir]
    split
    · exact ⟨tFile, rfl⟩
    · exact ⟨tDir, rfl⟩
  rcases called with ⟨code, called⟩
  unfold Replies Fuse.replyCreated Fuse.fuseserverCreatehelper
  rw [called]
  apply Ensures.bind_assoc
  apply Ensures.bind ensures_createEntry_counts
  rintro ⟨r, ino⟩ after (⟨rfl, same⟩ | ⟨rfl, counts⟩)
  · have counts : Counts im (request.made (.err .EEXIST)) after := by
      rw [bound.2]
      exact same
    exact ⟨bound.1, counts⟩
  · apply Ensures.bind_assoc
    apply Fuse.ensures_getattr
    intro st isIno
    have made := makes (Fuse.entryParam ino st) isIno
    refine ⟨made.1, ?_⟩
    rw [made.2]
    exact counts

theorem lookup_replies {parent : ExtentId} {name : CString} {garbage : Garbage} :
    Replies env im (.lookup parent name) (Fuse.fuseserverLookup parent name garbage) := by
  unfold Replies Fuse.fuseserverLookup
  apply Ensures.bind (ensures_counter (sends_reads (YfsClient.sends_lookup _ _ _ _)))
  rintro ⟨r, found, ino⟩ after same
  cases found with
  | false => exact ⟨Or.inl rfl, same⟩
  | true =>
      apply Fuse.ensures_getattr
      intro st isIno
      exact ⟨Or.inr ⟨_, rfl, isIno⟩, same⟩

theorem readdir_replies {ino : ExtentId} {size off : BitVec 64} {garbage : Garbage} :
    Replies env im (.readdir ino size off)
      (fuseserverOper fenv (.readdir ino size off, garbage)) := by
  unfold Replies fuseserverOper Fuse.fuseserverReaddir
  apply Ensures.bind_assoc
  apply Ensures.bind (ensures_counter (sends_reads (YfsClient.sends_isdir ino)))
  intro isDir asked same
  cases isDir with
  | false => exact ⟨Or.inl rfl, same⟩
  | true =>
      apply Ensures.bind_assoc
      apply Ensures.bind (ensures_counter (sends_reads (YfsClient.sends_readdir ino [])))
      rintro ⟨r, entries⟩ after again
      refine ⟨Or.inr ⟨_, rfl, ?_⟩, again.trans same⟩
      rw [Fuse.replyBufLimited]
      split
      · rw [List.length_take]
        omega
      · exact Nat.zero_le _

/-- Every request. -/
theorem oper_replies (request : FuseRequest) (garbage : Garbage) :
    Replies env im request (fuseserverOper fenv (request, garbage)) := by
  cases request with
  | getattr ino =>
      apply Ensures.bind_assoc
      apply Fuse.ensures_getattr
      intro st isIno
      exact ⟨⟨st, rfl, isIno⟩, rfl⟩
  | statfs => exact ⟨rfl, rfl⟩
  | readdir ino size off => exact readdir_replies
  | lookup parent name => exact lookup_replies
  | create parent name =>
      exact replyCreated_replies ⟨Or.inl rfl, rfl⟩ fun e isIno => ⟨Or.inr ⟨e, rfl, isIno⟩, rfl⟩
  | mknod parent name =>
      exact replyCreated_replies ⟨Or.inl rfl, rfl⟩ fun e isIno => ⟨Or.inr ⟨e, rfl, isIno⟩, rfl⟩
  | mkdir parent name =>
      exact replyCreated_replies ⟨Or.inl rfl, rfl⟩ fun e isIno => ⟨Or.inr ⟨e, rfl, isIno⟩, rfl⟩
  | opened ino => exact ⟨rfl, rfl⟩
  | read ino size off =>
      apply Ensures.bind ensures_read_counts
      rintro ⟨r, buf⟩ after ⟨short, same⟩
      dsimp only
      split
      · exact ⟨Or.inr ⟨buf, rfl, short⟩, same⟩
      · exact ⟨Or.inl rfl, same⟩
  | write ino buf off =>
      apply Ensures.bind_assoc
      apply Ensures.bind ensures_write_counts
      rintro ⟨r, count⟩ after ⟨rfl, same⟩
      exact ⟨⟨_, rfl⟩, same⟩
  | setattr ino stSize toSet =>
      change Replies env im (.setattr ino stSize toSet)
        (Fuse.fuseserverSetattr fenv.host fenv.flags ino stSize toSet >>= fun reply =>
          pure reply.answer)
      unfold Replies Fuse.fuseserverSetattr
      split
      · apply Ensures.bind_assoc
        apply Ensures.bind (ensures_counter sends_setattr)
        intro r after same
        apply Ensures.bind_assoc
        apply Fuse.ensures_getattr
        intro st isIno
        exact ⟨Or.inr ⟨st, rfl, isIno⟩, same⟩
      · exact ⟨Or.inl rfl, rfl⟩
  | unlink parent name =>
      apply Ensures.bind ensures_unlink_counts
      rintro r after ⟨rfl | rfl, same⟩
      · exact ⟨Or.inl rfl, same⟩
      · exact ⟨Or.inr rfl, same⟩
  | symlink link parent name =>
      apply Ensures.bind ensures_symlink_counts
      rintro ⟨r, ino⟩ after ⟨rfl, counts⟩
      apply Fuse.ensures_getattr
      intro st isIno
      exact ⟨⟨_, rfl, isIno⟩, counts⟩
  | readlink ino =>
      apply Ensures.bind (ensures_counter (sends_reads (YfsClient.sends_readlink _ ino)))
      rintro ⟨r, buf⟩ after same
      dsimp only
      split
      · exact ⟨Or.inr ⟨buf, rfl⟩, same⟩
      · exact ⟨Or.inl rfl, same⟩

end Handlers

/-- From every state, a handler makes none but the replies it can make: `unlink` never
reports that something is not empty, and `symlink` never that the name exists. -/
theorem handlers_answer_as_they_can (env : Env) (fenv : FuseEnv)
    (request : FuseRequest × Garbage) {im after : InodeManager} {answer : FuseAnswer}
    (returns : (fuseserverOper fenv request).run (ExtentServer.serve env) im =
      .ok (answer, after)) :
    request.1.CanAnswer answer :=
  ((oper_replies request.1 request.2).ok returns).1

/-- On a new disk there is nothing to unlink. -/
theorem unlink_answers_as_it_can :
    ∃ im answer after, (fuseserverOper .linux (.unlink 1 .a, .zero)).run
        (ExtentServer.serve .zero) im = .ok (answer, after) ∧
      answer = .err .ENOENT ∧ FuseRequest.CanAnswer (.unlink 1 .a) answer := by
  have ran : Machine.run (Namespace.serve .linux) .init [(.unlink 1 .a, .zero)] =
      .ok ([.err .ENOENT], .init) := rfl
  have room : Machine.Always (Namespace.serve .linux) (Namespace.LeavesRoom .linux) .init
      [(.unlink 1 .a, .zero)] :=
    Machine.Always.cons (Namespace.LeavesRoom.of_serve rfl (by decide)) rfl trivial
  obtain ⟨im, -, encodes⟩ := init_encodes .zero FuseEnv.linux.host
  obtain ⟨seen, last, returned, answered, -⟩ := encodes.fuse_session .zero ran room
  obtain ⟨answer, rfl, same⟩ := List.map_eq_singleton_iff.mp answered
  obtain ⟨request, rest, after, equal, performed, -⟩ := run_session_head _ _ returned
  cases equal
  have isErr := FuseAnswer.timeless_eq_err same
  exact ⟨im, answer, after, performed, isErr,
    handlers_answer_as_they_can .zero .linux (.unlink 1 .a, .zero) performed⟩

/-- The numbers of the new inodes of a run, in order. -/
def newNumbers (requests : List (FuseRequest × Garbage)) (answers : List FuseAnswer) :
    List ExtentId :=
  (requests.zip answers).filterMap fun exchange => exchange.1.1.made exchange.2

theorem newNumbers_cons (request : FuseRequest × Garbage)
    (requests : List (FuseRequest × Garbage)) (answer : FuseAnswer)
    (answers : List FuseAnswer) :
    newNumbers (request :: requests) (answer :: answers) =
      (request.1.made answer).toList ++ newNumbers requests answers := by
  simp only [newNumbers, List.zip_cons_cons, List.filterMap_cons]
  cases request.1.made answer with
  | none => rfl
  | some ino => rfl

/-- A session numbers its inodes one after another. -/
theorem session_numbers {env : Env} {fenv : FuseEnv}
    {requests : List (FuseRequest × Garbage)} {answers : List FuseAnswer}
    {im last : InodeManager}
    (returns : (session (fuseserverOper fenv) requests).run (ExtentServer.serve env) im =
      .ok (answers, last)) :
    ∃ count, last.inum = im.inum + count ∧
      (count = 0 ∨ iblock last.inum < blockNum) ∧
      newNumbers requests answers =
        (List.range' (im.inum + 1) count).map (BitVec.ofNat 64) := by
  induction requests generalizing im answers with
  | nil =>
      cases returns
      exact ⟨0, rfl, Or.inl rfl, rfl⟩
  | cons request rest ih =>
      obtain ⟨answer, others, middle, rfl, performed, remaining⟩ :=
        run_session_ok _ _ returns
      obtain ⟨count, counter, inside, numbers⟩ := ih remaining
      have counts := ((oper_replies request.1 request.2).ok performed).2
      rw [newNumbers_cons, numbers]
      cases made : request.1.made answer with
      | none =>
          rw [made] at counts
          have same : middle.inum = im.inum := counts
          exact ⟨count, by rw [counter, same], inside, by rw [same]; rfl⟩
      | some ino =>
          rw [made] at counts
          obtain ⟨rfl, next, within⟩ := counts
          refine ⟨count + 1, by omega, Or.inr ?_, ?_⟩
          · rcases inside with rfl | inside
            · rw [counter]
              exact within
            · exact inside
          · rw [next, List.range'_succ, List.map_cons]
            rfl

/-- Whatever is asked, new inodes get the numbers 2, 3, 4 and so on, and none twice. -/
theorem new_inodes_numbered (env : Env) (fenv : FuseEnv)
    {requests : List (FuseRequest × Garbage)} {answers : List FuseAnswer}
    {im : InodeManager} (returns : fuseRun env fenv requests = .ok (answers, im)) :
    newNumbers requests answers =
        (List.range' 2 (im.inum - 1)).map (BitVec.ofNat 64) ∧
      (newNumbers requests answers).Nodup := by
  obtain ⟨start, starts, returns⟩ := bind_ok returns
  have first : start.inum = 1 := by
    obtain ⟨im, again, encodes⟩ := init_encodes env fenv.host
    rw [starts] at again
    cases again
    rcases encodes with ⟨contents, shows, encodes⟩
    rw [← shows.created.1, encodes.created]
    rfl
  obtain ⟨count, counter, inside, numbers⟩ := session_numbers returns
  rw [first] at counter numbers
  have total : im.inum - 1 = count := by omega
  rw [total, numbers]
  refine ⟨rfl, ?_⟩
  apply List.Nodup.map_on _ List.nodup_range'
  intro one isOne other isOther same
  rw [List.mem_range'_1] at isOne isOther
  have small : im.inum < 2 ^ 64 := by
    rcases inside with rfl | inside
    · omega
    · simp only [iblock, blockNum, bpb, diskSize, blockSize] at inside
      omega
  have equal := congrArg BitVec.toNat same
  rw [BitVec.toNat_ofNat, BitVec.toNat_ofNat, Nat.mod_eq_of_lt (by omega),
    Nat.mod_eq_of_lt (by omega)] at equal
  exact equal

theorem writeAndRead_numbered :
    ∃ seen im, fuseRun .zero .linux writeAndRead = .ok (seen, im) ∧
      newNumbers writeAndRead seen = (List.range' 2 (im.inum - 1)).map (BitVec.ofNat 64) := by
  have allowed : ∃ answers ns, Machine.run (Namespace.serve .linux) .init writeAndRead =
      .ok (answers, ns) := ⟨_, _, rfl⟩
  rcases allowed with ⟨answers, ns, ran⟩
  obtain ⟨start, starts, encodes⟩ := init_encodes .zero FuseEnv.linux.host
  obtain ⟨seen, im, returned, -⟩ := encodes.fuse_session .zero ran writeAndRead_leavesRoom
  have returns : fuseRun .zero .linux writeAndRead = .ok (seen, im) := by
    rw [fuseRun, starts]
    exact returned
  exact ⟨seen, im, returns, (new_inodes_numbered .zero .linux returns).1⟩

end Yfs
