import Yfs.ServerCalls

/-!
# Replies of the extent server

Facts about one answered request in any state, reachable or not: the server
reports success, takes its clock readings in order, and `get` changes only the
access time of an inode of the table.
-/

namespace Yfs

open ClientServer
open ClientServer.Program (Ensures)

namespace InodeManager

variable {im after : InodeManager} {id : Nat} {ino : Inode}

/-- `get_inode` finds an inode only in the table. -/
theorem derefInode_ok (returns : im.derefInode id = .ok ino) :
    im.IsLive id ∧ ino = im.inodeAt id := by
  unfold derefInode at returns
  by_cases inside : id < inodeNum
  · rw [im.getInode_of_lt inside] at returns
    by_cases free : (im.inodeAt id).type = 0
    · rw [if_pos free] at returns
      cases returns
    · rw [if_neg free] at returns
      cases returns
      exact ⟨⟨inside, free⟩, rfl⟩
  · rw [getInode, if_pos (Nat.le_of_not_lt inside)] at returns
    cases returns

end InodeManager

namespace ExtentServer

variable {env : Env} {im after : InodeManager} {id : ExtentId}

theorem create_ok {type : BitVec 32} {reply : Status × ExtentId}
    (served : create env im type = .ok (reply, after)) :
    reply.1 = .OK ∧ after.ticks = im.ticks + 1 := by
  obtain ⟨⟨made, last⟩, allocates, returns⟩ := bind_ok served
  cases returns
  refine ⟨rfl, ?_⟩
  obtain ⟨written, puts, returns⟩ := bind_ok allocates
  cases returns
  obtain ⟨buf, -, puts⟩ := bind_ok puts
  obtain ⟨bm, -, returns⟩ := bind_ok puts
  cases returns
  rfl

theorem put_ok {buf : List Byte} {reply : Status}
    (served : put env im id buf = .ok (reply, after)) :
    reply = .OK ∧ after.ticks = im.ticks + 1 ∧ im.IsLive (inumOf id) ∧
      (after.inodeAt (inumOf id)).mtime = env.clock im.ticks ∧
      (after.inodeAt (inumOf id)).ctime = env.clock im.ticks := by
  obtain ⟨next, writes, returns⟩ := bind_ok served
  cases returns
  obtain ⟨ino, bm, total, direct, written, derefs, -, -, -, mid, whole, puts, ticks, -,
    mtime, ctime⟩ := InodeManager.writeFile_ok writes
  have live := (InodeManager.derefInode_ok derefs).1
  rw [mid.putInode_of_lt whole live.1] at puts
  cases puts
  rw [mid.inodeAt_withInode whole live.1]
  exact ⟨rfl, ticks, live, mtime, ctime⟩

theorem get_ok {reply : Status × List Byte}
    (served : get env im id = .ok (reply, after)) :
    reply.1 = .OK ∧ after.ticks = im.ticks + 1 ∧ im.IsLive (inumOf id) ∧
      im.OnlyAtime (inumOf id) after := by
  obtain ⟨⟨⟨cbuf, size⟩, next⟩, reads, returns⟩ := bind_ok served
  have read : next.ticks = im.ticks + 1 ∧ im.IsLive (inumOf id) ∧
      im.OnlyAtime (inumOf id) next := by
    obtain ⟨ino, derefs, reads⟩ := bind_ok reads
    obtain ⟨buf, -, reads⟩ := bind_ok reads
    obtain ⟨last, puts, reads⟩ := bind_ok reads
    cases reads
    obtain ⟨live, rfl⟩ := InodeManager.derefInode_ok derefs
    rw [InodeManager.putInode_of_lt _ _ live.1] at puts
    cases puts
    exact ⟨rfl, live, im.onlyAtime_withInode live.1 _ _ _⟩
  have same : reply.1 = .OK ∧ next = after := by
    dsimp only at returns
    split at returns
    · cases returns
      exact ⟨rfl, rfl⟩
    · split at returns
      · cases returns
      · cases returns
        exact ⟨rfl, rfl⟩
  rw [← same.2]
  exact ⟨same.1, read⟩

/-- A reply is shorter than the largest size of an inode. -/
theorem get_length {reply : Status × List Byte}
    (served : get env im id = .ok (reply, after)) : reply.2.length < 2 ^ 31 := by
  obtain ⟨⟨⟨cbuf, size⟩, next⟩, reads, returns⟩ := bind_ok served
  have small : size < 2 ^ 31 := by
    obtain ⟨ino, -, reads⟩ := bind_ok reads
    obtain ⟨buf, -, reads⟩ := bind_ok reads
    obtain ⟨last, -, reads⟩ := bind_ok reads
    cases reads
    exact BitVec.toInt_lt
  dsimp only at returns
  split at returns
  · cases returns
    decide
  · split at returns
    · cases returns
    · cases returns
      rw [List.length_take]
      omega

theorem remove_ok {reply : Status} (served : remove im id = .ok (reply, after)) :
    reply = .OK ∧ after.ticks = im.ticks := by
  obtain ⟨last, removes, returns⟩ := bind_ok served
  cases returns
  refine ⟨rfl, ?_⟩
  obtain ⟨ino, -, removes⟩ := bind_ok removes
  obtain ⟨bm, -, frees⟩ := bind_ok removes
  obtain ⟨found, -, frees⟩ := bind_ok frees
  cases found with
  | none =>
      cases frees
      rfl
  | some ino =>
      obtain ⟨buf, -, frees⟩ := bind_ok frees
      obtain ⟨written, -, frees⟩ := bind_ok frees
      cases frees
      rfl

end ExtentServer

section Rules

variable {env : Env} {im : InodeManager} {β : Type} {post : β → InodeManager → Prop}
  {fails : Fault → Prop}

/-- A request, whatever its outcome. -/
theorem ensures_request {request : ExtentRequest}
    {next : ExtentReply request → Client β}
    (rest : ∀ reply after, ExtentServer.serve env request im = .ok (reply, after) →
      Ensures (ExtentServer.serve env) (next reply) after post fails)
    (errors : ∀ fault, fails fault) :
    Ensures (ExtentServer.serve env) (Program.send request >>= next) im post fails := by
  cases served : ExtentServer.serve env request im with
  | error fault => exact Ensures.send_bind_error served (errors fault)
  | ok answer =>
      rcases answer with ⟨reply, after⟩
      exact Ensures.send_bind served (rest reply after served)

end Rules

end Yfs
