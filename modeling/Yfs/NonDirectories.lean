import Yfs.Attributes
import Yfs.ServerReplies

/-!
# Parents that are not directories

`lookup` reports `IOERR` for a parent that is not a directory, but `create`,
`mkdir` and `unlink` look only at the flag it leaves unset, and `symlink` does not
look at all.  So what memory held decides.
-/

namespace Yfs

open ClientServer
open ClientServer.Program (Ensures)

def InodeManager.IsDirectory (im : InodeManager) (id : Nat) : Prop :=
  im.IsLive id ∧ (im.inodeAt id).type.signExtend 32 = tDir

/-- The call returns an error and leaves the disk alone. -/
def Rejects (env : Env) (host : Host) (im : InodeManager)
    (call : Call) : Prop :=
  ∃ output after, (perform host call).run (ExtentServer.serve env) im =
    .ok (output, after) ∧ output.r ≠ .OK ∧ after.bm.disk = im.bm.disk

/-- The calls that add or remove an entry of a directory. -/
inductive ChangesDirectory : Operation → ExtentId → Prop
  | create (parent : ExtentId) (name : CString) :
      ChangesDirectory (.create parent name) parent
  | mkdir (parent : ExtentId) (name : CString) :
      ChangesDirectory (.mkdir parent name) parent
  | symlink (parent : ExtentId) (link name : CString) :
      ChangesDirectory (.symlink parent link name) parent
  | unlink (parent : ExtentId) (name : CString) :
      ChangesDirectory (.unlink parent name) parent

/-- The value of the flag with which a call rejects a parent that is not a
directory. -/
def RejectingFlag : Call → Prop
  | (.create _ _, garbage) => garbage.exist = true
  | (.mkdir _ _, garbage) => garbage.exist = true
  | (.unlink _ _, garbage) => garbage.exist = false
  | _ => False

section Lookup

variable {im : InodeManager} {id : ExtentId}

theorem getattr_notDirectory (notDirectory : ¬im.IsDirectory (inumOf id)) :
    ∃ a, ExtentServer.getattr im id = .ok ((.OK, a), im) ∧ a.type ≠ tDir := by
  by_cases live : im.IsLive (inumOf id)
  · exact ⟨_, ExtentServer.getattr_live live, fun isDir => notDirectory ⟨live, isDir⟩⟩
  · exact ⟨_, ExtentServer.getattr_dead live, by decide⟩

theorem lookup_notDirectory (env : Env) (notDirectory : ¬im.IsDirectory (inumOf id))
    (name : CString) (found : Bool) (inoOut : ExtentId) :
    (YfsClient.lookup id name found inoOut).run (ExtentServer.serve env) im =
      .ok ((.IOERR, found, inoOut), im) := by
  obtain ⟨a, served, isType⟩ := getattr_notDirectory notDirectory
  rw [YfsClient.lookup, Program.run_bind_ok _ (isdir_run served), decide_eq_false isType]
  rfl

end Lookup

section Statuses

variable {env : Env} {im : InodeManager}

theorem ensures_anything {β : Type} (program : Client β) :
    Ensures (ExtentServer.serve env) program im (fun _ _ => True) (fun _ => True) := by
  unfold Ensures
  split
  · trivial
  · trivial

/-- The end of `create`, `mkdir` and `symlink` is a `put` to the parent that reports
success. -/
theorem ensures_append {β : Type} (result : Status → β) {parent : ExtentId}
    {name : CString} {ino : ExtentId} {post : β → InodeManager → Prop}
    (rest : ∀ middle after buf, im.ticks ≤ middle.ticks →
      ExtentServer.put env middle parent buf = .ok (.OK, after) → post (result .OK) after) :
    Ensures (ExtentServer.serve env)
      (do
        let (r, buf) ← ExtentClient.get parent
        if r ≠ .OK then return result r
        let r ← ExtentClient.put parent (buf ++ entryText name.text ino)
        return result r)
      im post (fun _ => True) := by
  refine ensures_request (fun reply middle served => ?_) fun _ => trivial
  rcases reply with ⟨r, buf⟩
  obtain ⟨rfl, ticks, -⟩ := ExtentServer.get_ok served
  refine ensures_request (fun reply after served => ?_) fun _ => trivial
  obtain ⟨rfl, -⟩ := ExtentServer.put_ok served
  exact rest middle after _ (by omega) served

/-- `create` and `mkdir` report success once they have made an inode. -/
theorem createEntry_reports {type : BitVec 32} {parent : ExtentId} {name : CString}
    {exist : Bool} {inoOut : ExtentId} {r : Status} {ino : ExtentId} {middle : InodeManager}
    (looked : (YfsClient.lookup parent name exist inoOut).run (ExtentServer.serve env) im =
      .ok ((r, false, ino), middle)) :
    Ensures (ExtentServer.serve env)
      (YfsClient.createEntry type parent name exist inoOut) im
      (fun reply _ => reply.1 = .OK) (fun _ => True) := by
  unfold YfsClient.createEntry
  apply Ensures.after_run looked
  refine ensures_request (fun reply after served => ?_) fun _ => trivial
  rcases reply with ⟨r, ino⟩
  obtain ⟨rfl, -⟩ := ExtentServer.create_ok served
  exact ensures_append (fun r => (r, ino)) fun _ _ _ _ _ => rfl

theorem createEntry_exists {type : BitVec 32} {parent : ExtentId} {name : CString}
    {inoOut : ExtentId} (notDirectory : ¬im.IsDirectory (inumOf parent)) :
    (YfsClient.createEntry type parent name true inoOut).run (ExtentServer.serve env) im =
      .ok ((.EXIST, inoOut), im) := by
  rw [YfsClient.createEntry,
    Program.run_bind_ok _ (lookup_notDirectory env notDirectory name true inoOut)]
  rfl

theorem symlink_reports {host : Host} {parent : ExtentId}
    {link name : CString} :
    Ensures (ExtentServer.serve env) (YfsClient.symlink host parent link name) im
      (fun reply _ => reply.1 = .OK) (fun _ => True) := by
  unfold YfsClient.symlink
  refine ensures_request (fun reply after served => ?_) fun _ => trivial
  rcases reply with ⟨r, ino⟩
  obtain ⟨rfl, -⟩ := ExtentServer.create_ok served
  refine ensures_request (fun reply after served => ?_) fun _ => trivial
  obtain ⟨rfl, -⟩ := ExtentServer.put_ok served
  refine ensures_request (fun reply after served => ?_) fun _ => trivial
  exact ensures_append (fun r => (r, ino)) fun _ _ _ _ _ => rfl

/-- `unlink` reports success once it has removed what memory held. -/
theorem unlink_reports {parent : ExtentId} {name : CString} {inoOut : ExtentId}
    (notDirectory : ¬im.IsDirectory (inumOf parent)) :
    Ensures (ExtentServer.serve env) (YfsClient.unlink parent name true inoOut) im
      (fun r _ => r = .OK) (fun _ => True) := by
  unfold YfsClient.unlink
  apply Ensures.after_run (lookup_notDirectory env notDirectory name true inoOut)
  refine ensures_request (fun reply after served => ?_) fun _ => trivial
  obtain ⟨rfl, -⟩ := ExtentServer.remove_ok served
  refine Ensures.bind (ensures_anything _) fun listed after _ => ?_
  exact ensures_request (fun reply after served => rfl) fun _ => trivial

theorem unlink_reports_missing {parent : ExtentId} {name : CString} {inoOut : ExtentId}
    (notDirectory : ¬im.IsDirectory (inumOf parent)) :
    (YfsClient.unlink parent name false inoOut).run (ExtentServer.serve env) im =
      .ok (.NOENT, im) := by
  rw [YfsClient.unlink,
    Program.run_bind_ok _ (lookup_notDirectory env notDirectory name false inoOut)]
  rfl

theorem not_rejects {host : Host} {call : Call}
    (reports : Ensures (ExtentServer.serve env) (perform host call) im
      (fun output _ => output.r = .OK) (fun _ => True)) :
    ¬Rejects env host im call := by
  rintro ⟨output, after, returned, failed, -⟩
  exact failed (reports.ok returned)

theorem createEntry_rejects_iff {host : Host} {type : BitVec 32}
    {parent : ExtentId} {name : CString} {exist : Bool} {ino : ExtentId} {call : Call}
    (performs : perform host call = do
      let (r, ino) ← YfsClient.createEntry type parent name exist ino
      return .entry r ino)
    (notDirectory : ¬im.IsDirectory (inumOf parent)) :
    Rejects env host im call ↔ exist = true := by
  cases exist with
  | true =>
      refine iff_of_true ⟨.entry .EXIST ino, im, ?_, (fun same => nomatch same), rfl⟩ rfl
      rw [performs]
      exact Program.run_bind_ok _ (createEntry_exists notDirectory)
  | false =>
      refine iff_of_false (not_rejects ?_) Bool.false_ne_true
      have looked := lookup_notDirectory env notDirectory name false ino
      rw [performs]
      exact Ensures.bind (createEntry_reports looked) fun reply after isOk => isOk

end Statuses

/-- In any state whatsoever, a call that changes a directory rejects a parent that is
not one exactly if the flag that `lookup` leaves unset has the rejecting value. -/
theorem rejects_iff_flag (env : Env) (host : Host) (im : InodeManager)
    (operation : Operation) (parent : ExtentId)
    (changes : ChangesDirectory operation parent)
    (notDirectory : ¬im.IsDirectory (inumOf parent)) (garbage : Garbage) :
    Rejects env host im (operation, garbage) ↔ RejectingFlag (operation, garbage) := by
  rcases garbage with ⟨exist, ino⟩
  cases changes with
  | create _ name => exact createEntry_rejects_iff rfl notDirectory
  | mkdir _ name => exact createEntry_rejects_iff rfl notDirectory
  | symlink _ link name =>
      refine iff_of_false (not_rejects ?_) id
      exact Ensures.bind symlink_reports fun reply after isOk => isOk
  | unlink _ name =>
      cases exist with
      | true =>
          refine iff_of_false (not_rejects ?_) fun same => nomatch same
          exact Ensures.bind (unlink_reports notDirectory) fun reply after isOk => isOk
      | false =>
          refine iff_of_true ⟨.status .NOENT, im, ?_, by decide, rfl⟩ rfl
          exact Program.run_bind_ok _ (unlink_reports_missing notDirectory)

theorem InodeManager.Shows.not_isDirectory {im : InodeManager} {contents : Contents}
    {ino : ExtentId} {data : List Byte} (shows : im.Shows contents)
    (entry : contents.ledger (inumOf ino) = some (tFile, data)) :
    ¬im.IsDirectory (inumOf ino) := by
  rintro ⟨-, isDir⟩
  rw [shows.typeOf_inode entry] at isDir
  exact absurd isDir (by decide)

/-- `mkdir` in a regular file, with the flag set. -/
theorem rejects_iff_flag_mkdir :
    ∃ seen im, yfsRun Env.zero .three oneByte = .ok (seen, im) ∧
      Rejects Env.zero .three im (.mkdir 2 .a, ⟨true, 0⟩) := by
  rcases oneByte_run with ⟨seen, im, contents, returns, -, shows, entry⟩
  exact ⟨seen, im, returns, (rejects_iff_flag Env.zero .three im _ 2 (.mkdir 2 .a)
    (shows.not_isDirectory entry) ⟨true, 0⟩).mpr rfl⟩

/-- A file is created in a regular file. -/
theorem create_in_file :
    ∃ seen im, yfsRun Env.zero .three oneByte = .ok (seen, im) ∧
      ¬im.IsDirectory (inumOf 2) ∧
      ¬Rejects Env.zero .three im (.create 2 .a, ⟨false, 0⟩) := by
  rcases oneByte_run with ⟨seen, im, contents, returns, -, shows, entry⟩
  have isFile : ¬im.IsDirectory (inumOf 2) := shows.not_isDirectory entry
  refine ⟨seen, im, returns, isFile, not_rejects ?_⟩
  have looked := lookup_notDirectory Env.zero isFile .a false 0
  exact Ensures.bind (createEntry_reports looked) fun reply after isOk => isOk

end Yfs
