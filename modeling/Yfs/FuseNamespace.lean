import Yfs.FileData
import Yfs.FuseServer
import Yfs.NamespaceRefinement

/-!
# Requests on the namespace

Each request is answered from a tree of directories, files and symbolic links, up to
the times.  `Namespace.serve` refuses the requests for which the file system promises
nothing.  It keeps the oddities of the handlers: a write counts the gap before it, a
setting of the times takes `st_size` for a new size, and a missing inode is shown as a
symbolic link.
-/

namespace Yfs

open ClientServer

def Stat.timeless (st : Stat) : Stat :=
  { st with stAtime := 0, stMtime := 0, stCtime := 0 }

def EntryParam.timeless (e : EntryParam) : EntryParam :=
  { e with attr := e.attr.timeless }

/-- An answer without its times. -/
def FuseAnswer.timeless : FuseAnswer → FuseAnswer
  | .attr st => .attr st.timeless
  | .entry e => .entry e.timeless
  | .create e => .create e.timeless
  | answer => answer

theorem FuseAnswer.timeless_eq_err {answer : FuseAnswer} {errno : ErrorNumber}
    (same : answer.timeless = .err errno) : answer = .err errno := by
  cases answer with
  | err other => exact same
  | _ => cases same

theorem FuseAnswer.timeless_eq_buf {answer : FuseAnswer} {bytes : List Byte}
    (same : answer.timeless = .buf bytes) : answer = .buf bytes := by
  cases answer with
  | buf other => exact same
  | _ => cases same

namespace Namespace

/-- A missing inode looks like an empty symbolic link. -/
def stat (ns : Namespace) (id : ExtentId) : Stat :=
  let size := BitVec.ofNat 64 (ns.size (inumOf id))
  match ns.nodes (inumOf id) with
  | some (.directory _) => Fuse.dirStat id ⟨0, 0, 0⟩
  | some (.file _) => Fuse.fileStat id modeFile ⟨size, 0, 0, 0⟩
  | _ => Fuse.fileStat id modeSymlink ⟨size, 0, 0, 0⟩

def entryParam (ns : Namespace) (id : ExtentId) : EntryParam :=
  Fuse.entryParam id (ns.stat id)

/-- A name that is bound is not bound again. -/
def serveNew (ns : Namespace) (reply : EntryParam → FuseAnswer) (parent : ExtentId)
    (name : CString) (node : Node) : Except Misuse (FuseAnswer × Namespace) := do
  let bindings ← ns.directory parent
  match bound bindings name with
  | some _ => return (.err .EEXIST, ns)
  | none => do
      let (_, after) ← ns.bindNew parent bindings name node
      return (reply (after.entryParam (BitVec.ofNat 64 after.created)), after)

/-- The bytes of a listing. -/
def records (fuse : LibFuse) (bindings : List Dirent) : List Byte :=
  bindings.foldl (fun b entry => Fuse.dirbufAdd fuse b (cString entry.name) entry.inum) []

def serve (fenv : FuseEnv) (ns : Namespace) :
    FuseRequest × Garbage → Except Misuse (FuseAnswer × Namespace)
  | (.getattr ino, _) => .ok (.attr (ns.stat ino), ns)
  | (.statfs, _) => .ok (.statfs ⟨255, 512⟩, ns)
  | (.opened _, _) => .ok (.opened, ns)
  | (.readdir ino size off, _) =>
      match ns.directory ino with
      | .ok bindings =>
          .ok (.buf (Fuse.replyBufLimited (records fenv.fuse bindings) off size), ns)
      | .error _ => .ok (.err .ENOTDIR, ns)
  | (.lookup parent name, _) =>
      match ns.directory parent with
      | .ok bindings =>
          match bound bindings name with
          | some entry => .ok (.entry (ns.entryParam entry.inum), ns)
          | none => .ok (.err .ENOENT, ns)
      | .error _ => .ok (.err .ENOENT, ns)
  | (.create parent name, _) => ns.serveNew .create parent name (.file [])
  | (.mknod parent name, _) => ns.serveNew .entry parent name (.file [])
  | (.mkdir parent name, _) => ns.serveNew .entry parent name (.directory [])
  | (.symlink link parent name, _) => do
      let bindings ← ns.directory parent
      let (_, after) ← ns.bindNew parent bindings name (.symlink link.text)
      return (.entry (after.entryParam (BitVec.ofNat 64 after.created)), after)
  | (.unlink parent name, _) => do
      let bindings ← ns.directory parent
      match bound bindings name with
      | some entry => return (.err .zero, ns.unbind (inumOf parent) bindings entry)
      | none => return (.err .ENOENT, ns)
  | (.read ino size off, _) =>
      match ns.file ino with
      | .ok data =>
          if off.toNat ≤ data.length then
            .ok (.buf ((data.drop off.toNat).take size.toNat), ns)
          else .error .pastEnd
      | .error _ => .ok (.err .ENOENT, ns)
  | (.write ino buf off, _) => do
      let data ← ns.file ino
      if off.toNat + buf.length ≤ maxFile * blockSize then
        return (.write (BitVec.ofNat 64 (counted data off buf)),
          ns.rewrite (inumOf ino) (SparseFile.write 0 data off.toNat buf))
      else .error .tooLong
  | (.setattr ino stSize toSet, _) =>
      -- a new access or modification time is taken for a new size
      if (fenv.flags.size ||| fenv.flags.atime ||| fenv.flags.mtime) &&& toSet ≠ 0 then do
        let data ← ns.file ino
        if stSize.toNat ≤ maxFile * blockSize then
          let after := ns.rewrite (inumOf ino) (SparseFile.resize 0 data stSize.toNat)
          return (.attr (after.stat ino), after)
        else .error .tooLong
      else .ok (.err .ENOSYS, ns)
  | (.readlink ino, _) =>
      match ns.link ino with
      | .ok link => .ok (.buf link, ns)
      | .error _ => .ok (.err .ENOENT, ns)

end Namespace

/-- The request may give the inode new content. -/
def FuseRequest.Writes (id : Nat) : FuseRequest → Prop
  | .write ino _ _ => inumOf ino = id
  | .setattr ino _ _ => inumOf ino = id
  | _ => False

namespace Namespace

/-- What a request can do to the nodes. -/
inductive Effect (ns : Namespace) (request : FuseRequest) : Namespace → Prop
  | none : Effect ns request ns
  | bind {parent : ExtentId} {bindings : List Dirent} {name : CString} {node : Node}
      (isDir : ns.nodes (inumOf parent) = some (.directory bindings))
      (isName : name.IsName) (bare : node.Bare) (inside : ns.created + 1 < inodeNum) :
      Effect ns request (ns.bind (inumOf parent) bindings name.text node)
  | unbind {parent : ExtentId} {bindings : List Dirent} {entry : Dirent}
      (isDir : ns.nodes (inumOf parent) = some (.directory bindings))
      (member : entry ∈ bindings) :
      Effect ns request (ns.unbind (inumOf parent) bindings entry)
  | rewrite {id : Nat} {old data : List Byte} (target : request.Writes id)
      (isFile : ns.nodes id = some (.file old))
      (fits : old.length ≤ maxFile * blockSize → data.length ≤ maxFile * blockSize) :
      Effect ns request (ns.rewrite id data)

section Inversion

variable {fenv : FuseEnv} {ns next : Namespace} {answer : FuseAnswer}

theorem serveNew_effect {reply : EntryParam → FuseAnswer} {parent : ExtentId}
    {name : CString} {node : Node} (bare : node.Bare) (request : FuseRequest)
    (served : ns.serveNew reply parent name node = .ok (answer, next)) :
    ns.Effect request next := by
  obtain ⟨bindings, isDir, served⟩ := bind_ok served
  split at served
  · cases served
    exact .none
  · obtain ⟨⟨output, after⟩, made, served⟩ := bind_ok served
    cases served
    obtain ⟨isName, inside, -, rfl⟩ := bindNew_ok made
    exact .bind (directory_ok isDir) isName bare inside

/-- Every request has one of the effects. -/
theorem serve_effect {request : FuseRequest} {garbage : Garbage}
    (served : ns.serve fenv (request, garbage) = .ok (answer, next)) :
    ns.Effect request next := by
  cases request with
  | getattr ino =>
      cases served
      exact .none
  | statfs =>
      cases served
      exact .none
  | readdir ino size off =>
      rw [serve] at served
      split at served <;> cases served <;> exact .none
  | lookup parent name =>
      rw [serve] at served
      split at served
      · split at served <;> cases served <;> exact .none
      · cases served
        exact .none
  | create parent name =>
      exact serveNew_effect (show Node.Bare (.file []) from rfl) _ served
  | mknod parent name =>
      exact serveNew_effect (show Node.Bare (.file []) from rfl) _ served
  | opened ino =>
      cases served
      exact .none
  | read ino size off =>
      rw [serve] at served
      split at served
      · split at served <;> cases served
        exact .none
      · cases served
        exact .none
  | write ino buf off =>
      obtain ⟨data, isFile, served⟩ := bind_ok served
      split at served
      · rename_i fits
        cases served
        apply Effect.rewrite (show FuseRequest.Writes (inumOf ino) (.write ino buf off) from rfl)
          (file_ok isFile)
        intro oldFits
        rw [SparseFile.length_write]
        exact max_le oldFits fits
      · cases served
  | setattr ino stSize toSet =>
      rw [serve] at served
      split at served
      · obtain ⟨data, isFile, served⟩ := bind_ok served
        split at served
        · rename_i fits
          cases served
          apply Effect.rewrite
            (show FuseRequest.Writes (inumOf ino) (.setattr ino stSize toSet) from rfl)
            (file_ok isFile)
          intro _
          rw [SparseFile.length_resize]
          exact fits
        · cases served
      · cases served
        exact .none
  | unlink parent name =>
      obtain ⟨bindings, isDir, served⟩ := bind_ok served
      split at served
      · rename_i entry found
        cases served
        exact .unbind (directory_ok isDir) (bound_mem found).1
      · cases served
        exact .none
  | mkdir parent name =>
      exact serveNew_effect (show Node.Bare (.directory []) from rfl) _ served
  | symlink link parent name =>
      obtain ⟨bindings, isDir, served⟩ := bind_ok served
      obtain ⟨⟨output, after⟩, made, served⟩ := bind_ok served
      cases served
      obtain ⟨isName, inside, -, rfl⟩ := bindNew_ok made
      exact .bind (directory_ok isDir) isName trivial inside
  | readlink ino =>
      rw [serve] at served
      split at served <;> cases served <;> exact .none

/-- Every request keeps the forest. -/
theorem WF.serve (wf : ns.WF) {request : FuseRequest × Garbage}
    (served : ns.serve fenv request = .ok (answer, next)) : next.WF := by
  cases serve_effect served with
  | none => exact wf
  | bind isDir isName bare inside => exact wf.bind isDir isName bare inside
  | unbind isDir member => exact wf.unbind isDir member
  | rewrite target isFile fits => exact wf.rewrite isFile (fits (wf.fits _ _ isFile))

/-- The inode has been made, and if it is a file it holds the bytes. -/
structure Keeps (ns : Namespace) (id : Nat) (data : List Byte) : Prop where
  wf : ns.WF
  made : id ≤ ns.created
  content : ∀ held, ns.nodes id = some (.file held) → held = data

/-- A file keeps its content until a request writes it: its number is never given to
another. -/
theorem Keeps.serve {id : Nat} {data : List Byte} (keeps : ns.Keeps id data)
    {request : FuseRequest × Garbage} (unwritten : ¬request.1.Writes id)
    (served : ns.serve fenv request = .ok (answer, next)) : next.Keeps id data := by
  have wf := keeps.wf.serve served
  cases serve_effect served with
  | none => exact keeps
  | bind isDir isName bare inside =>
      refine ⟨wf, Nat.le_succ_of_le keeps.made, ?_⟩
      intro held isFile
      rcases bind_nodes_cases keeps.wf isDir isFile with
        ⟨-, atDir⟩ | ⟨isNew, -⟩ | ⟨-, -, old⟩
      · cases atDir
      · have made := keeps.made
        omega
      · exact keeps.content held old
  | unbind isDir member =>
      refine ⟨wf, keeps.made, ?_⟩
      intro held isFile
      rcases unbind_nodes_cases keeps.wf isDir member isFile with ⟨-, atDir⟩ | ⟨-, old⟩
      · cases atDir
      · exact keeps.content held old
  | rewrite target isFile fits =>
      refine ⟨wf, keeps.made, ?_⟩
      intro held isHeld
      rename_i other old new
      have different : id ≠ other := by
        rintro rfl
        exact unwritten target
      rw [rewrite_nodes_of_ne different] at isHeld
      exact keeps.content held isHeld

end Inversion

end Namespace

end Yfs
