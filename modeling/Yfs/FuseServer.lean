import Yfs.Fuse

/-!
# The FUSE server

The other handlers of `fuse.cc`, and the table of handlers that `main` hands to the
FUSE library.  The library calls one handler after another, and each of them
replies exactly once.

The arguments `mode`, `rdev` and `fi`, which no handler looks at, are left out.
-/

namespace Yfs

open ClientServer

/-- The last argument of `fuse_reply_err`. -/
inductive ErrorNumber
  | zero
  | ENOENT
  | EEXIST
  | ENOTDIR
  | ENOTEMPTY
  | ENOSYS
  deriving DecidableEq, Repr

/-- `struct fuse_entry_param`. -/
structure EntryParam where
  ino : ExtentId
  generation : Nat
  attr : Stat
  /-- In seconds; the source has a `double`. -/
  attrTimeout : Nat
  entryTimeout : Nat
  deriving DecidableEq, Repr

/-- The fields of `struct statvfs` that are not zero. -/
structure StatVfs where
  namemax : Nat
  bsize : Nat
  deriving DecidableEq, Repr

/-- The replies of the handlers. -/
inductive FuseAnswer
  | attr (st : Stat)
  | entry (e : EntryParam)
  | create (e : EntryParam)
  | buf (bytes : List Byte)
  | write (count : BitVec 64)
  | opened
  | statfs (buf : StatVfs)
  | err (errno : ErrorNumber)
  deriving DecidableEq, Repr

def Errno.number : Errno → ErrorNumber
  | .ENOENT => .ENOENT
  | .ENOSYS => .ENOSYS

def FuseReply.answer : FuseReply → FuseAnswer
  | .attr st => .attr st
  | .err errno => .err errno.number

namespace Fuse

def WriteReply.answer : WriteReply → FuseAnswer
  | .write count => .write count
  | .err errno => .err errno.number

def ReaddirReply.answer : ReaddirReply → FuseAnswer
  | .buf bytes => .buf bytes
  | .ENOTDIR => .err .ENOTDIR

/-- In yfs, timeouts and generations are always 0. -/
def entryParam (ino : ExtentId) (attr : Stat) : EntryParam where
  ino := ino
  generation := 0
  attr := attr
  attrTimeout := 0
  entryTimeout := 0

def fuseserverRead (ino : ExtentId) (size off : BitVec 64) : Client FuseAnswer := do
  let (r, buf) ← YfsClient.read ino size off
  if r = .OK then return .buf buf
  return .err .ENOENT

/-- What `fuseserver_createhelper` calls for a type. -/
def createOrMkdir (type : BitVec 32) (parent : ExtentId) (name : CString)
    (garbage : Garbage) : Client (Status × ExtentId) :=
  if type = tFile then YfsClient.create parent name garbage.exist garbage.ino
  else YfsClient.mkdir parent name garbage.exist garbage.ino

/-- The entry, or the status that is not `OK`. -/
def fuseserverCreatehelper (parent : ExtentId) (name : CString) (type : BitVec 32)
    (garbage : Garbage) : Client (Except Status EntryParam) := do
  let (ret, inum) ← createOrMkdir type parent name garbage
  if ret ≠ .OK then return .error ret
  let (ret, attr) ← getattr inum
  if ret ≠ .OK then return .error ret
  return .ok (entryParam inum attr)

/-- The body that `create`, `mknod` and `mkdir` share. -/
def replyCreated (reply : EntryParam → FuseAnswer) (type : BitVec 32) (parent : ExtentId)
    (name : CString) (garbage : Garbage) : Client FuseAnswer := do
  match ← fuseserverCreatehelper parent name type garbage with
  | .ok e => return reply e
  | .error ret => return .err (if ret = .EXIST then .EEXIST else .ENOENT)

def fuseserverCreate : ExtentId → CString → Garbage → Client FuseAnswer :=
  replyCreated .create tFile

def fuseserverMknod : ExtentId → CString → Garbage → Client FuseAnswer :=
  replyCreated .entry tFile

def fuseserverMkdir : ExtentId → CString → Garbage → Client FuseAnswer :=
  replyCreated .entry tDir

/-- Here `found` is set, and the statuses are not looked at. -/
def fuseserverLookup (parent : ExtentId) (name : CString) (garbage : Garbage) :
    Client FuseAnswer := do
  let (_, found, ino) ← YfsClient.lookup parent name false garbage.ino
  if found then
    let (_, attr) ← getattr ino
    return .entry (entryParam ino attr)
  else return .err .ENOENT

def fuseserverOpen (_ino : ExtentId) : Client FuseAnswer :=
  return .opened

def fuseserverUnlink (parent : ExtentId) (name : CString) (garbage : Garbage) :
    Client FuseAnswer := do
  let r ← YfsClient.unlink parent name garbage.exist garbage.ino
  if r = .OK then return .err .zero
  if r = .NOENT then return .err .ENOENT
  return .err .ENOTEMPTY

/-- `getattr` is asked before the status is looked at. -/
def fuseserverSymlink (host : Host) (link : CString) (parent : ExtentId)
    (name : CString) : Client FuseAnswer := do
  let (ret, inum) ← YfsClient.symlink host parent link name
  let (_, attr) ← getattr inum
  if ret = .OK then return .entry (entryParam inum attr)
  return .err .ENOENT

def fuseserverReadlink (host : Host) (ino : ExtentId) :
    Client FuseAnswer := do
  let (r, buf) ← YfsClient.readlink host ino
  if r = .OK then return .buf buf
  return .err .ENOENT

def fuseserverStatfs : Client FuseAnswer :=
  return .statfs ⟨255, 512⟩

end Fuse

/-- The requests that `fuseserver_oper` has a handler for. -/
inductive FuseRequest
  | getattr (ino : ExtentId)
  | statfs
  | readdir (ino : ExtentId) (size off : BitVec 64)
  | lookup (parent : ExtentId) (name : CString)
  | create (parent : ExtentId) (name : CString)
  | mknod (parent : ExtentId) (name : CString)
  | opened (ino : ExtentId)
  | read (ino : ExtentId) (size off : BitVec 64)
  | write (ino : ExtentId) (buf : List Byte) (off : BitVec 64)
  | setattr (ino : ExtentId) (stSize : BitVec 64) (toSet : BitVec 32)
  | unlink (parent : ExtentId) (name : CString)
  | mkdir (parent : ExtentId) (name : CString)
  | symlink (link : CString) (parent : ExtentId) (name : CString)
  | readlink (ino : ExtentId)

/-- What the FUSE library and the host bring to the handlers. -/
structure FuseEnv where
  flags : SetAttrFlags
  fuse : LibFuse
  host : Host

/-- The table of handlers, with the memory that a handler may read before it is
set. -/
def fuseserverOper (fenv : FuseEnv) : FuseRequest × Garbage → Client FuseAnswer
  | (.getattr ino, _) => do return (← Fuse.fuseserverGetattr ino).answer
  | (.statfs, _) => Fuse.fuseserverStatfs
  | (.readdir ino size off, _) => do
      return (← Fuse.fuseserverReaddir fenv.fuse ino size off).answer
  | (.lookup parent name, garbage) => Fuse.fuseserverLookup parent name garbage
  | (.create parent name, garbage) => Fuse.fuseserverCreate parent name garbage
  | (.mknod parent name, garbage) => Fuse.fuseserverMknod parent name garbage
  | (.opened ino, _) => Fuse.fuseserverOpen ino
  | (.read ino size off, _) => Fuse.fuseserverRead ino size off
  | (.write ino buf off, _) => do return (← Fuse.fuseserverWrite fenv.host ino buf off).answer
  | (.setattr ino stSize toSet, _) => do
      return (← Fuse.fuseserverSetattr fenv.host fenv.flags ino stSize toSet).answer
  | (.unlink parent name, garbage) => Fuse.fuseserverUnlink parent name garbage
  | (.mkdir parent name, garbage) => Fuse.fuseserverMkdir parent name garbage
  | (.symlink link parent name, _) =>
      Fuse.fuseserverSymlink fenv.host link parent name
  | (.readlink ino, _) => Fuse.fuseserverReadlink fenv.host ino

end Yfs
