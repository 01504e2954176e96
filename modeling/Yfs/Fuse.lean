import Yfs.YfsClient

/-!
# The FUSE handlers for attributes, writes and listings

`getattr`, `setattr`, `write` and `readdir` of `fuse.cc`.  Of `struct stat` the model has
the fields that they fill; the flags of `to_set` and the records of a listing come from
the FUSE library.
-/

namespace Yfs

open ClientServer

/-- `FUSE_SET_ATTR_SIZE`, `FUSE_SET_ATTR_ATIME` and `FUSE_SET_ATTR_MTIME`. -/
structure SetAttrFlags where
  size : BitVec 32
  atime : BitVec 32
  mtime : BitVec 32

structure Stat where
  stIno : BitVec 64
  stMode : BitVec 32
  stNlink : Nat
  stAtime : BitVec 64
  stMtime : BitVec 64
  stCtime : BitVec 64
  stSize : BitVec 64
  deriving DecidableEq, Repr

/-- `bzero`. -/
def Stat.zero : Stat := ⟨0, 0, 0, 0, 0, 0, 0⟩

inductive Errno
  | ENOENT
  | ENOSYS
  deriving DecidableEq, Repr

/-- `fuse_reply_attr` and `fuse_reply_err`. -/
inductive FuseReply
  | attr (st : Stat)
  | err (errno : Errno)
  deriving DecidableEq, Repr

/-- `S_IFREG | 0666`. -/
def modeFile : BitVec 32 := 0x81b6

/-- `S_IFDIR | 0777`. -/
def modeDir : BitVec 32 := 0x41ff

/-- `S_IFLNK | 0777`. -/
def modeSymlink : BitVec 32 := 0xa1ff

/-- `name.c_str()`, which ends at the first NUL. -/
def cString (name : List Byte) : CString where
  text := name.takeWhile (· ≠ 0)
  noNul member := by simpa using List.mem_takeWhile_imp member

/-- The records of a listing: `fuse_dirent_size`, `fuse_add_dirent` and how the record at
the head of a reply is read. -/
structure LibFuse where
  direntSize : Nat → Nat
  /-- The bytes written for a name, a `st_ino` and the last argument. -/
  addDirent : CString → ExtentId → BitVec 64 → List Byte
  readDirent : List Byte → Option (Dirent × BitVec 64)
  direntSize_eq : ∀ n, direntSize n = (24 + n + 7) / 8 * 8
  length_addDirent : ∀ name ino off,
    (addDirent name ino off).length = direntSize name.text.length
  readDirent_addDirent : ∀ name ino off rest, name.text.length < 2 ^ 32 →
    readDirent (addDirent name ino off ++ rest) = some (⟨name.text, ino⟩, off)
  readDirent_take : ∀ name ino off count, name.text.length < 2 ^ 32 →
    count < direntSize name.text.length →
    readDirent ((addDirent name ino off).take count) = none

namespace Fuse

/-- The `stat` of a file or of what is taken for a symbolic link. -/
def fileStat (inum : ExtentId) (mode : BitVec 32) (info : FileInfo) : Stat where
  stIno := inum
  stMode := mode
  stNlink := 1
  stAtime := info.atime
  stMtime := info.mtime
  stCtime := info.ctime
  stSize := info.size

def dirStat (inum : ExtentId) (info : DirInfo) : Stat where
  stIno := inum
  stMode := modeDir
  stNlink := 2
  stAtime := info.atime
  stMtime := info.mtime
  stCtime := info.ctime
  stSize := 0

/-- Anything that is neither a file nor a directory is taken for a symbolic
link. -/
def getattr (inum : ExtentId) : Client (Status × Stat) := do
  let st : Stat := { Stat.zero with stIno := inum }
  -- `isfile` is also an argument of `printf`
  let _ ← YfsClient.isfile inum
  if ← YfsClient.isfile inum then
    match ← YfsClient.getfile inum with
    | (.OK, some info) => return (.OK, fileStat inum modeFile info)
    | (ret, _) => return (ret, st)
  else if ← YfsClient.isdir inum then
    match ← YfsClient.getdir inum with
    | (.OK, some info) => return (.OK, dirStat inum info)
    | (ret, _) => return (ret, st)
  else
    match ← YfsClient.getfile inum with
    | (.OK, some info) => return (.OK, fileStat inum modeSymlink info)
    | (ret, _) => return (ret, st)

def fuseserverGetattr (ino : ExtentId) : Client FuseReply := do
  let (ret, st) ← getattr ino
  if ret ≠ .OK then return .err .ENOENT
  return .attr st

/-- `stSize` is `attr->st_size`.  The source checks the mask a second time around
the call of `yfs->setattr`. -/
def fuseserverSetattr (host : Host) (flags : SetAttrFlags) (ino : ExtentId)
    (stSize : BitVec 64) (toSet : BitVec 32) : Client FuseReply :=
  if (flags.size ||| flags.atime ||| flags.mtime) &&& toSet ≠ 0 then do
    let _ ← YfsClient.setattr host ino stSize
    let (_, st) ← getattr ino
    return .attr st
  else return .err .ENOSYS

/-- `fuse_reply_write` and `fuse_reply_err`. -/
inductive WriteReply
  | write (count : BitVec 64)
  | err (errno : Errno)
  deriving DecidableEq, Repr

/-- `size` is also the variable that `bytes_written` refers to.  The `printf` of `buf` with
`%s`, which reads on to the first NUL, is left out. -/
def fuseserverWrite (host : Host) (ino : ExtentId) (buf : List Byte) (off : BitVec 64) :
    Client WriteReply := do
  let size := BitVec.ofNat 64 buf.length
  let (r, bytesWritten) ← YfsClient.write host ino off buf
  if r = .OK then return .write (bytesWritten.getD size)
  return .err .ENOENT

/-- A `dirbuf` is its bytes. -/
def dirbufAdd (fuse : LibFuse) (b : List Byte) (name : CString) (ino : ExtentId) :
    List Byte :=
  let size := b.length + fuse.direntSize name.text.length
  b ++ fuse.addDirent name ino (BitVec.ofNat 64 size)

def replyBufLimited (buf : List Byte) (off maxsize : BitVec 64) : List Byte :=
  if off.toNat < buf.length then
    (buf.drop off.toNat).take (min (buf.length - off.toNat) maxsize.toNat)
  else []

/-- `fuse_reply_buf`, and `fuse_reply_err` with `ENOTDIR`. -/
inductive ReaddirReply
  | buf (bytes : List Byte)
  | ENOTDIR
  deriving DecidableEq, Repr

/-- The status of `yfs->readdir` is not looked at. -/
def fuseserverReaddir (fuse : LibFuse) (ino : ExtentId) (size off : BitVec 64) :
    Client ReaddirReply := do
  if !(← YfsClient.isdir ino) then return .ENOTDIR
  let (_, entries) ← YfsClient.readdir ino []
  let b := entries.foldl (fun b entry => dirbufAdd fuse b (cString entry.name) entry.inum) []
  return .buf (replyBufLimited b off size)

end Fuse

end Yfs
