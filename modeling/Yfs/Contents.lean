import Yfs.StoreRuns
import Yfs.YfsClient

/-!
# The contents of the file system

`Contents` is what the extent store holds without its times: how many inodes
were created, and the type and bytes of each live one.  `Contents.step` says
what one call of `yfs_client` makes of them, with the directory text read by the
parser of `readdir`.  It stops where the server would follow a missing inode, or
where a string operation throws.
-/

namespace Yfs

open ClientServer Delimited

structure Contents where
  /-- The number of inodes ever created. -/
  created : Nat
  ledger : Ledger

namespace Contents

/-- An empty root directory. -/
def init : Contents := ⟨1, Ledger.root⟩

/-- The type that `getattr` reports, zero for a missing inode. -/
def typeOf (contents : Contents) (id : ExtentId) : BitVec 32 :=
  ((contents.ledger (inumOf id)).map Prod.fst).getD 0

/-- The size that `getattr` reports, zero for a missing inode. -/
def sizeOf (contents : Contents) (id : ExtentId) : BitVec 64 :=
  BitVec.ofNat 64 (((contents.ledger (inumOf id)).map fun entry => entry.2.length).getD 0)

def create (contents : Contents) (type : BitVec 32) :
    Except Fault (ExtentId × Contents) :=
  let id := contents.created + 1
  if id < inodeNum then
    .ok (BitVec.ofNat 64 id,
      ⟨id, Function.update contents.ledger id (some (type, []))⟩)
  else .error .beyondLimits

def get (contents : Contents) (id : ExtentId) : Except Fault (List Byte) :=
  match contents.ledger (inumOf id) with
  | some (_, data) => .ok data
  | none => .error .nullInode

def put (contents : Contents) (id : ExtentId) (data : List Byte) :
    Except Fault Contents :=
  match contents.ledger (inumOf id) with
  | some (type, _) => .ok
      { contents with
        ledger := Function.update contents.ledger (inumOf id) (some (type, data)) }
  | none => .error .nullInode

def remove (contents : Contents) (id : ExtentId) : Except Fault Contents :=
  match contents.ledger (inumOf id) with
  | some _ => .ok
      { contents with ledger := Function.update contents.ledger (inumOf id) none }
  | none => .error .nullInode

/-- The entries that `readdir` returns, none unless `dir` is a directory. -/
def entries (contents : Contents) (dir : ExtentId) : List Dirent :=
  if contents.typeOf dir = tDir then
    listing (((contents.ledger (inumOf dir)).map Prod.snd).getD [])
  else []

/-- The result of `lookup`, with the memory it does not set. -/
def lookup (contents : Contents) (parent : ExtentId) (name : CString)
    (garbage : Garbage) : Status × Bool × ExtentId :=
  if contents.typeOf parent = tDir then
    match (contents.entries parent).find? (·.hasName name.text) with
    | some entry => (.OK, true, entry.inum)
    | none => (.OK, false, garbage.ino)
  else (.IOERR, garbage.exist, garbage.ino)

/-- Append an entry to the text of a directory. -/
def append (contents : Contents) (parent : ExtentId) (name : CString)
    (ino : ExtentId) : Except Fault Contents := do
  let text ← contents.get parent
  contents.put parent (text ++ entryText name.text ino)

def createEntry (contents : Contents) (type : BitVec 32) (parent : ExtentId)
    (name : CString) (garbage : Garbage) : Except Fault (Output × Contents) :=
  let (_, exist, ino) := contents.lookup parent name garbage
  if exist then .ok (.entry .EXIST ino, contents)
  else do
    let (ino, contents) ← contents.create type
    let contents ← contents.append parent name ino
    return (.entry .OK ino, contents)

def symlink (contents : Contents) (type : BitVec 32) (parent : ExtentId)
    (link name : CString) : Except Fault (Output × Contents) := do
  let (ino, contents) ← contents.create type
  let contents ← contents.put ino link.text
  let contents ← contents.append parent name ino
  return (.entry .OK ino, contents)

def unlink (contents : Contents) (parent : ExtentId) (name : CString)
    (garbage : Garbage) : Except Fault (Output × Contents) :=
  let (_, exist, ino) := contents.lookup parent name garbage
  if exist then do
    let contents ← contents.remove ino
    let entries := (contents.entries parent).eraseP (·.hasName name.text)
    let contents ← contents.put parent (entriesText entries)
    return (.status .OK, contents)
  else .ok (.status .NOENT, contents)

def write (maxString : Nat) (contents : Contents) (ino : ExtentId) (off : BitVec 64)
    (data : List Byte) : Except Fault (Output × Contents) := do
  let old ← contents.get ino
  let (buf, bytesWritten) ← YfsClient.overwrite maxString old off data
  let contents ← contents.put ino buf
  return (.written .OK (some bytesWritten), contents)

def setattr (maxString : Nat) (contents : Contents) (ino : ExtentId) (size : BitVec 64) :
    Except Fault (Output × Contents) :=
  let oldSize := contents.sizeOf ino
  if oldSize = size then .ok (.status .OK, contents)
  else do
    let old ← contents.get ino
    let buf ← YfsClient.resize maxString old oldSize size
    let contents ← contents.put ino buf
    return (.status .OK, contents)

/-- One call of `yfs_client`, up to the times it reports. -/
def step (host : Host) (contents : Contents) :
    Call → Except Fault (Output × Contents)
  | (.create parent name, garbage) => contents.createEntry tFile parent name garbage
  | (.mkdir parent name, garbage) => contents.createEntry tDir parent name garbage
  | (.symlink parent link name, _) =>
      contents.symlink host.code parent link name
  | (.unlink parent name, garbage) => contents.unlink parent name garbage
  | (.lookup parent name, garbage) =>
      let (r, found, ino) := contents.lookup parent name garbage
      .ok (.found r found ino, contents)
  | (.readdir dir, _) =>
      .ok (.listing (if contents.typeOf dir = tDir then .OK else .IOERR)
        (contents.entries dir), contents)
  | (.read ino size off, _) =>
      if contents.typeOf ino = tFile then do
        let buf ← contents.get ino
        let data ← substr buf off size
        return (.data .OK data, contents)
      else .ok (.data .IOERR [], contents)
  | (.write ino off data, _) => contents.write host.maxString ino off data
  | (.setattr ino size, _) => contents.setattr host.maxString ino size
  | (.readlink sym, _) =>
      if contents.typeOf sym = host.code then do
        let data ← contents.get sym
        return (.data .OK data, contents)
      else .ok (.data .IOERR [], contents)
  | (.getfile inum, _) =>
      .ok (.file .OK (some ⟨contents.sizeOf inum, 0, 0, 0⟩), contents)
  | (.getdir _, _) => .ok (.dir .OK (some ⟨0, 0, 0⟩), contents)

end Contents

/-- An output without its times. -/
def Output.timeless : Output → Output
  | .file r info => .file r (info.map fun info => ⟨info.size, 0, 0, 0⟩)
  | .dir r info => .dir r (info.map fun _ => ⟨0, 0, 0⟩)
  | output => output

end Yfs
