import Yfs.DirectoryText

/-!
# The file system client

`yfs_client` implements files, directories and symbolic links on the extent
server.  A directory is an extent of text.

Out-parameters are returned with the status.  A local that the source leaves
uninitialised, or an out-parameter that a path does not set, is an argument: its
value is whatever memory held.
-/

namespace Yfs

open ClientServer Delimited

/-- A program of calls to the extent server. -/
abbrev Client := Program ExtentRequest ExtentReply Fault

/-- The characters of a `const char *` argument before its NUL. -/
structure CString where
  text : List Byte
  noNul : 0 ∉ text
  deriving DecidableEq

structure FileInfo where
  size : BitVec 64
  atime : BitVec 64
  mtime : BitVec 64
  ctime : BitVec 64
  deriving DecidableEq, Repr

structure DirInfo where
  atime : BitVec 64
  mtime : BitVec 64
  ctime : BitVec 64
  deriving DecidableEq, Repr

/-- `extent_protocol::T_SYMLINK`, which no header of the repository declares: a
type code of its own that the `short` of an inode can hold. -/
structure SymlinkType where
  code : BitVec 32
  ne_zero : code.setWidth 16 ≠ 0
  narrow : (code.setWidth 16).signExtend 32 = code
  ne_dir : code ≠ tDir
  ne_file : code ≠ tFile

theorem SymlinkType.code_ne_zero (symlinkType : SymlinkType) : symlinkType.code ≠ 0 := by
  intro zero
  apply symlinkType.ne_zero
  rw [zero]
  rfl

/-- Where the client runs.  The longest string that can be allocated, which is never
longer than `std::string::max_size()`, holds the largest file. -/
structure Host extends SymlinkType where
  maxString : Nat
  holdsFiles : maxFile * blockSize ≤ maxString

/-- `buf.substr(pos, count)`. -/
def substr (buf : List Byte) (pos count : BitVec 64) : Except Fault (List Byte) :=
  if pos.toNat ≤ buf.length then .ok ((buf.drop pos.toNat).take count.toNat)
  else .error .outOfRange

/-- `buf += std::string(count, '\0')`, which throws for a string that cannot be
allocated. -/
def appendZeros (maxString : Nat) (buf : List Byte) (count : BitVec 64) :
    Except Fault (List Byte) :=
  if buf.length + count.toNat ≤ maxString then
    .ok (buf ++ List.replicate count.toNat 0)
  else .error .lengthError

theorem substr_error {buf : List Byte} {pos count : BitVec 64} {fault : Fault}
    (stopped : substr buf pos count = .error fault) : fault = .outOfRange := by
  rw [substr] at stopped
  split at stopped
  · cases stopped
  · cases stopped
    rfl

theorem substr_zero (buf : List Byte) (count : BitVec 64) :
    substr buf 0 count = .ok (buf.take count.toNat) :=
  if_pos (Nat.zero_le _)

theorem appendZeros_error {maxString : Nat} {buf : List Byte} {count : BitVec 64}
    {fault : Fault} (stopped : appendZeros maxString buf count = .error fault) :
    fault = .lengthError := by
  rw [appendZeros] at stopped
  split at stopped
  · cases stopped
  · cases stopped
    rfl

theorem appendZeros_mono {few many : Nat} (le : few ≤ many) {buf longer : List Byte}
    {count : BitVec 64} (appended : appendZeros few buf count = .ok longer) :
    appendZeros many buf count = .ok longer := by
  rw [appendZeros] at appended ⊢
  split at appended
  · rename_i fits
    rw [if_pos (fits.trans le)]
    exact appended
  · cases appended

/-! `extent_client` hands each call through. -/

namespace ExtentClient

def create (type : BitVec 32) : Client (Status × ExtentId) :=
  Program.send (ExtentRequest.create type)

def put (id : ExtentId) (buf : List Byte) : Client Status :=
  Program.send (ExtentRequest.put id buf)

def get (id : ExtentId) : Client (Status × List Byte) :=
  Program.send (ExtentRequest.get id)

def getattr (id : ExtentId) : Client (Status × Attr) :=
  Program.send (ExtentRequest.getattr id)

def remove (id : ExtentId) : Client Status :=
  Program.send (ExtentRequest.remove id)

end ExtentClient

namespace YfsClient

def isfile (inum : ExtentId) : Client Bool := do
  let (r, a) ← ExtentClient.getattr inum
  if r ≠ .OK then return false
  return a.type = tFile

def isdir (inum : ExtentId) : Client Bool := do
  let (r, a) ← ExtentClient.getattr inum
  if r ≠ .OK then return false
  return a.type = tDir

def issymlink (host : Host) (inum : ExtentId) : Client Bool := do
  let (r, a) ← ExtentClient.getattr inum
  if r ≠ .OK then return false
  return a.type = host.code

def getfile (inum : ExtentId) : Client (Status × Option FileInfo) := do
  let (r, a) ← ExtentClient.getattr inum
  if r ≠ .OK then return (.IOERR, none)
  return (.OK, some
    { size := a.size.setWidth 64
      atime := a.atime.setWidth 64
      mtime := a.mtime.setWidth 64
      ctime := a.ctime.setWidth 64 })

def getdir (inum : ExtentId) : Client (Status × Option DirInfo) := do
  let (r, a) ← ExtentClient.getattr inum
  if r ≠ .OK then return (.IOERR, none)
  return (.OK, some
    { atime := a.atime.setWidth 64
      mtime := a.mtime.setWidth 64
      ctime := a.ctime.setWidth 64 })

/-- The content cut or filled with zeros. -/
def resize (maxString : Nat) (buf : List Byte) (oldSize size : BitVec 64) :
    Except Fault (List Byte) :=
  if oldSize.ult size then appendZeros maxString buf (size - oldSize)
  else substr buf 0 size

/-- Cutting never fails. -/
theorem resize_error {maxString : Nat} {buf : List Byte} {oldSize size : BitVec 64}
    {fault : Fault} (stopped : resize maxString buf oldSize size = .error fault) :
    fault = .lengthError := by
  rw [resize] at stopped
  split at stopped
  · exact appendZeros_error stopped
  · rw [substr_zero] at stopped
    cases stopped

/-- Only the size can be set. -/
def setattr (host : Host) (ino : ExtentId) (size : BitVec 64) : Client Status := do
  let (r, a) ← ExtentClient.getattr ino
  if r ≠ .OK then return r
  let oldSize : BitVec 64 := a.size.setWidth 64
  if oldSize = size then return r
  let (r, buf) ← ExtentClient.get ino
  if r ≠ .OK then return r
  let buf ← Program.ofExcept (resize host.maxString buf oldSize size)
  ExtentClient.put ino buf

def readdir (dir : ExtentId) (list : List Dirent) :
    Client (Status × List Dirent) := do
  if !(← isdir dir) then return (.IOERR, list)
  let (r, data) ← ExtentClient.get dir
  if r ≠ .OK then return (r, list)
  let list ← Program.ofExcept (parseEntries (data.length + 1) ⟨data, true⟩ list)
  return (r, list)

def lookup (parent : ExtentId) (name : CString) (found : Bool) (inoOut : ExtentId) :
    Client (Status × Bool × ExtentId) := do
  if !(← isdir parent) then return (.IOERR, found, inoOut)
  let (_, list) ← readdir parent []
  match list.find? (·.hasName name.text) with
  | some entry => return (.OK, true, entry.inum)
  | none => return (.OK, false, inoOut)

/-- The body that `create` and `mkdir` share; `exist` is uninitialised. -/
def createEntry (type : BitVec 32) (parent : ExtentId) (name : CString)
    (exist : Bool) (inoOut : ExtentId) : Client (Status × ExtentId) := do
  let (_, exist, inoOut) ← lookup parent name exist inoOut
  if exist then return (.EXIST, inoOut)
  let (r, inoOut) ← ExtentClient.create type
  if r ≠ .OK then return (r, inoOut)
  let (r, buf) ← ExtentClient.get parent
  if r ≠ .OK then return (r, inoOut)
  let r ← ExtentClient.put parent (buf ++ entryText name.text inoOut)
  return (r, inoOut)

def create : ExtentId → CString → Bool → ExtentId → Client (Status × ExtentId) :=
  createEntry tFile

def mkdir : ExtentId → CString → Bool → ExtentId → Client (Status × ExtentId) :=
  createEntry tDir

def read (ino : ExtentId) (size off : BitVec 64) :
    Client (Status × List Byte) := do
  if !(← isfile ino) then return (.IOERR, [])
  let (r, buf) ← ExtentClient.get ino
  if r ≠ .OK then return (r, [])
  let data ← Program.ofExcept (substr buf off size)
  return (r, data)

/-- What the written bytes leave of the end of the content. -/
def suffix (buf : List Byte) (off : BitVec 64) (buf1 : List Byte) :
    Except Fault (List Byte) :=
  let length := BitVec.ofNat 64 buf.length
  let length1 := BitVec.ofNat 64 buf1.length
  if (off + length1).ult length then substr buf (off + length1) (-1) else .ok []

/-- The content cut or filled with zeros up to `off`, and the count that is
reported. -/
def fill (maxString : Nat) (buf : List Byte) (off : BitVec 64) (buf1 : List Byte) :
    Except Fault (List Byte × BitVec 64) :=
  let length := BitVec.ofNat 64 buf.length
  let length1 := BitVec.ofNat 64 buf1.length
  -- `off > (int) buf.length()` compares as `long`
  if (BitVec.ofNat 32 buf.length).toInt < off.toInt then do
    let buf ← appendZeros maxString buf (off - length)
    return (buf, off - length + length1)
  else do
    let buf ← substr buf 0 off
    return (buf, length1)

/-- The new content, and the count that is reported. -/
def overwrite (maxString : Nat) (buf : List Byte) (off : BitVec 64) (buf1 : List Byte) :
    Except Fault (List Byte × BitVec 64) := do
  let suffix ← suffix buf off buf1
  let (buf, bytesWritten) ← fill maxString buf off buf1
  return (buf ++ buf1 ++ suffix, bytesWritten)

/-- The suffix is taken from inside the string. -/
theorem suffix_ok (buf : List Byte) (off : BitVec 64) (buf1 : List Byte) :
    ∃ rest, suffix buf off buf1 = .ok rest := by
  rw [suffix]
  split
  · rename_i inside
    rw [BitVec.ult_iff_lt, BitVec.lt_def, BitVec.toNat_ofNat] at inside
    have bound := Nat.mod_le buf.length (2 ^ 64)
    rw [substr, if_pos (by omega)]
    exact ⟨_, rfl⟩
  · exact ⟨[], rfl⟩

theorem fill_error {maxString : Nat} {buf buf1 : List Byte} {off : BitVec 64}
    {fault : Fault} (stopped : fill maxString buf off buf1 = .error fault) :
    fault = .lengthError := by
  simp only [fill, bind, Except.bind] at stopped
  split at stopped
  · split at stopped
    · rename_i failed
      cases stopped
      exact appendZeros_error failed
    · cases stopped
  · rw [substr_zero] at stopped
    cases stopped

theorem overwrite_error {maxString : Nat} {buf buf1 : List Byte} {off : BitVec 64}
    {fault : Fault} (stopped : overwrite maxString buf off buf1 = .error fault) :
    fault = .lengthError := by
  obtain ⟨rest, taken⟩ := suffix_ok buf off buf1
  cases filled : fill maxString buf off buf1 with
  | error other =>
      simp only [overwrite, taken, filled, bind, Except.bind] at stopped
      cases stopped
      exact fill_error filled
  | ok result =>
      simp only [overwrite, taken, filled, bind, Except.bind] at stopped
      cases stopped

theorem fill_mono {few many : Nat} (le : few ≤ many) {buf buf1 : List Byte}
    {off : BitVec 64} {result : List Byte × BitVec 64}
    (filled : fill few buf off buf1 = .ok result) : fill many buf off buf1 = .ok result := by
  rw [fill] at filled ⊢
  split at filled
  · rename_i gap
    obtain ⟨longer, appended, filled⟩ := bind_ok filled
    rw [if_pos gap, appendZeros_mono le appended]
    exact filled
  · rename_i inside
    rw [if_neg inside]
    exact filled

/-- A string that can be written where little can be allocated can be written where more
can be. -/
theorem overwrite_mono {few many : Nat} (le : few ≤ many) {buf buf1 : List Byte}
    {off : BitVec 64} {result : List Byte × BitVec 64}
    (overwritten : overwrite few buf off buf1 = .ok result) :
    overwrite many buf off buf1 = .ok result := by
  obtain ⟨rest, taken, overwritten⟩ := bind_ok overwritten
  obtain ⟨filled, isFilled, overwritten⟩ := bind_ok overwritten
  rw [overwrite, taken]
  change (fill many buf off buf1 >>= _) = _
  rw [fill_mono le isFilled]
  exact overwritten

/-- Write `data`, which is `size` bytes long. -/
def write (host : Host) (ino : ExtentId) (off : BitVec 64) (data : List Byte) :
    Client (Status × Option (BitVec 64)) := do
  let (r, buf) ← ExtentClient.get ino
  if r ≠ .OK then return (r, none)
  let (buf, bytesWritten) ← Program.ofExcept (overwrite host.maxString buf off data)
  let r ← ExtentClient.put ino buf
  return (r, some bytesWritten)

/-- `exist` and `inoOut` are uninitialised. -/
def unlink (parent : ExtentId) (name : CString) (exist : Bool) (inoOut : ExtentId) :
    Client Status := do
  let (_, exist, inoOut) ← lookup parent name exist inoOut
  if !exist then return .NOENT
  let r ← ExtentClient.remove inoOut
  if r ≠ .OK then return r
  let (_, list) ← readdir parent []
  let list := list.eraseP (·.hasName name.text)
  let _ ← ExtentClient.put parent (entriesText list)
  return r

def symlink (host : Host) (parent : ExtentId) (link name : CString) :
    Client (Status × ExtentId) := do
  let (r, inoOut) ← ExtentClient.create host.code
  if r ≠ .OK then return (r, inoOut)
  let r ← ExtentClient.put inoOut link.text
  if r ≠ .OK then return (r, inoOut)
  let _ ← ExtentClient.get inoOut
  let (r, buf) ← ExtentClient.get parent
  if r ≠ .OK then return (r, inoOut)
  let r ← ExtentClient.put parent (buf ++ entryText name.text inoOut)
  return (r, inoOut)

def readlink (host : Host) (sym : ExtentId) :
    Client (Status × List Byte) := do
  if !(← issymlink host sym) then return (.IOERR, [])
  let (r, data) ← ExtentClient.get sym
  return (r, data)

end YfsClient

/-- The public calls of `yfs_client`. -/
inductive Operation
  | create (parent : ExtentId) (name : CString)
  | mkdir (parent : ExtentId) (name : CString)
  | symlink (parent : ExtentId) (link name : CString)
  | unlink (parent : ExtentId) (name : CString)
  | lookup (parent : ExtentId) (name : CString)
  | readdir (dir : ExtentId)
  | read (ino : ExtentId) (size off : BitVec 64)
  | write (ino : ExtentId) (off : BitVec 64) (data : List Byte)
  | setattr (ino : ExtentId) (size : BitVec 64)
  | readlink (sym : ExtentId)
  | getfile (inum : ExtentId)
  | getdir (inum : ExtentId)

/-- The `inum` argument of a call. -/
def Operation.inum : Operation → ExtentId
  | .create parent _ => parent
  | .mkdir parent _ => parent
  | .symlink parent _ _ => parent
  | .unlink parent _ => parent
  | .lookup parent _ => parent
  | .readdir dir => dir
  | .read ino _ _ => ino
  | .write ino _ _ => ino
  | .setattr ino _ => ino
  | .readlink sym => sym
  | .getfile inum => inum
  | .getdir inum => inum

/-- What memory holds where a call reads or returns what it has not set. -/
structure Garbage where
  exist : Bool
  ino : ExtentId

/-- A call with the memory it may read before it is set. -/
abbrev Call := Operation × Garbage

inductive Output
  | status (r : Status)
  | entry (r : Status) (ino : ExtentId)
  | found (r : Status) (found : Bool) (ino : ExtentId)
  | listing (r : Status) (list : List Dirent)
  | data (r : Status) (buf : List Byte)
  | written (r : Status) (bytesWritten : Option (BitVec 64))
  | file (r : Status) (info : Option FileInfo)
  | dir (r : Status) (info : Option DirInfo)
  deriving DecidableEq, Repr

/-- The status that a call returns. -/
def Output.r : Output → Status
  | .status r => r
  | .entry r _ => r
  | .found r _ _ => r
  | .listing r _ => r
  | .data r _ => r
  | .written r _ => r
  | .file r _ => r
  | .dir r _ => r

/-- The inode numbers that a call returns. -/
def Output.inums : Output → List ExtentId
  | .entry _ ino => [ino]
  | .found _ true ino => [ino]
  | .listing _ list => list.map Dirent.inum
  | _ => []

/-- One call. -/
def perform (host : Host) : Call → Client Output
  | (.create parent name, garbage) => do
      let (r, ino) ← YfsClient.create parent name garbage.exist garbage.ino
      return .entry r ino
  | (.mkdir parent name, garbage) => do
      let (r, ino) ← YfsClient.mkdir parent name garbage.exist garbage.ino
      return .entry r ino
  | (.symlink parent link name, _) => do
      let (r, ino) ← YfsClient.symlink host parent link name
      return .entry r ino
  | (.unlink parent name, garbage) => do
      let r ← YfsClient.unlink parent name garbage.exist garbage.ino
      return .status r
  | (.lookup parent name, garbage) => do
      let (r, found, ino) ← YfsClient.lookup parent name garbage.exist garbage.ino
      return .found r found ino
  | (.readdir dir, _) => do
      let (r, list) ← YfsClient.readdir dir []
      return .listing r list
  | (.read ino size off, _) => do
      let (r, buf) ← YfsClient.read ino size off
      return .data r buf
  | (.write ino off data, _) => do
      let (r, count) ← YfsClient.write host ino off data
      return .written r count
  | (.setattr ino size, _) => do
      let r ← YfsClient.setattr host ino size
      return .status r
  | (.readlink sym, _) => do
      let (r, buf) ← YfsClient.readlink host sym
      return .data r buf
  | (.getfile inum, _) => do
      let (r, info) ← YfsClient.getfile inum
      return .file r info
  | (.getdir inum, _) => do
      let (r, info) ← YfsClient.getdir inum
      return .dir r info

end Yfs
