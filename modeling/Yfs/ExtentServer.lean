import Yfs.InodeManager
import Yfs.Library.ClientServer

/-!
# The extent server

`extent_server` serves whole-file requests from the inode layer and always
reports success; `extent_client` hands each call through to it.  An extent id
is a 64-bit number of which the server uses the low 31 bits.
-/

namespace Yfs

open ClientServer

/-- `extent_protocol::xxstatus` and `yfs_client::xxstatus`, which agree on the
codes they share. -/
inductive Status
  | OK
  | RPCERR
  | NOENT
  | IOERR
  | EXIST
  deriving DecidableEq, Repr

abbrev ExtentId := BitVec 64

inductive ExtentRequest
  | create (type : BitVec 32)
  | put (id : ExtentId) (buf : List Byte)
  | get (id : ExtentId)
  | getattr (id : ExtentId)
  | remove (id : ExtentId)
  deriving DecidableEq, Repr

abbrev ExtentReply : ExtentRequest → Type
  | .create _ => Status × ExtentId
  | .put _ _ => Status
  | .get _ => Status × List Byte
  | .getattr _ => Status × Attr
  | .remove _ => Status

/-- `id &= 0x7fffffff`. -/
def inumOf (id : ExtentId) : Nat :=
  (id &&& 0x7fffffff#64).toNat

theorem inumOf_of_lt {id : ExtentId} (small : id.toNat < 2 ^ 31) :
    inumOf id = id.toNat := by
  have mask : (0x7fffffff#64).toNat = 2 ^ 31 - 1 := rfl
  rw [inumOf, BitVec.toNat_and, mask, Nat.and_two_pow_sub_one_eq_mod,
    Nat.mod_eq_of_lt small]

theorem inumOf_ofNat {id : Nat} (inside : id < inodeNum) :
    inumOf (BitVec.ofNat 64 id) = id := by
  simp only [inodeNum] at inside
  have same : (BitVec.ofNat 64 id).toNat = id := by
    rw [BitVec.toNat_ofNat, Nat.mod_eq_of_lt (by omega)]
  rw [inumOf_of_lt (by omega), same]

/-- The characters at `buf.c_str()`: the bytes of the string, the terminating
NUL, then memory outside the string. -/
def cStr (buf : List Byte) (beyond : Nat → Byte) : Nat → Byte :=
  fun index => (buf ++ [0])[index]?.getD (beyond index)

namespace ExtentServer

def create (env : Env) (im : InodeManager) (type : BitVec 32) :
    Except Fault ((Status × ExtentId) × InodeManager) := do
  let (id, im) ← im.allocInode env type
  return ((.OK, BitVec.ofNat 64 id), im)

def put (env : Env) (im : InodeManager) (id : ExtentId) (buf : List Byte) :
    Except Fault (Status × InodeManager) := do
  let (beyond, im) := im.malloc env
  -- `int size = buf.size()`
  let size := (BitVec.ofNat 32 buf.length).toInt
  let im ← im.writeFile env (inumOf id) (cStr buf beyond) size
  return (.OK, im)

def get (env : Env) (im : InodeManager) (id : ExtentId) :
    Except Fault ((Status × List Byte) × InodeManager) := do
  let ((cbuf, size), im) ← im.readFile env (inumOf id)
  if size = 0 then return ((.OK, []), im)
  -- a negative `size` becomes a `size_t` above `max_size`
  else if size < 0 then .error .lengthError
  else return ((.OK, cbuf.take size.toNat), im)

def getattr (im : InodeManager) (id : ExtentId) :
    Except Fault ((Status × Attr) × InodeManager) := do
  let a ← im.getattr (inumOf id) Attr.zero
  return ((.OK, a), im)

def remove (im : InodeManager) (id : ExtentId) :
    Except Fault (Status × InodeManager) := do
  let im ← im.removeFile (inumOf id)
  return (.OK, im)

/-- The server, one member function for each request. -/
def serve (env : Env) :
    Server ExtentRequest ExtentReply Fault InodeManager
  | .create type, im => create env im type
  | .put id buf, im => put env im id buf
  | .get id, im => get env im id
  | .getattr id, im => getattr im id
  | .remove id, im => remove im id

end ExtentServer

end Yfs
