import Mathlib
import Yfs.InodeManager
import Yfs.Library.Wire

/-!
# Marshalling

`rpc/marshall.h` and the operators of `extent_protocol.h`.  A marshall object is a
buffer whose first bytes are kept for the header of the message; `<<` appends to it and
`>>` reads from the front.

The operators for numbers and strings are compiled into the library, so they are
parameters here: what each writes, and how it reads it back.
-/

namespace Yfs

open Wire
open Std (ExtTreeMap TransCmp)

/-- The operators of the library for the basic types, and `pack` and `unpack`, which
work as the operators for `int`. -/
structure Operators where
  pack : Codec Byte (BitVec 32)
  int : Codec Byte (BitVec 32)
  unsignedInt : Codec Byte (BitVec 32)
  unsignedLongLong : Codec Byte (BitVec 64)
  string : Codec Byte (List Byte)

/-- Positions in a buffer are of type `int`, which bounds the strings. -/
def maxString : Nat := 2 ^ 30

/-- What is written is read back, and an `int` takes 4 bytes. -/
structure Operators.Lawful (operators : Operators) : Prop where
  pack : ∀ value, operators.pack.Carries value
  int : ∀ value, operators.int.Carries value
  unsignedInt : ∀ value, operators.unsignedInt.Carries value
  unsignedLongLong : ∀ value, operators.unsignedLongLong.Carries value
  string : ∀ value, value.length ≤ maxString → operators.string.Carries value
  length_pack : ∀ value, (operators.pack.write value).length = 4

section Containers

variable (operators : Operators) {A B C : Type}

/-- `<<` of a vector: the size and the elements. -/
def putVector (item : Codec Byte C) (v : List C) : List Byte :=
  operators.unsignedInt.write (BitVec.ofNat 32 v.length) ++ v.flatMap item.write

/-- The body of the loop that reads a vector. -/
def getItem (item : Codec Byte C) (v : List C) : Reader Byte (List C) :=
  item.read.map fun z => v ++ [z]

/-- `>>` of a vector: as many elements as the size says, each pushed back. -/
def getVector (item : Codec Byte C) (v : List C) : Reader Byte (List C) :=
  operators.unsignedInt.read.andThen fun n => Reader.times (getItem item) n.toNat v

variable {cmp : A → A → Ordering} [TransCmp cmp]

/-- The body of the loop that writes a map. -/
def putEntry (key : Codec Byte A) (value : Codec Byte B) (entry : A × B) : List Byte :=
  key.write entry.1 ++ value.write entry.2

/-- `<<` of a map: the size and the entries in the order of their keys. -/
def putMap (key : Codec Byte A) (value : Codec Byte B) (d : ExtTreeMap A B cmp) : List Byte :=
  operators.unsignedInt.write (BitVec.ofNat 32 d.size) ++ d.toList.flatMap (putEntry key value)

/-- The body of the loop that reads a map. -/
def getEntry (key : Codec Byte A) (value : Codec Byte B) (d : ExtTreeMap A B cmp) :
    Reader Byte (ExtTreeMap A B cmp) :=
  key.read.andThen fun a => value.read.map fun b => d.insert a b

/-- `>>` of a map, which clears it after it has read the size. -/
def getMap (key : Codec Byte A) (value : Codec Byte B) (_d : ExtTreeMap A B cmp) :
    Reader Byte (ExtTreeMap A B cmp) :=
  operators.unsignedInt.read.andThen fun n => Reader.times (getEntry key value) n.toNat ∅

theorem getVector_sticky (item : Codec Byte C) (v : List C) :
    (getVector operators item v).Sticky :=
  operators.unsignedInt.sticky.andThen fun n =>
    Reader.Sticky.times (fun _ => item.sticky.map _) n.toNat v

/-- The operators for a vector, which is empty before it is read. -/
def vector (item : Codec Byte C) : Codec Byte (List C) where
  write := putVector operators item
  read := getVector operators item []
  sticky := getVector_sticky operators item []

end Containers

/-- The operators for `extent_protocol::attr`: its fields one after another. -/
def attr (operators : Operators) : Codec Byte Attr :=
  let field := operators.unsignedInt
  (field.pair (field.pair (field.pair (field.pair field)))).through
    (fun (type, atime, mtime, ctime, size) => ⟨type, atime, mtime, ctime, size⟩)
    (fun a => (a.type, a.atime, a.mtime, a.ctime, a.size))

section Messages

/-- `sizeof(rpc_sz_t)`, the bytes that the channel fills with the size of the message. -/
abbrev rpcSzSize : Nat := 4

/-- `DEFAULT_RPC_SZ`. -/
abbrev defaultRpcSz : Nat := 1024

structure ReqHeader where
  xid : BitVec 32
  proc : BitVec 32
  cltNonce : BitVec 32
  srvNonce : BitVec 32
  xidRep : BitVec 32

structure ReplyHeader where
  xid : BitVec 32
  ret : BitVec 32

/-- `sizeof(req_header)`. -/
abbrev reqHeaderSize : Nat := 20

/-- `sizeof(reply_header)`. -/
abbrev replyHeaderSize : Nat := 8

/-- `RPC_HEADER_SZ`, without checksums. -/
abbrev rpcHeaderSz : Nat := max reqHeaderSize replyHeaderSize + rpcSzSize

/-- The calls of `pack` and `unpack` for the header of a request. -/
def reqHeader (operators : Operators) : Codec Byte ReqHeader :=
  let pack := operators.pack
  (pack.pair (pack.pair (pack.pair (pack.pair pack)))).through
    (fun (xid, proc, cltNonce, srvNonce, xidRep) => ⟨xid, proc, cltNonce, srvNonce, xidRep⟩)
    (fun h => (h.xid, h.proc, h.cltNonce, h.srvNonce, h.xidRep))

/-- And for the header of a reply. -/
def replyHeader (operators : Operators) : Codec Byte ReplyHeader :=
  (operators.pack.pair operators.pack).through (fun (xid, ret) => ⟨xid, ret⟩)
    (fun h => (h.xid, h.ret))

/-- Bytes are stored at a position, and the buffer grows when it is too short. -/
def store (buf : List Byte) (ind : Nat) (bytes : List Byte) : List Byte :=
  buf.take ind ++ bytes ++ buf.drop (ind + bytes.length)

theorem length_le_store (buf : List Byte) (ind : Nat) (bytes : List Byte) :
    buf.length ≤ (store buf ind bytes).length := by
  simp only [store, List.length_append, List.length_take, List.length_drop]
  omega

/-- `class marshall`.  The capacity of the buffer is its length, and positions do not
overflow as an `int` does. -/
structure Marshall where
  buf : List Byte
  ind : Nat
  header : rpcHeaderSz ≤ ind
  inside : ind ≤ buf.length

namespace Marshall

/-- The constructor, which leaves room for the header. -/
def new (malloc : Fin defaultRpcSz → Byte) : Marshall where
  buf := List.ofFn malloc
  ind := rpcHeaderSz
  header := Nat.le_refl _
  inside := by
    rw [List.length_ofFn]
    decide

/-- `<<` appends what the codec writes. -/
def put {A : Type} (m : Marshall) (codec : Codec Byte A) (a : A) : Marshall where
  buf := store m.buf m.ind (codec.write a)
  ind := m.ind + (codec.write a).length
  header := Nat.le_add_right_of_le m.header
  inside := by
    have inside := m.inside
    simp only [store, List.length_append, List.length_take, List.length_drop]
    omega

/-- `get_content`. -/
def getContent (m : Marshall) : List Byte :=
  (m.buf.drop rpcHeaderSz).take (m.ind - rpcHeaderSz)

/-- `pack_req_header` and `pack_reply_header`: the head moves to the header and back. -/
def packHeader {H : Type} (m : Marshall) (codec : Codec Byte H) (h : H) : Marshall where
  buf := store m.buf rpcSzSize (codec.write h)
  ind := m.ind
  header := m.header
  inside := m.inside.trans (length_le_store m.buf rpcSzSize (codec.write h))

def packReqHeader (m : Marshall) (operators : Operators) (h : ReqHeader) : Marshall :=
  m.packHeader (reqHeader operators) h

def packReplyHeader (m : Marshall) (operators : Operators) (h : ReplyHeader) : Marshall :=
  m.packHeader (replyHeader operators) h

/-- `take_buf`: the message. -/
def takeBuf (m : Marshall) : List Byte :=
  m.buf.take m.ind

end Marshall

/-- `class unmarshall`.  The size of the buffer is its length, too. -/
structure Unmarshall where
  buf : List Byte
  ind : Nat
  ok : Bool

namespace Unmarshall

/-- The constructor for a message. -/
def ofBuf (b : List Byte) : Unmarshall :=
  ⟨b, 0, true⟩

/-- What the operators see of the object. -/
def input (u : Unmarshall) : Input Byte :=
  ⟨u.buf.drop u.ind, u.ok⟩

/-- `>>`. -/
def get {A : Type} (u : Unmarshall) (codec : Codec Byte A) : A × Unmarshall :=
  let (a, after) := codec.read u.input
  (a, ⟨u.buf, u.buf.length - after.rest.length, after.ok⟩)

def okdone (u : Unmarshall) : Bool :=
  u.ok && u.ind = u.buf.length

/-- `unpack_req_header` and `unpack_reply_header`. -/
def unpackHeader {H : Type} (u : Unmarshall) (codec : Codec Byte H) : H × Unmarshall :=
  let (h, after) := { u with ind := rpcSzSize }.get codec
  (h, { after with ind := rpcHeaderSz })

def unpackReqHeader (u : Unmarshall) (operators : Operators) : ReqHeader × Unmarshall :=
  u.unpackHeader (reqHeader operators)

def unpackReplyHeader (u : Unmarshall) (operators : Operators) : ReplyHeader × Unmarshall :=
  u.unpackHeader (replyHeader operators)

end Unmarshall

end Messages

end Yfs
