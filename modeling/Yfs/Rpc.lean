import Yfs.ExtentServer
import Yfs.Marshall

/-!
# Remote procedure calls

The templates of `rpc/rpc.h` that a client and a server are made of, and the extent
server of `extent_smain.cc`, which registers four procedures.

`rpcc::call1` sends the request to the server and waits for the reply.  It is compiled
into the library, so it is a parameter.  A server is a process of its own, which can end
while its client goes on.
-/

namespace Yfs

open Wire

/-- An `int` of the interfaces. -/
abbrev IntResult := BitVec 32

/-- `rpc_const::timeout_failure`. -/
abbrev timeoutFailure : IntResult := -1

/-- `rpc_const::unmarshal_args_failure`. -/
abbrev unmarshalArgsFailure : IntResult := -2

/-- `handler::fn`: the number that is returned, and the object with the result. -/
abbrev Handler (Server : Type) :=
  Unmarshall → Marshall → Server → Except Fault ((IntResult × Marshall) × Server)

/-- The procedures of a server. -/
abbrev Procedures (Server : Type) := BitVec 32 → Option (Handler Server)

/-- The handler that `rpcs::reg` makes of a member function.  The overloads differ in the
number of the arguments, which are read one after another. -/
def reg {Server A R : Type} (args : Codec Byte A) (result : Codec Byte R)
    (meth : A → Server → Except Fault ((IntResult × R) × Server)) : Handler Server :=
  fun u ret server =>
    let (a, u) := u.get args
    if u.okdone = false then .ok ((unmarshalArgsFailure, ret), server)
    else do
      let ((b, r), server) ← meth a server
      return ((b, ret.put result r), server)

/-- `rpcc::call1`, for a client that is bound to the server.  There is no server state once
the process of the server has ended. -/
abbrev Call1 (Server : Type) :=
  Procedures Server → BitVec 32 → Marshall → Option Server →
    (IntResult × Unmarshall) × Option Server

/-- What stops a client: `VERIFY(0)` for a reply that cannot be read. -/
inductive CallFault
  | verify
  deriving DecidableEq

/-- `rpcc::call_m`.  The result is not read if the call fails. -/
def callM {Server R : Type} (call1 : Call1 Server) (procedures : Procedures Server)
    (proc : BitVec 32) (req : Marshall) (result : Codec Byte R) (server : Option Server) :
    Except CallFault ((IntResult × Option R) × Option Server) :=
  let ((intret, u), server) := call1 procedures proc req server
  if intret.toInt < 0 then .ok ((intret, none), server)
  else
    let (r, u) := u.get result
    if u.okdone = false then .error .verify
    else .ok ((intret, some r), server)

section Call

variable {Server A B R : Type} (call1 : Call1 Server) (procedures : Procedures Server)
variable (malloc : Fin defaultRpcSz → Byte) (proc : BitVec 32)

/-- `rpcc::call` with one argument. -/
def call (arg : Codec Byte A) (a : A) (result : Codec Byte R) (server : Option Server) :
    Except CallFault ((IntResult × Option R) × Option Server) :=
  callM call1 procedures proc ((Marshall.new malloc).put arg a) result server

/-- `rpcc::call` with two arguments. -/
def call2 (arg : Codec Byte A) (a : A) (other : Codec Byte B) (b : B) (result : Codec Byte R)
    (server : Option Server) : Except CallFault ((IntResult × Option R) × Option Server) :=
  callM call1 procedures proc (((Marshall.new malloc).put arg a).put other b) result server

end Call

/-- The numbers of `xxstatus`. -/
def Status.code : Status → IntResult
  | .OK => 0
  | .RPCERR => 1
  | .NOENT => 2
  | .IOERR => 3
  | .EXIST => 4

namespace ExtentRpc

/-- `extent_protocol::rpc_numbers`. -/
abbrev procPut : BitVec 32 := 0x6001
abbrev procGet : BitVec 32 := 0x6002
abbrev procGetattr : BitVec 32 := 0x6003
abbrev procRemove : BitVec 32 := 0x6004

section Members

variable (env : Env)

/-- The member functions of the extent server as `reg` takes them.  `put` and `remove` do
not set their `int` result, which stays as it was allocated. -/
def putMember (unset : IntResult) (a : ExtentId × List Byte) (im : InodeManager) :
    Except Fault ((IntResult × IntResult) × InodeManager) := do
  let (status, im) ← ExtentServer.put env im a.1 a.2
  return ((status.code, unset), im)

def getMember (id : ExtentId) (im : InodeManager) :
    Except Fault ((IntResult × List Byte) × InodeManager) := do
  let ((status, buf), im) ← ExtentServer.get env im id
  return ((status.code, buf), im)

def getattrMember (id : ExtentId) (im : InodeManager) :
    Except Fault ((IntResult × Attr) × InodeManager) := do
  let ((status, a), im) ← ExtentServer.getattr im id
  return ((status.code, a), im)

def removeMember (unset : IntResult) (id : ExtentId) (im : InodeManager) :
    Except Fault ((IntResult × IntResult) × InodeManager) := do
  let (status, im) ← ExtentServer.remove im id
  return ((status.code, unset), im)

end Members

/-- The registrations of `main` of `extent_smain.cc`. -/
def procedures (operators : Operators) (env : Env) (unset : IntResult) :
    Procedures InodeManager :=
  let id := operators.unsignedLongLong
  fun proc =>
    if proc = procGet then some (reg id operators.string (getMember env))
    else if proc = procGetattr then some (reg id (attr operators) getattrMember)
    else if proc = procPut then
      some (reg (id.pair operators.string) operators.int (putMember env unset))
    else if proc = procRemove then some (reg id operators.int (removeMember unset))
    else none

/-- The calls of the protocol. -/
inductive Call
  | put (id : ExtentId) (buf : List Byte)
  | get (id : ExtentId)
  | getattr (id : ExtentId)
  | remove (id : ExtentId)

/-- What a call leaves to its caller. -/
inductive Outcome
  | status (ret : IntResult)
  | string (ret : IntResult) (buf : Option (List Byte))
  | attr (ret : IntResult) (a : Option Attr)

/-- A call of a member function. -/
def direct (env : Env) (im : InodeManager) : Call → Except Fault (Outcome × InodeManager)
  | .put id buf => do
      let (status, im) ← ExtentServer.put env im id buf
      return (.status status.code, im)
  | .get id => do
      let ((status, buf), im) ← ExtentServer.get env im id
      return (.string status.code (some buf), im)
  | .getattr id => do
      let ((status, a), im) ← ExtentServer.getattr im id
      return (.attr status.code (some a), im)
  | .remove id => do
      let (status, im) ← ExtentServer.remove im id
      return (.status status.code, im)

section Remote

variable (operators : Operators) (call1 : Call1 InodeManager)
variable (procedures : Procedures InodeManager) (malloc : Fin defaultRpcSz → Byte)

/-- The same call over the network. -/
def remote (im : Option InodeManager) : Call → Except CallFault (Outcome × Option InodeManager)
  | .put id buf => do
      let ((ret, _), im) ← call2 call1 procedures malloc procPut operators.unsignedLongLong id
        operators.string buf operators.int im
      return (.status ret, im)
  | .get id => do
      let ((ret, buf), im) ← call call1 procedures malloc procGet operators.unsignedLongLong id
        operators.string im
      return (.string ret buf, im)
  | .getattr id => do
      let ((ret, a), im) ← call call1 procedures malloc procGetattr
        operators.unsignedLongLong id (Yfs.attr operators) im
      return (.attr ret a, im)
  | .remove id => do
      let ((ret, _), im) ← call call1 procedures malloc procRemove operators.unsignedLongLong id
        operators.int im
      return (.status ret, im)

end Remote

/-- What a call leaves to its caller when no reply comes. -/
def Call.unanswered : Call → Outcome
  | .put _ _ => .status timeoutFailure
  | .get _ => .string timeoutFailure none
  | .getattr _ => .attr timeoutFailure none
  | .remove _ => .status timeoutFailure

end ExtentRpc

end Yfs
