import Yfs.Library.Machine
import Yfs.RoundTrips
import Yfs.Rpc
import Yfs.StoreRuns

/-!
# Calls over the network

A call of a registered procedure does what the member function does, for whole sessions
of an extent server, until the process of the server ends; from then on calls time out.
A request that is not what some arguments are marshalled to calls no member function.
-/

namespace Yfs

open Wire

/-- The faults that end the process of the server: a NULL is dereferenced, an exception is
not caught, or the process exits. -/
def Fault.Ends (fault : Fault) : Prop :=
  fault = .nullInode ∨ fault = .outOfRange ∨ fault = .lengthError ∨ fault = .exited

/-- The longest message that the library hands over, 10 MiB with its header. -/
def maxPdu : Nat := 10 * 2 ^ 20

def Marshall.Sendable (m : Marshall) : Prop :=
  m.ind ≤ maxPdu

theorem Marshall.ind_eq (m : Marshall) : m.ind = rpcHeaderSz + m.getContent.length := by
  rw [getContent_eq, List.length_drop, length_takeBuf, Nat.add_sub_cancel' m.header]

section Answers

variable {Server Value Other : Type} {lost : Value} {here : Except Fault (Value × Server)}
variable {there : Except CallFault (Value × Option Server)}

/-- What a call over the network comes to, by what it does in the process of the server:
the same, or no reply if the process ends there. -/
def Answers (lost : Value) (here : Except Fault (Value × Server))
    (there : Except CallFault (Value × Option Server)) : Prop :=
  match here with
  | .ok (value, after) => there = .ok (value, some after)
  | .error fault => fault.Ends → there = .ok (lost, none)

theorem Answers.bind (answers : Answers lost here there) (change : Value → Other)
    {changed : Except Fault (Other × Server)}
    (same : changed = here.map fun (value, after) => (change value, after)) :
    Answers (change lost) changed
      (there >>= fun (value, after) => pure (change value, after)) := by
  subst same
  cases here with
  | error fault =>
      intro ends
      rw [show there = .ok (lost, none) from answers ends]
      rfl
  | ok answer =>
      rw [show there = .ok (answer.1, some answer.2) from answers]
      rfl

end Answers

section Calls

variable {operators : Operators} {Server A R : Type} {call1 : Call1 Server}
variable {procedures : Procedures Server}

/-- What the library does for calls of registered procedures.  It hands the content of a
request to the handler, with an empty object for the result, and hands a number that is
not negative back with the content of that object, as long as no message is too long.  A
client whose server has ended waits until its time is up. -/
structure Delivers (call1 : Call1 Server) : Prop where
  running : ∀ (procedures : Procedures Server) proc handler request server,
    procedures proc = some handler → request.Sendable → ∃ (u : Unmarshall) (ret : Marshall),
      u.input = ⟨request.getContent, true⟩ ∧ ret.getContent = [] ∧
      match handler u ret server with
      | .error fault => fault.Ends → ∃ reply,
          call1 procedures proc request (some server) = ((timeoutFailure, reply), none)
      | .ok ((b, rep), after) => 0 ≤ b.toInt → rep.Sendable → ∃ reply : Unmarshall,
          reply.input = ⟨rep.getContent, true⟩ ∧
          call1 procedures proc request (some server) = ((b, reply), some after)
  ended : ∀ procedures proc request, ∃ reply,
    call1 procedures proc request none = ((timeoutFailure, reply), none)

variable {args : Codec Byte A} {a : A} {result : Codec Byte R}
variable {meth : A → Server → Except Fault ((IntResult × R) × Server)}

/-- A connection that hands each message over as it is. -/
def handOver (operators : Operators) (malloc : Fin defaultRpcSz → Byte) : Call1 Server :=
  fun procedures proc request process =>
    let timeout := (timeoutFailure, Unmarshall.ofBuf [])
    let sent := (request.packReqHeader operators ⟨1, proc, 0, 0, 0⟩).takeBuf
    match process with
    | none => (timeout, none)
    | some server =>
        if sent.length ≤ maxPdu then
          let (header, u) := (Unmarshall.ofBuf sent).unpackReqHeader operators
          -- a procedure that is not registered and a negative number stop the server
          match procedures header.proc with
          | none => (timeout, none)
          | some handler =>
              match handler u (Marshall.new malloc) server with
              | .error _ => (timeout, none)
              | .ok ((b, rep), after) =>
                  let reply := (rep.packReplyHeader operators ⟨header.xid, b⟩).takeBuf
                  let (header, u) := (Unmarshall.ofBuf reply).unpackReplyHeader operators
                  if b.toInt < 0 then (timeout, none)
                  else if reply.length ≤ maxPdu then ((header.ret, u), some after)
                  else (timeout, some after)
        else (timeout, some server)

/-- With the headers that the messages have, such a connection delivers. -/
theorem handOver_delivers (lawful : operators.Lawful) (malloc : Fin defaultRpcSz → Byte) :
    Delivers (handOver operators malloc : Call1 Server) := by
  have requestFits (h : ReqHeader) :
      rpcSzSize + ((reqHeader operators).write h).length ≤ rpcHeaderSz := by
    rw [length_reqHeader lawful]
    decide
  have replyFits (h : ReplyHeader) :
      rpcSzSize + ((replyHeader operators).write h).length ≤ rpcHeaderSz := by
    rw [length_replyHeader lawful]
    decide
  have arrives (request : Marshall) (h : ReqHeader) :
      ((Unmarshall.ofBuf (request.packReqHeader operators h).takeBuf).unpackReqHeader
        operators).1 = h ∧
      ((Unmarshall.ofBuf (request.packReqHeader operators h).takeBuf).unpackReqHeader
        operators).2.input = ⟨request.getContent, true⟩ :=
    Unmarshall.unpackHeader_arrives (reqHeader_carries lawful h) (requestFits h) ⟨rfl, rfl⟩
  have returns (rep : Marshall) (h : ReplyHeader) :
      ((Unmarshall.ofBuf (rep.packReplyHeader operators h).takeBuf).unpackReplyHeader
        operators).1 = h ∧
      ((Unmarshall.ofBuf (rep.packReplyHeader operators h).takeBuf).unpackReplyHeader
        operators).2.input = ⟨rep.getContent, true⟩ :=
    Unmarshall.unpackHeader_arrives (replyHeader_carries lawful h) (replyFits h) ⟨rfl, rfl⟩
  refine ⟨?_, fun _ _ _ => ⟨_, rfl⟩⟩
  intro procedures proc handler request server registered sendable
  have sent : (request.packReqHeader operators ⟨1, proc, 0, 0, 0⟩).takeBuf.length ≤ maxPdu := by
    rw [Marshall.length_takeBuf]
    exact sendable
  obtain ⟨header, input⟩ := arrives request ⟨1, proc, 0, 0, 0⟩
  refine ⟨_, Marshall.new malloc, input, Marshall.getContent_new malloc, ?_⟩
  simp only [handOver, if_pos sent]
  generalize (Unmarshall.ofBuf (request.packReqHeader operators
    ⟨1, proc, 0, 0, 0⟩).takeBuf).unpackReqHeader operators = read at header ⊢
  rw [header, registered]
  cases returned : handler read.2 (Marshall.new malloc) server with
  | error fault =>
      intro _
      simp only [returned]
      exact ⟨_, rfl⟩
  | ok outcome =>
      rcases outcome with ⟨⟨b, rep⟩, after⟩
      intro positive replySendable
      have replied : (rep.packReplyHeader operators ⟨1, b⟩).takeBuf.length ≤ maxPdu := by
        rw [Marshall.length_takeBuf]
        exact replySendable
      obtain ⟨number, content⟩ := returns rep ⟨1, b⟩
      refine ⟨_, content, ?_⟩
      simp only [returned, if_neg (Int.not_lt.mpr positive), if_pos replied, number]

theorem reg_of_content {u : Unmarshall} (carries : args.Carries a)
    (content : u.input = ⟨args.write a, true⟩) (ret : Marshall) (server : Server) :
    reg args result meth u ret server =
      (meth a server).map fun ((b, r), server) => ((b, ret.put result r), server) := by
  obtain ⟨value, done⟩ := Unmarshall.get_of_content carries content
  rw [reg]
  simp only [value, done, Bool.true_eq_false, if_false]
  cases meth a server <;> rfl

theorem callM_of_reg (delivers : Delivers call1) {proc : BitVec 32}
    (registered : procedures proc = some (reg args result meth)) {request : Marshall}
    (carries : args.Carries a) (content : request.getContent = args.write a)
    (fits : rpcHeaderSz + (args.write a).length ≤ maxPdu) (server : Server)
    (replies : ∀ b r after, meth a server = .ok ((b, r), after) →
      0 ≤ b.toInt ∧ result.Carries r ∧ rpcHeaderSz + (result.write r).length ≤ maxPdu) :
    Answers (timeoutFailure, none)
      ((meth a server).map fun ((b, r), after) => ((b, some r), after))
      (callM call1 procedures proc request result (some server)) := by
  have sendable : request.Sendable := by
    rw [Marshall.Sendable, request.ind_eq, content]
    exact fits
  obtain ⟨u, ret, input, empty, delivered⟩ :=
    delivers.running procedures proc _ request server registered sendable
  rw [content] at input
  rw [reg_of_content carries input] at delivered
  cases returned : meth a server with
  | error fault =>
      intro ends
      rw [returned] at delivered
      obtain ⟨reply, called⟩ := delivered ends
      rw [callM, called]
      rfl
  | ok outcome =>
      rcases outcome with ⟨⟨b, r⟩, after⟩
      obtain ⟨positive, carriesResult, short⟩ := replies b r after returned
      have replied : (ret.put result r).getContent = result.write r := by
        rw [Marshall.getContent_put, empty, List.nil_append]
      have replySendable : (ret.put result r).Sendable := by
        rw [Marshall.Sendable, Marshall.ind_eq, replied]
        exact short
      rw [returned] at delivered
      obtain ⟨reply, replyInput, called⟩ := delivered positive replySendable
      rw [replied] at replyInput
      obtain ⟨value, done⟩ := Unmarshall.get_of_content carriesResult replyInput
      change callM call1 procedures proc request result (some server) =
        .ok ((b, some r), some after)
      rw [callM, called]
      simp only [if_neg (Int.not_lt.mpr positive), value, done, Bool.true_eq_false, if_false]

theorem callM_ended (delivers : Delivers call1) {proc : BitVec 32} {request : Marshall} :
    callM call1 procedures proc request result none = .ok ((timeoutFailure, none), none) := by
  obtain ⟨reply, called⟩ := delivers.ended procedures proc request
  rw [callM, called]
  rfl

/-- The request of a call with one argument. -/
theorem getContent_request (malloc : Fin defaultRpcSz → Byte) :
    ((Marshall.new malloc).put args a).getContent = args.write a := by
  rw [Marshall.getContent_put, Marshall.getContent_new, List.nil_append]

/-- And of a call with two. -/
theorem getContent_request2 {B : Type} {other : Codec Byte B} {b : B}
    (malloc : Fin defaultRpcSz → Byte) :
    (((Marshall.new malloc).put args a).put other b).getContent =
      (args.pair other).write (a, b) := by
  rw [Marshall.getContent_put, getContent_request]
  rfl

theorem reg_of_not_done {u : Unmarshall} (notDone : (u.get args).2.okdone = false)
    (ret : Marshall) (server : Server) :
    reg args result meth u ret server = .ok ((unmarshalArgsFailure, ret), server) := by
  rw [reg]
  simp only [notDone, if_true]

/-- A request that has lost bytes or got more of them calls no member function. -/
theorem reg_refuses (carries : args.Carries a) {u : Unmarshall} {bytes : List Byte}
    (content : u.input = ⟨bytes, true⟩)
    (damaged : (bytes <+: args.write a ∨ args.write a <+: bytes) ∧ bytes ≠ args.write a)
    (ret : Marshall) (server : Server) :
    reg args result meth u ret server = .ok ((unmarshalArgsFailure, ret), server) := by
  apply reg_of_not_done
  rcases damaged with ⟨isPart | ⟨more, rfl⟩, different⟩
  · rw [Unmarshall.okdone_get, content, carries.truncated bytes isPart different, Bool.false_and]
  · have inside := congrArg (fun input => input.rest.length) content
    have isMore : more.length ≠ 0 := by
      intro none
      rw [List.length_eq_zero_iff.mp none, List.append_nil] at different
      exact different rfl
    simp only [Unmarshall.input, List.length_drop, List.length_append] at inside
    rw [Unmarshall.okdone_get, content, carries.whole]
    simp only [Bool.true_and, decide_eq_false_iff_not]
    omega

end Calls

section Lengths

/-- A loop that appends at most one block in each round. -/
theorem length_blockLoop {bound : Int} {body : Nat → Nat → List Byte → Except Fault (List Byte)}
    (appends : ∀ i done buf after, body i done buf = .ok after →
      after.length ≤ buf.length + blockSize)
    {left i done total : Nat} {buf after : List Byte}
    (returns : blockLoop bound body left i done buf = .ok (total, after)) :
    after.length ≤ buf.length + left * blockSize := by
  induction left generalizing i done buf with
  | zero =>
      cases returns
      exact Nat.le_add_right _ _
  | succ left ih =>
      rw [blockLoop] at returns
      split at returns
      · obtain ⟨middle, first, later⟩ := bind_ok returns
        have one := appends i done buf middle first
        have rest := ih later
        rw [Nat.succ_mul]
        omega
      · cases returns
        exact Nat.le_add_right _ _

/-- `read_file` never reads more than the blocks that an inode can have. -/
theorem length_readBlocks {bm : BlockManager} {ino : Inode} {size : Int} {buf : List Byte}
    (returns : InodeManager.readBlocks bm ino size = .ok buf) :
    buf.length ≤ (nDirect + (nIndirect + 1)) * blockSize := by
  have appendsDirect : ∀ i done buf after,
      InodeManager.readDirect bm ino i done buf = .ok after →
        after.length ≤ buf.length + blockSize := by
    intro i done buf after read
    obtain ⟨block, -, same⟩ := bind_ok read
    cases same
    rw [List.length_append, Block.length_bytes]
  have appendsIndirect : ∀ ids i done buf after,
      InodeManager.readIndirect bm ids i done buf = .ok after →
        after.length ≤ buf.length + blockSize := by
    intro ids i done buf after read
    obtain ⟨id, -, rest⟩ := bind_ok read
    obtain ⟨block, -, same⟩ := bind_ok rest
    cases same
    rw [List.length_append, Block.length_bytes]
  obtain ⟨⟨readSize, direct⟩, first, rest⟩ := bind_ok returns
  have fromDirect := length_blockLoop appendsDirect first
  rw [List.length_nil] at fromDirect
  dsimp only at rest
  split at rest
  · obtain ⟨ids, -, rest⟩ := bind_ok rest
    obtain ⟨⟨total, indirect⟩, second, same⟩ := bind_ok rest
    cases same
    have fromIndirect := length_blockLoop (appendsIndirect ids) second
    rw [Nat.add_mul]
    change indirect.length ≤ _
    omega
  · cases rest
    rw [Nat.add_mul]
    omega

theorem ExtentServer.length_get {env : Env} {im after : InodeManager} {id : ExtentId}
    {status : Status} {buf : List Byte}
    (returns : ExtentServer.get env im id = .ok ((status, buf), after)) :
    buf.length ≤ (nDirect + (nIndirect + 1)) * blockSize := by
  obtain ⟨⟨⟨cbuf, size⟩, middle⟩, read, rest⟩ := bind_ok returns
  obtain ⟨ino, -, read⟩ := bind_ok read
  obtain ⟨blocks, readBlocks, read⟩ := bind_ok read
  have short := length_readBlocks readBlocks
  obtain ⟨later, -, same⟩ := bind_ok read
  cases same
  dsimp only at rest
  split at rest
  · cases rest
    exact Nat.zero_le _
  · split at rest
    · cases rest
    · cases rest
      exact (List.length_take_le' _ _).trans short

end Lengths

namespace ExtentRpc

variable {operators : Operators} {call1 : Call1 InodeManager}

/-- The strings that the library can marshal. -/
def Call.Fits : Call → Prop
  | .put _ buf => buf.length ≤ maxString
  | _ => True

/-- The lengths of what the library writes. -/
structure Sized (operators : Operators) : Prop where
  int : ∀ value, (operators.int.write value).length = 4
  unsignedInt : ∀ value, (operators.unsignedInt.write value).length = 4
  unsignedLongLong : ∀ value, (operators.unsignedLongLong.write value).length = 8
  string : ∀ value, (operators.string.write value).length = 4 + value.length

theorem bigEndian_sized : Sized bigEndian where
  int _ := rfl
  unsignedInt _ := rfl
  unsignedLongLong _ := rfl
  string _ := List.length_append

theorem length_attr (sized : Sized operators) (a : Attr) :
    ((attr operators).write a).length = 20 := by
  have field := sized.unsignedInt
  change (operators.unsignedInt.write a.type ++ (operators.unsignedInt.write a.atime ++
    (operators.unsignedInt.write a.mtime ++ (operators.unsignedInt.write a.ctime ++
      operators.unsignedInt.write a.size)))).length = 20
  simp only [List.length_append, field]

/-- The request of the call is not too long for the library. -/
def Call.Sendable : Call → Prop
  | .put _ buf => rpcHeaderSz + (8 + (4 + buf.length)) ≤ maxPdu
  | _ => True

theorem code_nonneg (status : Status) : 0 ≤ status.code.toInt := by
  cases status <;> decide

section Sessions

variable (lawful : operators.Lawful) (sized : Sized operators) (delivers : Delivers call1)
variable (env : Env) (unset : IntResult) (malloc : Fin defaultRpcSz → Byte)

include lawful sized delivers in
/-- A call over the network is a call of the extent server, unless that ends there. -/
theorem remote_running (im : InodeManager) {call : Call} (sendable : call.Sendable) :
    Answers call.unanswered (direct env im call)
      (remote operators call1 (procedures operators env unset) malloc (some im) call) := by
  have number := lawful.unsignedLongLong
  have short (id : ExtentId) :
      rpcHeaderSz + (operators.unsignedLongLong.write id).length ≤ maxPdu := by
    rw [sized.unsignedLongLong]
    decide
  have shortUnset : rpcHeaderSz + (operators.int.write unset).length ≤ maxPdu := by
    rw [sized.int]
    decide
  cases call with
  | put id buf =>
      have fits : buf.length ≤ maxString := by
        simp only [Call.Sendable, maxPdu] at sendable
        rw [maxString]
        omega
      have replies : ∀ b r after, putMember env unset (id, buf) im = .ok ((b, r), after) →
          0 ≤ b.toInt ∧ operators.int.Carries r ∧
            rpcHeaderSz + (operators.int.write r).length ≤ maxPdu := by
        intro b r after returns
        obtain ⟨⟨status, later⟩, -, same⟩ := bind_ok returns
        cases same
        exact ⟨code_nonneg status, lawful.int unset, shortUnset⟩
      have length : rpcHeaderSz +
          ((operators.unsignedLongLong.pair operators.string).write (id, buf)).length ≤
            maxPdu := by
        change rpcHeaderSz +
          (operators.unsignedLongLong.write id ++ operators.string.write buf).length ≤ maxPdu
        rw [List.length_append, sized.unsignedLongLong, sized.string]
        exact sendable
      have answers := callM_of_reg delivers
        (show procedures operators env unset procPut = some _ from rfl)
        ((number id).pair (lawful.string buf fits)) (getContent_request2 malloc) length im
        replies
      refine answers.bind (fun reply => Outcome.status reply.1) ?_
      rw [direct, putMember]
      cases ExtentServer.put env im id buf <;> rfl
  | get id =>
      have replies : ∀ b r after, getMember env id im = .ok ((b, r), after) →
          0 ≤ b.toInt ∧ operators.string.Carries r ∧
            rpcHeaderSz + (operators.string.write r).length ≤ maxPdu := by
        intro b r after returns
        obtain ⟨⟨⟨status, buf⟩, later⟩, gets, same⟩ := bind_ok returns
        cases same
        have length := ExtentServer.length_get gets
        refine ⟨code_nonneg status, lawful.string _ ?_, ?_⟩
        · exact length.trans (by decide)
        · have header : rpcHeaderSz = 24 := rfl
          rw [sized.string, header, maxPdu]
          simp only [nDirect, nIndirect, blockSize] at length
          omega
      have answers := callM_of_reg delivers
        (show procedures operators env unset procGet = some _ from rfl) (number id)
        (getContent_request malloc) (short id) im replies
      refine answers.bind (fun reply => Outcome.string reply.1 reply.2) ?_
      rw [direct, getMember]
      cases ExtentServer.get env im id <;> rfl
  | getattr id =>
      have replies : ∀ b r after, getattrMember id im = .ok ((b, r), after) →
          0 ≤ b.toInt ∧ (attr operators).Carries r ∧
            rpcHeaderSz + ((attr operators).write r).length ≤ maxPdu := by
        intro b r after returns
        obtain ⟨⟨⟨status, a⟩, later⟩, -, same⟩ := bind_ok returns
        cases same
        refine ⟨code_nonneg status, attr_carries lawful _, ?_⟩
        rw [length_attr sized]
        decide
      have answers := callM_of_reg delivers
        (show procedures operators env unset procGetattr = some _ from rfl) (number id)
        (getContent_request malloc) (short id) im replies
      refine answers.bind (fun reply => Outcome.attr reply.1 reply.2) ?_
      rw [direct, getattrMember]
      cases ExtentServer.getattr im id <;> rfl
  | remove id =>
      have replies : ∀ b r after, removeMember unset id im = .ok ((b, r), after) →
          0 ≤ b.toInt ∧ operators.int.Carries r ∧
            rpcHeaderSz + (operators.int.write r).length ≤ maxPdu := by
        intro b r after returns
        obtain ⟨⟨status, later⟩, -, same⟩ := bind_ok returns
        cases same
        exact ⟨code_nonneg status, lawful.int unset, shortUnset⟩
      have answers := callM_of_reg delivers
        (show procedures operators env unset procRemove = some _ from rfl) (number id)
        (getContent_request malloc) (short id) im replies
      refine answers.bind (fun reply => Outcome.status reply.1) ?_
      rw [direct, removeMember]
      cases ExtentServer.remove im id <;> rfl

include delivers in
/-- A call of an extent server that has ended. -/
theorem remote_ended (call : Call) :
    remote operators call1 (procedures operators env unset) malloc none call =
      .ok (call.unanswered, none) := by
  cases call with
  | put id buf =>
      rw [remote, call2, callM_ended delivers]
      rfl
  | get id =>
      rw [remote, Yfs.call, callM_ended delivers]
      rfl
  | getattr id =>
      rw [remote, Yfs.call, callM_ended delivers]
      rfl
  | remove id =>
      rw [remote, Yfs.call, callM_ended delivers]
      rfl

include delivers in
theorem run_ended (calls : List Call) :
    Machine.run (remote operators call1 (procedures operators env unset) malloc) none calls =
      .ok (calls.map Call.unanswered, none) := by
  induction calls with
  | nil => rfl
  | cons call rest ih =>
      exact Machine.run_cons (remote_ended delivers env unset malloc call) ih

include lawful sized delivers in
theorem run_running {im after : InodeManager} {calls : List Call} {outcomes : List Outcome}
    (sendable : ∀ call ∈ calls, call.Sendable)
    (returns : Machine.run (direct env) im calls = .ok (outcomes, after)) :
    Machine.run (remote operators call1 (procedures operators env unset) malloc) (some im)
      calls = .ok (outcomes, some after) := by
  induction calls generalizing im outcomes with
  | nil =>
      cases returns
      rfl
  | cons call rest ih =>
      obtain ⟨outcome, next, later, first, remaining, rfl⟩ := Machine.run_cons_ok returns
      have called := remote_running lawful sized delivers env unset malloc im
        (sendable call List.mem_cons_self)
      rw [first] at called
      exact Machine.run_cons called
        (ih (fun other member => sendable other (List.mem_cons_of_mem _ member)) remaining)

end Sessions

/-- A session over the network gives the same outcomes as the same calls of the extent
server in the same process and ends in the same state.  If the extent server ends in a
call, that call and all later ones time out. -/
theorem session_over_network (lawful : operators.Lawful) (sized : Sized operators)
    (delivers : Delivers call1) (env : Env) (unset : IntResult)
    (malloc : Fin defaultRpcSz → Byte) (im : InodeManager) {calls : List Call}
    (sendable : ∀ call ∈ calls, call.Sendable) :
    (∀ outcomes after, Machine.run (direct env) im calls = .ok (outcomes, after) →
      Machine.run (remote operators call1 (procedures operators env unset) malloc) (some im)
        calls = .ok (outcomes, some after)) ∧
    ∀ before call later, calls = before ++ call :: later →
      ∀ outcomes middle fault, Machine.run (direct env) im before = .ok (outcomes, middle) →
        direct env middle call = .error fault → fault.Ends →
          Machine.run (remote operators call1 (procedures operators env unset) malloc)
            (some im) calls =
              .ok (outcomes ++ (call :: later).map Call.unanswered, none) := by
  refine ⟨fun outcomes after returns =>
    run_running lawful sized delivers env unset malloc sendable returns, ?_⟩
  rintro before call later rfl outcomes middle fault returns stops ends
  have begun := run_running lawful sized delivers env unset malloc
    (fun other member => sendable other (List.mem_append_left _ member)) returns
  have called := remote_running lawful sized delivers env unset malloc middle
    (sendable call (List.mem_append_right _ List.mem_cons_self))
  rw [stops] at called
  exact Machine.run_append begun
    (Machine.run_cons (called ends) (run_ended delivers env unset malloc later))

/-- Write to the root, follow a missing inode and ask for the attributes of the root. -/
def rootSession : List Call :=
  [.put 1 [104, 105], .get 2, .getattr 1]

theorem rootSession_over_network : ∃ im, InodeManager.init .zero = .ok im ∧
    Machine.run (remote bigEndian (handOver bigEndian fun _ => 0)
        (procedures bigEndian .zero 7) fun _ => 0) (some im) rootSession =
      .ok ([.status 0, .string timeoutFailure none, .attr timeoutFailure none], none) := by
  obtain ⟨im, start, holds⟩ := init_holds Env.zero
  refine ⟨im, start, ?_⟩
  obtain ⟨middle, put, holdsMiddle⟩ := simulates_map .zero (.put 1 [104, 105]) im _ holds
  have written : Machine.run (direct .zero) im [.put 1 [104, 105]] =
      .ok ([.status 0], middle) := by
    change ExtentServer.put .zero im 1 [104, 105] = .ok (.OK, middle) at put
    have first : direct .zero im (.put 1 [104, 105]) = .ok (.status 0, middle) := by
      rw [direct, put]
      rfl
    exact Machine.run_cons first rfl
  have missing : direct .zero middle (.get 2) = .error .nullInode := by
    rcases simulates_map .zero (.get 2) middle _ holdsMiddle with escapes | stops
    · cases escapes
    · change ExtentServer.get .zero middle 2 = .error .nullInode at stops
      rw [direct, stops]
      rfl
  have sendable : ∀ call ∈ rootSession, call.Sendable := by
    have fits : (Call.put 1 [104, 105]).Sendable :=
      (by decide : rpcHeaderSz + (8 + (4 + 2)) ≤ maxPdu)
    exact List.forall_mem_cons.mpr
      ⟨fits, List.forall_mem_cons.mpr ⟨trivial, List.forall_mem_singleton.mpr trivial⟩⟩
  exact (session_over_network bigEndian_lawful bigEndian_sized
    (handOver_delivers bigEndian_lawful _) .zero 7 _ im sendable).2 [.put 1 [104, 105]] (.get 2)
      [.getattr 1] rfl [.status 0] middle .nullInode written missing (Or.inl rfl)

def Call.proc : Call → BitVec 32
  | .put _ _ => procPut
  | .get _ => procGet
  | .getattr _ => procGetattr
  | .remove _ => procRemove

/-- The content of the request. -/
def Call.content (operators : Operators) : Call → List Byte
  | .put id buf => (operators.unsignedLongLong.pair operators.string).write (id, buf)
  | .get id => operators.unsignedLongLong.write id
  | .getattr id => operators.unsignedLongLong.write id
  | .remove id => operators.unsignedLongLong.write id

/-- The handlers refuse every request that has lost bytes or got more of them, and leave
the extent server as it is.  `rpcs::dispatch` of the library then stops the process of the
server, as it does for every negative number. -/
theorem damaged_requests_refused (lawful : operators.Lawful) (env : Env) (unset : IntResult)
    {call : Call} (fits : call.Fits) {u : Unmarshall} {bytes : List Byte}
    (arrived : u.input = ⟨bytes, true⟩)
    (damaged : (bytes <+: call.content operators ∨ call.content operators <+: bytes) ∧
      bytes ≠ call.content operators) (ret : Marshall) (im : InodeManager) :
    ∃ handler, procedures operators env unset call.proc = some handler ∧
      handler u ret im = .ok ((unmarshalArgsFailure, ret), im) := by
  have number := lawful.unsignedLongLong
  cases call with
  | put id buf =>
      exact ⟨_, rfl, reg_refuses ((number id).pair (lawful.string buf fits)) arrived damaged ret im⟩
  | get id => exact ⟨_, rfl, reg_refuses (number id) arrived damaged ret im⟩
  | getattr id => exact ⟨_, rfl, reg_refuses (number id) arrived damaged ret im⟩
  | remove id => exact ⟨_, rfl, reg_refuses (number id) arrived damaged ret im⟩

/-- A `put` whose last byte is missing. -/
theorem cutPut_refused : ∃ im handler, InodeManager.init .zero = .ok im ∧
    procedures bigEndian .zero 7 procPut = some handler ∧
    handler (.ofBuf [0, 0, 0, 0, 0, 0, 0, 1, 0, 0, 0, 2, 104]) (.new fun _ => 0) im =
      .ok ((unmarshalArgsFailure, .new fun _ => 0), im) := by
  obtain ⟨im, start, -⟩ := init_holds Env.zero
  have fits : (Call.put 1 [104, 105]).Fits := (by decide : 2 ≤ maxString)
  have arrived : (Unmarshall.ofBuf [0, 0, 0, 0, 0, 0, 0, 1, 0, 0, 0, 2, 104]).input =
      ⟨[0, 0, 0, 0, 0, 0, 0, 1, 0, 0, 0, 2, 104], true⟩ := rfl
  obtain ⟨handler, registered, refused⟩ := damaged_requests_refused bigEndian_lawful .zero 7
    fits arrived ⟨Or.inl ⟨[105], rfl⟩, by decide⟩ (.new fun _ => 0) im
  exact ⟨im, handler, start, registered, refused⟩

end ExtentRpc

end Yfs
