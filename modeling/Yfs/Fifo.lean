import Yfs.Library.Monitor

/-!
# The bounded queue of the RPC library

`fifo<T>` of `rpc/fifo.h`: `enq` blocks while the queue is full and `deq` while it is
empty.  Each operation is under a scoped lock from its first line to its return.
-/

namespace Yfs.Fifo

open Monitor

variable {T : Type}

/-- The operations, with their arguments. -/
inductive Op (T : Type)
  | enq (e : T) (blocking : Bool)
  | deq
  | size

/-- The results.  `size` returns its count as a `bool`. -/
inductive Result (T : Type)
  | enq (done : Bool)
  | deq (e : T)
  | size (nonzero : Bool)

inductive Cond
  | nonEmpty
  | hasSpace
  deriving DecidableEq

/-- The places in the code where the mutex or a condition variable is used, or where the
queue is looked at. -/
inductive Loc (T : Type)
  | outside
  /-- The constructor of the scoped lock. -/
  | enter (op : Op T)
  /-- The head of the loop of `enq`. -/
  | enq (e : T) (blocking : Bool)
  | enqWait (e : T) (blocking : Bool)
  | enqSignal
  /-- The head of the loop of `deq`. -/
  | deq
  | deqWait
  | deqSignal (e : T)
  | size
  /-- The destructor of the scoped lock. -/
  | leave (result : Result T)

/-- What a thread shows: it calls, its operation takes effect on the queue, it returns. -/
inductive Event (T : Type)
  | call (op : Op T)
  | effect (op : Op T) (result : Result T)
  | ret (result : Result T)

/-- After the lock is taken. -/
def Op.body : Op T → Loc T
  | .enq e blocking => .enq e blocking
  | .deq => .deq
  | .size => .size

/-- `max_`, zero for a queue without limit. -/
abbrev Limit := Nat

/-- `!max_ || q_.size() < max_`. -/
def HasSpace (limit : Limit) (q : List T) : Prop :=
  limit = 0 ∨ q.length < limit

instance (limit : Limit) (q : List T) : Decidable (HasSpace limit q) :=
  inferInstanceAs (Decidable (_ ∨ _))

/-- One round of the loop of `enq`. -/
def enqRound (limit : Limit) (e : T) (blocking : Bool) (q : List T) :
    List T × Loc T × Option (Event T) :=
  if HasSpace limit q then
    (q ++ [e], .enqSignal, some (.effect (.enq e blocking) (.enq true)))
  else if blocking then (q, .enqWait e blocking, none)
  else (q, .leave (.enq false), some (.effect (.enq e blocking) (.enq false)))

/-- One round of the loop of `deq`. -/
def deqRound (limit : Limit) (q : List T) : List T × Loc T × Option (Event T) :=
  match q with
  | [] => ([], .deqWait, none)
  | e :: rest =>
      (rest, if limit ≠ 0 ∧ rest.length < limit then .deqSignal e else .leave (.deq e),
        some (.effect .deq (.deq e)))

def sizeBody (q : List T) : List T × Loc T × Option (Event T) :=
  (q, .leave (.size (q.length ≠ 0)), some (.effect .size (.size (q.length ≠ 0))))

def action (limit : Limit) : Loc T → Action (List T) Cond (Loc T) (Event T)
  | .outside => .idle
  | .enter op => .lock op.body
  | .enq e blocking => .update (enqRound limit e blocking)
  | .enqWait e blocking => .wait .hasSpace (.enq e blocking)
  | .enqSignal => .signal .nonEmpty (.leave (.enq true))
  | .deq => .update (deqRound limit)
  | .deqWait => .wait .nonEmpty .deq
  | .deqSignal e => .signal .hasSpace (.leave (.deq e))
  | .size => .update sizeBody
  | .leave result => .unlock .outside (.ret result)

def program (limit : Limit) : Program (List T) Cond (Loc T) (Op T) (Event T) where
  action := action limit
  start := .enter
  called := .call

variable {Thread : Type}

/-- A new queue, which no thread uses. -/
def init : State Thread (List T) Cond (Loc T) where
  shared := []
  owner := none
  status := fun _ => .active .outside

end Yfs.Fifo
