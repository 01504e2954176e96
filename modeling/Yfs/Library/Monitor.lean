import Mathlib.Algebra.BigOperators.Group.Finset.Basic
import Mathlib.Algebra.Order.BigOperators.Group.Finset
import Mathlib.Data.Fintype.Basic

/-!
# Monitors

Any number of threads run one program over shared data, with one mutex and condition
variables.  A thread that waits gives the mutex back and sleeps until it is
signalled, or for no reason; then it takes the mutex again and goes on.

The file has mutual exclusion for programs that keep the discipline of the mutex,
what it means that no thread can move, and the sums over threads that prove that
wake-ups are not lost and that a program comes to rest.
-/

namespace Monitor

variable {Thread Shared Cond Loc Call Event : Type}

/-- What a thread does at a location of the program. -/
inductive Action (Shared Cond Loc Event : Type)
  /-- Nothing until it is called. -/
  | idle
  | lock (next : Loc)
  /-- A computation on the shared data, under the mutex. -/
  | update (next : Shared → Shared × Loc × Option Event)
  | wait (cond : Cond) (next : Loc)
  | signal (cond : Cond) (next : Loc)
  | unlock (next : Loc) (event : Event)

structure Program (Shared Cond Loc Call Event : Type) where
  action : Loc → Action Shared Cond Loc Event
  start : Call → Loc
  called : Call → Event

inductive Status (Cond Loc : Type)
  | active (loc : Loc)
  | asleep (cond : Cond) (next : Loc)
  /-- Signalled, and about to take the mutex again. -/
  | woken (next : Loc)
  deriving DecidableEq

structure State (Thread Shared Cond Loc : Type) where
  shared : Shared
  owner : Option Thread
  status : Thread → Status Cond Loc

section Steps

variable [DecidableEq Thread] (program : Program Shared Cond Loc Call Event)

/-- The thread gets another status. -/
def State.move (state : State Thread Shared Cond Loc) (thread : Thread)
    (status : Status Cond Loc) : State Thread Shared Cond Loc :=
  { state with status := Function.update state.status thread status }

@[simp]
theorem State.move_shared (state : State Thread Shared Cond Loc) (thread : Thread)
    (status : Status Cond Loc) : (state.move thread status).shared = state.shared :=
  rfl

/-- A thread goes on by itself. -/
inductive Progress : State Thread Shared Cond Loc → Option (Thread × Event) →
    State Thread Shared Cond Loc → Prop
  | lock {state} {thread : Thread} {loc next : Loc} (here : state.status thread = .active loc)
      (action : program.action loc = .lock next) (free : state.owner = none) :
      Progress state none { state.move thread (.active next) with owner := some thread }
  | update {state} {thread : Thread} {loc : Loc}
      {compute : Shared → Shared × Loc × Option Event}
      (here : state.status thread = .active loc)
      (action : program.action loc = .update compute) :
      Progress state ((compute state.shared).2.2.map (thread, ·))
        { state.move thread (.active (compute state.shared).2.1) with
          shared := (compute state.shared).1 }
  | wait {state} {thread : Thread} {loc next : Loc} {cond : Cond}
      (here : state.status thread = .active loc)
      (action : program.action loc = .wait cond next) :
      Progress state none { state.move thread (.asleep cond next) with owner := none }
  | signal {state} {thread sleeper : Thread} {loc next later : Loc} {cond : Cond}
      (here : state.status thread = .active loc)
      (action : program.action loc = .signal cond next)
      (sleeps : state.status sleeper = .asleep cond later) :
      Progress state none ((state.move sleeper (.woken later)).move thread (.active next))
  | signalNobody {state} {thread : Thread} {loc next : Loc} {cond : Cond}
      (here : state.status thread = .active loc)
      (action : program.action loc = .signal cond next)
      (nobody : ∀ other later, state.status other ≠ .asleep cond later) :
      Progress state none (state.move thread (.active next))
  | unlock {state} {thread : Thread} {loc next : Loc} {event : Event}
      (here : state.status thread = .active loc)
      (action : program.action loc = .unlock next event) :
      Progress state (some (thread, event))
        { state.move thread (.active next) with owner := none }
  | resume {state} {thread : Thread} {next : Loc}
      (here : state.status thread = .woken next) (free : state.owner = none) :
      Progress state none { state.move thread (.active next) with owner := some thread }

/-- A thread goes on, is called, or wakes up for no reason. -/
inductive Step : State Thread Shared Cond Loc → Option (Thread × Event) →
    State Thread Shared Cond Loc → Prop
  | progress {state event next} (progress : Progress program state event next) :
      Step state event next
  | call {state} {thread : Thread} {loc : Loc} (call : Call)
      (here : state.status thread = .active loc) (action : program.action loc = .idle) :
      Step state (some (thread, program.called call))
        (state.move thread (.active (program.start call)))
  | spurious {state} {thread : Thread} {next : Loc} {cond : Cond}
      (here : state.status thread = .asleep cond next) :
      Step state none (state.move thread (.woken next))

/-- Any number of steps, with the events in order. -/
inductive Run : State Thread Shared Cond Loc → List (Thread × Event) →
    State Thread Shared Cond Loc → Prop
  | refl (state) : Run state [] state
  | tail {start events state event next} (run : Run start events state)
      (step : Step program state event next) : Run start (events ++ event.toList) next

/-- The threads go on by themselves for a number of steps. -/
inductive Goes : State Thread Shared Cond Loc → Nat → State Thread Shared Cond Loc → Prop
  | refl (state) : Goes state 0 state
  | tail {start count state event next} (goes : Goes start count state)
      (progress : Progress program state event next) : Goes start (count + 1) next

/-- No thread can go on by itself. -/
def Stuck (state : State Thread Shared Cond Loc) : Prop :=
  ∀ event next, ¬Progress program state event next

end Steps

section Invariants

variable [DecidableEq Thread] {program : Program Shared Cond Loc Call Event}
variable {start state : State Thread Shared Cond Loc} {events : List (Thread × Event)}

/-- An invariant of the events and the state that every step keeps holds at the end
of every run. -/
theorem Run.preserves (invariant : List (Thread × Event) → State Thread Shared Cond Loc → Prop)
    (holds : invariant [] start)
    (kept : ∀ events state event next, invariant events state →
      Step program state event next → invariant (events ++ event.toList) next)
    (run : Run program start events state) : invariant events state := by
  induction run with
  | refl => exact holds
  | tail run step ih => exact kept _ _ _ _ ih step

end Invariants

section Exclusion

/-- The locations inside the mutex: only `lock` enters them, only `unlock` leaves
them, and the shared data is not touched elsewhere. -/
def Keeps (program : Program Shared Cond Loc Call Event) (inside : Loc → Prop) (loc : Loc) :
    Prop :=
  match program.action loc with
  | .idle => ¬inside loc
  | .lock next => ¬inside loc ∧ inside next
  | .update compute => inside loc ∧ ∀ shared, inside (compute shared).2.1
  | .wait _ next => inside loc ∧ inside next
  | .signal _ next => inside loc ∧ inside next
  | .unlock next _ => inside loc ∧ ¬inside next

structure Disciplined (program : Program Shared Cond Loc Call Event) (inside : Loc → Prop) :
    Prop where
  keeps : ∀ loc, Keeps program inside loc
  outside : ∀ call, ¬inside (program.start call)

/-- A thread goes on inside the mutex. -/
def Status.Inside (inside : Loc → Prop) : Status Cond Loc → Prop
  | .active loc => inside loc
  | .asleep _ _ => False
  | .woken _ => False

/-- A thread that sleeps will go on inside the mutex. -/
def Status.Returns (inside : Loc → Prop) : Status Cond Loc → Prop
  | .active _ => True
  | .asleep _ next => inside next
  | .woken next => inside next

/-- The owner of the mutex is the thread that is inside. -/
structure Exclusive (inside : Loc → Prop) (state : State Thread Shared Cond Loc) : Prop where
  owner : ∀ thread, state.owner = some thread ↔ (state.status thread).Inside inside
  returns : ∀ thread, (state.status thread).Returns inside

variable {program : Program Shared Cond Loc Call Event}
variable {inside : Loc → Prop} {state next : State Thread Shared Cond Loc}
variable {event : Option (Thread × Event)}

/-- No two threads are inside. -/
theorem Exclusive.unique (exclusive : Exclusive inside state) {first second : Thread}
    (one : (state.status first).Inside inside) (two : (state.status second).Inside inside) :
    first = second := by
  have owns := (exclusive.owner first).mpr one
  rw [(exclusive.owner second).mpr two] at owns
  exact (Option.some.inj owns).symm

/-- At the start every thread is outside. -/
theorem Exclusive.of_outside {loc : Loc} (outside : ¬inside loc) (free : state.owner = none)
    (everyone : ∀ thread, state.status thread = .active loc) : Exclusive inside state := by
  constructor
  · intro thread
    rw [free, everyone]
    exact iff_of_false (fun owns => absurd owns (by simp)) outside
  · intro thread
    rw [everyone]
    trivial

theorem Exclusive.shared (exclusive : Exclusive inside state) (shared : Shared) :
    Exclusive inside { state with shared := shared } :=
  ⟨exclusive.owner, exclusive.returns⟩

variable [DecidableEq Thread]

/-- A move that neither enters nor leaves the mutex. -/
theorem Exclusive.move (exclusive : Exclusive inside state) (thread : Thread)
    (status : Status Cond Loc)
    (same : status.Inside inside ↔ (state.status thread).Inside inside)
    (returns : status.Returns inside) : Exclusive inside (state.move thread status) := by
  constructor
  · intro other
    by_cases equal : other = thread
    · subst equal
      simp only [State.move, Function.update_self, exclusive.owner, same]
    · simp only [State.move, Function.update_of_ne equal, exclusive.owner]
  · intro other
    by_cases equal : other = thread
    · subst equal
      simpa only [State.move, Function.update_self] using returns
    · simpa only [State.move, Function.update_of_ne equal] using exclusive.returns other

/-- A thread enters while the mutex is free. -/
theorem Exclusive.enter (exclusive : Exclusive inside state) (free : state.owner = none)
    {thread : Thread} {loc : Loc} (isInside : inside loc) :
    Exclusive inside { state.move thread (.active loc) with owner := some thread } := by
  constructor
  · intro other
    by_cases equal : other = thread
    · subst equal
      simpa only [State.move, Function.update_self, Status.Inside, true_iff] using isInside
    · have out : ¬(state.status other).Inside inside := by
        rw [← exclusive.owner, free]
        simp only [reduceCtorEq, not_false_eq_true]
      simpa only [State.move, Function.update_of_ne equal, Option.some.injEq, out, iff_false]
        using fun same => equal same.symm
  · intro other
    by_cases equal : other = thread
    · subst equal
      simp only [State.move, Function.update_self, Status.Returns]
    · simpa only [State.move, Function.update_of_ne equal] using exclusive.returns other

/-- The thread that is inside leaves. -/
theorem Exclusive.leave (exclusive : Exclusive inside state) (thread : Thread)
    (status : Status Cond Loc) (was : (state.status thread).Inside inside)
    (out : ¬status.Inside inside) (returns : status.Returns inside) :
    Exclusive inside { state.move thread status with owner := none } := by
  constructor
  · intro other
    by_cases equal : other = thread
    · subst equal
      simpa only [State.move, Function.update_self, reduceCtorEq, false_iff] using out
    · have outOther : ¬(state.status other).Inside inside :=
        fun isInside => equal (exclusive.unique isInside was)
      simpa only [State.move, Function.update_of_ne equal, reduceCtorEq, false_iff] using outOther
  · intro other
    by_cases equal : other = thread
    · subst equal
      simpa only [State.move, Function.update_self] using returns
    · simpa only [State.move, Function.update_of_ne equal] using exclusive.returns other

theorem Exclusive.progress (disciplined : Disciplined program inside)
    (exclusive : Exclusive inside state) (progress : Progress program state event next) :
    Exclusive inside next := by
  cases progress with
  | lock here action free =>
      rename_i thread loc after
      have keeps := disciplined.keeps loc
      rw [Keeps, action] at keeps
      exact exclusive.enter free keeps.2
  | update here action =>
      rename_i thread loc compute
      have keeps := disciplined.keeps loc
      rw [Keeps, action] at keeps
      apply Exclusive.shared
      apply exclusive.move thread (.active (compute state.shared).2.1) _ trivial
      rw [here]
      exact iff_of_true (keeps.2 state.shared) keeps.1
  | wait here action =>
      rename_i thread loc after cond
      have keeps := disciplined.keeps loc
      rw [Keeps, action] at keeps
      apply exclusive.leave thread (.asleep cond after) _ (fun never => never) keeps.2
      rw [here]
      exact keeps.1
  | signal here action sleeps =>
      rename_i thread sleeper loc after later cond
      have keeps := disciplined.keeps loc
      rw [Keeps, action] at keeps
      have different : thread ≠ sleeper := by
        rintro rfl
        rw [here] at sleeps
        cases sleeps
      have woken : Exclusive inside (state.move sleeper (.woken later)) := by
        have returns := exclusive.returns sleeper
        rw [sleeps] at returns
        apply exclusive.move sleeper (.woken later) _ returns
        rw [sleeps]
        exact Iff.rfl
      apply woken.move thread (.active after) _ trivial
      simp only [State.move, Function.update_of_ne different, here]
      exact iff_of_true keeps.2 keeps.1
  | signalNobody here action nobody =>
      rename_i thread loc after cond
      have keeps := disciplined.keeps loc
      rw [Keeps, action] at keeps
      apply exclusive.move thread (.active after) _ trivial
      rw [here]
      exact iff_of_true keeps.2 keeps.1
  | unlock here action =>
      rename_i thread loc after event
      have keeps := disciplined.keeps loc
      rw [Keeps, action] at keeps
      apply exclusive.leave thread (.active after) _ keeps.2 trivial
      rw [here]
      exact keeps.1
  | resume here free =>
      rename_i thread after
      have returns := exclusive.returns thread
      rw [here] at returns
      exact exclusive.enter free returns

/-- Mutual exclusion is kept. -/
theorem Exclusive.step (disciplined : Disciplined program inside)
    (exclusive : Exclusive inside state) (step : Step program state event next) :
    Exclusive inside next := by
  cases step with
  | progress progress => exact exclusive.progress disciplined progress
  | call call here action =>
      rename_i thread loc
      have keeps := disciplined.keeps loc
      rw [Keeps, action] at keeps
      apply exclusive.move thread (.active (program.start call)) _ trivial
      rw [here]
      exact iff_of_false (disciplined.outside call) keeps
  | spurious here =>
      rename_i thread after cond
      have returns := exclusive.returns thread
      rw [here] at returns
      apply exclusive.move thread (.woken after) _ returns
      rw [here]
      exact Iff.rfl

/-- When no thread can move, the mutex is free and every thread is idle or asleep. -/
theorem Stuck.rests (disciplined : Disciplined program inside)
    (exclusive : Exclusive inside state) (stuck : Stuck program state) :
    state.owner = none ∧ ∀ thread,
      (∃ loc, state.status thread = .active loc ∧ program.action loc = .idle) ∨
        ∃ cond later, state.status thread = .asleep cond later := by
  -- a thread that is inside can always go on
  have outside : ∀ thread loc, state.status thread = .active loc → ¬inside loc := by
    intro thread loc here isInside
    have keeps := disciplined.keeps loc
    rw [Keeps] at keeps
    cases action : program.action loc with
    | idle =>
        rw [action] at keeps
        exact keeps isInside
    | lock next =>
        rw [action] at keeps
        exact keeps.1 isInside
    | update compute => exact stuck _ _ (.update here action)
    | wait cond next => exact stuck _ _ (.wait here action)
    | signal cond next =>
        by_cases somebody : ∃ other later, state.status other = .asleep cond later
        · rcases somebody with ⟨other, later, sleeps⟩
          exact stuck _ _ (.signal here action sleeps)
        · apply stuck _ _ (.signalNobody here action _)
          intro other later sleeps
          exact somebody ⟨other, later, sleeps⟩
    | unlock next event => exact stuck _ _ (.unlock here action)
  have free : state.owner = none := by
    cases owner : state.owner with
    | none => rfl
    | some thread =>
        have isInside := (exclusive.owner thread).mp owner
        cases here : state.status thread with
        | active loc =>
            rw [here] at isInside
            exact absurd isInside (outside thread loc here)
        | asleep cond next =>
            rw [here] at isInside
            cases isInside
        | woken next =>
            rw [here] at isInside
            cases isInside
  refine ⟨free, fun thread => ?_⟩
  cases here : state.status thread with
  | active loc =>
      have keeps := disciplined.keeps loc
      have out := outside thread loc here
      rw [Keeps] at keeps
      cases action : program.action loc with
      | idle => exact Or.inl ⟨loc, rfl, action⟩
      | lock next => exact absurd (.lock here action free) (stuck _ _)
      | update compute =>
          rw [action] at keeps
          exact absurd keeps.1 out
      | wait cond next =>
          rw [action] at keeps
          exact absurd keeps.1 out
      | signal cond next =>
          rw [action] at keeps
          exact absurd keeps.1 out
      | unlock next event =>
          rw [action] at keeps
          exact absurd keeps.1 out
  | asleep cond next => exact Or.inr ⟨cond, next, rfl⟩
  | woken next => exact absurd (.resume here free) (stuck _ _)

/-- Conversely, no thread can move when all of them are idle or asleep. -/
theorem Stuck.of_rests (rests : ∀ thread,
    (∃ loc, state.status thread = .active loc ∧ program.action loc = .idle) ∨
      ∃ cond later, state.status thread = .asleep cond later) : Stuck program state := by
  have active : ∀ thread loc, state.status thread = .active loc → program.action loc = .idle := by
    intro thread loc here
    rcases rests thread with ⟨other, there, idle⟩ | ⟨cond, later, sleeps⟩
    · rw [here] at there
      cases there
      exact idle
    · rw [here] at sleeps
      cases sleeps
  intro event next progress
  cases progress with
  | lock here action free => exact absurd (active _ _ here) (by rw [action]; simp)
  | update here action => exact absurd (active _ _ here) (by rw [action]; simp)
  | wait here action => exact absurd (active _ _ here) (by rw [action]; simp)
  | signal here action sleeps => exact absurd (active _ _ here) (by rw [action]; simp)
  | signalNobody here action nobody => exact absurd (active _ _ here) (by rw [action]; simp)
  | unlock here action => exact absurd (active _ _ here) (by rw [action]; simp)
  | resume here free =>
      rcases rests _ with ⟨loc, there, idle⟩ | ⟨cond, later, sleeps⟩
      · rw [here] at there
        cases there
      · rw [here] at sleeps
        cases sleeps

end Exclusion

section Sums

variable [Fintype Thread]

/-- The sum of a weight over the threads. -/
def State.total (weight : Status Cond Loc → Nat) (state : State Thread Shared Cond Loc) :
    Nat :=
  ∑ thread, weight (state.status thread)

variable {weight : Status Cond Loc → Nat} {state : State Thread Shared Cond Loc}
  [DecidableEq Thread]

/-- A move exchanges the weight of one thread. -/
theorem State.total_move (weight : Status Cond Loc → Nat)
    (state : State Thread Shared Cond Loc) (thread : Thread) (status : Status Cond Loc) :
    (state.move thread status).total weight + weight (state.status thread) =
      state.total weight + weight status := by
  have before := Finset.add_sum_erase Finset.univ
    (fun thread => weight (state.status thread)) (Finset.mem_univ thread)
  have after := Finset.add_sum_erase Finset.univ
    (fun other => weight ((state.move thread status).status other)) (Finset.mem_univ thread)
  have others : ∑ other ∈ Finset.univ.erase thread,
      weight ((state.move thread status).status other) =
        ∑ other ∈ Finset.univ.erase thread, weight (state.status other) := by
    apply Finset.sum_congr rfl
    intro other member
    simp only [State.move, Function.update_of_ne (Finset.ne_of_mem_erase member)]
  have self : weight ((state.move thread status).status thread) = weight status := by
    simp only [State.move, Function.update_self]
  simp only [State.total]
  omega

end Sums

section Rest

/-- A thread that goes on loses weight, also when it wakes another one. -/
def Falls (program : Program Shared Cond Loc Call Event) (weight : Status Cond Loc → Nat)
    (loc : Loc) : Prop :=
  match program.action loc with
  | .idle => True
  | .lock next => weight (.active next) < weight (.active loc)
  | .update compute => ∀ shared, weight (.active (compute shared).2.1) < weight (.active loc)
  | .wait cond next => weight (.asleep cond next) < weight (.active loc)
  | .signal cond next => weight (.active next) < weight (.active loc) ∧
      ∀ later, weight (.active next) + weight (.woken later) <
        weight (.active loc) + weight (.asleep cond later)
  | .unlock next _ => weight (.active next) < weight (.active loc)

/-- Every thread loses weight wherever it goes on. -/
structure Tires (program : Program Shared Cond Loc Call Event)
    (weight : Status Cond Loc → Nat) : Prop where
  falls : ∀ loc, Falls program weight loc
  resumes : ∀ next, weight (.active next) < weight (.woken next)

variable [DecidableEq Thread] [Fintype Thread]
variable {program : Program Shared Cond Loc Call Event} {weight : Status Cond Loc → Nat}
variable {state next : State Thread Shared Cond Loc} {event : Option (Thread × Event)}

theorem Progress.total_lt (tires : Tires program weight)
    (progress : Progress program state event next) : next.total weight < state.total weight := by
  cases progress with
  | lock here action free =>
      rename_i thread loc after
      have falls := tires.falls loc
      have moved := state.total_move weight thread (.active after)
      rw [Falls, action] at falls
      rw [here] at moved
      change (state.move thread (.active after)).total weight < _
      omega
  | update here action =>
      rename_i thread loc compute
      have falls := tires.falls loc
      have moved := state.total_move weight thread
        (.active (compute state.shared).2.1)
      rw [Falls, action] at falls
      rw [here] at moved
      have less := falls state.shared
      change (state.move thread (.active (compute state.shared).2.1)).total weight < _
      omega
  | wait here action =>
      rename_i thread loc after cond
      have falls := tires.falls loc
      have moved := state.total_move weight thread (.asleep cond after)
      rw [Falls, action] at falls
      rw [here] at moved
      change (state.move thread (.asleep cond after)).total weight < _
      omega
  | signal here action sleeps =>
      rename_i thread sleeper loc after later cond
      have falls := tires.falls loc
      rw [Falls, action] at falls
      have different : thread ≠ sleeper := by
        rintro rfl
        rw [here] at sleeps
        cases sleeps
      have woken := state.total_move weight sleeper (.woken later)
      have moved := (state.move sleeper (.woken later)).total_move weight thread
        (.active after)
      have still : (state.move sleeper (.woken later)).status thread = .active loc := by
        simp only [State.move, Function.update_of_ne different, here]
      rw [still] at moved
      rw [sleeps] at woken
      have less := falls.2 later
      omega
  | signalNobody here action nobody =>
      rename_i thread loc after cond
      have falls := tires.falls loc
      have moved := state.total_move weight thread (.active after)
      rw [Falls, action] at falls
      rw [here] at moved
      have less := falls.1
      omega
  | unlock here action =>
      rename_i thread loc after event
      have falls := tires.falls loc
      have moved := state.total_move weight thread (.active after)
      rw [Falls, action] at falls
      rw [here] at moved
      change (state.move thread (.active after)).total weight < _
      omega
  | resume here free =>
      rename_i thread after
      have falls := tires.resumes after
      have moved := state.total_move weight thread (.active after)
      rw [here] at moved
      change (state.move thread (.active after)).total weight < _
      omega

theorem Goes.le_total {start : State Thread Shared Cond Loc} {count : Nat}
    (tires : Tires program weight) (goes : Goes program start count state) :
    count + state.total weight ≤ start.total weight := by
  induction goes with
  | refl => exact Nat.le_of_eq (Nat.zero_add _)
  | tail goes progress ih =>
      have less := progress.total_lt tires
      omega

/-- Left alone, the threads come to rest. -/
theorem exists_stuck (tires : Tires program weight) (start : State Thread Shared Cond Loc) :
    ∃ count state, Goes program start count state ∧ Stuck program state := by
  by_contra never
  have further : ∀ count, ∃ state, Goes program start count state := by
    intro count
    induction count with
    | zero => exact ⟨start, .refl start⟩
    | succ count ih =>
        rcases ih with ⟨state, goes⟩
        by_contra last
        apply never
        refine ⟨count, state, goes, fun event next progress => last ⟨next, goes.tail progress⟩⟩
  obtain ⟨state, goes⟩ := further (start.total weight + 1)
  have bound := goes.le_total tires
  omega

end Rest

end Monitor
