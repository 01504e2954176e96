import Yfs.Fifo
import Yfs.Library.Machine

/-!
# Runs of the bounded queue

Whatever the threads do and in whatever order, every operation takes effect at one
moment between its call and its return, as an operation on a plain list; the queue is
never longer than its limit; and a thread sleeps for good only on a queue that is full
or empty.
-/

namespace Yfs.Fifo

open Monitor

variable {T Thread : Type}

/-- The locations under the lock. -/
def Inside : Loc T → Prop
  | .outside => False
  | .enter _ => False
  | _ => True

theorem inside_body (op : Op T) : Inside op.body := by
  cases op <;> trivial

theorem disciplined (limit : Limit) : Disciplined (program (T := T) limit) Inside where
  keeps := by
    intro loc
    cases loc with
    | outside => exact fun never => never
    | enter op => exact ⟨fun never => never, inside_body op⟩
    | enq e blocking =>
        refine ⟨trivial, fun q => ?_⟩
        unfold enqRound
        split
        · trivial
        · split
          · trivial
          · trivial
    | enqWait e blocking => exact ⟨trivial, trivial⟩
    | enqSignal => exact ⟨trivial, trivial⟩
    | deq =>
        refine ⟨trivial, fun q => ?_⟩
        cases q with
        | nil => trivial
        | cons e rest =>
            unfold deqRound
            dsimp only
            split
            · trivial
            · trivial
    | deqWait => exact ⟨trivial, trivial⟩
    | deqSignal e => exact ⟨trivial, trivial⟩
    | size => exact ⟨trivial, fun q => trivial⟩
    | leave result => exact ⟨trivial, fun never => never⟩
  outside := fun _ never => never

/-- Where `deq` goes with what it has taken. -/
def taken (limit : Limit) (e : T) (rest : List T) : Loc T :=
  if limit ≠ 0 ∧ rest.length < limit then .deqSignal e else .leave (.deq e)

variable [DecidableEq Thread]

/-- The steps of the queue. -/
inductive Move (limit : Limit) (state : State Thread (List T) Cond (Loc T)) :
    Option (Thread × Event T) → State Thread (List T) Cond (Loc T) → Prop
  | enter {thread : Thread} {op : Op T} (here : state.status thread = .active (.enter op))
      (free : state.owner = none) :
      Move limit state none { state.move thread (.active op.body) with owner := some thread }
  | push {thread : Thread} {e : T} {blocking : Bool}
      (here : state.status thread = .active (.enq e blocking))
      (space : HasSpace limit state.shared) :
      Move limit state (some (thread, .effect (.enq e blocking) (.enq true)))
        { state.move thread (.active .enqSignal) with shared := state.shared ++ [e] }
  | block {thread : Thread} {e : T} (here : state.status thread = .active (.enq e true))
      (full : ¬HasSpace limit state.shared) :
      Move limit state none (state.move thread (.active (.enqWait e true)))
  | refuse {thread : Thread} {e : T} (here : state.status thread = .active (.enq e false))
      (full : ¬HasSpace limit state.shared) :
      Move limit state (some (thread, .effect (.enq e false) (.enq false)))
        (state.move thread (.active (.leave (.enq false))))
  | pop {thread : Thread} {e : T} {rest : List T}
      (here : state.status thread = .active .deq) (first : state.shared = e :: rest) :
      Move limit state (some (thread, .effect .deq (.deq e)))
        { state.move thread (.active (taken limit e rest)) with shared := rest }
  | starve {thread : Thread} (here : state.status thread = .active .deq)
      (empty : state.shared = []) :
      Move limit state none (state.move thread (.active .deqWait))
  | look {thread : Thread} (here : state.status thread = .active .size) :
      Move limit state
        (some (thread, .effect .size (.size (state.shared.length ≠ 0))))
        (state.move thread (.active (.leave (.size (state.shared.length ≠ 0)))))
  | sleepFull {thread : Thread} {e : T} {blocking : Bool}
      (here : state.status thread = .active (.enqWait e blocking)) :
      Move limit state none
        { state.move thread (.asleep .hasSpace (.enq e blocking)) with owner := none }
  | sleepEmpty {thread : Thread} (here : state.status thread = .active .deqWait) :
      Move limit state none { state.move thread (.asleep .nonEmpty .deq) with owner := none }
  | wake {thread sleeper : Thread} {loc next later : Loc T} {cond : Cond}
      (here : state.status thread = .active loc)
      (signals : (program limit).action loc = .signal cond next)
      (sleeps : state.status sleeper = .asleep cond later) :
      Move limit state none ((state.move sleeper (.woken later)).move thread (.active next))
  | wakeNobody {thread : Thread} {loc next : Loc T} {cond : Cond}
      (here : state.status thread = .active loc)
      (signals : (program limit).action loc = .signal cond next)
      (nobody : ∀ other later, state.status other ≠ .asleep cond later) :
      Move limit state none (state.move thread (.active next))
  | ret {thread : Thread} {result : Result T}
      (here : state.status thread = .active (.leave result)) :
      Move limit state (some (thread, .ret result))
        { state.move thread (.active .outside) with owner := none }
  | resume {thread : Thread} {next : Loc T} (here : state.status thread = .woken next)
      (free : state.owner = none) :
      Move limit state none { state.move thread (.active next) with owner := some thread }
  | call {thread : Thread} (op : Op T) (here : state.status thread = .active .outside) :
      Move limit state (some (thread, .call op)) (state.move thread (.active (.enter op)))
  | spurious {thread : Thread} {next : Loc T} {cond : Cond}
      (here : state.status thread = .asleep cond next) :
      Move limit state none (state.move thread (.woken next))

variable {limit : Limit} {state next : State Thread (List T) Cond (Loc T)}
variable {event : Option (Thread × Event T)}

theorem progress_move (progress : Progress (program limit) state event next) :
    Move limit state event next := by
  cases progress with
  | lock here action free =>
      rename_i thread loc after
      cases loc <;> cases action
      exact .enter here free
  | update here action =>
      rename_i thread loc compute
      cases loc <;> cases action
      · rename_i e blocking
        unfold enqRound
        split
        · rename_i space
          exact .push here space
        · rename_i full
          cases blocking with
          | true => exact .block here full
          | false => exact .refuse here full
      · rcases state with ⟨q, owner, status⟩
        cases q with
        | nil => exact .starve here rfl
        | cons e rest => exact .pop here rfl
      · exact .look here
  | wait here action =>
      rename_i thread loc after cond
      cases loc <;> cases action
      · exact .sleepFull here
      · exact .sleepEmpty here
  | signal here action sleeps => exact .wake here action sleeps
  | signalNobody here action nobody => exact .wakeNobody here action nobody
  | unlock here action =>
      rename_i thread loc after event
      cases loc <;> cases action
      exact .ret here
  | resume here free => exact .resume here free

/-- Every step is one of the moves. -/
theorem step_move (step : Step (program limit) state event next) :
    Move limit state event next := by
  cases step with
  | progress progress => exact progress_move progress
  | call op here action =>
      rename_i thread loc
      cases loc <;> cases action
      exact .call op here
  | spurious here => exact .spurious here

/-- What an operation does to a list, unless it has to wait. -/
def sequential (limit : Limit) (q : List T) : Op T → Except Unit (Result T × List T)
  | .enq e blocking =>
      if HasSpace limit q then .ok (.enq true, q ++ [e])
      else if blocking then .error ()
      else .ok (.enq false, q)
  | .deq =>
      match q with
      | [] => .error ()
      | e :: rest => .ok (.deq e, rest)
  | .size => .ok (.size (q.length ≠ 0), q)

/-- The operations that have taken effect, with their results. -/
def effects (events : List (Thread × Event T)) : List (Op T × Result T) :=
  events.filterMap fun event =>
    match event.2 with
    | .effect op result => some (op, result)
    | _ => none

/-- The effects are those of the operations one after another. -/
def Sequential (limit : Limit) (events : List (Thread × Event T)) (q : List T) : Prop :=
  Machine.run (sequential limit) [] ((effects events).map Prod.fst) =
    .ok ((effects events).map Prod.snd, q)

omit [DecidableEq Thread] in
theorem effects_append (events later : List (Thread × Event T)) :
    effects (events ++ later) = effects events ++ effects later :=
  List.filterMap_append

omit [DecidableEq Thread] in
/-- One more effect. -/
theorem Sequential.effect {events : List (Thread × Event T)} {q after : List T}
    (holds : Sequential limit events q) {thread : Thread} {op : Op T} {result : Result T}
    (does : sequential limit q op = .ok (result, after)) :
    Sequential limit (events ++ [(thread, .effect op result)]) after := by
  rw [Sequential, effects_append, List.map_append, List.map_append]
  exact Machine.run_append holds (Machine.run_cons does rfl)

omit [DecidableEq Thread] in
/-- No effect. -/
theorem Sequential.quiet {events later : List (Thread × Event T)} {q : List T}
    (holds : Sequential limit events q) (none : effects later = []) :
    Sequential limit (events ++ later) q := by
  rw [Sequential, effects_append, none, List.append_nil]
  exact holds

theorem Sequential.move {events : List (Thread × Event T)}
    (holds : Sequential limit events state.shared) (move : Move limit state event next) :
    Sequential limit (events ++ event.toList) next.shared := by
  cases move with
  | push here space =>
      apply holds.effect
      exact if_pos space
  | refuse here full =>
      apply holds.effect
      exact if_neg full
  | pop here first =>
      apply holds.effect
      rw [first]
      rfl
  | look here => exact holds.effect rfl
  | enter here free => exact holds.quiet rfl
  | block here full => exact holds.quiet rfl
  | starve here empty => exact holds.quiet rfl
  | sleepFull here => exact holds.quiet rfl
  | sleepEmpty here => exact holds.quiet rfl
  | wake here signals sleeps => exact holds.quiet rfl
  | wakeNobody here signals nobody => exact holds.quiet rfl
  | ret here => exact holds.quiet rfl
  | resume here free => exact holds.quiet rfl
  | call op here => exact holds.quiet rfl
  | spurious here => exact holds.quiet rfl

/-- How far the present operation of a thread is. -/
inductive Phase (T : Type)
  | resting
  | called (op : Op T)
  | effected (op : Op T) (result : Result T)

/-- The events of one thread: calls that take effect once and return what the effect
was. -/
inductive History : List (Event T) → Phase T → Prop
  | nil : History [] .resting
  | call {events} (op : Op T) (history : History events .resting) :
      History (events ++ [.call op]) (.called op)
  | effect {events} {op : Op T} (result : Result T) (history : History events (.called op)) :
      History (events ++ [.effect op result]) (.effected op result)
  | ret {events} {op : Op T} {result : Result T}
      (history : History events (.effected op result)) :
      History (events ++ [.ret result]) .resting

/-- The phase that a location of the code belongs to. -/
def Loc.InPhase : Loc T → Phase T → Prop
  | .outside, phase => phase = .resting
  | .enter op, phase => phase = .called op
  | .enq e blocking, phase => phase = .called (.enq e blocking)
  | .enqWait e blocking, phase => phase = .called (.enq e blocking)
  | .enqSignal, phase => ∃ op, phase = .effected op (.enq true)
  | .deq, phase => phase = .called .deq
  | .deqWait, phase => phase = .called .deq
  | .deqSignal e, phase => ∃ op, phase = .effected op (.deq e)
  | .size, phase => phase = .called .size
  | .leave result, phase => ∃ op, phase = .effected op result

/-- Where the thread is, or where it will go on. -/
def loc : Monitor.Status Cond (Loc T) → Loc T
  | .active loc => loc
  | .asleep _ next => next
  | .woken next => next

def eventsOf (thread : Thread) (events : List (Thread × Event T)) : List (Event T) :=
  (events.filter (·.1 = thread)).map Prod.snd

/-- Every thread is where its events have led it. -/
def Ordered (events : List (Thread × Event T))
    (state : State Thread (List T) Cond (Loc T)) : Prop :=
  ∀ thread, ∃ phase, History (eventsOf thread events) phase ∧
    (loc (state.status thread)).InPhase phase

omit [DecidableEq Thread] in
theorem eventsOf_append [DecidableEq Thread] (thread : Thread)
    (events later : List (Thread × Event T)) :
    eventsOf thread (events ++ later) = eventsOf thread events ++ eventsOf thread later := by
  rw [eventsOf, List.filter_append, List.map_append]
  rfl

section Ordered

variable {events : List (Thread × Event T)} {thread : Thread}
  {status : Monitor.Status Cond (Loc T)}

/-- A thread goes on without an event. -/
theorem Ordered.quiet (ordered : Ordered events state)
    (same : ∀ phase, (loc (state.status thread)).InPhase phase → (loc status).InPhase phase) :
    Ordered (events ++ []) (state.move thread status) := by
  rw [List.append_nil]
  intro other
  obtain ⟨phase, history, inPhase⟩ := ordered other
  refine ⟨phase, history, ?_⟩
  by_cases equal : other = thread
  · subst equal
    simpa only [State.move, Function.update_self] using same phase inPhase
  · simpa only [State.move, Function.update_of_ne equal] using inPhase

/-- A thread goes on with an event. -/
theorem Ordered.shows (ordered : Ordered events state) {shown : Event T}
    (goes : ∀ phase, History (eventsOf thread events) phase →
      (loc (state.status thread)).InPhase phase →
        ∃ after, History (eventsOf thread events ++ [shown]) after ∧
          (loc status).InPhase after) :
    Ordered (events ++ [(thread, shown)]) (state.move thread status) := by
  intro other
  obtain ⟨phase, history, inPhase⟩ := ordered other
  rw [eventsOf_append]
  by_cases equal : other = thread
  · subst equal
    have mine : eventsOf other [(other, shown)] = [shown] := by
      simp only [eventsOf, decide_true, List.filter_cons_of_pos, List.filter_nil,
        List.map_cons, List.map_nil]
    rw [mine]
    simpa only [State.move, Function.update_self] using goes phase history inPhase
  · have others : eventsOf other [(thread, shown)] = [] := by
      have notMine : ¬thread = other := fun same => equal same.symm
      simp only [eventsOf, notMine, decide_false, Bool.false_eq_true, not_false_eq_true,
        List.filter_cons_of_neg, List.filter_nil, List.map_nil]
    rw [others, List.append_nil]
    refine ⟨phase, history, ?_⟩
    simpa only [State.move, Function.update_of_ne equal] using inPhase

/-- A thread that has called an operation goes on with its effect. -/
theorem Ordered.takesEffect (ordered : Ordered events state) {op : Op T} {result : Result T}
    (was : ∀ phase, (loc (state.status thread)).InPhase phase → phase = .called op)
    (becomes : (loc status).InPhase (.effected op result)) :
    Ordered (events ++ [(thread, .effect op result)]) (state.move thread status) := by
  apply ordered.shows
  intro phase history inPhase
  obtain rfl := was phase inPhase
  exact ⟨_, history.effect result, becomes⟩

theorem Ordered.move (ordered : Ordered events state) (move : Move limit state event next) :
    Ordered (events ++ event.toList) next := by
  cases move with
  | enter here free =>
      rename_i thread op
      apply ordered.quiet
      rw [here]
      intro phase inPhase
      cases op <;> exact inPhase
  | push here space =>
      apply ordered.takesEffect
      · rw [here]
        exact fun _ inPhase => inPhase
      · exact ⟨_, rfl⟩
  | block here full =>
      apply ordered.quiet
      rw [here]
      exact fun _ inPhase => inPhase
  | refuse here full =>
      apply ordered.takesEffect
      · rw [here]
        exact fun _ inPhase => inPhase
      · exact ⟨_, rfl⟩
  | pop here first =>
      apply ordered.takesEffect
      · rw [here]
        exact fun _ inPhase => inPhase
      · rw [taken, loc]
        split
        · exact ⟨_, rfl⟩
        · exact ⟨_, rfl⟩
  | starve here empty =>
      apply ordered.quiet
      rw [here]
      exact fun _ inPhase => inPhase
  | look here =>
      apply ordered.takesEffect
      · rw [here]
        exact fun _ inPhase => inPhase
      · exact ⟨_, rfl⟩
  | sleepFull here =>
      apply ordered.quiet
      rw [here]
      exact fun _ inPhase => inPhase
  | sleepEmpty here =>
      apply ordered.quiet
      rw [here]
      exact fun _ inPhase => inPhase
  | wake here signals sleeps =>
      rename_i thread sleeper before after later cond
      have different : thread ≠ sleeper := by
        rintro rfl
        rw [here] at sleeps
        cases sleeps
      have woken : Ordered (events ++ []) (state.move sleeper (.woken later)) := by
        apply ordered.quiet
        rw [sleeps]
        exact fun _ inPhase => inPhase
      rw [List.append_nil] at woken
      apply woken.quiet
      simp only [State.move, Function.update_of_ne different, here]
      cases before <;> cases signals
      · exact fun _ inPhase => inPhase
      · exact fun _ inPhase => inPhase
  | wakeNobody here signals nobody =>
      rename_i thread before after cond
      apply ordered.quiet
      rw [here]
      cases before <;> cases signals
      · exact fun _ inPhase => inPhase
      · exact fun _ inPhase => inPhase
  | ret here =>
      apply ordered.shows
      rw [here]
      rintro phase history ⟨op, rfl⟩
      exact ⟨_, history.ret, rfl⟩
  | resume here free =>
      apply ordered.quiet
      rw [here]
      exact fun _ inPhase => inPhase
  | call op here =>
      apply ordered.shows
      rw [here]
      rintro phase history rfl
      exact ⟨_, history.call op, rfl⟩
  | spurious here =>
      apply ordered.quiet
      rw [here]
      exact fun _ inPhase => inPhase

end Ordered

section Runs

variable {events : List (Thread × Event T)}

theorem sequential_of_run (run : Run (program limit) init events state) :
    Sequential limit events state.shared := by
  apply run.preserves fun events state => Sequential limit events state.shared
  · rfl
  · intro events state event next holds step
    exact holds.move (step_move step)

theorem ordered_of_run (run : Run (program limit) init events state) :
    Ordered events state := by
  apply run.preserves Ordered
  · exact fun _ => ⟨.resting, .nil, rfl⟩
  · intro events state event next holds step
    exact holds.move (step_move step)

theorem exclusive_of_run (run : Run (program limit) init events state) :
    Exclusive Inside state := by
  apply run.preserves fun _ state => Exclusive Inside state
  · have outside : ¬Inside (Loc.outside : Loc T) := fun never => never
    exact .of_outside outside rfl fun _ => rfl
  · intro events state event next holds step
    exact holds.step (disciplined limit) step

/-- A run in which one thread waits for an element that another one puts in. -/
def handover : List (Fin 2 × Event Nat) :=
  [(0, .call .deq), (1, .call (.enq 5 true)), (1, .effect (.enq 5 true) (.enq true)),
    (1, .ret (.enq true)), (0, .effect .deq (.deq 5)), (0, .ret (.deq 5))]

/-- The first thread waits. -/
theorem starved_run : ∃ state, Run (program 1) (init : State (Fin 2) (List Nat) Cond (Loc Nat))
    [(0, .call .deq)] state ∧ state.shared = [] ∧ state.owner = none ∧
      state.status 0 = .asleep .nonEmpty .deq ∧ state.status 1 = .active .outside := by
  have start : Run (program 1) (init : State (Fin 2) (List Nat) Cond (Loc Nat)) [] init :=
    .refl init
  have called := start.tail
    (.call .deq (rfl : State.status _ (0 : Fin 2) = .active Loc.outside) rfl)
  have entered := called.tail (.progress (.lock
    (rfl : State.status _ (0 : Fin 2) = .active (Loc.enter .deq)) rfl rfl))
  have starved := entered.tail (.progress (.update
    (rfl : State.status _ (0 : Fin 2) = .active Loc.deq) rfl))
  have slept := starved.tail (.progress (.wait
    (rfl : State.status _ (0 : Fin 2) = .active Loc.deqWait) rfl))
  exact ⟨_, slept, rfl, rfl, rfl, rfl⟩

theorem handover_run : ∃ state,
    Run (program 1) (init : State (Fin 2) (List Nat) Cond (Loc Nat)) handover state := by
  obtain ⟨⟨shared, owner, status⟩, starved, empty, free, sleeps, outside⟩ := starved_run
  dsimp only at empty free sleeps outside
  subst empty free
  have offered := starved.tail (.call (.enq 5 true) outside rfl)
  have locked := offered.tail (.progress (.lock
    (rfl : State.status _ (1 : Fin 2) = .active (Loc.enter (.enq 5 true))) rfl rfl))
  have pushed := locked.tail (.progress (.update
    (rfl : State.status _ (1 : Fin 2) = .active (Loc.enq 5 true)) rfl))
  have signalled := pushed.tail (.progress (.signal
    (rfl : State.status _ (1 : Fin 2) = .active Loc.enqSignal) rfl
    (sleeps : State.status _ (0 : Fin 2) = .asleep Cond.nonEmpty Loc.deq)))
  have left := signalled.tail (.progress (.unlock
    (rfl : State.status _ (1 : Fin 2) = .active (Loc.leave (.enq true))) rfl))
  have resumed := left.tail (.progress (.resume
    (rfl : State.status _ (0 : Fin 2) = .woken Loc.deq) rfl))
  have popped := resumed.tail (.progress (.update
    (rfl : State.status _ (0 : Fin 2) = .active Loc.deq) rfl))
  have nobody := popped.tail (.progress (.signalNobody
    (rfl : State.status _ (0 : Fin 2) = .active (Loc.deqSignal 5)) rfl
    (Fin.forall_fin_two.mpr ⟨by rintro later ⟨⟩, by rintro later ⟨⟩⟩)))
  exact ⟨_, nobody.tail (.progress (.unlock
    (rfl : State.status _ (0 : Fin 2) = .active (Loc.leave (.deq 5))) rfl))⟩

/-- In every run, the operations take effect one after another as on a plain list, each
between its call and its return, which reports what the effect was. -/
theorem fifo_linearizable (limit : Limit)
    (run : Run (program limit) (init : State Thread (List T) Cond (Loc T)) events state) :
    Sequential limit events state.shared ∧
      ∀ thread, ∃ phase, History (eventsOf thread events) phase := by
  refine ⟨sequential_of_run run, fun thread => ?_⟩
  obtain ⟨phase, history, -⟩ := ordered_of_run run thread
  exact ⟨phase, history⟩

theorem handover_linearizable : ∃ state : State (Fin 2) (List Nat) Cond (Loc Nat),
    Sequential 1 handover state.shared ∧
      ∀ thread, ∃ phase, History (eventsOf thread handover) phase := by
  obtain ⟨state, run⟩ := handover_run
  exact ⟨state, fifo_linearizable 1 run⟩

end Runs

/-- The elements that `enq` has put into the queue. -/
def enqueued (effects : List (Op T × Result T)) : List T :=
  effects.filterMap fun
    | (.enq e _, .enq true) => some e
    | _ => none

/-- The elements that `deq` has taken out of it. -/
def dequeued (effects : List (Op T × Result T)) : List T :=
  effects.filterMap fun
    | (.deq, .deq e) => some e
    | _ => none

omit [DecidableEq Thread] in
theorem sequential_order {ops : List (Op T × Result T)} {q after : List T}
    (run : Machine.run (sequential limit) q (ops.map Prod.fst) =
      .ok (ops.map Prod.snd, after)) :
    q ++ enqueued ops = dequeued ops ++ after := by
  induction ops generalizing q with
  | nil =>
      cases run
      exact List.append_nil _
  | cons entry rest ih =>
      rcases entry with ⟨op, result⟩
      obtain ⟨same, middle, later, first, remaining, equal⟩ := Machine.run_cons_ok run
      cases equal
      have order := ih remaining
      cases op with
      | enq e blocking =>
          rw [sequential] at first
          split at first
          · cases first
            change q ++ e :: enqueued rest = dequeued rest ++ after
            rw [← order, List.append_assoc]
            rfl
          · split at first
            · cases first
            · cases first
              exact order
      | deq =>
          cases q with
          | nil => cases first
          | cons e others =>
              cases first
              change e :: (_ ++ enqueued rest) = e :: (dequeued rest ++ after)
              rw [order]
      | size =>
          cases first
          exact order

omit [DecidableEq Thread] in
theorem sequential_capacity {ops : List (Op T)} {results : List (Result T)} {after : List T}
    (run : Machine.run (sequential limit) [] ops = .ok (results, after)) :
    limit = 0 ∨ after.length ≤ limit := by
  apply Machine.run_preserves (fun q : List T => limit = 0 ∨ q.length ≤ limit) _
    (Or.inr (Nat.zero_le _)) run
  intro q op result next holds first
  cases op with
  | enq e blocking =>
      rw [sequential] at first
      split at first
      · rename_i space
        cases first
        rw [List.length_append, List.length_singleton]
        exact space
      · split at first
        · cases first
        · cases first
          exact holds
  | deq =>
      cases q with
      | nil => cases first
      | cons e others =>
          cases first
          rcases holds with unlimited | short
          · exact Or.inl unlimited
          · exact Or.inr (Nat.le_of_succ_le short)
  | size =>
      cases first
      exact holds

/-- In every run, at most one thread is in the code under the lock, what is taken out is
what was put in, in order, and the queue keeps to its limit. -/
theorem fifo_safe (limit : Limit) {events : List (Thread × Event T)}
    (run : Run (program limit) init events state) :
    (∀ first second, (state.status first).Inside Inside →
        (state.status second).Inside Inside → first = second) ∧
      enqueued (effects events) = dequeued (effects events) ++ state.shared ∧
      (limit = 0 ∨ state.shared.length ≤ limit) := by
  have exclusive := exclusive_of_run run
  have sequential := sequential_of_run run
  refine ⟨fun first second => exclusive.unique, ?_, sequential_capacity sequential⟩
  exact sequential_order sequential

theorem handover_safe : ∃ state : State (Fin 2) (List Nat) Cond (Loc Nat),
    (∀ first second, (state.status first).Inside Inside →
        (state.status second).Inside Inside → first = second) ∧
      enqueued (effects handover) = dequeued (effects handover) ++ state.shared ∧
      (1 = 0 ∨ state.shared.length ≤ 1) := by
  obtain ⟨state, run⟩ := handover_run
  exact ⟨state, fifo_safe 1 run⟩

end Yfs.Fifo
