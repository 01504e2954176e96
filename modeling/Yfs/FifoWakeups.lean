import Yfs.FifoRuns

/-!
# Wake-ups of the bounded queue

A signal wakes one thread only, and another thread may take the element before the
one that was woken.  Still no wake-up is lost: while a thread sleeps for an element,
there are as many threads on their way to the queue, or about to wake one, as there
are elements, and the same holds for free places.
-/

namespace Yfs.Fifo

open Monitor

variable {T Thread : Type}

/-- A thread that will look for an element, or wake one that does. -/
def takers : Monitor.Status Cond (Loc T) → Nat
  | .active (.enter .deq) => 1
  | .active .deq => 1
  | .active .enqSignal => 1
  | .woken .deq => 1
  | _ => 0

/-- A thread that will look for a free place, or wake one that does. -/
def givers : Monitor.Status Cond (Loc T) → Nat
  | .active (.enter (.enq _ _)) => 1
  | .active (.enq _ _) => 1
  | .active (.deqSignal _) => 1
  | .woken (.enq _ _) => 1
  | _ => 0

/-- Where a thread that waits is, and what it has seen. -/
def Placed (limit : Limit) (q : List T) : Monitor.Status Cond (Loc T) → Prop
  | .active .deqWait => q = []
  | .active (.enqWait _ blocking) => blocking = true ∧ ¬HasSpace limit q
  | .asleep .nonEmpty next => next = .deq
  | .asleep .hasSpace next => limit ≠ 0 ∧ ∃ e, next = .enq e true
  | .woken next => next = .deq ∨ ∃ e, next = .enq e true
  | _ => True

/-- Outside the lock a thread has not seen the queue. -/
theorem Placed.of_outside {limit : Limit} {q : List T} (later : List T)
    {status : Monitor.Status Cond (Loc T)} (placed : Placed limit q status)
    (outside : ¬status.Inside Inside) : Placed limit later status := by
  cases status with
  | active loc =>
      cases loc with
      | deqWait => exact absurd trivial outside
      | enqWait e blocking => exact absurd trivial outside
      | _ => trivial
  | asleep cond next => cases cond <;> exact placed
  | woken next => exact placed

variable [DecidableEq Thread] {limit : Limit}
variable {state next : State Thread (List T) Cond (Loc T)} {event : Option (Thread × Event T)}

section Places

/-- Every thread is placed. -/
def AllPlaced (limit : Limit) (state : State Thread (List T) Cond (Loc T)) : Prop :=
  ∀ thread, Placed limit state.shared (state.status thread)

theorem AllPlaced.keep (placed : AllPlaced limit state) {thread : Thread}
    {status : Monitor.Status Cond (Loc T)} (here : Placed limit state.shared status) :
    AllPlaced limit (state.move thread status) := by
  intro other
  by_cases equal : other = thread
  · subst equal
    simpa only [State.move, Function.update_self] using here
  · simpa only [State.move, Function.update_of_ne equal] using placed other

/-- A thread under the lock changes the queue. -/
theorem AllPlaced.change (placed : AllPlaced limit state) (exclusive : Exclusive Inside state)
    {thread : Thread} {status : Monitor.Status Cond (Loc T)} {later : List T}
    (was : (state.status thread).Inside Inside) (here : Placed limit later status) :
    AllPlaced limit { state.move thread status with shared := later } := by
  intro other
  by_cases equal : other = thread
  · subst equal
    simpa only [State.move, Function.update_self] using here
  · have outside : ¬(state.status other).Inside Inside :=
      fun isInside => equal (exclusive.unique isInside was)
    simpa only [State.move, Function.update_of_ne equal] using
      (placed other).of_outside later outside

theorem AllPlaced.move (placed : AllPlaced limit state) (exclusive : Exclusive Inside state)
    (move : Move limit state event next) : AllPlaced limit next := by
  cases move with
  | enter here free =>
      rename_i thread op
      apply placed.keep
      cases op <;> trivial
  | push here space =>
      apply placed.change exclusive
      · rw [here]
        trivial
      · trivial
  | block here full =>
      apply placed.keep
      exact ⟨rfl, full⟩
  | refuse here full =>
      apply placed.keep
      trivial
  | pop here first =>
      apply placed.change exclusive
      · rw [here]
        trivial
      · rw [taken]
        split
        · trivial
        · trivial
  | starve here empty =>
      apply placed.keep
      exact empty
  | look here =>
      apply placed.keep
      trivial
  | sleepFull here =>
      rename_i thread e blocking
      apply placed.keep
      have waits := placed thread
      rw [here] at waits
      obtain ⟨rfl, full⟩ := waits
      exact ⟨fun unlimited => full (Or.inl unlimited), e, rfl⟩
  | sleepEmpty here =>
      apply placed.keep
      rfl
  | wake here signals sleeps =>
      rename_i thread sleeper before after later cond
      have waits := placed sleeper
      rw [sleeps] at waits
      apply AllPlaced.keep
      · apply placed.keep
        cases cond with
        | nonEmpty => exact Or.inl waits
        | hasSpace => exact Or.inr waits.2
      · cases before <;> cases signals <;> trivial
  | wakeNobody here signals nobody =>
      rename_i thread before after cond
      apply placed.keep
      cases before <;> cases signals <;> trivial
  | ret here =>
      apply placed.keep
      trivial
  | resume here free =>
      rename_i thread after
      apply placed.keep
      have waits := placed thread
      rw [here] at waits
      rcases waits with rfl | ⟨e, rfl⟩
      · trivial
      · trivial
  | call op here =>
      apply placed.keep
      trivial
  | spurious here =>
      rename_i thread after cond
      apply placed.keep
      have waits := placed thread
      rw [here] at waits
      cases cond with
      | nonEmpty => exact Or.inl waits
      | hasSpace => exact Or.inr waits.2

end Places

section Supplies

variable [Fintype Thread]

/-- While a thread sleeps on the condition, enough threads are under way. -/
def Supplied (cond : Cond) (weight : Monitor.Status Cond (Loc T) → Nat) (need : Nat)
    (state : State Thread (List T) Cond (Loc T)) : Prop :=
  ∀ thread next, state.status thread = .asleep cond next → need ≤ state.total weight

variable {cond : Cond} {weight : Monitor.Status Cond (Loc T) → Nat} {need later : Nat}

omit [DecidableEq Thread] in
theorem Supplied.of_zero (none : need = 0) : Supplied cond weight need state := by
  intro thread next sleeps
  rw [none]
  exact Nat.zero_le _

/-- A move that does not put a thread to sleep on the condition. -/
theorem Supplied.keep (supplied : Supplied cond weight need state) (thread : Thread)
    (status : Monitor.Status Cond (Loc T)) (moves : next.status = (state.move thread status).status)
    (awake : ∀ after, status ≠ .asleep cond after)
    (covers : later + weight (state.status thread) ≤ need + weight status) :
    Supplied cond weight later next := by
  intro other after sleeps
  have moved := state.total_move weight thread status
  have same : next.total weight = (state.move thread status).total weight := by
    rw [State.total, moves]
    rfl
  rw [moves] at sleeps
  by_cases equal : other = thread
  · subst equal
    simp only [State.move, Function.update_self] at sleeps
    exact absurd sleeps (awake after)
  · simp only [State.move, Function.update_of_ne equal] at sleeps
    have enough := supplied other after sleeps
    omega

/-- A signal hands the weight of the signalling thread to the one that it wakes. -/
theorem Supplied.wake (supplied : Supplied cond weight need state) {thread sleeper : Thread}
    {before after later : Loc T} {other : Cond} (here : state.status thread = .active before)
    (sleeps : state.status sleeper = .asleep other later)
    (covers : weight (.active before) + weight (.asleep other later) ≤
      weight (.active after) + weight (.woken later)) :
    Supplied cond weight need
      ((state.move sleeper (.woken later)).move thread (.active after)) := by
  have different : thread ≠ sleeper := by
    rintro rfl
    rw [here] at sleeps
    cases sleeps
  intro third next rests
  have isThird : third ≠ thread ∧ third ≠ sleeper := by
    constructor
    · rintro rfl
      simp only [State.move, Function.update_self, reduceCtorEq] at rests
    · rintro rfl
      simp only [State.move, Function.update_of_ne different.symm, Function.update_self,
        reduceCtorEq] at rests
  simp only [State.move, Function.update_of_ne isThird.1, Function.update_of_ne isThird.2]
    at rests
  have enough := supplied third next rests
  have woken := state.total_move weight sleeper (.woken later)
  have moved := (state.move sleeper (.woken later)).total_move weight thread (.active after)
  have still : (state.move sleeper (.woken later)).status thread = .active before := by
    simp only [State.move, Function.update_of_ne different, here]
  rw [still] at moved
  rw [sleeps] at woken
  omega

/-- Nobody sleeps on the condition that is signalled. -/
theorem Supplied.wakeNobody {thread : Thread} {after : Loc T}
    (nobody : ∀ other later, state.status other ≠ .asleep cond later) :
    Supplied cond weight need (state.move thread (.active after)) := by
  intro other next sleeps
  by_cases equal : other = thread
  · subst equal
    simp only [State.move, Function.update_self, reduceCtorEq] at sleeps
  · simp only [State.move, Function.update_of_ne equal] at sleeps
    exact absurd sleeps (nobody other next)

/-- Elements are not left to threads that sleep. -/
theorem Supplied.move_takers
    (supplied : Supplied .nonEmpty takers state.shared.length state)
    (placed : AllPlaced limit state) (move : Move limit state event next) :
    Supplied .nonEmpty takers next.shared.length next := by
  cases move with
  | enter here free =>
      rename_i thread op
      apply supplied.keep thread (.active op.body) rfl (fun _ => by simp)
      rw [here]
      cases op <;> simp [takers, Op.body]
  | push here space =>
      rename_i thread e blocking
      apply supplied.keep thread (.active .enqSignal) rfl (fun _ => by simp)
      rw [here]
      simp [takers]
  | block here full =>
      rename_i thread e
      apply supplied.keep thread (.active (.enqWait e true)) rfl (fun _ => by simp)
      rw [here]
      simp [takers]
  | refuse here full =>
      rename_i thread e
      apply supplied.keep thread (.active (.leave (.enq false))) rfl (fun _ => by simp)
      rw [here]
      simp [takers]
  | pop here first =>
      rename_i thread e rest
      apply supplied.keep thread (.active (taken limit e rest)) rfl (fun _ => by simp)
      rw [here, first, taken]
      split <;> simp [takers]
  | starve here empty => exact Supplied.of_zero (congrArg List.length empty)
  | look here =>
      rename_i thread
      apply supplied.keep thread _ rfl (fun _ => by simp)
      rw [here]
      simp [takers]
  | sleepFull here =>
      rename_i thread e blocking
      apply supplied.keep thread (.asleep .hasSpace (.enq e blocking)) rfl (fun _ => by simp)
      rw [here]
      simp [takers]
  | sleepEmpty here =>
      rename_i thread
      have empty := placed thread
      rw [here] at empty
      exact Supplied.of_zero (congrArg List.length empty)
  | wake here signals sleeps =>
      rename_i thread sleeper before after later cond
      have waits := placed sleeper
      rw [sleeps] at waits
      apply supplied.wake here sleeps
      cases before <;> cases signals
      · rw [show later = .deq from waits]
        simp [takers]
      · simp [takers]
  | wakeNobody here signals nobody =>
      rename_i thread before after cond
      cases before <;> cases signals
      · exact Supplied.wakeNobody nobody
      · apply supplied.keep thread _ rfl (fun _ => by simp)
        rw [here]
        simp [takers]
  | ret here =>
      rename_i thread result
      apply supplied.keep thread (.active .outside) rfl (fun _ => by simp)
      rw [here]
      simp [takers]
  | resume here free =>
      rename_i thread after
      have waits := placed thread
      rw [here] at waits
      apply supplied.keep thread (.active after) rfl (fun _ => by simp)
      rw [here]
      rcases waits with rfl | ⟨e, rfl⟩
      · simp [takers]
      · simp [takers]
  | call op here =>
      rename_i thread
      apply supplied.keep thread (.active (.enter op)) rfl (fun _ => by simp)
      rw [here]
      simp [takers]
  | spurious here =>
      rename_i thread after cond
      apply supplied.keep thread (.woken after) rfl (fun _ => by simp)
      rw [here]
      simp [takers]

theorem full_iff {q : List T} : ¬HasSpace limit q ↔ limit ≠ 0 ∧ limit ≤ q.length := by
  rw [HasSpace, not_or, Nat.not_lt]

/-- Free places are not left to threads that sleep. -/
theorem Supplied.move_givers
    (supplied : Supplied .hasSpace givers (limit - state.shared.length) state)
    (placed : AllPlaced limit state) (move : Move limit state event next) :
    Supplied .hasSpace givers (limit - next.shared.length) next := by
  cases move with
  | enter here free =>
      rename_i thread op
      apply supplied.keep thread (.active op.body) rfl (fun _ => by simp)
      rw [here]
      cases op <;> simp [givers, Op.body]
  | push here space =>
      rename_i thread e blocking
      rcases space with rfl | space
      · exact Supplied.of_zero (Nat.zero_sub _)
      · apply supplied.keep thread (.active .enqSignal) rfl (fun _ => by simp)
        rw [here]
        simp only [givers, List.length_append, List.length_singleton]
        omega
  | block here full => exact Supplied.of_zero (Nat.sub_eq_zero_of_le (full_iff.mp full).2)
  | refuse here full => exact Supplied.of_zero (Nat.sub_eq_zero_of_le (full_iff.mp full).2)
  | pop here first =>
      rename_i thread e rest
      by_cases signals : limit ≠ 0 ∧ rest.length < limit
      · have next : taken limit e rest = .deqSignal e := if_pos signals
        apply supplied.keep thread (.active (taken limit e rest)) rfl (fun _ => by simp)
        rw [here, first, next]
        simp only [givers, List.length_cons]
        omega
      · rw [not_and_or, not_not, Nat.not_lt] at signals
        rcases signals with unlimited | full
        · rw [unlimited]
          exact Supplied.of_zero (Nat.zero_sub _)
        · exact Supplied.of_zero (Nat.sub_eq_zero_of_le full)
  | starve here empty =>
      rename_i thread
      apply supplied.keep thread (.active .deqWait) rfl (fun _ => by simp)
      rw [here]
      simp [givers]
  | look here =>
      rename_i thread
      apply supplied.keep thread _ rfl (fun _ => by simp)
      rw [here]
      simp [givers]
  | sleepFull here =>
      rename_i thread e blocking
      have waits := placed thread
      rw [here] at waits
      exact Supplied.of_zero (Nat.sub_eq_zero_of_le (full_iff.mp waits.2).2)
  | sleepEmpty here =>
      rename_i thread
      apply supplied.keep thread (.asleep .nonEmpty .deq) rfl (fun _ => by simp)
      rw [here]
      simp [givers]
  | wake here signals sleeps =>
      rename_i thread sleeper before after later cond
      have waits := placed sleeper
      rw [sleeps] at waits
      apply supplied.wake here sleeps
      cases before <;> cases signals
      · simp [givers]
      · obtain ⟨-, e, rfl⟩ := waits
        simp [givers]
  | wakeNobody here signals nobody =>
      rename_i thread before after cond
      cases before <;> cases signals
      · apply supplied.keep thread _ rfl (fun _ => by simp)
        rw [here]
        simp [givers]
      · exact Supplied.wakeNobody nobody
  | ret here =>
      rename_i thread result
      apply supplied.keep thread (.active .outside) rfl (fun _ => by simp)
      rw [here]
      simp [givers]
  | resume here free =>
      rename_i thread after
      have waits := placed thread
      rw [here] at waits
      apply supplied.keep thread (.active after) rfl (fun _ => by simp)
      rw [here]
      rcases waits with rfl | ⟨e, rfl⟩
      · simp [givers]
      · simp [givers]
  | call op here =>
      rename_i thread
      apply supplied.keep thread (.active (.enter op)) rfl (fun _ => by simp)
      rw [here]
      simp [givers]
  | spurious here =>
      rename_i thread after cond
      apply supplied.keep thread (.woken after) rfl (fun _ => by simp)
      rw [here]
      simp [givers]

end Supplies

section Rest

variable [Fintype Thread]

/-- What holds in every reachable state. -/
structure Sound (limit : Limit) (state : State Thread (List T) Cond (Loc T)) : Prop where
  exclusive : Exclusive Inside state
  placed : AllPlaced limit state
  elements : Supplied .nonEmpty takers state.shared.length state
  places : Supplied .hasSpace givers (limit - state.shared.length) state

omit [DecidableEq Thread] in
theorem sound_init : Sound limit (init : State Thread (List T) Cond (Loc T)) where
  exclusive := by
    have outside : ¬Inside (Loc.outside : Loc T) := fun never => never
    exact .of_outside outside rfl fun _ => rfl
  placed := fun _ => trivial
  elements := Supplied.of_zero rfl
  places := by
    intro thread next sleeps
    cases sleeps

theorem Sound.step (sound : Sound limit state) (step : Step (program limit) state event next) :
    Sound limit next := by
  have move := step_move step
  exact
    { exclusive := sound.exclusive.step (disciplined limit) step
      placed := sound.placed.move sound.exclusive move
      elements := sound.elements.move_takers sound.placed move
      places := sound.places.move_givers sound.placed move }

theorem sound_of_run {events : List (Thread × Event T)}
    (run : Run (program limit) init events state) : Sound limit state := by
  apply run.preserves fun _ state => Sound limit state
  · exact sound_init
  · intro events state event next holds step
    exact holds.step step

/-- When no thread can go on, every operation has returned, or waits for good reason:
`deq` because the queue is empty, `enq` because it is full and blocking was asked for. -/
theorem fifo_wakes_everyone (limit : Limit) {events : List (Thread × Event T)}
    (run : Run (program limit) init events state) (stuck : Stuck (program limit) state)
    (thread : Thread) :
    state.status thread = .active .outside ∨
      (state.status thread = .asleep .nonEmpty .deq ∧ state.shared = []) ∨
      ∃ e, state.status thread = .asleep .hasSpace (.enq e true) ∧
        limit ≠ 0 ∧ state.shared.length = limit := by
  have sound := sound_of_run run
  obtain ⟨-, rests⟩ := stuck.rests (disciplined limit) sound.exclusive
  have idle : ∀ loc : Loc T, (program limit).action loc = .idle → loc = .outside := by
    intro loc action
    cases loc <;> cases action
    rfl
  have still : ∀ weight : Monitor.Status Cond (Loc T) → Nat, weight (.active .outside) = 0 →
      (∀ cond next, weight (.asleep cond next) = 0) → state.total weight = 0 := by
    intro weight outside asleep
    apply Finset.sum_eq_zero
    intro other _
    rcases rests other with ⟨loc, here, action⟩ | ⟨cond, next, here⟩
    · rw [here, idle loc action]
      exact outside
    · rw [here]
      exact asleep cond next
  have noTakers := still takers rfl fun _ _ => rfl
  have noGivers := still givers rfl fun _ _ => rfl
  rcases rests thread with ⟨loc, here, action⟩ | ⟨cond, next, here⟩
  · rw [idle loc action] at here
    exact Or.inl here
  · have waits := sound.placed thread
    rw [here] at waits
    cases cond with
    | nonEmpty =>
        have enough := sound.elements thread next here
        rw [noTakers] at enough
        rw [show next = .deq from waits] at here
        exact Or.inr (Or.inl ⟨here, List.length_eq_zero_iff.mp (Nat.le_zero.mp enough)⟩)
    | hasSpace =>
        have enough := sound.places thread next here
        rw [noGivers] at enough
        obtain ⟨limited, e, rfl⟩ := waits
        have capacity := sequential_capacity (sequential_of_run run)
        have full : limit ≤ state.shared.length :=
          Nat.sub_eq_zero_iff_le.mp (Nat.le_zero.mp enough)
        have short := capacity.resolve_left limited
        exact Or.inr (Or.inr ⟨e, here, limited, Nat.le_antisymm short full⟩)

/-- The thread that waits for an element is left to sleep because there is none. -/
theorem starved_waits : ∃ state : State (Fin 2) (List Nat) Cond (Loc Nat),
    ∀ thread, state.status thread = .active .outside ∨
      (state.status thread = .asleep .nonEmpty .deq ∧ state.shared = []) ∨
      ∃ e, state.status thread = .asleep .hasSpace (.enq e true) ∧
        1 ≠ 0 ∧ state.shared.length = 1 := by
  obtain ⟨state, run, -, -, sleeps, outside⟩ := starved_run
  have stuck : Stuck (program 1) state :=
    Stuck.of_rests (Fin.forall_fin_two.mpr
      ⟨Or.inr ⟨_, _, sleeps⟩, Or.inl ⟨_, outside, rfl⟩⟩)
  exact ⟨state, fifo_wakes_everyone 1 run stuck⟩

/-- A bound for the steps that a thread can still make before it rests.  A thread that
signals hands some of its steps to the one that it wakes. -/
def fatigue : Monitor.Status Cond (Loc T) → Nat
  | .active .outside => 0
  | .active (.enter _) => 8
  | .active (.enq _ _) => 7
  | .active (.enqWait _ _) => 6
  | .active .enqSignal => 6
  | .active .deq => 7
  | .active .deqWait => 6
  | .active (.deqSignal _) => 6
  | .active .size => 7
  | .active (.leave _) => 1
  | .asleep _ _ => 5
  | .woken _ => 9

theorem fatigue_active_le (loc : Loc T) : fatigue (.active loc) ≤ 8 := by
  cases loc <;> simp [fatigue]

theorem fatigue_le (status : Monitor.Status Cond (Loc T)) : fatigue status ≤ 9 := by
  cases status with
  | active loc => exact (fatigue_active_le loc).trans (by decide)
  | asleep cond next => exact (by decide : 5 ≤ 9)
  | woken next => exact Nat.le_refl 9

/-- Every round of a loop ends in a wait, a signal or a return. -/
theorem tires (limit : Limit) : Tires (program (T := T) limit) fatigue where
  falls := by
    intro loc
    cases loc with
    | outside => trivial
    | enter op => cases op <;> exact (by decide : 7 < 8)
    | enq e blocking =>
        intro q
        rw [enqRound]
        split
        · exact (by decide : 6 < 7)
        · split
          · exact (by decide : 6 < 7)
          · exact (by decide : 1 < 7)
    | enqWait e blocking => exact (by decide : 5 < 6)
    | enqSignal => exact ⟨(by decide : 1 < 6), fun _ => (by decide : 1 + 9 < 6 + 5)⟩
    | deq =>
        intro q
        cases q with
        | nil => exact (by decide : 6 < 7)
        | cons e rest =>
            rw [deqRound]
            split
            · exact (by decide : 6 < 7)
            · exact (by decide : 1 < 7)
    | deqWait => exact (by decide : 5 < 6)
    | deqSignal e => exact ⟨(by decide : 1 < 6), fun _ => (by decide : 1 + 9 < 6 + 5)⟩
    | size =>
        intro q
        exact (by decide : 1 < 7)
    | leave result => exact (by decide : 0 < 1)
  resumes := fun next => Nat.lt_succ_of_le (fatigue_active_le next)

/-- Whatever the threads are doing and in whatever order they go on, without new calls and
without waking up for no reason they make a bounded number of steps, after which none can
go on. -/
theorem fifo_comes_to_rest (limit : Limit) (start : State Thread (List T) Cond (Loc T)) :
    (∀ count state, Goes (program limit) start count state →
        count ≤ 9 * Fintype.card Thread) ∧
      ∃ count state, Goes (program limit) start count state ∧ Stuck (program limit) state := by
  refine ⟨fun count state goes => ?_, exists_stuck (tires limit) start⟩
  calc
    count ≤ count + state.total fatigue := Nat.le_add_right _ _
    _ ≤ start.total fatigue := goes.le_total (tires limit)
    _ ≤ ∑ _thread : Thread, 9 := Finset.sum_le_sum fun thread _ => fatigue_le _
    _ = 9 * Fintype.card Thread := by
        rw [Finset.sum_const_nat fun _ _ => rfl, Finset.card_univ, Nat.mul_comm]

end Rest

end Yfs.Fifo
