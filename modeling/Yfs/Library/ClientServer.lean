import Mathlib.Logic.Basic
import Mathlib.Tactic.TypeStar

/-!
# Client programs over a server

A client talks to a server through requests and replies only.  A `Program` is
the client side: it returns a value, fails, or sends one request and continues
with the reply.  A `Server` is a state transition that answers one request.

The file proves the two rules that make such a split useful: an invariant that
every request preserves is preserved by every program, and a simulation of one
server by another, checked request by request, lifts to every program and so to
every session of any length.
-/

namespace ClientServer

/-- A client program over the requests `Request`, each answered by a
`Reply request`. -/
inductive Program (Request : Type) (Reply : Request → Type) (Error : Type)
    (α : Type) where
  | ret (value : α)
  | fail (error : Error)
  | call (request : Request)
      (next : Reply request → Program Request Reply Error α)

/-- A server answers a request from its state, or stops with an error. -/
abbrev Server (Request : Type) (Reply : Request → Type) (Error : Type)
    (State : Type) :=
  (request : Request) → State → Except Error (Reply request × State)

namespace Program

variable {Request : Type} {Reply : Request → Type} {Error α β : Type}

def bind : Program Request Reply Error α →
    (α → Program Request Reply Error β) → Program Request Reply Error β
  | .ret value, next => next value
  | .fail error, _ => .fail error
  | .call request rest, next =>
      .call request fun reply => (rest reply).bind next

instance : Monad (Program Request Reply Error) where
  pure := .ret
  bind := bind

theorem bind_assoc {γ : Type} (program : Program Request Reply Error α)
    (inner : α → Program Request Reply Error β)
    (next : β → Program Request Reply Error γ) :
    program >>= inner >>= next = program >>= fun value => inner value >>= next := by
  change (program.bind inner).bind next = program.bind fun value => (inner value).bind next
  induction program with
  | ret value => rfl
  | fail error => rfl
  | call request rest ih =>
      simp only [bind]
      exact congrArg (call request) (funext ih)

/-- Send one request and return the reply. -/
def send (request : Request) : Program Request Reply Error (Reply request) :=
  .call request .ret

/-- A computation that needs no server. -/
def ofExcept : Except Error α → Program Request Reply Error α
  | .ok value => .ret value
  | .error error => .fail error

/-- Run a program against a server. -/
def run {State : Type} (server : Server Request Reply Error State) :
    Program Request Reply Error α → State → Except Error (α × State)
  | .ret value, state => .ok (value, state)
  | .fail error, _ => .error error
  | .call request next, state =>
      match server request state with
      | .ok (reply, after) => (next reply).run server after
      | .error error => .error error

section Running

variable {State : Type} (server : Server Request Reply Error State)

@[simp]
theorem run_pure (value : α) (state : State) :
    (pure value : Program Request Reply Error α).run server state =
      .ok (value, state) :=
  rfl

@[simp]
theorem run_send (request : Request) (state : State) :
    (send request : Program Request Reply Error _).run server state =
      server request state := by
  cases served : server request state with
  | error error => simp [send, run, served]
  | ok answer => simp [send, run, served]

/-- Running a sequence runs its first part and hands value and state on. -/
theorem run_bind (program : Program Request Reply Error α)
    (next : α → Program Request Reply Error β) (state : State) :
    (program >>= next).run server state =
      match program.run server state with
      | .ok (value, after) => (next value).run server after
      | .error error => .error error := by
  change (program.bind next).run server state = _
  induction program generalizing state with
  | ret value => rfl
  | fail error => rfl
  | call request rest ih =>
      cases served : server request state with
      | error error => simp [bind, run, served]
      | ok answer => simp [bind, run, served, ih]

theorem run_bind_ok {program : Program Request Reply Error α}
    {next : α → Program Request Reply Error β} {state after : State}
    {value : α} (first : program.run server state = .ok (value, after)) :
    (program >>= next).run server state = (next value).run server after := by
  rw [run_bind, first]

theorem run_bind_error {program : Program Request Reply Error α}
    {next : α → Program Request Reply Error β} {state : State} {error : Error}
    (first : program.run server state = .error error) :
    (program >>= next).run server state = .error error := by
  rw [run_bind, first]

/-- An invariant that every answered request preserves holds after every
program that returns. -/
theorem run_preserves (invariant : State → Prop)
    (preserved : ∀ request state reply after, invariant state →
      server request state = .ok (reply, after) → invariant after)
    (program : Program Request Reply Error α) {state after : State} {value : α}
    (holds : invariant state)
    (returns : program.run server state = .ok (value, after)) :
    invariant after := by
  induction program generalizing state with
  | ret value =>
      cases returns
      exact holds
  | fail error => cases returns
  | call request next ih =>
      cases served : server request state with
      | error error => simp [run, served] at returns
      | ok answer =>
          rcases answer with ⟨reply, middle⟩
          simp only [run, served] at returns
          exact ih reply (preserved request state reply middle holds served)
            returns

end Running

end Program

section Simulation

variable {Request : Type} {Reply : Request → Type} {Error α : Type}
variable {Concrete Abstract : Type}

/-- Two outcomes agree: the same value with related states, or the same error.
Nothing is asked where the abstract side stops with an error that `escapes`. -/
def Agree (related : Concrete → Abstract → Prop) (escapes : Error → Prop)
    (concrete : Except Error (α × Concrete))
    (abstract : Except Error (α × Abstract)) : Prop :=
  match abstract with
  | .ok (value, after) =>
      ∃ state, concrete = .ok (value, state) ∧ related state after
  | .error error => escapes error ∨ concrete = .error error

/-- What the concrete side returns, the abstract side returns, or it escapes. -/
theorem Agree.of_ok {related : Concrete → Abstract → Prop} {escapes : Error → Prop}
    {abstract : Except Error (α × Abstract)} {value : α} {state : Concrete}
    (agree : Agree related escapes (.ok (value, state)) abstract) :
    (∃ after, abstract = .ok (value, after) ∧ related state after) ∨
      ∃ error, abstract = .error error ∧ escapes error := by
  cases abstract with
  | ok answer =>
      rcases agree with ⟨other, same, relatedAfter⟩
      cases same
      exact Or.inl ⟨_, rfl, relatedAfter⟩
  | error error =>
      rcases agree with escape | same
      · exact Or.inr ⟨error, rfl, escape⟩
      · cases same

/-- The concrete server simulates the abstract one request by request. -/
def Simulates (concrete : Server Request Reply Error Concrete)
    (abstract : Server Request Reply Error Abstract)
    (related : Concrete → Abstract → Prop) (escapes : Error → Prop) : Prop :=
  ∀ request state after, related state after →
    Agree related escapes (concrete request state) (abstract request after)

/-- A simulation of single requests lifts to every client program. -/
theorem Simulates.run {concrete : Server Request Reply Error Concrete}
    {abstract : Server Request Reply Error Abstract}
    {related : Concrete → Abstract → Prop} {escapes : Error → Prop}
    (simulates : Simulates concrete abstract related escapes)
    (program : Program Request Reply Error α) {state : Concrete}
    {model : Abstract} (start : related state model) :
    Agree related escapes (program.run concrete state)
      (program.run abstract model) := by
  induction program generalizing state model with
  | ret value => exact ⟨state, rfl, start⟩
  | fail error => exact Or.inr rfl
  | call request next ih =>
      have step := simulates request state model start
      cases served : abstract request model with
      | error error =>
          rw [served] at step
          rcases step with escaped | same
          · simp only [Program.run, served]
            exact Or.inl escaped
          · simp only [Program.run, served, same]
            exact Or.inr rfl
      | ok answer =>
          rw [served] at step
          rcases step with ⟨after, same, next_related⟩
          simp only [Program.run, served, same]
          exact ih answer.1 next_related

/-- Simulations compose: errors that escape either stage escape the whole. -/
theorem Simulates.trans {Middle : Type}
    {low : Server Request Reply Error Concrete}
    {middle : Server Request Reply Error Middle}
    {high : Server Request Reply Error Abstract}
    {lower : Concrete → Middle → Prop} {upper : Middle → Abstract → Prop}
    {escapes : Error → Prop}
    (first : Simulates low middle lower escapes)
    (second : Simulates middle high upper escapes) :
    Simulates low high
      (fun state model => ∃ between, lower state between ∧ upper between model)
      escapes := by
  rintro request state model ⟨between, lowRelated, highRelated⟩
  have lowStep := first request state between lowRelated
  have highStep := second request between model highRelated
  cases served : high request model with
  | error error =>
      rw [served] at highStep
      rcases highStep with escaped | same
      · exact Or.inl escaped
      · rw [same] at lowStep
        exact lowStep
  | ok answer =>
      rw [served] at highStep
      rcases highStep with ⟨afterMiddle, sameMiddle, afterHigh⟩
      rw [sameMiddle] at lowStep
      rcases lowStep with ⟨after, same, afterLow⟩
      exact ⟨after, same, afterMiddle, afterLow, afterHigh⟩

end Simulation

section Sessions

variable {Request : Type} {Reply : Request → Type} {Error Operation Output : Type}

/-- A session performs a list of operations in order and collects their
outputs. -/
def session (perform : Operation → Program Request Reply Error Output) :
    List Operation → Program Request Reply Error (List Output)
  | [] => .ret []
  | operation :: rest => do
      let output ← perform operation
      let outputs ← session perform rest
      return output :: outputs

variable {State : Type} (server : Server Request Reply Error State)
  (perform : Operation → Program Request Reply Error Output)

@[simp]
theorem run_session_nil (state : State) :
    (session perform []).run server state = .ok ([], state) :=
  rfl

/-- A session's first operation runs from the start, the rest from where it
ends. -/
theorem run_session_cons (operation : Operation) (rest : List Operation)
    (state : State) :
    (session perform (operation :: rest)).run server state =
      match (perform operation).run server state with
      | .ok (output, middle) =>
          match (session perform rest).run server middle with
          | .ok (outputs, after) => .ok (output :: outputs, after)
          | .error error => .error error
      | .error error => .error error := by
  rw [session, Program.run_bind]
  cases (perform operation).run server state with
  | error error => rfl
  | ok answer =>
      simp only [Program.run_bind]
      cases (session perform rest).run server answer.2 <;> rfl

theorem run_session_append (first second : List Operation) (state : State) :
    (session perform (first ++ second)).run server state =
      match (session perform first).run server state with
      | .ok (outputs, middle) =>
          match (session perform second).run server middle with
          | .ok (others, after) => .ok (outputs ++ others, after)
          | .error error => .error error
      | .error error => .error error := by
  induction first generalizing state with
  | nil =>
      simp only [List.nil_append, run_session_nil]
      cases (session perform second).run server state <;> rfl
  | cons operation rest ih =>
      simp only [List.cons_append, run_session_cons]
      cases (perform operation).run server state with
      | error error => rfl
      | ok answer =>
          simp only [ih]
          cases (session perform rest).run server answer.2 with
          | error error => rfl
          | ok middle =>
              simp only
              cases (session perform second).run server middle.2 <;> rfl

/-- What a session with a first operation has done when it returns. -/
theorem run_session_ok {operation : Operation} {rest : List Operation}
    {outputs : List Output} {state final : State}
    (returns : (session perform (operation :: rest)).run server state =
      .ok (outputs, final)) :
    ∃ output later middle, outputs = output :: later ∧
      (perform operation).run server state = .ok (output, middle) ∧
      (session perform rest).run server middle = .ok (later, final) := by
  rw [run_session_cons] at returns
  cases performed : (perform operation).run server state with
  | error error =>
      rw [performed] at returns
      cases returns
  | ok answer =>
      rcases answer with ⟨output, middle⟩
      rw [performed] at returns
      cases others : (session perform rest).run server middle with
      | error error => simp [others] at returns
      | ok tail =>
          rcases tail with ⟨later, last⟩
          simp only [others, Except.ok.injEq, Prod.mk.injEq] at returns
          rcases returns with ⟨rfl, rfl⟩
          exact ⟨output, later, middle, rfl, rfl, others⟩

/-- A session without outputs has performed nothing. -/
theorem run_session_none {operations : List Operation} {state final : State}
    (returns : (session perform operations).run server state = .ok ([], final)) :
    operations = [] ∧ final = state := by
  cases operations with
  | nil =>
      cases returns
      exact ⟨rfl, rfl⟩
  | cons operation rest =>
      obtain ⟨output, later, middle, same, -⟩ := run_session_ok server perform returns
      cases same

/-- The first output of a session comes from its first operation. -/
theorem run_session_head {output : Output} {later : List Output}
    {operations : List Operation} {state final : State}
    (returns : (session perform operations).run server state =
      .ok (output :: later, final)) :
    ∃ operation rest middle, operations = operation :: rest ∧
      (perform operation).run server state = .ok (output, middle) ∧
      (session perform rest).run server middle = .ok (later, final) := by
  cases operations with
  | nil => cases returns
  | cons operation rest =>
      obtain ⟨produced, others, middle, same, performed, remaining⟩ :=
        run_session_ok server perform returns
      cases same
      exact ⟨operation, rest, middle, rfl, performed, remaining⟩

/-- A session whose outputs fall into two parts is a session for each part. -/
theorem run_session_split {before later : List Output}
    {operations : List Operation} {state final : State}
    (returns : (session perform operations).run server state =
      .ok (before ++ later, final)) :
    ∃ first second middle, operations = first ++ second ∧
      (session perform first).run server state = .ok (before, middle) ∧
      (session perform second).run server middle = .ok (later, final) := by
  induction before generalizing operations state with
  | nil => exact ⟨[], operations, state, rfl, rfl, returns⟩
  | cons output before ih =>
      obtain ⟨operation, rest, middle, rfl, performed, remaining⟩ :=
        run_session_head server perform returns
      obtain ⟨first, second, between, rfl, run, later⟩ := ih remaining
      refine ⟨operation :: first, second, between, rfl, ?_, later⟩
      rw [run_session_cons, performed]
      simp only [run]

/-- What every operation of a session preserves, the session preserves. -/
theorem session_preserves (invariant : State → Prop) {operations : List Operation}
    {outputs : List Output} {state after : State}
    (preserved : ∀ operation ∈ operations, ∀ before output next, invariant before →
      (perform operation).run server before = .ok (output, next) → invariant next)
    (holds : invariant state)
    (returns : (session perform operations).run server state = .ok (outputs, after)) :
    invariant after := by
  induction operations generalizing outputs state with
  | nil =>
      cases returns
      exact holds
  | cons operation rest ih =>
      obtain ⟨output, later, middle, -, performed, remaining⟩ :=
        run_session_ok server perform returns
      apply ih (fun other member => preserved other (List.mem_cons_of_mem _ member))
      · exact preserved operation List.mem_cons_self _ _ _ holds performed
      · exact remaining

/-- An account of the outputs that each operation keeps in step with the state is in step
after the session. -/
theorem session_foldl {Account : Type} (record : Account → Output → Account)
    (related : Account → State → Prop)
    (kept : ∀ account before operation output next, related account before →
      (perform operation).run server before = .ok (output, next) →
        related (record account output) next)
    {account : Account} {operations : List Operation} {outputs : List Output}
    {state after : State} (holds : related account state)
    (returns : (session perform operations).run server state = .ok (outputs, after)) :
    related (outputs.foldl record account) after := by
  induction outputs generalizing account operations state with
  | nil =>
      obtain ⟨-, rfl⟩ := run_session_none server perform returns
      exact holds
  | cons output later ih =>
      obtain ⟨operation, rest, middle, rfl, performed, remaining⟩ :=
        run_session_head server perform returns
      exact ih (kept account state operation output middle holds performed) remaining

end Sessions

end ClientServer
