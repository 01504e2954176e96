import Yfs.Library.ClientServer

/-!
# A program logic for client programs

`Ensures server program state post fails` is the triple of a client program: run
from `state` it ends with `post`, or stops with an error that `fails` allows.
The rules follow the constructors of `Program`.
-/

namespace ClientServer

namespace Program

variable {Request : Type} {Reply : Request → Type} {Error α β State : Type}

/-- From `state` the program returns with `post`, or stops with an error in
`fails`. -/
def Ensures (server : Server Request Reply Error State)
    (program : Program Request Reply Error α) (state : State)
    (post : α → State → Prop) (fails : Error → Prop) : Prop :=
  match program.run server state with
  | .ok (value, after) => post value after
  | .error error => fails error

variable {server : Server Request Reply Error State} {state : State}
variable {fails : Error → Prop}

theorem Ensures.pure {value : α} {post : α → State → Prop}
    (holds : post value state) :
    Ensures server (pure value : Program Request Reply Error α) state post fails :=
  holds

/-- The rule of sequence. -/
theorem Ensures.bind {program : Program Request Reply Error α}
    {next : α → Program Request Reply Error β} {middle : α → State → Prop}
    {post : β → State → Prop}
    (first : Ensures server program state middle fails)
    (rest : ∀ value after, middle value after →
      Ensures server (next value) after post fails) :
    Ensures server (program >>= next) state post fails := by
  rw [Ensures] at first ⊢
  rw [run_bind]
  cases returned : program.run server state with
  | error error =>
      rw [returned] at first
      exact first
  | ok answer =>
      rw [returned] at first
      exact rest answer.1 answer.2 first

/-- The first part of a sequence may be known by its run. -/
theorem Ensures.after_run {program : Program Request Reply Error α}
    {next : α → Program Request Reply Error β} {post : β → State → Prop}
    {value : α} {after : State} (first : program.run server state = .ok (value, after))
    (rest : Ensures server (next value) after post fails) :
    Ensures server (program >>= next) state post fails := by
  rw [Ensures, run_bind_ok _ first]
  exact rest

/-- The first part of a sequence may itself be a sequence. -/
theorem Ensures.bind_assoc {γ : Type} {program : Program Request Reply Error α}
    {inner : α → Program Request Reply Error β}
    {next : β → Program Request Reply Error γ} {post : γ → State → Prop}
    (ensures : Ensures server (program >>= fun value => inner value >>= next) state
      post fails) :
    Ensures server (program >>= inner >>= next) state post fails := by
  rwa [Program.bind_assoc]

/-- A program may be followed by the return of its value. -/
theorem Ensures.of_bind_pure {program : Program Request Reply Error α}
    {post : α → State → Prop}
    (ensures : Ensures server (program >>= fun value => .ret value) state post fails) :
    Ensures server program state post fails := by
  rw [Ensures, run_bind] at ensures
  rw [Ensures]
  cases returned : program.run server state with
  | error error =>
      rw [returned] at ensures
      exact ensures
  | ok answer =>
      rw [returned] at ensures
      exact ensures

/-- What is known of a function of the value. -/
theorem Ensures.of_bind_map {program : Program Request Reply Error α} (view : α → β)
    {post : β → State → Prop}
    (ensures : Ensures server (program >>= fun value => Pure.pure (view value)) state post
      fails) :
    Ensures server program state (fun value after => post (view value) after) fails := by
  rw [Ensures, run_bind] at ensures
  rw [Ensures]
  cases returned : program.run server state with
  | error error =>
      rw [returned] at ensures
      exact ensures
  | ok answer =>
      rw [returned] at ensures
      exact ensures

/-- A local computation, and the rest of the program. -/
theorem Ensures.ofExcept_bind {computation : Except Error α}
    {next : α → Program Request Reply Error β} {post : β → State → Prop}
    (values : ∀ value, computation = .ok value →
      Ensures server (next value) state post fails)
    (errors : ∀ error, computation = .error error → fails error) :
    Ensures server (Program.ofExcept computation >>= next) state post fails := by
  cases computation with
  | ok value => exact values value rfl
  | error error => exact errors error rfl

/-- A request that is answered, and the rest of the program. -/
theorem Ensures.send_bind {request : Request} {reply : Reply request}
    {after : State} {next : Reply request → Program Request Reply Error β}
    {post : β → State → Prop} (served : server request state = .ok (reply, after))
    (rest : Ensures server (next reply) after post fails) :
    Ensures server (Program.send request >>= next) state post fails := by
  rw [Ensures, run_bind, run_send, served]
  exact rest

/-- A request at which the server stops. -/
theorem Ensures.send_bind_error {request : Request} {error : Error}
    {next : Reply request → Program Request Reply Error β}
    {post : β → State → Prop} (served : server request state = .error error)
    (allowed : fails error) :
    Ensures server (Program.send request >>= next) state post fails := by
  rw [Ensures, run_bind, run_send, served]
  exact allowed

/-- The rule of consequence. -/
theorem Ensures.mono {program : Program Request Reply Error α}
    {post weaker : α → State → Prop} {allowed : Error → Prop}
    (ensures : Ensures server program state post fails)
    (values : ∀ value after, post value after → weaker value after)
    (errors : ∀ error, fails error → allowed error) :
    Ensures server program state weaker allowed := by
  rw [Ensures] at ensures ⊢
  cases returned : program.run server state with
  | error error =>
      rw [returned] at ensures
      exact errors error ensures
  | ok answer =>
      rw [returned] at ensures
      exact values answer.1 answer.2 ensures

theorem Ensures.ok {program : Program Request Reply Error α} {value : α}
    {after : State} {post : α → State → Prop}
    (ensures : Ensures server program state post fails)
    (returned : program.run server state = .ok (value, after)) :
    post value after := by
  rw [Ensures, returned] at ensures
  exact ensures

theorem Ensures.error {program : Program Request Reply Error α} {error : Error}
    {post : α → State → Prop} (ensures : Ensures server program state post fails)
    (stopped : program.run server state = .error error) : fails error := by
  rw [Ensures, stopped] at ensures
  exact ensures

/-- A loop over an index with local variables.  A round that returns a number other than
zero ends the loop with it. -/
def rounds {Local : Type} (round : Nat → Local → Program Request Reply Error (Nat × Local)) :
    Nat → Nat → Local → Program Request Reply Error (Nat × Local)
  | 0, _, locals => Pure.pure (0, locals)
  | left + 1, index, locals => do
      let (code, locals) ← round index locals
      if code ≠ 0 then return (code, locals) else rounds round left (index + 1) locals

/-- The rule of a loop whose rounds all return zero. -/
theorem Ensures.rounds {Local : Type}
    {round : Nat → Local → Program Request Reply Error (Nat × Local)}
    (invariant : Nat → Local → State → Prop) {count : Nat}
    (kept : ∀ i < count, ∀ locals state, invariant i locals state →
      Ensures server (round i locals) state
        (fun result after => result.1 = 0 ∧ invariant (i + 1) result.2 after) fails)
    {locals : Local} (holds : invariant 0 locals state) :
    Ensures server (Program.rounds round count 0 locals) state
      (fun result after => result.1 = 0 ∧ invariant count result.2 after) fails := by
  have later : ∀ left index locals state, index + left = count → invariant index locals state →
      Ensures server (Program.rounds round left index locals) state
        (fun result after => result.1 = 0 ∧ invariant count result.2 after) fails := by
    intro left
    induction left with
    | zero =>
        rintro index locals state rfl holds
        exact ⟨rfl, holds⟩
    | succ left ih =>
        intro index locals state total holds
        apply (kept index (by omega) locals state holds).bind
        rintro ⟨code, after⟩ next ⟨isZero, holdsNext⟩
        dsimp only at isZero
        subst isZero
        exact ih (index + 1) after next (by omega) holdsNext
  exact later count 0 locals state (Nat.zero_add count) holds

/-- Every request that the program may send is allowed. -/
def Sends (allowed : Request → Prop) : Program Request Reply Error α → Prop
  | .ret _ => True
  | .fail _ => True
  | .call request next => allowed request ∧ ∀ reply, Sends allowed (next reply)

section Sends

variable {allowed : Request → Prop}

theorem Sends.send {request : Request} (isAllowed : allowed request) :
    Sends allowed (send request : Program Request Reply Error (Reply request)) :=
  ⟨isAllowed, fun _ => trivial⟩

theorem Sends.ofExcept (computation : Except Error α) :
    Sends allowed (ofExcept computation : Program Request Reply Error α) := by
  cases computation with
  | ok value => trivial
  | error error => trivial

theorem Sends.bind {program : Program Request Reply Error α}
    {next : α → Program Request Reply Error β} (first : Sends allowed program)
    (rest : ∀ value, Sends allowed (next value)) : Sends allowed (program >>= next) := by
  induction program with
  | ret value => exact rest value
  | fail error => trivial
  | call request continue_ ih => exact ⟨first.1, fun reply => ih reply (first.2 reply)⟩

/-- What every allowed request preserves, the program preserves. -/
theorem Sends.preserves {program : Program Request Reply Error α} (invariant : State → Prop)
    (sends : Sends allowed program)
    (preserved : ∀ request before reply after, allowed request → invariant before →
      server request before = .ok (reply, after) → invariant after)
    {value : α} {after : State} (holds : invariant state)
    (returned : program.run server state = .ok (value, after)) : invariant after := by
  induction program generalizing state with
  | ret value =>
      cases returned
      exact holds
  | fail error => cases returned
  | call request continue_ ih =>
      cases served : server request state with
      | error error => simp [run, served] at returned
      | ok answer =>
          rcases answer with ⟨reply, middle⟩
          simp only [run, served] at returned
          exact ih reply (sends.2 reply)
            (preserved request state reply middle sends.1 holds served) returned

end Sends

end Program

end ClientServer
