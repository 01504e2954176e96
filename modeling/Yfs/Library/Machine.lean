import Yfs.Library.ClientLogic

/-!
# Deterministic machines

A machine answers each operation with an output and a new state, or stops with
an error.  This file has the rules for whole runs: splitting a run, invariants,
conditions that hold before every step, parts of the state that behave as machines
of their own, and two simulations, one by another machine and one by client programs
on a server.
-/

namespace Machine

variable {Error State Operation Output : Type}

/-- A run collects the outputs and stops at the first error. -/
def run (step : State → Operation → Except Error (Output × State)) :
    State → List Operation → Except Error (List Output × State)
  | state, [] => .ok ([], state)
  | state, operation :: rest =>
      match step state operation with
      | .error error => .error error
      | .ok (output, next) =>
          match run step next rest with
          | .error error => .error error
          | .ok (outputs, final) => .ok (output :: outputs, final)

/-- The condition holds before every step of a run, up to its end or its first
error. -/
def Always (step : State → Operation → Except Error (Output × State))
    (condition : State → Operation → Prop) : State → List Operation → Prop
  | _, [] => True
  | state, operation :: rest =>
      condition state operation ∧
        ∀ output next, step state operation = .ok (output, next) →
          Always step condition next rest

section Runs

variable {step : State → Operation → Except Error (Output × State)}
variable {condition : State → Operation → Prop}

theorem run_cons {state next final : State} {operation : Operation}
    {rest : List Operation} {output : Output} {outputs : List Output}
    (first : step state operation = .ok (output, next))
    (remaining : run step next rest = .ok (outputs, final)) :
    run step state (operation :: rest) = .ok (output :: outputs, final) := by
  rw [run, first]
  simp only [remaining]

theorem run_cons_error {state : State} {operation : Operation}
    (rest : List Operation) {error : Error}
    (stopped : step state operation = .error error) :
    run step state (operation :: rest) = .error error := by
  rw [run, stopped]

theorem run_cons_later {state next : State} {operation : Operation}
    {rest : List Operation} {output : Output} {error : Error}
    (first : step state operation = .ok (output, next))
    (stopped : run step next rest = .error error) :
    run step state (operation :: rest) = .error error := by
  rw [run, first]
  simp only [stopped]

/-- A run that returns has a first step and a rest that return. -/
theorem run_cons_ok {state final : State} {operation : Operation}
    {rest : List Operation} {outputs : List Output}
    (returns : run step state (operation :: rest) = .ok (outputs, final)) :
    ∃ output next later, step state operation = .ok (output, next) ∧
      run step next rest = .ok (later, final) ∧ outputs = output :: later := by
  cases first : step state operation with
  | error error =>
      rw [run_cons_error rest first] at returns
      cases returns
  | ok answer =>
      rcases answer with ⟨output, next⟩
      cases remaining : run step next rest with
      | error error =>
          rw [run_cons_later first remaining] at returns
          cases returns
      | ok tail =>
          rcases tail with ⟨later, last⟩
          rw [run_cons first remaining] at returns
          cases returns
          exact ⟨output, next, later, rfl, remaining, rfl⟩

theorem length_run {operations : List Operation} {state final : State}
    {outputs : List Output} (returns : run step state operations = .ok (outputs, final)) :
    outputs.length = operations.length := by
  induction operations generalizing state outputs with
  | nil =>
      cases returns
      rfl
  | cons operation rest ih =>
      obtain ⟨output, next, later, -, remaining, rfl⟩ := run_cons_ok returns
      rw [List.length_cons, List.length_cons, ih remaining]

/-- A run that returns has a beginning that returns. -/
theorem run_append_ok {before later : List Operation} {state final : State}
    {outputs : List Output}
    (returns : run step state (before ++ later) = .ok (outputs, final)) :
    ∃ first middle rest, run step state before = .ok (first, middle) ∧
      run step middle later = .ok (rest, final) ∧ outputs = first ++ rest := by
  induction before generalizing state outputs with
  | nil => exact ⟨[], state, outputs, rfl, returns, rfl⟩
  | cons operation before ih =>
      obtain ⟨output, next, others, first, remaining, rfl⟩ := run_cons_ok returns
      obtain ⟨start, middle, rest, begun, ended, rfl⟩ := ih remaining
      exact ⟨output :: start, middle, rest, run_cons first begun, ended, rfl⟩

theorem run_append {before later : List Operation} {state middle final : State}
    {first rest : List Output} (begun : run step state before = .ok (first, middle))
    (ended : run step middle later = .ok (rest, final)) :
    run step state (before ++ later) = .ok (first ++ rest, final) := by
  induction before generalizing state first with
  | nil =>
      cases begun
      exact ended
  | cons operation before ih =>
      obtain ⟨output, next, others, started, remaining, rfl⟩ := run_cons_ok begun
      exact run_cons started (ih remaining)

theorem Always.cons {state next : State} {operation : Operation}
    {rest : List Operation} {output : Output} (holds : condition state operation)
    (first : step state operation = .ok (output, next))
    (later : Always step condition next rest) :
    Always step condition state (operation :: rest) := by
  refine ⟨holds, fun other after returned => ?_⟩
  rw [first] at returned
  cases returned
  exact later

theorem Always.mono {other : State → Operation → Prop} {operations : List Operation}
    {state : State} (always : Always step condition state operations)
    (weaker : ∀ state operation, condition state operation → other state operation) :
    Always step other state operations := by
  induction operations generalizing state with
  | nil => trivial
  | cons operation rest ih =>
      exact ⟨weaker state operation always.1,
        fun output next first => ih (always.2 output next first)⟩

/-- What the condition holds before at every step preserves holds at the end. -/
theorem Always.preserves (invariant : State → Prop)
    (preserved : ∀ state operation output next, invariant state →
      condition state operation → step state operation = .ok (output, next) →
        invariant next)
    {operations : List Operation} {state final : State} {outputs : List Output}
    (always : Always step condition state operations) (holds : invariant state)
    (returns : run step state operations = .ok (outputs, final)) :
    invariant final := by
  induction operations generalizing state outputs with
  | nil =>
      cases returns
      exact holds
  | cons operation rest ih =>
      obtain ⟨output, next, later, first, remaining, -⟩ := run_cons_ok returns
      exact ih (always.2 output next first)
        (preserved state operation output next holds always.1 first) remaining

/-- An invariant that every step of a run preserves holds at its end. -/
theorem run_preserves_of_mem (invariant : State → Prop) {operations : List Operation}
    {state final : State} {outputs : List Output}
    (preserved : ∀ state operation output next, operation ∈ operations → invariant state →
      step state operation = .ok (output, next) → invariant next)
    (holds : invariant state)
    (returns : run step state operations = .ok (outputs, final)) :
    invariant final := by
  induction operations generalizing state outputs with
  | nil =>
      cases returns
      exact holds
  | cons operation rest ih =>
      obtain ⟨output, next, later, first, remaining, -⟩ := run_cons_ok returns
      apply ih _ (preserved state operation output next List.mem_cons_self holds first) remaining
      intro before other answer after member
      exact preserved before other answer after (List.mem_cons_of_mem _ member)

/-- An invariant that every step preserves holds at the end of every run. -/
theorem run_preserves (invariant : State → Prop)
    (preserved : ∀ state operation output next, invariant state →
      step state operation = .ok (output, next) → invariant next)
    {operations : List Operation} {state final : State} {outputs : List Output}
    (holds : invariant state)
    (returns : run step state operations = .ok (outputs, final)) :
    invariant final := by
  induction operations generalizing state outputs with
  | nil =>
      cases returns
      exact holds
  | cons operation rest ih =>
      obtain ⟨output, next, later, first, remaining, -⟩ := run_cons_ok returns
      exact ih (preserved state operation output next holds first) remaining

/-- A condition that holds at the beginning of a run holds in its parts. -/
theorem Always.of_append {before later : List Operation} {state : State}
    (always : Always step condition state (before ++ later)) :
    Always step condition state before := by
  induction before generalizing state with
  | nil => trivial
  | cons operation before ih =>
      exact ⟨always.1, fun output next first => ih (always.2 output next first)⟩

/-- A condition holds before every step if it holds wherever a beginning of the
run can end. -/
theorem Always.of_prefixes {operations : List Operation} {state : State}
    (holds : ∀ before operation later outputs middle,
      operations = before ++ operation :: later →
      run step state before = .ok (outputs, middle) → condition middle operation) :
    Always step condition state operations := by
  induction operations generalizing state with
  | nil => trivial
  | cons operation rest ih =>
      refine ⟨holds [] operation rest [] state rfl rfl, fun output next first => ih ?_⟩
      intro before other later outputs middle split begun
      exact holds (operation :: before) other later (output :: outputs) middle
        (by rw [split, List.cons_append]) (run_cons first begun)

/-- A condition that holds before every step holds wherever a beginning of the run
ends. -/
theorem Always.at_prefix {before later : List Operation} {operation : Operation}
    {state middle : State} {outputs : List Output}
    (always : Always step condition state (before ++ operation :: later))
    (begun : run step state before = .ok (outputs, middle)) : condition middle operation := by
  induction before generalizing state outputs with
  | nil =>
      cases begun
      exact always.1
  | cons first before ih =>
      obtain ⟨output, next, others, stepped, remaining, -⟩ := run_cons_ok begun
      exact ih (always.2 output next stepped) remaining

theorem run_append_error {before later : List Operation} {state middle : State}
    {outputs : List Output} {error : Error}
    (begun : run step state before = .ok (outputs, middle))
    (stopped : run step middle later = .error error) :
    run step state (before ++ later) = .error error := by
  induction before generalizing state outputs with
  | nil =>
      cases begun
      exact stopped
  | cons operation before ih =>
      obtain ⟨output, next, others, started, remaining, -⟩ := run_cons_ok begun
      exact run_cons_later started (ih remaining)

/-- Where a step errs exactly when its condition fails, a run ends with an error
of that kind exactly when the condition fails before one of its steps.  Nothing
is asked of steps and runs that end with the error `escape`. -/
theorem run_error_iff {error escape : Error}
    (errs : ∀ state operation, step state operation ≠ .error escape →
      (step state operation = .error error ↔ ¬condition state operation))
    {operations : List Operation} {state : State}
    (within : run step state operations ≠ .error escape) :
    run step state operations = .error error ↔
      ¬Always step condition state operations := by
  induction operations generalizing state with
  | nil =>
      constructor
      · intro stopped
        cases stopped
      · intro never
        exact absurd trivial never
  | cons operation rest ih =>
      cases first : step state operation with
      | error other =>
          rw [run_cons_error rest first]
          have same : (Except.error other : Except Error (List Output × State)) =
              .error error ↔ step state operation = .error error := by
            rw [first, Except.error.injEq, Except.error.injEq]
          have stays : step state operation ≠ .error escape := by
            rw [run_cons_error rest first] at within
            rw [first]
            intro escaped
            cases escaped
            exact within rfl
          refine same.trans ((errs state operation stays).trans (not_congr ?_))
          refine ⟨fun holds => ⟨holds, ?_⟩, And.left⟩
          intro output next returned
          rw [first] at returned
          cases returned
      | ok answer =>
          rcases answer with ⟨output, next⟩
          have good : condition state operation := by
            refine Classical.byContradiction fun bad => ?_
            have stays : step state operation ≠ .error escape := by
              rw [first]
              simp only [ne_eq, reduceCtorEq, not_false_eq_true]
            rw [(errs state operation stays).mpr bad] at first
            cases first
          have tail : Always step condition state (operation :: rest) ↔
              Always step condition next rest := by
            refine ⟨fun always => always.2 output next first, fun always => ⟨good, ?_⟩⟩
            intro other after returned
            rw [first] at returned
            cases returned
            exact always
          have stays : run step next rest ≠ .error escape := fun escaped =>
            within (run_cons_later first escaped)
          rw [tail, ← ih stays]
          cases remaining : run step next rest with
          | error other => rw [run_cons_later first remaining]
          | ok answer =>
              rw [run_cons first remaining]
              simp only [reduceCtorEq]

end Runs

/-- A machine that does what every allowed step of another does, does what its
allowed runs do. -/
theorem run_simulates {Other Refusal : Type}
    {step : State → Operation → Except Error (Output × State)}
    {reference : Other → Operation → Except Refusal (Output × Other)}
    {related : State → Other → Prop}
    (simulates : ∀ state other operation output after, related state other →
      reference other operation = .ok (output, after) →
        ∃ next, step state operation = .ok (output, next) ∧ related next after)
    {operations : List Operation} {state : State} {other final : Other}
    {outputs : List Output} (start : related state other)
    (allowed : run reference other operations = .ok (outputs, final)) :
    ∃ last, run step state operations = .ok (outputs, last) ∧ related last final := by
  induction operations generalizing state other outputs with
  | nil =>
      cases allowed
      exact ⟨state, rfl, start⟩
  | cons operation rest ih =>
      obtain ⟨output, after, later, first, remaining, rfl⟩ := run_cons_ok allowed
      obtain ⟨next, stepped, nextRelated⟩ :=
        simulates state other operation output after start first
      obtain ⟨last, ran, lastRelated⟩ := ih nextRelated remaining
      exact ⟨last, run_cons stepped ran, lastRelated⟩

section Projections

variable {View Query Refusal : Type}

/-- The outputs of the operations that are selected. -/
def outputsOf (select : Operation → Option Query) (operations : List Operation)
    (outputs : List Output) : List Output :=
  (operations.zip outputs).filterMap fun exchange =>
    (select exchange.1).map fun _ => exchange.2

/-- A part of the state that only the selected operations look at behaves as a
machine of its own, until it is lost. -/
theorem run_projects {step : State → Operation → Except Error (Output × State)}
    {reference : View → Query → Except Refusal (Output × View)}
    {select : Operation → Option Query} {related : State → View → Prop} {lost : State → Prop}
    (seen : ∀ state view operation query output next, related state view →
      select operation = some query → step state operation = .ok (output, next) →
        ∃ after, reference view query = .ok (output, after) ∧ related next after)
    (unseen : ∀ state view operation output next, related state view →
      select operation = none → step state operation = .ok (output, next) →
        related next view ∨ lost next)
    (stays : ∀ state operation output next, lost state →
      step state operation = .ok (output, next) → lost next)
    {operations : List Operation} {state final : State} {view : View} {outputs : List Output}
    (start : related state view) (returns : run step state operations = .ok (outputs, final))
    (kept : ¬lost final) :
    ∃ last, run reference view (operations.filterMap select) =
      .ok (outputsOf select operations outputs, last) ∧ related final last := by
  induction operations generalizing state view outputs with
  | nil =>
      cases returns
      exact ⟨view, rfl, start⟩
  | cons operation rest ih =>
      obtain ⟨output, next, later, first, remaining, rfl⟩ := run_cons_ok returns
      cases selected : select operation with
      | none =>
          rcases unseen state view operation output next start selected first with
            same | gone
          · obtain ⟨last, ran, ends⟩ := ih same remaining
            refine ⟨last, ?_, ends⟩
            rw [List.filterMap_cons_none selected, ran, outputsOf, outputsOf, List.zip_cons_cons,
              List.filterMap_cons_none (by rw [selected]; rfl)]
          · exact absurd (run_preserves lost stays gone remaining) kept
      | some query =>
          obtain ⟨after, answered, moved⟩ :=
            seen state view operation query output next start selected first
          obtain ⟨last, ran, ends⟩ := ih moved remaining
          refine ⟨last, ?_, ends⟩
          rw [List.filterMap_cons_some selected, run_cons answered ran, outputsOf, outputsOf,
            List.zip_cons_cons, List.filterMap_cons_some (by rw [selected]; rfl)]

end Projections

section Sessions

open ClientServer
open ClientServer.Program (Ensures)

variable {Request : Type} {Reply : Request → Type} {Memory Seen : Type}

/-- Programs that refine the steps of a machine one by one refine its runs:
`view` is what the machine says of an output, and nothing is asked after an
error that `escapes`. -/
theorem session_refines {server : Server Request Reply Error Memory}
    {perform : Operation → Program Request Reply Error Seen} {view : Seen → Output}
    {step : State → Operation → Except Error (Output × State)}
    {related : Memory → State → Prop} {escapes : Error → Prop}
    (refines : ∀ memory state operation, related memory state →
      Ensures server (perform operation) memory
        (fun seen after => ∃ next, step state operation = .ok (view seen, next) ∧
          related after next)
        (fun error => escapes error ∨ step state operation = .error error))
    (operations : List Operation) {memory : Memory} {state : State}
    (start : related memory state) :
    Ensures server (session perform operations) memory
      (fun seen after => ∃ final,
        run step state operations = .ok (seen.map view, final) ∧ related after final)
      (fun error => escapes error ∨ run step state operations = .error error) := by
  induction operations generalizing memory state with
  | nil => exact ⟨state, rfl, start⟩
  | cons operation rest ih =>
      refine Ensures.bind (Ensures.mono (refines memory state operation start)
        (fun _ _ refined => refined) fun error stopped => ?_) ?_
      · exact stopped.imp_right (run_cons_error rest)
      · rintro seen after ⟨next, first, nextRelated⟩
        refine Ensures.bind (Ensures.mono (ih nextRelated)
          (fun _ _ refined => refined) fun error stopped => ?_) ?_
        · exact stopped.imp_right (run_cons_later first)
        · rintro others last ⟨final, remaining, lastRelated⟩
          exact ⟨final, run_cons first remaining, lastRelated⟩

/-- Programs that do what every allowed step of a reference machine does under a
condition, do what its allowed runs do when the condition always holds. -/
theorem session_follows {Other Refusal : Type} {server : Server Request Reply Error Memory}
    {perform : Operation → Program Request Reply Error Seen} {view : Seen → Output}
    {reference : Other → Operation → Except Refusal (Output × Other)}
    {related : Memory → Other → Prop} {escapes : Error → Prop}
    {condition : Other → Operation → Prop}
    (follows : ∀ memory other operation output after, related memory other →
      condition other operation → reference other operation = .ok (output, after) →
        Ensures server (perform operation) memory
          (fun seen next => view seen = output ∧ related next after) escapes)
    {operations : List Operation} {memory : Memory} {other final : Other}
    {outputs : List Output} (start : related memory other)
    (always : Always reference condition other operations)
    (allowed : run reference other operations = .ok (outputs, final)) :
    Ensures server (session perform operations) memory
      (fun seen last => seen.map view = outputs ∧ related last final) escapes := by
  induction operations generalizing memory other outputs with
  | nil =>
      cases allowed
      exact ⟨rfl, start⟩
  | cons operation rest ih =>
      obtain ⟨output, after, later, first, remaining, rfl⟩ := run_cons_ok allowed
      apply Ensures.bind (follows memory other operation output after start always.1 first)
      rintro seen next ⟨same, nextRelated⟩
      apply Ensures.bind (ih nextRelated (always.2 output after first) remaining)
      rintro others last ⟨sameRest, lastRelated⟩
      refine ⟨?_, lastRelated⟩
      rw [List.map_cons, same, sameRest]

end Sessions

end Machine
