import CSEMachine.Control.Flatten
import CSEMachine.Machine
import CSEMachine.Sink
import CSEMachine.Value.Equality

/-!
# Evaluating programs

A program is run only if its tree was standardized and its names come from the
table of the machine that runs it.  Every evaluation starts from a fresh root
environment and an empty stack; what outlives it is a session, the store that its
values live in and the sink that its texts went to.

Main results:

- Theorems `Machine.evaluate_not_standardized` and `Machine.evaluate_foreign`: a
  refused program leaves the session as it was.
-/

namespace CSEMachine

/-- What an evaluation leaves behind for later ones. -/
structure Session where
  store : Store
  sink : Sink

/-- A session that nothing has happened in. -/
def Session.fresh (sink : Sink) : Session :=
  ⟨Store.empty, sink⟩

/-- What an evaluation gives: the text of its last `Print`, if it printed, and the
value that was left on the stack. -/
structure Evaluation where
  output : Option String
  value : Option Value

/-- An evaluation or the fault that ended it. -/
abbrev Result := Except Fault Evaluation

/-- Why a program is not run at all. -/
def Machine.refusal? (m : Machine) (program : Program) : Option Cause :=
  if !program.standardized then some .notStandardized
  else if program.tableId ≠ m.names.id then
    some (.malformed "program was lowered with a different interner")
  else none

/-- Ends an evaluation: its texts go to the sink, in the order of printing. -/
def Machine.Ending.toResult (ending : Machine.Ending) (sink : Sink) : Result × Session :=
  (ending.result.map fun value => ⟨ending.printed.back?, value⟩,
    ⟨ending.store, sink.writeAll ending.printed.toList⟩)

/-- Evaluates a program in at most `fuel` steps. -/
def Machine.evaluate (m : Machine) (fuel : Nat) (program : Program) (session : Session) :
    Option (Result × Session) :=
  match m.refusal? program with
  | some cause => some (.error cause, session)
  | none =>
    match session with
    | ⟨store, sink⟩ =>
      (m.finish fuel (m.start program.root store)).map fun ending => ending.toResult sink

/-! ## Comparing results -/

/-- Compares two evaluations, their texts first, unless that never ends. -/
def Evaluation.compare? (store : Store) (a b : Evaluation) : Option Bool :=
  if a.output = b.output then
    match a.value, b.value with
    | some v, some w => v.compare? store w
    | none, none => some true
    | _, _ => some false
  else some false

/-- Compares two results, unless that never ends: evaluations as such, faults by their
cause, line and notes. -/
def Result.compare? (store : Store) : Result → Result → Option Bool
  | .ok a, .ok b => a.compare? store b
  | .error f, .error g => some (decide (f = g))
  | _, _ => some false

/-- Whether comparing two results ends, and finds them the same. -/
def Result.equal (store : Store) (r r' : Result) : Bool :=
  decide (Result.compare? store r r' = some true)

/-- Comparing an evaluation with itself ends, and finds it the same. -/
@[simp]
theorem Evaluation.compare?_self (store : Store) (a : Evaluation) :
    a.compare? store a = some true := by
  rcases a with ⟨output, _ | v⟩ <;> simp [compare?]

/-- Comparing a result with itself ends, and finds it the same. -/
@[simp]
theorem Result.compare?_self (store : Store) (r : Result) :
    Result.compare? store r r = some true := by
  cases r <;> simp [compare?]

/-! ## Refused programs -/

/-- A program whose tree was not standardized leaves the session as it was. -/
theorem Machine.evaluate_not_standardized {m : Machine} {program : Program}
    (h : program.standardized = false) (fuel : Nat) (session : Session) :
    m.evaluate fuel program session = some (.error (Cause.notStandardized : Fault), session) := by
  simp [Machine.evaluate, Machine.refusal?, h]

/-- A program with the names of another table leaves the session as it was. -/
theorem Machine.evaluate_foreign {m : Machine} {program : Program}
    (hstandardized : program.standardized = true) (h : program.tableId ≠ m.names.id)
    (fuel : Nat) (session : Session) :
    ∃ detail, m.evaluate fuel program session =
      some (.error (Cause.malformed detail : Fault), session) :=
  ⟨"program was lowered with a different interner",
    by simp [Machine.evaluate, Machine.refusal?, hstandardized, h]⟩

end CSEMachine
