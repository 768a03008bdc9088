import CSEMachine.Diagnostic
import CSEMachine.Operator

/-!
# Faults

A fault ends an evaluation without a value.  Its cause says what went wrong; the
machine adds the source line of the instruction that failed, and some causes
come with notes.  Operands are cited in causes by their text.

Main results:

- Theorem `Fault.toDiagnostic_notes`: a report keeps every note of its fault.
-/

namespace CSEMachine

/-- Why an evaluation cannot go on. -/
inductive Cause where
  | divisionByZero
  /-- The result of `operation` is no 64-bit integer. -/
  | integerOverflow (operation : String)
  /-- An operand, or a pair of them, is not of the expected kind. -/
  | wrongKind (expected given : String)
  /-- Equality between kinds that never compare. -/
  | dissimilarKinds (left right : String)
  /-- Equality on a kind that has none. -/
  | incomparable (op : BinaryOp) (left right : String)
  /-- A logical operator on something else than truth values. -/
  | notTruthValues (op : BinaryOp) (left right : String)
  /-- Augmentation of something that is not a tuple. -/
  | notATuple (given : String)
  /-- An identifier that is neither bound nor a built-in. -/
  | undeclared (name : String)
  /-- Selection outside the elements of a tuple. -/
  | indexOutOfBounds (index : Int64) (order : Nat)
  /-- A tuple with another number of elements than there are parameters. -/
  | arityMismatch (expected given : Nat)
  /-- More live activations than the limit allows. -/
  | depthExceeded (limit : Nat)
  /-- Application of something that cannot be applied. -/
  | notApplicable (operator : String)
  /-- A built-in of two operands applied to one. -/
  | missingOperand (operator : String)
  /-- A program whose tree was never standardized. -/
  | notStandardized
  /-- Control that no tree gives rise to. -/
  | malformed (detail : String)
deriving DecidableEq

namespace Cause

/-- The wording of a cause. -/
def message : Cause → String
  | divisionByZero => "division by zero"
  | integerOverflow operation => s!"integer overflow in {operation}"
  | wrongKind expected given => s!"expected {expected}; was given {given}"
  | dissimilarKinds left right => s!"cannot compare dissimilar types: {left} and {right}"
  | incomparable op left right => s!"don't know how to `{op}` {left} and {right}"
  | notTruthValues op left right =>
    s!"`{op}` needs two truth values; was given {left} and {right}"
  | notATuple given => s!"cannot augment a non-tuple: {given}"
  | undeclared name => s!"undeclared identifier: {name}"
  | indexOutOfBounds index order =>
    s!"tuple selection index {index} out of bounds for a tuple of order {order}"
  | arityMismatch expected given =>
    let elements := if expected = 1 then "element" else "elements"
    s!"expected a tuple of {expected} {elements}, got {given}"
  | depthExceeded limit => s!"maximum activation depth exceeded (limit: {limit})"
  | notApplicable operator => s!"don't know how to apply {operator}"
  | missingOperand operator => s!"{operator} is missing its second operand"
  | notStandardized => "program was not standardized"
  | malformed detail => s!"malformed control program: {detail}"

/-- The code a cause is filed under. -/
def code : Cause → ErrorCode
  | divisionByZero => .divisionByZero
  | integerOverflow _ => .integerOverflow
  | wrongKind _ _ => .wrongKind
  | dissimilarKinds _ _ => .dissimilarKinds
  | incomparable _ _ _ => .incomparable
  | notTruthValues _ _ _ => .notTruthValues
  | notATuple _ => .notATuple
  | undeclared _ => .undeclared
  | indexOutOfBounds _ _ => .indexOutOfBounds
  | arityMismatch _ _ => .arityMismatch
  | depthExceeded _ => .depthExceeded
  | notApplicable _ => .notApplicable
  | missingOperand _ => .missingOperand
  | notStandardized => .notStandardized
  | malformed _ => .malformed

/-- A remedy, for the causes that have an obvious one. -/
def suggestion? : Cause → Option String
  | divisionByZero => some "test the divisor with `eq 0` first"
  | indexOutOfBounds _ order =>
    some <| if 0 < order then s!"select with an index between 1 and {order}"
      else "the tuple is empty; check it with `Null` first"
  | missingOperand operator => some s!"apply {operator} to both of its operands"
  | notStandardized => some "standardize the tree before lowering it"
  | _ => none

end Cause

/-- A cause with the line it is blamed on and what else is known about it. -/
structure Fault where
  cause : Cause
  line : Option Nat := none
  notes : List String := []
deriving DecidableEq

namespace Fault

/-- The fault with a given cause, of which nothing else is known yet. -/
def of (cause : Cause) : Fault :=
  ⟨cause, none, []⟩

instance : Coe Cause Fault := ⟨of⟩

/-- Blames a fault on a line. -/
def atLine (line : Nat) (fault : Fault) : Fault :=
  { fault with line := some line }

/-- Adds a note after those already there. -/
def addNote (fault : Fault) (note : String) : Fault :=
  { fault with notes := fault.notes ++ [note] }

/-- The wording of a fault, without its line. -/
def message (fault : Fault) : String :=
  fault.cause.message

/-- The wording of a fault, with its line if it has one. -/
def text (fault : Fault) : String :=
  match fault.line with
  | some line => s!"line {line}: {fault.message}"
  | none => fault.message

/-- The report of a fault. -/
def toDiagnostic (fault : Fault) : Diagnostic where
  code := fault.cause.code
  message := fault.message
  line := fault.line
  notes := fault.notes
  suggestions := fault.cause.suggestion?.toList

/-- A report keeps every note of its fault. -/
@[simp]
theorem toDiagnostic_notes (fault : Fault) : fault.toDiagnostic.notes = fault.notes :=
  rfl

end Fault

end CSEMachine
