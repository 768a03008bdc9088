/-!
# Diagnostics

A diagnostic is an error made ready for a reader: a searchable code, a message,
the source line if there is one, notes, and suggestions for a remedy.

Main results:

- Theorem `ErrorCode.ofText?_text`: a written code reads back as itself.
-/

namespace CSEMachine

/-- What an error is about.  Codes `E3...` concern trees that cannot be turned
into a program, codes `E6...` concern programs that cannot be run to a value. -/
inductive ErrorCode where
  | emptyBinder
  | repeatedParameter
  | divisionByZero
  | integerOverflow
  | wrongKind
  | dissimilarKinds
  | incomparable
  | notTruthValues
  | notATuple
  | undeclared
  | indexOutOfBounds
  | arityMismatch
  | depthExceeded
  | notApplicable
  | missingOperand
  | notStandardized
  | malformed
deriving DecidableEq

namespace ErrorCode

/-- Every code, in numerical order. -/
def all : List ErrorCode :=
  [.emptyBinder, .repeatedParameter, .divisionByZero, .integerOverflow, .wrongKind,
    .dissimilarKinds, .incomparable, .notTruthValues, .notATuple, .undeclared,
    .indexOutOfBounds, .arityMismatch, .depthExceeded, .notApplicable, .missingOperand,
    .notStandardized, .malformed]

/-- The written code. -/
def text : ErrorCode → String
  | .emptyBinder => "E3001"
  | .repeatedParameter => "E3002"
  | .divisionByZero => "E6001"
  | .integerOverflow => "E6002"
  | .wrongKind => "E6010"
  | .dissimilarKinds => "E6011"
  | .incomparable => "E6012"
  | .notTruthValues => "E6013"
  | .notATuple => "E6014"
  | .undeclared => "E6020"
  | .indexOutOfBounds => "E6021"
  | .arityMismatch => "E6030"
  | .depthExceeded => "E6031"
  | .notApplicable => "E6032"
  | .missingOperand => "E6033"
  | .notStandardized => "E6090"
  | .malformed => "E6091"

instance : ToString ErrorCode := ⟨text⟩

/-- Reads a written code. -/
def ofText? (s : String) : Option ErrorCode :=
  all.find? fun code => decide (code.text = s)

/-- A written code reads back as itself. -/
@[simp]
theorem ofText?_text (code : ErrorCode) : ofText? code.text = some code := by
  cases code <;> decide

end ErrorCode

/-- An error with what is needed to report it. -/
structure Diagnostic where
  code : ErrorCode
  message : String := ""
  line : Option Nat := none
  notes : List String := []
  suggestions : List String := []
deriving DecidableEq

namespace Diagnostic

/-- Adds a note after those already there. -/
def addNote (d : Diagnostic) (note : String) : Diagnostic :=
  { d with notes := d.notes ++ [note] }

/-- Adds a suggestion after those already there. -/
def addSuggestion (d : Diagnostic) (suggestion : String) : Diagnostic :=
  { d with suggestions := d.suggestions ++ [suggestion] }

/-- The remarks below the message: the line, the notes, then the suggestions. -/
def remarks (d : Diagnostic) : List String :=
  (d.line.map fun line => s!"note: line {line}").toList
    ++ d.notes.map (fun note => s!"note: {note}")
    ++ d.suggestions.map (fun suggestion => s!"help: {suggestion}")

/-- The written report: the message under its code, then one remark a line. -/
def text (d : Diagnostic) : String :=
  String.join (s!"error[{d.code}]: {d.message}" :: d.remarks.map (fun remark => s!"\n  = {remark}"))

end Diagnostic

end CSEMachine
