import CSEMachine.Arithmetic
import CSEMachine.Text.Unescape
import CSEMachine.Value.Text

/-!
# Applying built-in functions

The kind tests take any value; the other built-ins refuse an operand of the wrong
kind, with a note that says which built-in was at work.  An eta closure does not
count as a function.

Main results:

- Theorems `Builtin.conc_stem_stern` and `Builtin.stem_append_stern`: the first
  character of a string and the rest of it make up the string.
-/

namespace CSEMachine

/-- The text that `Print` records for a value. -/
def Value.printed (store : Store) (v : Value) : String :=
  Text.unescape (v.display store)

namespace Builtin

/-- The refusal of an operand that is not of the expected kind. -/
def refuse (b : Builtin) (expected given : String) : Fault :=
  ⟨.wrongKind expected given, none, [s!"while evaluating {b}"]⟩

/-- The first character of a string, or nothing. -/
def stemText (s : String) : String :=
  String.ofList (s.toList.take 1)

/-- A string without its first character. -/
def sternText (s : String) : String :=
  String.ofList (s.toList.drop 1)

/-- Takes a string to a string. -/
def onString (b : Builtin) (store : Store) (operand : Value) (f : String → String) :
    Except Fault Value :=
  match operand with
  | .str s => .ok (.str (f s))
  | _ => .error (b.refuse "a string" (operand.cite store))

/-- Takes an integer. -/
def onInteger (b : Builtin) (store : Store) (operand : Value)
    (f : Int64 → Except Fault Value) : Except Fault Value :=
  match operand with
  | .int n => f n
  | _ => .error (b.refuse "an integer" (operand.cite store))

/-- Takes a tuple, by its number of elements. -/
def onTuple (b : Builtin) (store : Store) (operand : Value)
    (f : Nat → Except Fault Value) : Except Fault Value :=
  match operand with
  | .tuple ref => f (store.order ref)
  | _ => .error (b.refuse "a tuple" (operand.cite store))

/-- The integer that an operation gives, if it gives one. -/
def integer (result : Except Cause Int64) : Except Fault Value :=
  (result.map .int).mapError .of

/-- Joins two strings. -/
def applyConc (store : Store) (first second : Value) : Except Fault Value :=
  match first, second with
  | .str s, .str t => .ok (.str (s ++ t))
  | _, _ => .error (Builtin.conc.refuse "two strings" (first.citePair store second))

/-- Applies a built-in to one operand.  `Conc` needs two. -/
def apply (b : Builtin) (store : Store) (operand : Value) : Except Fault Value :=
  match b with
  | .isInteger => .ok (.bool (operand.kind = .integer))
  | .isString => .ok (.bool (operand.kind = .string))
  | .isTuple => .ok (.bool (operand.kind = .tuple))
  | .isDummy => .ok (.bool (operand.kind = .dummy))
  | .isTruthValue => .ok (.bool (operand.kind = .truthValue))
  | .isFunction => .ok (.bool (operand.kind = .function))
  | .stem => b.onString store operand stemText
  | .stern => b.onString store operand sternText
  | .conc => .error (Cause.missingOperand b.spelling)
  | .print => .ok .dummy
  | .itoS => b.onInteger store operand fun n => .ok (.str (toString n))
  | .order => b.onTuple store operand fun n => integer (Arithmetic.checked "Order" n)
  | .null => b.onTuple store operand fun n => .ok (.bool (n = 0))
  | .neg => b.onInteger store operand fun n => integer (Arithmetic.neg n)

/-- The first character of a string and the rest of it make up the string. -/
theorem stem_append_stern (s : String) : stemText s ++ sternText s = s := by
  apply String.toList_injective
  simp only [stemText, sternText, String.toList_append, String.toList_ofList,
    List.take_append_drop]

/-- Joining what `Stem` and `Stern` give for a string gives back the string. -/
theorem conc_stem_stern (store : Store) (s : String) :
    applyConc store (.str (stemText s)) (.str (sternText s)) = .ok (.str s) := by
  simp [applyConc, stem_append_stern]

end Builtin

end CSEMachine
