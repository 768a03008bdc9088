import CSEMachine.Environment
import CSEMachine.Text.Quoted

/-!
# The text of a value

A value is shown in three ways: plainly, as `Print` and results show it; cited, as
errors show operands; and in debugging form.

Tuples may contain themselves.  While a tuple is being written it is *open*, and an
open tuple that is met again is written as `(...)`.  Each nested tuple opens one
more of the finitely many in the store, which is why writing ends.

Main results:

- Theorem `Store.countClosed_lt`: opening a tuple leaves fewer closed ones.
- Theorem `Value.display_tuple`: the elements of a tuple are written with that tuple
  open.
-/

namespace CSEMachine

/-! ## Open and closed tuples -/

/-- Number of tuples that are not open. -/
def Store.countClosed (store : Store) (opened : List Nat) : Nat :=
  (List.range store.tuples.size).countP fun ref => decide (ref ∉ opened)

/-- Opening a tuple leaves fewer closed ones. -/
theorem Store.countClosed_lt {store : Store} {opened : List Nat} {ref : Nat}
    (hlt : ref < store.tuples.size) (hclosed : ref ∉ opened) :
    store.countClosed (ref :: opened) < store.countClosed opened := by
  unfold Store.countClosed
  rw [List.countP_eq_length_filter, List.countP_eq_length_filter]
  have hsub : ((List.range store.tuples.size).filter fun r => decide (r ∉ ref :: opened)) =
      (((List.range store.tuples.size).filter fun r => decide (r ∉ opened)).filter
        fun r => decide (r ≠ ref)) := by
    rw [List.filter_filter]
    congr 1
    funext r
    simp [not_or]
  rw [hsub, List.length_filter_lt_length_iff_exists]
  exact ⟨ref, by simp [hlt, hclosed], by simp⟩

/-! ## Plain text -/

/-- The text of a closure, after the word for its kind. -/
def Closure.display (c : Closure) (kind : String) : String :=
  s!"[{kind} closure: {c.block.index}]"

/-- The text of a value met inside the tuples of `opened`. -/
def Value.displayWithin (store : Store) (opened : List Nat) : Value → String
  | .int n => toString n
  | .str s => s
  | .bool b => toString b
  | .dummy => "dummy"
  | .tuple ref =>
    if hopen : ref ∈ opened then "(...)"
    else if hlt : ref < store.tuples.size then
      let items := store.tuples[ref]
      if items.isEmpty then "nil"
      else
        let texts := items.toList.map fun item => item.displayWithin store (ref :: opened)
        "(" ++ ", ".intercalate texts ++ ")"
    else "nil"
  | .closure c => c.display "lambda"
  | .eta c => c.display "eta"
  | .builtin b => b.spelling
  | .fixpoint => "Y*"
termination_by store.countClosed opened
decreasing_by exact Store.countClosed_lt hlt hopen

/-- The plain text of a value. -/
def Value.display (store : Store) (v : Value) : String :=
  v.displayWithin store []

/-- A string is displayed as it is. -/
@[simp]
theorem Value.display_str (store : Store) (s : String) : (Value.str s).display store = s := by
  simp [display, displayWithin]

/-- The text by which errors cite a value: a string in quotes, anything else as
displayed. -/
def Value.cite (store : Store) : Value → String
  | .str s => s!"'{s}'"
  | v => v.display store

/-- Two operands, cited side by side. -/
def Value.citePair (store : Store) (left right : Value) : String :=
  s!"{left.cite store} and {right.cite store}"

/-- The elements of a tuple are written with that tuple open. -/
theorem Value.display_tuple {store : Store} {ref : Nat} (h : store.order ref ≠ 0) :
    (Value.tuple ref).display store =
      "(" ++ ", ".intercalate
        ((store.items ref).toList.map (Value.displayWithin store [ref])) ++ ")" := by
  have hlt : ref < store.tuples.size := by
    apply Decidable.byContradiction
    intro hge
    simp [Store.order, Store.items, hge] at h
  have hne : store.tuples[ref] ≠ #[] := by
    simpa [Store.order, Store.items, hlt] using h
  simp [Value.display, Value.displayWithin, Store.items, hlt, hne]

/-! ## Debugging form -/

/-- The debugging form of a closure. -/
def Closure.debug (c : Closure) : String :=
  s!"Closure \x7b unit: {c.block.index}, env_depth: {c.env.depth} \x7d"

/-- The debugging form of a value. -/
def Value.debug (store : Store) : Value → String
  | .int n => s!"Int({n})"
  | .str s => s!"Str({Text.quoted s})"
  | .bool b => s!"Bool({b})"
  | .dummy => "Dummy"
  | .tuple ref => "Tuple" ++ (Value.tuple ref).display store
  | .closure c => c.debug
  | .eta c => "Recursive" ++ c.debug
  | .builtin b => s!"Builtin({b})"
  | .fixpoint => "FixedPoint"

/-- The debugging form of an environment: the size of its innermost scope and its
depth. -/
def Env.debug (store : Store) (env : Env) : String :=
  s!"Environment \x7b bindings: {(store.bindings env.scope).length}, depth: {env.depth} \x7d"

/-- The debugging form of a name. -/
def Name.debug (x : Name) : String :=
  s!"Name({x.raw})"

end CSEMachine
