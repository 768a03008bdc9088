import CSEMachine.Diagnostic
import CSEMachine.NameTable
import CSEMachine.Term

/-!
# Resolved terms

Resolving a term replaces its identifiers by names, numbers its lambdas and
checks their binders, in one walk over the tree: a lambda before its body,
operator before operand, condition before the arms, left before right.  The walk
stops at the first lambda whose binder is refused.

Main results:

- Theorem `Term.resolve_nil`: `nil` resolves to the tuple of no items.
-/

namespace CSEMachine

/-- A tree with names for identifiers and a number on every lambda. -/
inductive Expr where
  | ident (line : Nat) (name : Name)
  | literal (line : Nat) (value : Literal)
  | fixpoint (line : Nat)
  | lambda (line : Nat) (index : Nat) (params : List Name) (body : Expr)
  | app (line : Nat) (rator rand : Expr)
  | cond (line : Nat) (condition thenArm elseArm : Expr)
  | tuple (line : Nat) (items : List Expr)
  | binary (line : Nat) (op : BinaryOp) (left right : Expr)
  | unary (line : Nat) (op : UnaryOp) (operand : Expr)

/-! ## Refused binders -/

/-- Why a parameter list binds nothing. -/
inductive BinderDefect where
  | empty
  /-- The same variable appears twice. -/
  | repeated (name : String)
deriving DecidableEq

/-- A refused lambda: the defect of its parameter list, and its line. -/
structure BinderError where
  defect : BinderDefect
  line : Nat
deriving DecidableEq

/-- The wording of a defect. -/
def BinderDefect.message : BinderDefect → String
  | empty => "lambda binds no variables"
  | repeated name => s!"variable `{name}` is bound twice by the same lambda"

/-- The code a defect is filed under. -/
def BinderDefect.code : BinderDefect → ErrorCode
  | empty => .emptyBinder
  | repeated _ => .repeatedParameter

namespace BinderError

/-- The wording of the refusal, without the line. -/
def message (e : BinderError) : String :=
  e.defect.message

/-- The wording of the refusal, with the line. -/
def text (e : BinderError) : String :=
  s!"line {e.line}: {e.message}"

/-- The report of the refusal. -/
def toDiagnostic (e : BinderError) : Diagnostic where
  code := e.defect.code
  message := e.message
  line := some e.line

end BinderError

/-! ## The walk -/

/-- What the walk carries along: the table of names, and the number of the next
lambda. -/
structure Numbering where
  table : NameTable
  next : Nat

/-- A walk that may be refused; what it carried along is kept in either case. -/
abbrev Walk (α : Type) := ExceptT BinderError (StateM Numbering) α

namespace Walk

/-- The name of a text. -/
def intern (text : String) : Walk Name :=
  modifyGetThe Numbering fun ⟨table, next⟩ =>
    let (name, table) := table.intern text
    (name, ⟨table, next⟩)

/-- The number of a lambda. -/
def fresh : Walk Nat :=
  modifyGetThe Numbering fun ⟨table, next⟩ => (next, ⟨table, next + 1⟩)

/-- The names of the parameters after those of `seen`, on a lambda at `line`. -/
def params (line : Nat) : List Name → List String → Walk (List Name)
  | _, [] => return []
  | seen, x :: xs => do
    let name ← intern x
    if name ∈ seen then throw ⟨.repeated x, line⟩
    let names ← params line (name :: seen) xs
    return name :: names

end Walk

mutual

/-- Resolves a term. -/
def Term.resolve : Term → Walk Expr
  | .ident line x => return .ident line (← Walk.intern x)
  | .literal line v => return .literal line v
  | .nil line => return .tuple line []
  | .fixpoint line => return .fixpoint line
  | .lambda line xs body => do
    if xs.isEmpty then throw ⟨.empty, line⟩
    let params ← Walk.params line [] xs
    let index ← Walk.fresh
    let body ← body.resolve
    return .lambda line index params body
  | .app line rator rand => do
    let rator ← rator.resolve
    let rand ← rand.resolve
    return .app line rator rand
  | .cond line condition thenArm elseArm => do
    let condition ← condition.resolve
    let thenArm ← thenArm.resolve
    let elseArm ← elseArm.resolve
    return .cond line condition thenArm elseArm
  | .tuple line items => do
    let items ← Term.resolveAll items
    return .tuple line items
  | .binary line op left right => do
    let left ← left.resolve
    let right ← right.resolve
    return .binary line op left right
  | .unary line op operand => do
    let operand ← operand.resolve
    return .unary line op operand

/-- Resolves the items of a tuple, in order. -/
def Term.resolveAll : List Term → Walk (List Expr)
  | [] => return []
  | t :: ts => do
    let e ← t.resolve
    let es ← Term.resolveAll ts
    return e :: es

end

/-- Resolves a whole tree, giving the table of names as it is afterwards also when
a binder is refused. -/
def Term.resolveIn (t : Term) (table : NameTable) : Except BinderError Expr × NameTable :=
  match t.resolve.run ⟨table, 1⟩ with
  | (result, numbering) => (result, numbering.table)

/-- `nil` resolves to the tuple of no items. -/
theorem Term.resolve_nil (line : Nat) :
    (Term.nil line).resolve = (Term.tuple line []).resolve := by
  simp [Term.resolve, Term.resolveAll]

end CSEMachine
