import CSEMachine.Builtin.Apply
import CSEMachine.Operator.Apply
import CSEMachine.Proofs.Naming

/-!
# Direct evaluation

A tree can be evaluated without code, frames or a stack of values: by recursion on the
tree, in an environment, with the operands that wait for its value.  A value that has been
obtained is applied to the operands waiting for it one after the other, and `Conc` takes
the second of its operands from among them.

Functions live in a heap of their own, as the tree of their body and the environment that
they were met in; the value of a function points there.  Everything else about values,
their operators and their texts is as for the machine.

Main results:

- Definition `Term.eval`: the value of a tree, applied to its waiting operands.
- Definition `Direct.apply`: the value of an application.
- Definition `Term.evaluate`: the outcome of a whole tree.
-/

namespace CSEMachine

namespace Direct

/-! ## Worlds and outcomes -/

/-- The values of variables, the innermost scope first.  The outermost one binds nothing. -/
abbrev Environment := List (List (String × Value))

/-- The value bound to a variable by the innermost scope that binds it. -/
def Environment.find? (env : Environment) (x : String) : Option Value :=
  env.findSome? fun scope => scope.lookup x

/-- A lambda with the number it has in its tree, and the environment it was met in. -/
structure Function where
  number : Nat
  params : List String
  body : Term
  env : Environment

/-- What an evaluation changes: the tuples, the functions and the printed texts. -/
structure World where
  store : Store
  functions : Array Function
  printed : Array String

/-- A world that nothing has happened in. -/
def World.empty : World :=
  ⟨Store.empty, #[], #[]⟩

/-- How an evaluation ends, if the fuel for it suffices. -/
inductive Outcome (α : Type) where
  | value (result : α) (world : World)
  | fault (fault : Fault) (world : World)
  | pending

/-- Goes on with the result of an evaluation. -/
def Outcome.andThen {α β : Type} (o : Outcome α) (f : α → World → Outcome β) : Outcome β :=
  match o with
  | value a w => f a w
  | fault e w => fault e w
  | pending => pending

/-- The operands that wait for a value, each with the line of its application. -/
abbrev Waiting := List (Value × Nat)

namespace World

/-- Ends an evaluation with a fault that is blamed on a line. -/
def fail {α : Type} (w : World) (line : Nat) (fault : Fault) : Outcome α :=
  .fault (fault.atLine line) w

/-- Ends an evaluation with a result, or with a fault that is blamed on a line. -/
def give (w : World) (line : Nat) (result : Except Fault Value) : Outcome Value :=
  match result with
  | .ok v => .value v w
  | .error fault => w.fail line fault

/-- Forms a new tuple. -/
def formTuple (w : World) (items : List Value) : Value × World :=
  (.tuple w.store.tuples.size, { w with store := (w.store.formTuple items.toArray).2 })

/-- The value of the function in a cell of the heap. -/
def functionAt (number cell : Nat) : Value :=
  .closure ⟨⟨number, [], []⟩, ⟨cell, []⟩⟩

/-- Forms a new function. -/
def formFunction (w : World) (fn : Function) : Value × World :=
  (functionAt fn.number w.functions.size, { w with functions := w.functions.push fn })

/-- The function that a closure value points to. -/
def function? (w : World) (c : Closure) : Option Function :=
  w.functions[c.env.scope]?

/-- Records the text of a value. -/
def print (w : World) (v : Value) : World :=
  { w with printed := w.printed.push (v.printed w.store) }

/-- The operands for the parameters of a function: a single parameter takes the operand
itself, several take the elements of a tuple. -/
def spread (w : World) (arity : Nat) (operand : Value) : Except Cause (List Value) :=
  if arity = 1 then .ok [operand]
  else
    match operand with
    | .tuple ref =>
      if w.store.order ref = arity then .ok (w.store.items ref).toList
      else .error (.arityMismatch arity (w.store.order ref))
    | v => .error (.wrongKind s!"a tuple of {arity} elements" (v.cite w.store))

end World

end Direct

open Direct

/-! ## Trees -/

mutual

/-- Evaluates a tree, whose first lambda has number `n`, and applies its value to the
operands that wait for it. -/
def Term.eval (apply : Value → Waiting → World → Outcome Value) :
    Term → Nat → Environment → Waiting → World → Outcome Value
  | .ident line x, _, env, ws, w =>
    match env.find? x with
    | some v => apply v ws w
    | none =>
      match Builtin.ofSpelling? x with
      | some b => apply (.builtin b) ws w
      | none => w.fail line (Cause.undeclared x)
  | .literal _ v, _, _, ws, w => apply v.value ws w
  | .nil _, _, _, ws, w => apply (w.formTuple []).1 ws (w.formTuple []).2
  | .fixpoint _, _, _, ws, w => apply .fixpoint ws w
  | .lambda _ xs body, n, env, ws, w =>
    apply (w.formFunction ⟨n, xs, body, env⟩).1 ws (w.formFunction ⟨n, xs, body, env⟩).2
  | .app line rator rand, n, env, ws, w =>
    (rand.eval apply (n + rator.lambdas) env [] w).andThen fun v w =>
      rator.eval apply n env ((v, line) :: ws) w
  | .cond line condition thenArm elseArm, n, env, ws, w =>
    (condition.eval apply n env [] w).andThen fun v w =>
      match v with
      | .bool true => thenArm.eval apply (n + condition.lambdas) env ws w
      | .bool false => elseArm.eval apply (n + condition.lambdas + thenArm.lambdas) env ws w
      | v => w.fail line (Cause.wrongKind "a truthvalue" (v.cite w.store))
  | .tuple _ items, n, env, ws, w =>
    (Term.evalAll apply items n env w).andThen fun vs w =>
      apply (w.formTuple vs).1 ws (w.formTuple vs).2
  | .binary line op left right, n, env, ws, w =>
    (right.eval apply (n + left.lambdas) env [] w).andThen fun b w =>
      (left.eval apply n env [] w).andThen fun a w =>
        (World.give { w with store := (op.apply a b w.store).2 } line
          ((op.apply a b w.store).1.mapError .of)).andThen fun v w => apply v ws w
  | .unary line op operand, n, env, ws, w =>
    (operand.eval apply n env [] w).andThen fun a w =>
      (w.give line ((op.apply w.store a).mapError .of)).andThen fun v w => apply v ws w

/-- Evaluates several trees, the last one first. -/
def Term.evalAll (apply : Value → Waiting → World → Outcome Value) :
    List Term → Nat → Environment → World → Outcome (List Value)
  | [], _, _, w => .value [] w
  | t :: ts, n, env, w =>
    (Term.evalAll apply ts (n + t.lambdas) env w).andThen fun vs w =>
      (t.eval apply n env [] w).andThen fun v w => .value (v :: vs) w

end

/-! ## Application -/

namespace Direct

/-- Applies a value to the operands that wait for it, one after the other.  Every
application takes one unit of fuel. -/
def apply : Nat → Value → Waiting → World → Outcome Value
  | _, v, [], w => .value v w
  | 0, _, _ :: _, _ => .pending
  | fuel + 1, operator, (operand, line) :: ws, w =>
    match operator with
    | .closure c =>
      match w.function? c with
      | some fn =>
        match w.spread fn.params.length operand with
        | .ok vs =>
          (fn.body.eval (apply fuel) (fn.number + 1) (fn.params.zip vs :: fn.env) [] w).andThen
            fun v w => apply fuel v ws w
        | .error cause => w.fail line cause
      | none => w.fail line (Cause.malformed "no such function")
    | .eta c => apply fuel (.closure c) ((.eta c, line) :: (operand, line) :: ws) w
    | .fixpoint =>
      match operand with
      | .closure c => apply fuel (.eta c) ws w
      | _ => w.fail line (Cause.wrongKind "a lambda closure" (operand.cite w.store))
    | .tuple ref =>
      match operand with
      | .int index =>
        (w.give line ((w.store.select ref index).mapError .of)).andThen fun v w =>
          apply fuel v ws w
      | _ => w.fail line (Cause.wrongKind "an integer tuple index" (operand.cite w.store))
    | .builtin .print => apply fuel .dummy ws (w.print operand)
    | .builtin .conc =>
      match ws with
      | [] => w.fail line (Cause.missingOperand Builtin.conc.spelling)
      | (second, _) :: ws =>
        (w.give line (Builtin.applyConc w.store operand second)).andThen fun v w =>
          apply fuel v ws w
    | .builtin b =>
      (w.give line (b.apply w.store operand)).andThen fun v w => apply fuel v ws w
    | _ =>
      w.fail line ⟨.notApplicable (operator.cite w.store), none,
        [s!"{operator.kind.name} values cannot be applied"]⟩

end Direct

/-- Evaluates a whole tree, in a root that binds nothing. -/
def Term.evaluate (fuel : Nat) (t : Term) : Outcome Value :=
  t.eval (apply fuel) 1 [[]] [] .empty

end CSEMachine
