import CSEMachine.Machine

/-!
# States with the current frame in hand

An instruction is taken off the code of a frame, so where the rules of the machine look up
the current frame, there is one.  A state that has one can be taken apart into that frame and
all else, and then every rule acts as it would if the frame had been handed to it.

Main results:

- Theorem `Focus.ident_eq` and its companions: what the rules come to with a frame in hand.
- Theorem `Machine.step_cons_cons`: the next instruction of the current frame is performed with
  that frame in hand, and a failure is blamed on its line.
-/

namespace CSEMachine

/-- A state whose current frame is in hand: the environment and the rest of the code of that
frame, the frames below it, and all else as in a state. -/
structure Focus where
  env : Env
  code : List Instr
  callers : List Frame
  stack : List Value
  store : Store
  printed : Array String

/-- The state with the current frame back in place. -/
def Focus.state (f : Focus) : State :=
  ⟨⟨f.env, f.code⟩ :: f.callers, f.stack, f.store, f.printed⟩

namespace Focus

/-! ## Going on and failing -/

/-- Stops for a cause. -/
def fail (f : Focus) (fault : Fault) : Transition :=
  f.state.fail fault

/-- Stops for want of a value on the stack. -/
def underflow (f : Focus) : Transition :=
  f.state.underflow

/-- Goes on with one more value on the stack. -/
def push (f : Focus) (v : Value) : Transition :=
  f.state.push v

theorem push_eq (f : Focus) (v : Value) :
    f.push v = .next ⟨⟨f.env, f.code⟩ :: f.callers, v :: f.stack, f.store, f.printed⟩ :=
  rfl

/-- Goes on with the value of a computation on the stack, or fails as it does. -/
def pushResult (f : Focus) (result : Except Fault Value) : Transition :=
  f.state.pushResult result

/-! ## Instructions other than application -/

/-- Pushes the value bound to a name, or else the built-in that its text spells. -/
def ident (f : Focus) (m : Machine) (x : Name) : Transition :=
  f.state.ident m x

theorem ident_eq (f : Focus) (m : Machine) (x : Name) :
    f.ident m x =
      match f.env.lookup f.store x with
      | some v => f.push v
      | none =>
        match Builtin.ofSpelling? (m.names.text x) with
        | some b => f.push (.builtin b)
        | none => f.fail (Cause.undeclared (m.names.text x)) :=
  rfl

/-- Applies an operator to the two topmost values, the topmost one on its left. -/
def binary (f : Focus) (op : BinaryOp) : Transition :=
  f.state.binary op

theorem binary_eq (f : Focus) (op : BinaryOp) :
    f.binary op =
      match f with
      | ⟨env, code, callers, left :: right :: rest, store, printed⟩ =>
        pushResult ⟨env, code, callers, rest, (op.apply left right store).2, printed⟩
          ((op.apply left right store).1.mapError .of)
      | f => f.underflow := by
  rcases f with ⟨env, code, callers, _ | ⟨left, _ | ⟨right, rest⟩⟩, store, printed⟩ <;> rfl

/-- Applies an operator to the topmost value. -/
def unary (f : Focus) (op : UnaryOp) : Transition :=
  f.state.unary op

theorem unary_eq (f : Focus) (op : UnaryOp) :
    f.unary op =
      match f with
      | ⟨env, code, callers, operand :: rest, store, printed⟩ =>
        pushResult ⟨env, code, callers, rest, store, printed⟩
          ((op.apply store operand).mapError .of)
      | f => f.underflow := by
  rcases f with ⟨env, code, callers, _ | ⟨operand, rest⟩, store, printed⟩ <;> rfl

/-- Forms a tuple of the topmost values, the topmost one first. -/
def formTuple (f : Focus) (arity : Nat) : Transition :=
  f.state.formTuple arity

theorem formTuple_eq (f : Focus) (arity : Nat) :
    f.formTuple arity =
      if (f.stack.take arity).length = arity then
        .next ⟨⟨f.env, f.code⟩ :: f.callers,
          .tuple (f.store.formTuple (f.stack.take arity).toArray).1 :: f.stack.drop arity,
          (f.store.formTuple (f.stack.take arity).toArray).2, f.printed⟩
      else f.fail (Cause.malformed "not enough values to form a tuple") :=
  rfl

/-- A tuple is formed of values that are all on the stack. -/
theorem formTuple_append {items : List Value} {arity : Nat} (h : items.length = arity)
    (env : Env) (code : List Instr) (callers : List Frame) (stack : List Value) (store : Store)
    (printed : Array String) :
    formTuple ⟨env, code, callers, items ++ stack, store, printed⟩ arity =
      .next ⟨⟨env, code⟩ :: callers, .tuple store.tuples.size :: stack,
        (store.formTuple items.toArray).2, printed⟩ := by
  subst h
  simp [formTuple_eq, Store.formTuple]

/-- Puts one of two arms in front of the code, as the topmost truth value says. -/
def branch (f : Focus) (thenArm elseArm : List Instr) : Transition :=
  f.state.branch thenArm elseArm

theorem branch_eq (f : Focus) (thenArm elseArm : List Instr) :
    f.branch thenArm elseArm =
      match f with
      | ⟨env, code, callers, .bool b :: rest, store, printed⟩ =>
        .next ⟨⟨env, (if b then thenArm else elseArm) ++ code⟩ :: callers, rest, store, printed⟩
      | ⟨env, code, callers, v :: rest, store, printed⟩ =>
        fail ⟨env, code, callers, rest, store, printed⟩
          (Cause.wrongKind "a truthvalue" (v.cite store))
      | f => f.underflow := by
  rcases f with ⟨env, code, callers, _ | ⟨v, rest⟩, store, printed⟩
  · rfl
  · cases v <;> rfl

/-! ## Application -/

/-- The frames that stay below a callee. -/
def callersBelow (f : Focus) (m : Machine) : List Frame :=
  f.state.callersBelow m

theorem callersBelow_eq (f : Focus) (m : Machine) :
    f.callersBelow m =
      if m.dropsCallers && f.code.isEmpty then f.callers
      else ⟨f.env, f.code⟩ :: f.callers :=
  rfl

/-- Activates a closure on an operand. -/
def call (f : Focus) (m : Machine) (c : Closure) (operand : Value) : Transition :=
  f.state.call m c operand

theorem call_eq (f : Focus) (m : Machine) (c : Closure) (operand : Value) :
    f.call m c operand =
      match c.bindOperand f.store operand with
      | .error cause => f.fail cause
      | .ok scope =>
        match m.limitAbove? (f.callersBelow m) with
        | some limit => f.fail (Cause.depthExceeded limit)
        | none =>
          .next ⟨⟨(scope.close f.store).1, c.block.code⟩ :: f.callersBelow m, f.stack,
            (scope.close f.store).2, f.printed⟩ :=
  rfl

/-- Unrolls the fixed point of a closure by one step. -/
def unroll (f : Focus) (line : Nat) (c : Closure) (operand : Value) : Transition :=
  f.state.unroll line c operand

theorem unroll_eq (f : Focus) (line : Nat) (c : Closure) (operand : Value) :
    f.unroll line c operand =
      .next ⟨⟨f.env, .apply line :: .apply line :: f.code⟩ :: f.callers,
        .closure c :: .eta c :: operand :: f.stack, f.store, f.printed⟩ :=
  rfl

/-- Takes the fixed point of a closure. -/
def fix (f : Focus) (operand : Value) : Transition :=
  f.state.fix operand

theorem fix_eq (f : Focus) (operand : Value) :
    f.fix operand =
      match operand with
      | .closure c => f.push (.eta c)
      | _ => f.fail (Cause.wrongKind "a lambda closure" (operand.cite f.store)) :=
  rfl

/-- Selects an element of a tuple. -/
def select (f : Focus) (ref : Nat) (operand : Value) : Transition :=
  f.state.select ref operand

theorem select_eq (f : Focus) (ref : Nat) (operand : Value) :
    f.select ref operand =
      match operand with
      | .int index => f.pushResult ((f.store.select ref index).mapError .of)
      | _ => f.fail (Cause.wrongKind "an integer tuple index" (operand.cite f.store)) :=
  rfl

/-- Joins two strings, the second of which is the operand of the next application. -/
def conc (f : Focus) (first : Value) : Transition :=
  f.state.conc first

theorem conc_eq (f : Focus) (first : Value) :
    f.conc first =
      match f with
      | ⟨env, .apply _ :: code, callers, second :: rest, store, printed⟩ =>
        pushResult ⟨env, code, callers, rest, store, printed⟩
          (Builtin.applyConc store first second)
      | ⟨env, .apply _ :: code, callers, [], store, printed⟩ =>
        underflow ⟨env, code, callers, [], store, printed⟩
      | f => f.fail (Cause.missingOperand Builtin.conc.spelling) := by
  rcases f with ⟨env, _ | ⟨i, code⟩, callers, stack, store, printed⟩
  · rfl
  · cases i with
    | apply line => cases stack <;> rfl
    | _ => rfl

/-- `Conc` needs an application to be the next instruction. -/
theorem conc_of_ne_apply {i : Instr} (hi : ∀ line, i ≠ .apply line) {env : Env}
    {code : List Instr} {callers : List Frame} {stack : List Value} {store : Store}
    {printed : Array String} (first : Value) :
    conc ⟨env, i :: code, callers, stack, store, printed⟩ first =
      fail ⟨env, i :: code, callers, stack, store, printed⟩
        (Cause.missingOperand Builtin.conc.spelling) := by
  cases i with
  | apply line => exact (hi line rfl).elim
  | _ => rfl

/-- Records the text of a value. -/
def print (f : Focus) (operand : Value) : Transition :=
  f.state.print operand

/-- Applies a built-in. -/
def applyBuiltin (f : Focus) (b : Builtin) (operand : Value) : Transition :=
  f.state.applyBuiltin b operand

/-- All built-ins but two need no more than their operand. -/
theorem applyBuiltin_of_ne {b : Builtin} (hprint : b ≠ .print) (hconc : b ≠ .conc) (f : Focus)
    (operand : Value) : f.applyBuiltin b operand = f.pushResult (b.apply f.store operand) :=
  State.applyBuiltin_of_ne hprint hconc f.state operand

/-- Applies a value to an operand. -/
def applyValue (f : Focus) (m : Machine) (line : Nat) (operator operand : Value) :
    Transition :=
  f.state.applyValue m line operator operand

theorem applyValue_eq (f : Focus) (m : Machine) (line : Nat) (operator operand : Value) :
    f.applyValue m line operator operand =
      match operator with
      | .closure c => f.call m c operand
      | .fixpoint => f.fix operand
      | .eta c => f.unroll line c operand
      | .tuple ref => f.select ref operand
      | .builtin b => f.applyBuiltin b operand
      | _ =>
        f.fail ⟨.notApplicable (operator.cite f.store), none,
          [s!"{operator.kind.name} values cannot be applied"]⟩ := by
  cases operator <;> rfl

/-- Applies the topmost value to the one below it. -/
def apply (f : Focus) (m : Machine) (line : Nat) : Transition :=
  f.state.apply m line

theorem apply_eq (f : Focus) (m : Machine) (line : Nat) :
    f.apply m line =
      match f with
      | ⟨env, code, callers, operator :: operand :: rest, store, printed⟩ =>
        applyValue ⟨env, code, callers, rest, store, printed⟩ m line operator operand
      | f => f.underflow := by
  rcases f with ⟨env, code, callers, _ | ⟨operator, _ | ⟨operand, rest⟩⟩, store, printed⟩ <;> rfl

end Focus

/-! ## Instructions -/

/-- Performs an instruction that has been taken off the code of the frame in hand. -/
def Instr.perform (m : Machine) (f : Focus) (i : Instr) : Transition :=
  f.state.perform m i

theorem Instr.perform_eq (m : Machine) (f : Focus) (i : Instr) :
    i.perform m f =
      match i with
      | .ident _ x => f.ident m x
      | .literal _ v => f.push v.value
      | .lambda _ b => f.push (.closure ⟨b, f.env⟩)
      | .binary _ op => f.binary op
      | .unary _ op => f.unary op
      | .tuple _ arity => f.formTuple arity
      | .branch _ thenArm elseArm => f.branch thenArm elseArm
      | .apply line => f.apply m line
      | .fixpoint _ => f.push .fixpoint := by
  cases i <;> rfl

/-- The next instruction of the current frame is performed with that frame in hand, and a
failure is blamed on its line. -/
@[simp]
theorem Machine.step_cons_cons (m : Machine) (env : Env) (i : Instr) (code : List Instr)
    (callers : List Frame) (stack : List Value) (store : Store) (printed : Array String) :
    m.step ⟨⟨env, i :: code⟩ :: callers, stack, store, printed⟩ =
      (i.perform m ⟨env, code, callers, stack, store, printed⟩).atLine i.line :=
  rfl

end CSEMachine
