import CSEMachine.Builtin.Apply
import CSEMachine.Operator.Apply

/-!
# The machine

The machine runs the code of blocks.  Each activation of a block is a frame: an
environment and the code that is left to run.  All activations share one stack of
values.  A frame whose code has run out is dropped and its caller goes on; a frame
whose code runs out *at* the application of a closure is dropped before the closure
is activated, so calls in tail position need no depth.

An instruction is performed on a whole state.  Where its rule reads or changes the
current frame, it looks that frame up, and finds control malformed if there is none.

Main results:

- Theorems `State.inFrame_cons` and `State.inFrame_nil`: looking up the current frame
  succeeds exactly if there is one.
- Theorem `Machine.step_nil`: the machine halts when no frame is left.
- Theorem `Machine.step_cons_nil`: a finished frame is dropped.
-/

namespace CSEMachine

/-! ## States -/

/-- An activation: its environment, and the code that is left to run. -/
structure Frame where
  env : Env
  code : List Instr
deriving DecidableEq

/-- What a run consists of at one moment.  The newest frame and the topmost value
come first; printed texts are in the order of printing. -/
structure State where
  frames : List Frame
  stack : List Value
  store : Store
  printed : Array String
deriving DecidableEq

/-- What one step leads to. -/
inductive Transition where
  | next (state : State)
  | halted (state : State)
  | failed (fault : Fault) (state : State)
deriving DecidableEq

/-- Blames a failure on a line. -/
def Transition.atLine (line : Nat) : Transition → Transition
  | next s => next s
  | halted s => halted s
  | failed fault s => failed (fault.atLine line) s

/-- A machine: the table that its names come from, the number of activations that may
be live at a time, and whether a finished caller is dropped before its callee is
activated. -/
structure Machine where
  names : NameTable
  maxDepth : Option Nat := none
  dropsCallers : Bool := true

/-- The limit that forbids one more activation above the given frames. -/
def Machine.limitAbove? (m : Machine) (frames : List Frame) : Option Nat :=
  match m.maxDepth with
  | some limit => if limit ≤ frames.length then some limit else none
  | none => none

/-! ## Going on and failing -/

namespace State

/-- Stops for a cause. -/
def fail (s : State) (fault : Fault) : Transition :=
  .failed fault s

/-- Stops for want of a value on the stack. -/
def underflow (s : State) : Transition :=
  s.fail (Cause.malformed "value stack underflow")

/-- Goes on with one more value on the stack. -/
def push (s : State) (v : Value) : Transition :=
  match s with
  | ⟨frames, stack, store, printed⟩ => .next ⟨frames, v :: stack, store, printed⟩

/-- Goes on with the value of a computation on the stack, or fails as it does. -/
def pushResult (s : State) (result : Except Fault Value) : Transition :=
  match result with
  | .ok v => s.push v
  | .error fault => s.fail fault

/-! ## The current frame -/

/-- Looks up the current frame, which is the newest one. -/
def currentFrame (s : State) : Except Cause Frame :=
  match s.frames with
  | frame :: _ => .ok frame
  | [] => .error (.malformed "no active control structure")

/-- Goes on with the current frame, or fails if there is none. -/
def inFrame (s : State) (rule : Frame → Transition) : Transition :=
  match s.currentFrame with
  | .ok frame => rule frame
  | .error cause => s.fail cause

/-- The newest frame is the current one. -/
@[simp]
theorem inFrame_cons (frame : Frame) (callers : List Frame) (stack : List Value) (store : Store)
    (printed : Array String) (rule : Frame → Transition) :
    inFrame ⟨frame :: callers, stack, store, printed⟩ rule = rule frame :=
  rfl

/-- Without a frame, going on with the current one finds control malformed. -/
@[simp]
theorem inFrame_nil (stack : List Value) (store : Store) (printed : Array String)
    (rule : Frame → Transition) :
    inFrame ⟨[], stack, store, printed⟩ rule =
      .failed (Cause.malformed "no active control structure") ⟨[], stack, store, printed⟩ :=
  rfl

/-- The state with another frame in place of the current one. -/
def setFrame (s : State) (frame : Frame) : State :=
  match s with
  | ⟨frames, stack, store, printed⟩ => ⟨frame :: frames.tail, stack, store, printed⟩

@[simp]
theorem setFrame_cons (frame frame' : Frame) (callers : List Frame) (stack : List Value)
    (store : Store) (printed : Array String) :
    setFrame ⟨frame :: callers, stack, store, printed⟩ frame' =
      ⟨frame' :: callers, stack, store, printed⟩ :=
  rfl

/-- Puts code in front of what is left to run in the current frame. -/
def prepend (s : State) (code : List Instr) : Transition :=
  s.inFrame fun frame => .next (s.setFrame ⟨frame.env, code ++ frame.code⟩)

/-! ## Instructions other than application -/

/-- Pushes the value bound to a name, or else the built-in that its text spells. -/
def ident (s : State) (m : Machine) (x : Name) : Transition :=
  s.inFrame fun frame =>
    match frame.env.lookup s.store x with
    | some v => s.push v
    | none =>
      match Builtin.ofSpelling? (m.names.text x) with
      | some b => s.push (.builtin b)
      | none => s.fail (Cause.undeclared (m.names.text x))

/-- Pushes a closure of a block over the environment of the current frame. -/
def lambda (s : State) (b : Block) : Transition :=
  s.inFrame fun frame => s.push (.closure ⟨b, frame.env⟩)

/-- Applies an operator to the two topmost values, the topmost one on its left. -/
def binary (s : State) (op : BinaryOp) : Transition :=
  match s with
  | ⟨frames, left :: right :: rest, store, printed⟩ =>
    let (result, store) := op.apply left right store
    pushResult ⟨frames, rest, store, printed⟩ (result.mapError .of)
  | s => s.underflow

/-- Applies an operator to the topmost value. -/
def unary (s : State) (op : UnaryOp) : Transition :=
  match s with
  | ⟨frames, operand :: rest, store, printed⟩ =>
    pushResult ⟨frames, rest, store, printed⟩ ((op.apply store operand).mapError .of)
  | s => s.underflow

/-- Forms a tuple of the topmost values, the topmost one first. -/
def formTuple (s : State) (arity : Nat) : Transition :=
  match s with
  | ⟨frames, stack, store, printed⟩ =>
    let items := stack.take arity
    if items.length = arity then
      let (ref, store) := store.formTuple items.toArray
      .next ⟨frames, .tuple ref :: stack.drop arity, store, printed⟩
    else
      fail ⟨frames, stack, store, printed⟩
        (Cause.malformed "not enough values to form a tuple")

/-- Goes on with one of two arms, as the topmost truth value says. -/
def branch (s : State) (thenArm elseArm : List Instr) : Transition :=
  match s with
  | ⟨frames, .bool b :: rest, store, printed⟩ =>
    prepend ⟨frames, rest, store, printed⟩ (if b then thenArm else elseArm)
  | ⟨frames, v :: rest, store, printed⟩ =>
    fail ⟨frames, rest, store, printed⟩ (Cause.wrongKind "a truthvalue" (v.cite store))
  | s => s.underflow

end State

/-! ## Application -/

/-- The scope of an activation of a closure.  A single parameter names the operand
itself, several name the elements of a tuple. -/
def Closure.bindOperand (c : Closure) (store : Store) (operand : Value) :
    Except Cause Scope :=
  match c.block.params, operand with
  | [x], v => .ok (c.env.extend.bind x v)
  | xs, .tuple ref => c.env.extend.bindPositional xs (store.items ref)
  | xs, v => .error (.wrongKind s!"a tuple of {xs.length} elements" (v.cite store))

/-- A single parameter is bound to the operand. -/
theorem Closure.bindOperand_of_length_eq_one {c : Closure} (h : c.block.params.length = 1)
    (store : Store) (operand : Value) :
    c.bindOperand store operand = .ok (c.env.extend.bindEach c.block.params [operand]) := by
  obtain ⟨x, hx⟩ := List.length_eq_one_iff.1 h
  simp [bindOperand, hx, Scope.bindEach]

/-- Any other number of parameters needs a tuple. -/
theorem Closure.bindOperand_of_length_ne_one {c : Closure} (h : c.block.params.length ≠ 1)
    (store : Store) (operand : Value) :
    c.bindOperand store operand =
      match operand with
      | .tuple ref => c.env.extend.bindPositional c.block.params (store.items ref)
      | v => .error (.wrongKind s!"a tuple of {c.block.params.length} elements" (v.cite store)) := by
  unfold bindOperand
  split
  · rename_i x _ hx
    simp [hx] at h
  · rfl
  · rename_i htuple _
    split
    · exact (htuple _ rfl).elim
    · rfl

namespace State

/-- The frames that stay below a callee: all there are, but for the current one if it has
run out of code. -/
def callersBelow (s : State) (m : Machine) : List Frame :=
  match s.frames with
  | [] => []
  | ⟨env, code⟩ :: callers =>
    if m.dropsCallers && code.isEmpty then callers else ⟨env, code⟩ :: callers

/-- Activates a closure on an operand. -/
def call (s : State) (m : Machine) (c : Closure) (operand : Value) : Transition :=
  match c.bindOperand s.store operand with
  | .error cause => s.fail cause
  | .ok scope =>
    let callers := s.callersBelow m
    match m.limitAbove? callers with
    | some limit => s.fail (Cause.depthExceeded limit)
    | none =>
      match s with
      | ⟨_, stack, store, printed⟩ =>
        let (env, store) := scope.close store
        .next ⟨⟨env, c.block.code⟩ :: callers, stack, store, printed⟩

/-- Unrolls the fixed point of a closure by one step: the closure is to be applied to
the eta closure, and what that gives to the operand. -/
def unroll (s : State) (line : Nat) (c : Closure) (operand : Value) : Transition :=
  match s with
  | ⟨frames, stack, store, printed⟩ =>
    prepend ⟨frames, .closure c :: .eta c :: operand :: stack, store, printed⟩
      [.apply line, .apply line]

/-- Takes the fixed point of a closure. -/
def fix (s : State) (operand : Value) : Transition :=
  match operand with
  | .closure c => s.push (.eta c)
  | _ => s.fail (Cause.wrongKind "a lambda closure" (operand.cite s.store))

/-- Selects an element of a tuple. -/
def select (s : State) (ref : Nat) (operand : Value) : Transition :=
  match operand with
  | .int index => s.pushResult ((s.store.select ref index).mapError .of)
  | _ => s.fail (Cause.wrongKind "an integer tuple index" (operand.cite s.store))

/-- Joins two strings.  The second one is the operand of the next application, which
must be the next instruction of the current frame and is consumed with it. -/
def conc (s : State) (first : Value) : Transition :=
  s.inFrame fun frame =>
    match frame.code with
    | .apply _ :: code =>
      match s.setFrame ⟨frame.env, code⟩ with
      | ⟨frames, second :: rest, store, printed⟩ =>
        pushResult ⟨frames, rest, store, printed⟩ (Builtin.applyConc store first second)
      | s => s.underflow
    | _ => s.fail (Cause.missingOperand Builtin.conc.spelling)

/-- Records the text of a value. -/
def print (s : State) (operand : Value) : Transition :=
  match s with
  | ⟨frames, stack, store, printed⟩ =>
    .next ⟨frames, .dummy :: stack, store, printed.push (operand.printed store)⟩

/-- Applies a built-in. -/
def applyBuiltin (s : State) (b : Builtin) (operand : Value) : Transition :=
  match b with
  | .print => s.print operand
  | .conc => s.conc operand
  | b => s.pushResult (b.apply s.store operand)

/-- All built-ins but two need no more than their operand. -/
theorem applyBuiltin_of_ne {b : Builtin} (hprint : b ≠ .print) (hconc : b ≠ .conc) (s : State)
    (operand : Value) : s.applyBuiltin b operand = s.pushResult (b.apply s.store operand) := by
  cases b with
  | print => exact (hprint rfl).elim
  | conc => exact (hconc rfl).elim
  | _ => rfl

/-- Applies a value to an operand. -/
def applyValue (s : State) (m : Machine) (line : Nat) (operator operand : Value) :
    Transition :=
  match operator with
  | .closure c => s.call m c operand
  | .fixpoint => s.fix operand
  | .eta c => s.unroll line c operand
  | .tuple ref => s.select ref operand
  | .builtin b => s.applyBuiltin b operand
  | _ =>
    s.fail ⟨.notApplicable (operator.cite s.store), none,
      [s!"{operator.kind.name} values cannot be applied"]⟩

/-- Applies the topmost value to the one below it. -/
def apply (s : State) (m : Machine) (line : Nat) : Transition :=
  match s with
  | ⟨frames, operator :: operand :: rest, store, printed⟩ =>
    applyValue ⟨frames, rest, store, printed⟩ m line operator operand
  | s => s.underflow

/-! ## Steps and runs -/

/-- Performs an instruction that has been taken off the code. -/
def perform (m : Machine) (s : State) : Instr → Transition
  | .ident _ x => s.ident m x
  | .literal _ v => s.push v.value
  | .lambda _ b => s.lambda b
  | .binary _ op => s.binary op
  | .unary _ op => s.unary op
  | .tuple _ arity => s.formTuple arity
  | .branch _ thenArm elseArm => s.branch thenArm elseArm
  | .apply line => s.apply m line
  | .fixpoint _ => s.push .fixpoint

end State

namespace Machine

/-- One step. -/
def step (m : Machine) : State → Transition
  | ⟨[], stack, store, printed⟩ => .halted ⟨[], stack, store, printed⟩
  | ⟨⟨_, []⟩ :: callers, stack, store, printed⟩ => .next ⟨callers, stack, store, printed⟩
  | ⟨⟨env, i :: code⟩ :: callers, stack, store, printed⟩ =>
    (State.perform m ⟨⟨env, code⟩ :: callers, stack, store, printed⟩ i).atLine i.line

/-- The first activation, of the code of a whole program. -/
def start (m : Machine) (root : Block) (store : Store) : Transition :=
  match m.limitAbove? [] with
  | some limit => .failed (Cause.depthExceeded limit) ⟨[], [], store, #[]⟩
  | none =>
    let (env, store) := Env.root store
    .next ⟨[⟨env, root.code⟩], [], store, #[]⟩

/-- How a run ended: the topmost value or the fault, and what was left behind. -/
structure Ending where
  result : Except Fault (Option Value)
  store : Store
  printed : Array String

/-- Follows a transition to its end, in at most `fuel` steps. -/
def finish (m : Machine) : Nat → Transition → Option Ending
  | _, .halted s => some ⟨.ok s.stack.head?, s.store, s.printed⟩
  | _, .failed fault s => some ⟨.error fault, s.store, s.printed⟩
  | 0, .next _ => none
  | fuel + 1, .next s => m.finish fuel (m.step s)

/-- The machine halts when no frame is left. -/
@[simp]
theorem step_nil (m : Machine) (stack : List Value) (store : Store)
    (printed : Array String) :
    m.step ⟨[], stack, store, printed⟩ = .halted ⟨[], stack, store, printed⟩ :=
  rfl

/-- A finished frame is dropped. -/
@[simp]
theorem step_cons_nil (m : Machine) (env : Env) (callers : List Frame) (stack : List Value)
    (store : Store) (printed : Array String) :
    m.step ⟨⟨env, []⟩ :: callers, stack, store, printed⟩ =
      .next ⟨callers, stack, store, printed⟩ :=
  rfl

end Machine

end CSEMachine
