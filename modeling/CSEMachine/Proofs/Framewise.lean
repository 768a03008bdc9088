import CSEMachine.Proofs.Run

/-!
# What an instruction sees of the frames

An instruction sees the environment of its frame, and `Conc` also whether an application is
next.  The rest of the code and the callers are only passed on, except by the application of
a closure, which counts the frames and drops a finished one.  So in states that differ in
these an instruction does the same, and the difference stays.

Main results:

- Theorem `Instr.perform_framewise`: every instruction but the application of a closure does
  the same before code and above callers that continue alike.
-/

namespace CSEMachine

/-! ## States that differ in their frames -/

/-- States that differ in their frames only, which are in a given relation. -/
structure State.Framewise (R : List Frame → List Frame → Prop) (s s' : State) : Prop where
  frames : R s.frames s'.frames
  stack : s.stack = s'.stack
  store : s.store = s'.store
  printed : s.printed = s'.printed

theorem Transition.Related.ending?_of_framewise {R : List Frame → List Frame → Prop}
    {t t' : Transition} (h : Related (State.Framewise R) t t') : t.ending? = t'.ending? := by
  cases h with
  | next h => rfl
  | halted h => simp only [ending?, h.stack, h.store, h.printed]
  | failed fault h => simp only [ending?, h.store, h.printed]

/-- Two pairs of code and callers that one frame can go on with: with the same code in front
of both they are related, and both begin with the same application or neither with any. -/
inductive Frame.Continues (R : List Frame → List Frame → Prop) (env : Env)
    (callers callers' : List Frame) : List Instr → List Instr → Prop
  | apply (line : Nat) {code code' : List Instr}
      (h : ∀ front : List Instr,
        R (⟨env, front ++ code⟩ :: callers) (⟨env, front ++ code'⟩ :: callers')) :
      Continues R env callers callers' (.apply line :: code) (.apply line :: code')
  | other {code code' : List Instr} (hcode : ∀ line rest, code ≠ .apply line :: rest)
      (hcode' : ∀ line rest, code' ≠ .apply line :: rest)
      (h : ∀ front : List Instr,
        R (⟨env, front ++ code⟩ :: callers) (⟨env, front ++ code'⟩ :: callers')) :
      Continues R env callers callers' code code'

namespace Frame.Continues

variable {R : List Frame → List Frame → Prop} {env : Env} {callers callers' : List Frame}
  {code code' : List Instr}

theorem front (h : Continues R env callers callers' code code') (front : List Instr) :
    R (⟨env, front ++ code⟩ :: callers) (⟨env, front ++ code'⟩ :: callers') := by
  cases h with
  | @apply line code code' h =>
      rw [List.append_cons front _ code, List.append_cons front _ code']
      exact h (front ++ [.apply line])
  | other _ _ h => exact h front

/-- The same code continues alike above callers that are related below every frame. -/
theorem same (h : ∀ code, R (⟨env, code⟩ :: callers) (⟨env, code⟩ :: callers'))
    (code : List Instr) : Continues R env callers callers' code code := by
  by_cases hcode : ∃ line rest, code = .apply line :: rest
  · rcases hcode with ⟨line, rest, rfl⟩
    exact .apply line fun front => h _
  · have hnot : ∀ line rest, code ≠ .apply line :: rest := fun line rest heq =>
      hcode ⟨line, rest, heq⟩
    exact .other hnot hnot fun front => h _

end Frame.Continues

/-! ## Instructions -/

namespace Focus

/-- `Conc` needs an application to be next. -/
theorem conc_of_not_apply {env : Env} {code : List Instr} {callers : List Frame}
    {stack : List Value} {store : Store} {printed : Array String}
    (hcode : ∀ line rest, code ≠ .apply line :: rest) (first : Value) :
    conc ⟨env, code, callers, stack, store, printed⟩ first =
      fail ⟨env, code, callers, stack, store, printed⟩
        (Cause.missingOperand Builtin.conc.spelling) := by
  cases code with
  | nil => rfl
  | cons i code =>
      refine conc_of_ne_apply ?_ first
      rintro line rfl
      exact hcode line code rfl

section Continued

variable {R : List Frame → List Frame → Prop} {env : Env} {callers callers' : List Frame}
  {code code' : List Instr} (h : Frame.Continues R env callers callers' code code')
  (stack : List Value) (store : Store) (printed : Array String)

include h

theorem fail_framewise (fault : Fault) :
    Transition.Related (State.Framewise R)
      (fail ⟨env, code, callers, stack, store, printed⟩ fault)
      (fail ⟨env, code', callers', stack, store, printed⟩ fault) :=
  .failed fault ⟨h.front [], rfl, rfl, rfl⟩

theorem push_framewise (v : Value) :
    Transition.Related (State.Framewise R)
      (push ⟨env, code, callers, stack, store, printed⟩ v)
      (push ⟨env, code', callers', stack, store, printed⟩ v) :=
  .next ⟨h.front [], rfl, rfl, rfl⟩

theorem pushResult_framewise (r : Except Fault Value) :
    Transition.Related (State.Framewise R)
      (pushResult ⟨env, code, callers, stack, store, printed⟩ r)
      (pushResult ⟨env, code', callers', stack, store, printed⟩ r) := by
  cases r with
  | ok v => exact push_framewise h stack store printed v
  | error fault => exact fail_framewise h stack store printed fault

theorem ident_framewise {m m' : Machine} (hnames : m.names = m'.names) (x : Name) :
    Transition.Related (State.Framewise R)
      (ident ⟨env, code, callers, stack, store, printed⟩ m x)
      (ident ⟨env, code', callers', stack, store, printed⟩ m' x) := by
  simp only [ident_eq, hnames]
  cases env.lookup store x with
  | some v => exact push_framewise h stack store printed v
  | none =>
      cases Builtin.ofSpelling? (m'.names.text x) with
      | some b => exact push_framewise h stack store printed _
      | none => exact fail_framewise h stack store printed _

theorem binary_framewise (op : BinaryOp) :
    Transition.Related (State.Framewise R)
      (binary ⟨env, code, callers, stack, store, printed⟩ op)
      (binary ⟨env, code', callers', stack, store, printed⟩ op) := by
  match stack with
  | [] => exact fail_framewise h [] store printed _
  | [v] => exact fail_framewise h [v] store printed _
  | left :: right :: rest => exact pushResult_framewise h rest _ printed _

theorem unary_framewise (op : UnaryOp) :
    Transition.Related (State.Framewise R)
      (unary ⟨env, code, callers, stack, store, printed⟩ op)
      (unary ⟨env, code', callers', stack, store, printed⟩ op) := by
  cases stack with
  | nil => exact fail_framewise h [] store printed _
  | cons operand rest => exact pushResult_framewise h rest store printed _

theorem formTuple_framewise (arity : Nat) :
    Transition.Related (State.Framewise R)
      (formTuple ⟨env, code, callers, stack, store, printed⟩ arity)
      (formTuple ⟨env, code', callers', stack, store, printed⟩ arity) := by
  rw [formTuple_eq, formTuple_eq]
  by_cases harity : (stack.take arity).length = arity
  · simp only [if_pos harity]
    exact .next ⟨h.front [], rfl, rfl, rfl⟩
  · simp only [if_neg harity]
    exact fail_framewise h stack store printed _

theorem branch_framewise (thenArm elseArm : List Instr) :
    Transition.Related (State.Framewise R)
      (branch ⟨env, code, callers, stack, store, printed⟩ thenArm elseArm)
      (branch ⟨env, code', callers', stack, store, printed⟩ thenArm elseArm) := by
  cases stack with
  | nil => exact fail_framewise h [] store printed _
  | cons v rest =>
      cases v with
      | bool b => exact .next ⟨h.front _, rfl, rfl, rfl⟩
      | _ => exact fail_framewise h rest store printed _

/-- `Conc` takes the application that both begin with, or misses it in both. -/
theorem conc_framewise (first : Value) :
    Transition.Related (State.Framewise R)
      (conc ⟨env, code, callers, stack, store, printed⟩ first)
      (conc ⟨env, code', callers', stack, store, printed⟩ first) := by
  cases h with
  | apply line h =>
      have hrest : ∀ fault stack, Transition.Related (State.Framewise R)
          (.failed fault ⟨⟨env, _⟩ :: callers, stack, store, printed⟩)
          (.failed fault ⟨⟨env, _⟩ :: callers', stack, store, printed⟩) :=
        fun fault stack => .failed fault ⟨h [], rfl, rfl, rfl⟩
      cases stack with
      | nil => exact hrest _ _
      | cons second rest =>
          simp only [conc_eq]
          cases Builtin.applyConc store first second with
          | ok v => exact .next ⟨h [], rfl, rfl, rfl⟩
          | error fault => exact hrest fault rest
  | other hcode hcode' h =>
      rw [conc_of_not_apply hcode, conc_of_not_apply hcode']
      exact .failed _ ⟨h [], rfl, rfl, rfl⟩

theorem applyBuiltin_framewise (b : Builtin) (operand : Value) :
    Transition.Related (State.Framewise R)
      (applyBuiltin ⟨env, code, callers, stack, store, printed⟩ b operand)
      (applyBuiltin ⟨env, code', callers', stack, store, printed⟩ b operand) := by
  by_cases hprint : b = .print
  · subst hprint
    exact .next ⟨h.front [], rfl, rfl, rfl⟩
  · by_cases hconc : b = .conc
    · subst hconc
      exact conc_framewise h stack store printed operand
    · rw [applyBuiltin_of_ne hprint hconc, applyBuiltin_of_ne hprint hconc]
      exact pushResult_framewise h stack store printed _

/-- The application of anything but a closure is passed on. -/
theorem applyValue_framewise (m m' : Machine) (line : Nat) {operator : Value}
    (hclosure : ∀ c, operator ≠ .closure c) (operand : Value) :
    Transition.Related (State.Framewise R)
      (applyValue ⟨env, code, callers, stack, store, printed⟩ m line operator operand)
      (applyValue ⟨env, code', callers', stack, store, printed⟩ m' line operator operand) := by
  cases operator with
  | closure c => exact absurd rfl (hclosure c)
  | eta c => exact .next ⟨h.front [.apply line, .apply line], rfl, rfl, rfl⟩
  | builtin b => exact applyBuiltin_framewise h stack store printed b operand
  | fixpoint =>
      cases operand with
      | closure c => exact push_framewise h stack store printed _
      | _ => exact fail_framewise h stack store printed _
  | tuple ref =>
      cases operand with
      | int index => exact pushResult_framewise h stack store printed _
      | _ => exact fail_framewise h stack store printed _
  | _ => exact fail_framewise h stack store printed _

end Continued

end Focus

section Perform

variable {R : List Frame → List Frame → Prop} {env : Env} {callers callers' : List Frame}
  {code code' : List Instr} {m m' : Machine}

/-- Callees above as many callers are activated alike. -/
theorem Focus.call_framewise (h : Frame.Continues R env callers callers' code code')
    (hdepth : m.maxDepth = m'.maxDepth) (c : Closure) (operand : Value) (stack : List Value)
    (store : Store) (printed : Array String) {below below' : List Frame}
    (hbelow : callersBelow ⟨env, code, callers, stack, store, printed⟩ m = below)
    (hbelow' : callersBelow ⟨env, code', callers', stack, store, printed⟩ m' = below')
    (hlength : below.length = below'.length)
    (hcallee : ∀ frame : Frame, R (frame :: below) (frame :: below')) :
    Transition.Related (State.Framewise R)
      (call ⟨env, code, callers, stack, store, printed⟩ m c operand)
      (call ⟨env, code', callers', stack, store, printed⟩ m' c operand) := by
  have hlimit : m.limitAbove? below = m'.limitAbove? below' := by
    simp only [Machine.limitAbove?, hdepth, hlength]
  simp only [call_eq, hbelow, hbelow', hlimit]
  cases c.bindOperand store operand with
  | error cause => exact fail_framewise h stack store printed _
  | ok scope =>
      simp only []
      cases m'.limitAbove? below' with
      | some limit => exact fail_framewise h stack store printed _
      | none => exact .next ⟨hcallee _, rfl, rfl, rfl⟩

/-- Every instruction but the application of a closure does the same before code and above
callers that continue alike. -/
theorem Instr.perform_framewise (h : Frame.Continues R env callers callers' code code')
    (hnames : m.names = m'.names) (i : Instr) (stack : List Value) (store : Store)
    (printed : Array String)
    (hcall : ∀ line c operand rest, i = .apply line → stack ≠ .closure c :: operand :: rest) :
    Transition.Related (State.Framewise R)
      (i.perform m ⟨env, code, callers, stack, store, printed⟩)
      (i.perform m' ⟨env, code', callers', stack, store, printed⟩) := by
  cases i with
  | ident line x => exact Focus.ident_framewise h stack store printed hnames x
  | literal line v => exact Focus.push_framewise h stack store printed _
  | lambda line b => exact Focus.push_framewise h stack store printed _
  | fixpoint line => exact Focus.push_framewise h stack store printed _
  | binary line op => exact Focus.binary_framewise h stack store printed op
  | unary line op => exact Focus.unary_framewise h stack store printed op
  | tuple line arity => exact Focus.formTuple_framewise h stack store printed arity
  | branch line t e => exact Focus.branch_framewise h stack store printed t e
  | apply line =>
      match stack with
      | [] => exact Focus.fail_framewise h [] store printed _
      | [v] => exact Focus.fail_framewise h [v] store printed _
      | operator :: operand :: rest =>
          refine Focus.applyValue_framewise h rest store printed m m' line ?_ operand
          rintro c rfl
          exact hcall line c operand rest rfl rfl

end Perform

end CSEMachine
