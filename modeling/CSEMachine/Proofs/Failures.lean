import CSEMachine.Proofs.Causes

/-!
# Where failures come from

A failure is due to the values that an instruction is given, to a name that nothing is
bound to, to the limit on activations, or to the program itself.  Operators and
built-ins only ever fail because of their operands.

Main results:

- Theorems `BinaryOp.apply_sound`, `UnaryOp.apply_sound` and `Builtin.apply_sound`:
  operators and built-ins fail because of their operands.
- Theorem `Instr.perform_failsFor`: what the failure of an instruction is due to.
- Theorem `Machine.step_undeclared`: only an identifier fails because of a name.
-/

namespace CSEMachine

/-- What a failure is due to. -/
inductive Cause.Origin where
  | operands | name | depth | program
deriving DecidableEq

/-- What a failure with a given cause is due to. -/
def Cause.origin : Cause → Cause.Origin
  | undeclared _ => .name
  | depthExceeded _ => .depth
  | notStandardized | malformed _ => .program
  | _ => .operands

/-- What a failure under a given code is due to. -/
def ErrorCode.origin : ErrorCode → Cause.Origin
  | undeclared => .name
  | depthExceeded => .depth
  | emptyBinder | repeatedParameter | notStandardized | malformed => .program
  | _ => .operands

/-- The code of a cause tells what the failure is due to. -/
theorem Cause.origin_code (c : Cause) : c.code.origin = c.origin := by
  cases c <;> rfl

/-- Malformed control is the fault of a program. -/
theorem Cause.code_ne_malformed {c : Cause} (h : c.origin ≠ .program) : c.code ≠ .malformed := by
  intro hcode
  rw [← c.origin_code, hcode] at h
  exact h rfl

/-- A result that is a failure because of operands, if it is one. -/
def Sound {α : Type} (r : Except Fault α) : Prop :=
  ∀ fault, r = .error fault → fault.cause.origin = .operands

theorem FailsUnder.sound {α : Type} {codes : List ErrorCode} {r : Except Fault α}
    (h : FailsUnder codes r) (hcodes : ∀ code ∈ codes, code.origin = .operands) : Sound r := by
  intro fault hfault
  rw [← fault.cause.origin_code]
  exact hcodes _ (h fault hfault)

/-! ## Operators and built-ins -/

theorem BinaryOp.origin_failures (op : BinaryOp) :
    ∀ code ∈ op.failures, code.origin = .operands := by
  cases op <;> decide

theorem UnaryOp.origin_failures (op : UnaryOp) :
    ∀ code ∈ op.failures, code.origin = .operands := by
  cases op <;> decide

theorem Builtin.origin_failures (b : Builtin) :
    ∀ code ∈ b.failures, code.origin = .operands := by
  cases b <;> decide

/-- No operator finds control malformed. -/
theorem BinaryOp.apply_sound (op : BinaryOp) (store : Store) (left right : Value) :
    Sound ((op.apply left right store).1.mapError Fault.of) :=
  (op.apply_failsUnder store left right).sound op.origin_failures

theorem UnaryOp.apply_sound (op : UnaryOp) (store : Store) (operand : Value) :
    Sound ((op.apply store operand).mapError Fault.of) :=
  (op.apply_failsUnder store operand).sound op.origin_failures

theorem Builtin.applyConc_sound (store : Store) (first second : Value) :
    Sound (applyConc store first second) :=
  (applyConc_failsUnder (by decide) store first second).sound conc.origin_failures

/-- No built-in finds control malformed. -/
theorem Builtin.apply_sound (b : Builtin) (store : Store) (operand : Value) :
    Sound (b.apply store operand) :=
  (b.apply_failsUnder store operand).sound b.origin_failures

/-- Selecting from a tuple never finds control malformed. -/
theorem Store.select_sound (store : Store) (ref : Nat) (index : Int64) :
    Sound ((store.select ref index).mapError Fault.of) :=
  (store.select_failsUnder ref index).sound (by simp [Value.failures, ErrorCode.origin])

/-- Binding an operand never finds control malformed. -/
theorem Closure.bindOperand_sound (c : Closure) (store : Store) (operand : Value) :
    Sound ((c.bindOperand store operand).mapError Fault.of) :=
  (c.bindOperand_failsUnder store operand).sound (by decide)

/-! ## Instructions -/

/-- A step that fails for no other reasons than the given ones. -/
def Transition.FailsFor (P : Cause.Origin → Prop) (t : Transition) : Prop :=
  ∀ fault s, t = .failed fault s → P fault.cause.origin

theorem Transition.FailsUnder.failsFor {P : Cause.Origin → Prop} {codes : List ErrorCode}
    {t : Transition} (h : t.FailsUnder codes) (hcodes : ∀ code ∈ codes, P code.origin) :
    t.FailsFor P := by
  intro fault s hfailed
  rw [← fault.cause.origin_code]
  exact hcodes _ (h fault s hfailed)

theorem Focus.fail_failsFor {P : Cause.Origin → Prop} {f : Focus} {fault : Fault}
    (h : P fault.cause.origin) : (f.fail fault).FailsFor P := by
  rintro _ s ⟨⟩
  exact h

/-- An application fails because of its operands, or for want of activations if it applies a
closure. -/
theorem Focus.applyValue_failsFor {P : Cause.Origin → Prop} {f : Focus} (h : P .operands)
    (hprogram : P .program) (m : Machine) (line : Nat) {operator : Value}
    (hdepth : ∀ c, operator = .closure c → P .depth) (operand : Value) :
    (f.applyValue m line operator operand).FailsFor P := by
  refine (applyValue_failsUnder m line operator operand).failsFor ?_
  intro code hcode
  cases operator with
  | closure c =>
      have := hdepth c rfl
      simp only [Value.failures, List.mem_cons, List.not_mem_nil, or_false] at hcode
      rcases hcode with rfl | rfl | rfl <;> assumption
  | builtin b =>
      rcases List.mem_cons.mp hcode with rfl | hcode
      · exact hprogram
      · exact b.origin_failures code hcode ▸ h
  | tuple ref =>
      simp only [Value.failures, List.mem_cons, List.not_mem_nil, or_false] at hcode
      rcases hcode with rfl | rfl <;> exact h
  | eta c => cases hcode
  | _ =>
      rcases List.mem_singleton.mp hcode with rfl
      exact h

theorem Transition.FailsFor.atLine {P : Cause.Origin → Prop} {t : Transition}
    (h : t.FailsFor P) (line : Nat) : (t.atLine line).FailsFor P := by
  intro fault s hfailed
  rcases exists_of_atLine_eq_failed hfailed with ⟨fault₀, hfault₀, rfl⟩
  exact h fault₀ s hfault₀

/-- Only an identifier fails because of a name, and only the application of a closure for
want of activations. -/
theorem Instr.perform_failsFor {P : Cause.Origin → Prop} {i : Instr} {f : Focus} (m : Machine)
    (h : P .operands) (hprogram : P .program) (hname : ∀ line x, i = .ident line x → P .name)
    (hdepth : ∀ line c operand rest, i = .apply line →
      f.stack = .closure c :: operand :: rest → P .depth) :
    (i.perform m f).FailsFor P := by
  have hperform := i.perform_failsUnder m f
  cases i with
  | ident line x =>
      exact hperform.failsFor (List.forall_mem_singleton.mpr (hname line x rfl))
  | literal line v => exact hperform.failsFor nofun
  | lambda line b => exact hperform.failsFor nofun
  | fixpoint line => exact hperform.failsFor nofun
  | binary line op =>
      refine hperform.failsFor (List.forall_mem_cons.mpr ⟨hprogram, ?_⟩)
      exact fun code hcode => op.origin_failures code hcode ▸ h
  | unary line op =>
      refine hperform.failsFor (List.forall_mem_cons.mpr ⟨hprogram, ?_⟩)
      exact fun code hcode => op.origin_failures code hcode ▸ h
  | tuple line arity =>
      exact hperform.failsFor (List.forall_mem_singleton.mpr hprogram)
  | branch line t e =>
      refine hperform.failsFor (List.forall_mem_cons.mpr ⟨hprogram, ?_⟩)
      exact List.forall_mem_singleton.mpr h
  | apply line =>
      rcases f with ⟨env, code, callers, stack, store, printed⟩
      match stack with
      | [] => exact Focus.fail_failsFor hprogram
      | [v] => exact Focus.fail_failsFor hprogram
      | operator :: operand :: rest =>
          simp only [perform_eq, Focus.apply_eq]
          refine Focus.applyValue_failsFor h hprogram m line ?_ operand
          rintro c rfl
          exact hdepth line c operand rest rfl rfl

/-- Only an identifier fails because of a name: its own, when neither a scope binds it
nor a built-in is spelled like it. -/
theorem Machine.step_undeclared {m : Machine} {s s' : State} {fault : Fault} {text : String}
    (h : m.step s = .failed fault s') (hcause : fault.cause = .undeclared text) :
    ∃ env line x code callers, s.frames = ⟨env, .ident line x :: code⟩ :: callers ∧
      fault.line = some line ∧ text = m.names.text x ∧ env.lookup s.store x = none ∧
        Builtin.ofSpelling? (m.names.text x) = none := by
  rcases s with ⟨frames, stack, store, printed⟩
  match frames with
  | [] => cases h
  | ⟨env, []⟩ :: callers => cases h
  | ⟨env, i :: code⟩ :: callers =>
      rw [step_cons_cons] at h
      by_cases hi : ∃ line x, i = .ident line x
      · rcases hi with ⟨line, x, rfl⟩
        refine ⟨env, line, x, code, callers, rfl, ?_⟩
        simp only [Instr.perform_eq, Focus.ident_eq] at h
        cases hlookup : env.lookup store x with
        | some v =>
            rw [hlookup] at h
            cases h
        | none =>
            rw [hlookup] at h
            cases hspelling : Builtin.ofSpelling? (m.names.text x) with
            | some b =>
                rw [hspelling] at h
                cases h
            | none =>
                rw [hspelling] at h
                cases h
                exact ⟨rfl, (Cause.undeclared.inj hcause).symm, rfl, rfl⟩
      · have hfails : (i.perform m ⟨env, code, callers, stack, store, printed⟩).FailsFor
            (· ≠ .name) := by
          refine Instr.perform_failsFor m ?_ ?_ ?_ ?_
          · decide
          · decide
          · exact fun line x heq => absurd ⟨line, x, heq⟩ hi
          · exact fun _ _ _ _ _ _ => by decide
        have hname := hfails.atLine i.line fault s' h
        rw [hcause] at hname
        exact absurd rfl hname

end CSEMachine
