import CSEMachine.Proofs.Run

/-!
# What a step leaves behind

Apart from the stack and the frames, a step can do one of four things: open a scope for
an activation, form a tuple, augment a tuple, or print a text.  Every other step, and
every step that fails, leaves the store and the texts as they were.

Main results:

- Theorem `Machine.step_effect`: what a step does to the store and the texts.
- Theorem `Machine.printed_after`: texts once printed stay, in their order.
-/

namespace CSEMachine

/-! ## Effects -/

/-- The state that a transition has led to or ended in. -/
def Transition.state : Transition → State
  | .next s | .halted s | .failed _ s => s

@[simp]
theorem Transition.state_atLine (t : Transition) (line : Nat) : (t.atLine line).state = t.state := by
  cases t <;> rfl

theorem Transition.printed_eq_state (t : Transition) : t.printed = t.state.printed := by
  cases t <;> rfl

/-- What a step from a state can do to the store and the texts, given the instruction that it
performs. -/
inductive State.Effect (s : State) : Transition → Prop
  | quiet {t : Transition} (hstore : t.state.store = s.store)
      (hprinted : t.state.printed = s.printed) : Effect s t
  | opens {s' : State} (b : Bindings) (hstore : s'.store = (s.store.addScope b).2)
      (hprinted : s'.printed = s.printed) : Effect s (.next s')
  | forms {env : Env} {line arity : Nat} {code : List Instr} {callers : List Frame}
      (hframes : s.frames = ⟨env, .tuple line arity :: code⟩ :: callers)
      (harity : arity ≤ s.stack.length) :
      Effect s (.next ⟨⟨env, code⟩ :: callers, .tuple s.store.tuples.size :: s.stack.drop arity,
        (s.store.formTuple (s.stack.take arity).toArray).2, s.printed⟩)
  | augments {env : Env} {line ref : Nat} {code : List Instr} {callers : List Frame}
      {v : Value} {rest : List Value}
      (hframes : s.frames = ⟨env, .binary line .aug :: code⟩ :: callers)
      (hstack : s.stack = .tuple ref :: v :: rest) :
      Effect s (.next ⟨⟨env, code⟩ :: callers, .tuple ref :: rest, s.store.augment ref v,
        s.printed⟩)
  | prints {env : Env} {line : Nat} {code : List Instr} {callers : List Frame} {v : Value}
      {rest : List Value} (hframes : s.frames = ⟨env, .apply line :: code⟩ :: callers)
      (hstack : s.stack = .builtin .print :: v :: rest) :
      Effect s (.next ⟨⟨env, code⟩ :: callers, .dummy :: rest, s.store,
        s.printed.push (v.printed s.store)⟩)

/-- Blaming a failure on a line changes no effect. -/
theorem State.Effect.atLine {s : State} {t : Transition} (h : s.Effect t) (line : Nat) :
    s.Effect (t.atLine line) := by
  cases h with
  | quiet hstore hprinted => exact .quiet (by simpa using hstore) (by simpa using hprinted)
  | opens b hstore hprinted => exact .opens b hstore hprinted
  | forms hframes harity => exact .forms hframes harity
  | augments hframes hstack => exact .augments hframes hstack
  | prints hframes hstack => exact .prints hframes hstack

/-! ## Quiet instructions -/

/-- A transition that leaves the store and the texts as they are. -/
def Transition.Quiet (f : Focus) (t : Transition) : Prop :=
  t.state.store = f.store ∧ t.state.printed = f.printed

namespace Focus

variable {f : Focus}

theorem fail_quiet (f : Focus) (fault : Fault) : (f.fail fault).Quiet f :=
  ⟨rfl, rfl⟩

theorem push_quiet (f : Focus) (v : Value) : (f.push v).Quiet f :=
  ⟨rfl, rfl⟩

theorem pushResult_quiet (f : Focus) (r : Except Fault Value) : (f.pushResult r).Quiet f := by
  cases r with
  | ok v => exact f.push_quiet v
  | error fault => exact f.fail_quiet fault

theorem ident_quiet (m : Machine) (x : Name) : (f.ident m x).Quiet f := by
  rw [ident_eq]
  split
  · exact f.push_quiet _
  · split
    · exact f.push_quiet _
    · exact f.fail_quiet _

theorem unary_quiet (op : UnaryOp) : (f.unary op).Quiet f := by
  rw [unary_eq]
  split
  · exact pushResult_quiet _ _
  · exact f.fail_quiet _

theorem branch_quiet (thenArm elseArm : List Instr) : (f.branch thenArm elseArm).Quiet f := by
  rw [branch_eq]
  split
  · exact ⟨rfl, rfl⟩
  · exact fail_quiet _ _
  · exact f.fail_quiet _

theorem conc_quiet (first : Value) : (f.conc first).Quiet f := by
  rw [conc_eq]
  split
  · exact pushResult_quiet _ _
  · exact fail_quiet _ _
  · exact f.fail_quiet _

/-- An application is quiet unless it activates a closure or prints. -/
theorem applyValue_quiet (m : Machine) (line : Nat) {operator : Value}
    (hclosure : ∀ c, operator ≠ .closure c) (hprint : operator ≠ .builtin .print)
    (operand : Value) : (f.applyValue m line operator operand).Quiet f := by
  cases operator with
  | closure c => exact absurd rfl (hclosure c)
  | fixpoint =>
      simp only [applyValue_eq, fix_eq]
      split
      · exact f.push_quiet _
      · exact f.fail_quiet _
  | eta c => exact ⟨rfl, rfl⟩
  | tuple ref =>
      simp only [applyValue_eq, select_eq]
      split
      · exact f.pushResult_quiet _
      · exact f.fail_quiet _
  | builtin b =>
      simp only [applyValue_eq]
      by_cases hconc : b = .conc
      · subst hconc
        exact conc_quiet operand
      · have hb : b ≠ .print := fun heq => hprint (heq ▸ rfl)
        rw [applyBuiltin_of_ne hb hconc]
        exact f.pushResult_quiet _
  | _ => exact f.fail_quiet _

end Focus

/-! ## Steps -/

/-- The application of a closure opens a scope, or fails. -/
theorem Focus.call_effect (f : Focus) (m : Machine) (c : Closure) (operand : Value) {s : State}
    (hstore : s.store = f.store) (hprinted : s.printed = f.printed) :
    s.Effect (f.call m c operand) := by
  rw [call_eq]
  split
  · exact .quiet hstore.symm hprinted.symm
  · rename_i scope hscope
    split
    · exact .quiet hstore.symm hprinted.symm
    · refine .opens scope.bindings ?_ hprinted.symm
      rw [hstore]
      rfl

section Perform

variable {env : Env} {code : List Instr} {callers : List Frame} {stack : List Value}
  {store : Store} {printed : Array String}

/-- Of the operators on two values only `aug` is not quiet. -/
theorem Focus.binary_effect (line : Nat) (op : BinaryOp) :
    State.Effect ⟨⟨env, .binary line op :: code⟩ :: callers, stack, store, printed⟩
      (Focus.binary ⟨env, code, callers, stack, store, printed⟩ op) := by
  match stack with
  | [] => exact .quiet rfl rfl
  | [v] => exact .quiet rfl rfl
  | left :: right :: rest =>
      by_cases haug : op = .aug
      · subst haug
        cases left with
        | tuple ref => exact .augments rfl rfl
        | _ => exact .quiet rfl rfl
      · have hstore := BinaryOp.store_of_ne_aug haug left right store
        have hresult := Focus.pushResult_quiet
          ⟨env, code, callers, rest, (op.apply left right store).2, printed⟩
          ((op.apply left right store).1.mapError .of)
        exact .quiet (hresult.1.trans hstore) hresult.2

/-- An application activates a closure, prints, or is quiet. -/
theorem Focus.apply_effect (m : Machine) (line : Nat) :
    State.Effect ⟨⟨env, .apply line :: code⟩ :: callers, stack, store, printed⟩
      (Focus.apply ⟨env, code, callers, stack, store, printed⟩ m line) := by
  match stack with
  | [] => exact .quiet rfl rfl
  | [v] => exact .quiet rfl rfl
  | operator :: operand :: rest =>
      simp only [Focus.apply_eq]
      by_cases hclosure : ∃ c, operator = .closure c
      · rcases hclosure with ⟨c, rfl⟩
        exact Focus.call_effect _ m c operand rfl rfl
      · by_cases hprint : operator = .builtin .print
        · subst hprint
          exact .prints rfl rfl
        · have hresult := Focus.applyValue_quiet
            (f := ⟨env, code, callers, rest, store, printed⟩) m line
            (fun c heq => hclosure ⟨c, heq⟩) hprint operand
          exact .quiet hresult.1 hresult.2

/-- What an instruction does to the store and the texts. -/
theorem Instr.perform_effect (m : Machine) (i : Instr) :
    State.Effect ⟨⟨env, i :: code⟩ :: callers, stack, store, printed⟩
      (i.perform m ⟨env, code, callers, stack, store, printed⟩) := by
  let f : Focus := ⟨env, code, callers, stack, store, printed⟩
  have hquiet : ∀ {t : Transition}, t.Quiet f →
      State.Effect ⟨⟨env, i :: code⟩ :: callers, stack, store, printed⟩ t :=
    fun h => .quiet h.1 h.2
  cases i with
  | ident line x => exact hquiet (f.ident_quiet m x)
  | literal line v => exact hquiet (f.push_quiet _)
  | lambda line b => exact hquiet (f.push_quiet _)
  | fixpoint line => exact hquiet (f.push_quiet _)
  | unary line op => exact hquiet (f.unary_quiet op)
  | branch line t e => exact hquiet (f.branch_quiet t e)
  | binary line op => exact Focus.binary_effect line op
  | apply line => exact Focus.apply_effect m line
  | tuple line arity =>
      simp only [perform_eq, Focus.formTuple_eq]
      split
      · rename_i hlength
        have harity : arity ≤ stack.length := by
          rw [List.length_take] at hlength
          omega
        exact .forms rfl harity
      · exact hquiet (f.fail_quiet _)

end Perform

namespace Machine

/-- What a step does to the store and the texts. -/
theorem step_effect (m : Machine) (s : State) : s.Effect (m.step s) := by
  rcases s with ⟨frames, stack, store, printed⟩
  match frames with
  | [] => exact .quiet rfl rfl
  | ⟨env, []⟩ :: callers => exact .quiet rfl rfl
  | ⟨env, i :: code⟩ :: callers => exact (i.perform_effect m).atLine i.line

/-- A step that fails leaves the store and the texts as they were. -/
theorem step_failed {m : Machine} {s s' : State} {fault : Fault}
    (h : m.step s = .failed fault s') : s'.store = s.store ∧ s'.printed = s.printed := by
  have heffect := m.step_effect s
  rw [h] at heffect
  cases heffect with
  | quiet hstore hprinted => exact ⟨hstore, hprinted⟩

/-- A step prints behind what has been printed. -/
theorem printed_step (m : Machine) (s : State) :
    s.printed.toList <+: (m.step s).printed.toList := by
  have heffect := m.step_effect s
  rw [Transition.printed_eq_state]
  generalize m.step s = t at heffect ⊢
  cases heffect with
  | quiet _ hprinted => exact hprinted ▸ List.prefix_rfl
  | opens _ _ hprinted => exact hprinted ▸ List.prefix_rfl
  | forms _ _ => exact List.prefix_rfl
  | augments _ _ => exact List.prefix_rfl
  | prints _ _ => simp [Transition.state]

/-- Texts once printed stay, in their order. -/
theorem printed_after (m : Machine) (t : Transition) {n k : Nat} (h : n ≤ k) :
    (m.after n t).printed.toList <+: (m.after k t).printed.toList := by
  induction h with
  | refl => exact List.prefix_rfl
  | @step k _ ih =>
      refine ih.trans ?_
      rw [Nat.succ_eq_add_one, after_succ]
      cases m.after k t with
      | next s => exact m.printed_step s
      | halted s => exact List.prefix_rfl
      | failed fault s => exact List.prefix_rfl

end Machine

end CSEMachine
