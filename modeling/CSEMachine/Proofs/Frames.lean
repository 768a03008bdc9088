import CSEMachine.Proofs.Run

/-!
# Activations

A step drops a finished frame, activates a closure, or changes no more of the frames
than the code of the top one.  The closure that is activated lies on top of the stack
when its application is the next instruction; this tells which block every live frame
activates.

Main results:

- Theorem `Machine.step_cases`: what a step does to the frames and the scopes.
- Theorem `Machine.Active.of_reachable`: in every reachable state each frame activates
  a block.
-/

namespace CSEMachine

/-- The closure that the next instruction applies, if it applies one. -/
def State.callee? (s : State) : Option Closure :=
  match s.frames, s.stack with
  | ⟨_, .apply _ :: _⟩ :: _, .closure c :: _ :: _ => some c
  | _, _ => none

/-! ## Instructions that stay in their frame -/

/-- A step that changes no more of the frames than the code of the top one, which is then of
a given kind, and no scope. -/
def Transition.Stays (f : Focus) (P : List Instr → Prop) (t : Transition) : Prop :=
  ∀ s', t = .next s' →
    (∃ code, s'.frames = ⟨f.env, code⟩ :: f.callers ∧ P code) ∧ s'.store.scopes = f.store.scopes

namespace Focus

variable {f : Focus} {P : List Instr → Prop}

theorem fail_stays (g : Focus) (fault : Fault) : (g.fail fault).Stays f P := by
  rintro s' ⟨⟩

theorem push_stays (h : P f.code) (v : Value) : (f.push v).Stays f P := by
  rintro s' ⟨⟩
  exact ⟨⟨_, rfl, h⟩, rfl⟩

/-- Pushing stays in the frame also after values and code have been taken. -/
theorem pushResult_stays {g : Focus} (henv : g.env = f.env) (hcallers : g.callers = f.callers)
    (hscopes : g.store.scopes = f.store.scopes) (h : P g.code) (r : Except Fault Value) :
    (g.pushResult r).Stays f P := by
  cases r with
  | ok v =>
      rintro s' ⟨⟩
      exact ⟨⟨g.code, by rw [henv, hcallers], h⟩, hscopes⟩
  | error fault => exact fail_stays g fault

theorem ident_stays (h : P f.code) (m : Machine) (x : Name) : (f.ident m x).Stays f P := by
  rw [ident_eq]
  split
  · exact push_stays h _
  · split
    · exact push_stays h _
    · exact fail_stays f _

theorem unary_stays (h : P f.code) (op : UnaryOp) : (f.unary op).Stays f P := by
  rw [unary_eq]
  split
  · refine pushResult_stays ?_ ?_ ?_ ?_ _
    · rfl
    · rfl
    · rfl
    · exact h
  · exact fail_stays _ _

theorem binary_stays (h : P f.code) (op : BinaryOp) : (f.binary op).Stays f P := by
  rw [binary_eq]
  split
  · refine pushResult_stays ?_ ?_ ?_ ?_ _
    · rfl
    · rfl
    · exact BinaryOp.scopes_apply _ _ _ _
    · exact h
  · exact fail_stays _ _

theorem formTuple_stays (h : P f.code) (arity : Nat) : (f.formTuple arity).Stays f P := by
  rw [formTuple_eq]
  split
  · rintro s' ⟨⟩
    exact ⟨⟨_, rfl, h⟩, rfl⟩
  · exact fail_stays _ _

theorem branch_stays {thenArm elseArm : List Instr} (hthen : P (thenArm ++ f.code))
    (helse : P (elseArm ++ f.code)) : (f.branch thenArm elseArm).Stays f P := by
  rw [branch_eq]
  split
  · rename_i b rest _ _
    rintro s' ⟨⟩
    refine ⟨⟨_, rfl, ?_⟩, rfl⟩
    cases b with
    | true => exact hthen
    | false => exact helse
  · exact fail_stays _ _
  · exact fail_stays _ _

/-- `Conc` takes an application from the code. -/
theorem conc_stays (h : ∀ line code, f.code = .apply line :: code → P code) (first : Value) :
    (f.conc first).Stays f P := by
  rw [conc_eq]
  split
  · exact pushResult_stays rfl rfl rfl (h _ _ rfl) _
  · exact fail_stays _ _
  · exact fail_stays _ _

theorem applyBuiltin_stays (h : P f.code)
    (hconc : ∀ line code, f.code = .apply line :: code → P code) (b : Builtin)
    (operand : Value) : (f.applyBuiltin b operand).Stays f P := by
  by_cases hb : b = .print
  · subst hb
    rintro s' ⟨⟩
    exact ⟨⟨_, rfl, h⟩, rfl⟩
  · by_cases hb' : b = .conc
    · subst hb'
      exact conc_stays hconc operand
    · rw [applyBuiltin_of_ne hb hb']
      exact pushResult_stays rfl rfl rfl h _

/-- So does every application of something else than a closure. -/
theorem applyValue_stays {operator : Value} (hoperator : ∀ c, operator ≠ .closure c)
    (h : P f.code) (hconc : ∀ line code, f.code = .apply line :: code → P code) (m : Machine)
    {line : Nat} (hunroll : ∀ c, operator = .eta c → P (.apply line :: .apply line :: f.code))
    (operand : Value) : (f.applyValue m line operator operand).Stays f P := by
  cases operator with
  | closure c => exact absurd rfl (hoperator c)
  | fixpoint =>
      simp only [applyValue_eq, fix_eq]
      split
      · exact push_stays h _
      · exact fail_stays _ _
  | eta c =>
      rintro s' ⟨⟩
      exact ⟨⟨_, rfl, hunroll c rfl⟩, rfl⟩
  | tuple ref =>
      simp only [applyValue_eq, select_eq]
      split
      · exact pushResult_stays rfl rfl rfl h _
      · exact fail_stays _ _
  | builtin b => exact applyBuiltin_stays h hconc b operand
  | _ => exact fail_stays _ _

end Focus

/-! ## Activating a closure -/

/-- An activation: the scope binds the parameters, in a child of the environment of the
closure, and the code is that of its block. -/
structure Activates (m : Machine) (f : Focus) (c : Closure) (s' : State) : Prop where
  frames : s'.frames = ⟨⟨f.store.scopes.size, c.env.scopes⟩, c.block.code⟩ :: f.callersBelow m
  scopes : ∃ vs : List Value, vs.length = c.block.params.length ∧
    s'.store.scopes = f.store.scopes.push (c.env.extend.bindEach c.block.params vs).bindings

/-- An operand that is bound gives each parameter a value. -/
theorem Closure.bindOperand_eq_ok {c : Closure} {store : Store} {operand : Value} {scope : Scope}
    (h : c.bindOperand store operand = .ok scope) :
    ∃ vs : List Value, vs.length = c.block.params.length ∧
      scope = c.env.extend.bindEach c.block.params vs := by
  by_cases hone : c.block.params.length = 1
  · rw [bindOperand_of_length_eq_one hone] at h
    cases h
    exact ⟨[operand], hone.symm, rfl⟩
  · rw [bindOperand_of_length_ne_one hone] at h
    split at h
    · rename_i ref
      unfold Scope.bindPositional at h
      split at h
      · rename_i hsize
        cases h
        exact ⟨(store.items ref).toList, by simpa using hsize, rfl⟩
      · cases h
    · cases h

/-- A call that goes on activates the closure. -/
theorem Focus.activates_of_call {m : Machine} {f : Focus} {c : Closure} {operand : Value}
    {s' : State} (h : f.call m c operand = .next s') : Activates m f c s' := by
  rw [call_eq] at h
  split at h
  · cases h
  · rename_i scope hbind
    rcases Closure.bindOperand_eq_ok hbind with ⟨vs, hlength, rfl⟩
    split at h
    · cases h
    · cases h
      refine ⟨?_, vs, hlength, rfl⟩
      simp only [Scope.close, Store.addScope, Scope.parent_bindEach, Env.extend]

/-! ## Steps -/

theorem Transition.eq_next_of_atLine {t : Transition} {line : Nat} {s : State}
    (h : t.atLine line = .next s) : t = .next s := by
  cases t with
  | next s₀ => exact h
  | halted s₀ => cases h
  | failed fault s₀ => cases h

/-- Every instruction but the application of a closure stays in its frame, and goes on with
the rest of the code, with an arm in front of it, with one application less, or with the two
applications of an unrolled fixed point. -/
theorem Instr.perform_stays {i : Instr} {f : Focus} {P : List Instr → Prop} (m : Machine)
    (h : ∀ line c operand rest, i = .apply line → f.stack ≠ .closure c :: operand :: rest)
    (hcode : P f.code)
    (hbranch : ∀ line thenArm elseArm, i = .branch line thenArm elseArm →
      P (thenArm ++ f.code) ∧ P (elseArm ++ f.code))
    (hconc : ∀ line code, f.code = .apply line :: code → P code)
    (hunroll : ∀ line c operand rest, i = .apply line → f.stack = .eta c :: operand :: rest →
      P (.apply line :: .apply line :: f.code)) :
    (i.perform m f).Stays f P := by
  cases i with
  | ident line x => exact Focus.ident_stays hcode m x
  | literal line v => exact Focus.push_stays hcode _
  | lambda line b => exact Focus.push_stays hcode _
  | fixpoint line => exact Focus.push_stays hcode _
  | binary line op => exact Focus.binary_stays hcode op
  | unary line op => exact Focus.unary_stays hcode op
  | tuple line arity => exact Focus.formTuple_stays hcode arity
  | branch line t e =>
      rcases hbranch line t e rfl with ⟨hthen, helse⟩
      exact Focus.branch_stays hthen helse
  | apply line =>
      rcases f with ⟨env, code, callers, stack, store, printed⟩
      match stack with
      | [] => exact Focus.fail_stays _ _
      | [v] => exact Focus.fail_stays _ _
      | operator :: operand :: rest =>
          have hoperator : ∀ c, operator ≠ .closure c := by
            rintro c rfl
            exact h line c operand rest rfl rfl
          refine Focus.applyValue_stays (f := ⟨env, code, callers, rest, store, printed⟩)
            hoperator hcode hconc m ?_ operand
          rintro c rfl
          exact hunroll line c operand rest rfl rfl

/-- A step that goes on drops a finished frame, stays in the top frame, or activates the
closure that it applies. -/
theorem Machine.step_cases {m : Machine} {s s' : State} (h : m.step s = .next s') :
    (∃ env, s.frames = ⟨env, []⟩ :: s'.frames ∧ s'.store.scopes = s.store.scopes) ∨
    (∃ env i code code' callers, s.frames = ⟨env, i :: code⟩ :: callers ∧
      s'.frames = ⟨env, code'⟩ :: callers ∧ s.callee? = none ∧
      s'.store.scopes = s.store.scopes) ∨
    ∃ f line c, s.frames = ⟨f.env, .apply line :: f.code⟩ :: f.callers ∧ f.store = s.store ∧
      .closure c ∈ s.stack ∧ s.callee? = some c ∧ Activates m f c s' := by
  rcases s with ⟨frames, stack, store, printed⟩
  match frames with
  | [] => cases h
  | ⟨env, []⟩ :: callers =>
      cases h
      exact Or.inl ⟨env, rfl, rfl⟩
  | ⟨env, i :: code⟩ :: callers =>
      have hperform := Transition.eq_next_of_atLine h
      by_cases hcall : ∃ line c operand rest, i = .apply line ∧
          stack = .closure c :: operand :: rest
      · rcases hcall with ⟨line, c, operand, rest, rfl, rfl⟩
        refine Or.inr (Or.inr ⟨⟨env, code, callers, rest, store, printed⟩, line, c, rfl, rfl,
          List.mem_cons_self, rfl, ?_⟩)
        exact Focus.activates_of_call hperform
      · have hcallee :
            State.callee? ⟨⟨env, i :: code⟩ :: callers, stack, store, printed⟩ = none := by
          unfold State.callee?
          split
          · rename_i hframes hstack
            cases hframes
            exact absurd ⟨_, _, _, _, rfl, hstack⟩ hcall
          · rfl
        have hstays : (i.perform m ⟨env, code, callers, stack, store, printed⟩).Stays
            ⟨env, code, callers, stack, store, printed⟩ fun _ => True := by
          refine Instr.perform_stays m ?_ trivial (fun _ _ _ _ => ⟨trivial, trivial⟩)
            (fun _ _ _ => trivial) (fun _ _ _ _ _ _ => trivial)
          intro line c operand rest hi hstack
          exact hcall ⟨line, c, operand, rest, hi, hstack⟩
        rcases hstays s' hperform with ⟨⟨code', hframes, _⟩, hscopes⟩
        exact Or.inr (Or.inl ⟨env, i, code, code', callers, rfl, hframes, hcallee, hscopes⟩)

/-! ## The blocks of activations -/

/-- The blocks that the frames activate after a step, given those before it. -/
def Machine.relabel (m : Machine) (s : State) (labels : List Block) : List Block :=
  match s.frames, labels with
  | ⟨_, []⟩ :: _, _ :: labels => labels
  | ⟨_, _ :: code⟩ :: _, label :: labels =>
    match s.callee? with
    | some c =>
      if m.dropsCallers && code.isEmpty then c.block :: labels else c.block :: label :: labels
    | none => label :: labels
  | _, labels => labels

/-- The states that the run of a program passes through, with the block that each live
frame activates: the root of the program first, and from then on the blocks of the
closures that are called. -/
inductive Machine.Active (m : Machine) (root : Block) (store : Store) : State → List Block → Prop
  | start {s : State} (h : m.start root store = .next s) : Active m root store s [root]
  | step {s s' : State} {labels : List Block} (h : Active m root store s labels)
      (hstep : m.step s = .next s') : Active m root store s' (m.relabel s labels)

/-- In every reachable state the live frames activate blocks. -/
theorem Machine.Active.of_reachable {m : Machine} {root : Block} {store : Store} {s : State}
    (h : m.Reachable root store s) : ∃ labels, m.Active root store s labels := by
  refine Reachable.invariant (P := fun s => ∃ labels, m.Active root store s labels) ?_ ?_ h
  · intro s₀ hstart
    exact ⟨[root], .start hstart⟩
  · rintro s₀ s₁ ⟨labels, hactive⟩ hstep
    exact ⟨m.relabel s₀ labels, hactive.step hstep⟩

theorem Machine.Active.reachable {m : Machine} {root : Block} {store : Store} {s : State}
    {labels : List Block} (h : m.Active root store s labels) : m.Reachable root store s := by
  induction h with
  | start h => exact ⟨0, h⟩
  | step _ hstep ih => exact ih.step hstep

end CSEMachine
