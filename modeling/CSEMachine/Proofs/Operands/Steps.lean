import CSEMachine.Proofs.Framewise
import CSEMachine.Proofs.Operands.Waiting
import CSEMachine.Proofs.TailPositions

/-!
# Steps and what waits

A step that performs the own instruction of a node either finds the value of the node, or
goes on with an arm of a conditional, which stands where the conditional stands, or calls a
closure, whose body is in operator position of nothing.  `Conc` is the exception: where it is
applied in operator position, it finds the value of the application whose operator it is.

Main results:

- Theorem `Instr.perform_yields`: an instruction that neither applies nor branches leaves one
  value in place of those of the operands.
- Theorem `Stands.step`: a step preserves where a run of the code of a tree stands.
-/

namespace CSEMachine

/-! ## Instructions that leave a value -/

/-- A step that, if it goes on, is done with its instruction and has left one value on the
stack. -/
def Transition.Yields (frames : List Frame) (stack : List Value) (t : Transition) : Prop :=
  ∀ s', t = .next s' → s'.frames = frames ∧ ∃ v, s'.stack = v :: stack

namespace Focus

theorem fail_yields (f : Focus) (fault : Fault) {frames : List Frame} {stack : List Value} :
    (f.fail fault).Yields frames stack := by
  rintro s' ⟨⟩

theorem push_yields (f : Focus) (v : Value) :
    (f.push v).Yields (⟨f.env, f.code⟩ :: f.callers) f.stack := by
  rintro s' ⟨⟩
  exact ⟨rfl, v, rfl⟩

theorem pushResult_yields (f : Focus) (r : Except Fault Value) :
    (f.pushResult r).Yields (⟨f.env, f.code⟩ :: f.callers) f.stack := by
  cases r with
  | ok v => exact f.push_yields v
  | error fault => exact f.fail_yields fault

theorem ident_yields (f : Focus) (m : Machine) (x : Name) :
    (f.ident m x).Yields (⟨f.env, f.code⟩ :: f.callers) f.stack := by
  rw [ident_eq]
  split
  · exact f.push_yields _
  · split
    · exact f.push_yields _
    · exact f.fail_yields _

/-- Applying anything but a closure, the fixed point of one or `Conc` leaves a value in place of
the operand. -/
theorem applyValue_yields (f : Focus) (m : Machine) (line : Nat) {operator : Value}
    (hclosure : ∀ c, operator ≠ .closure c) (heta : ∀ c, operator ≠ .eta c)
    (hconc : operator ≠ .builtin .conc) (operand : Value) :
    (f.applyValue m line operator operand).Yields (⟨f.env, f.code⟩ :: f.callers) f.stack := by
  cases operator with
  | closure c => exact absurd rfl (hclosure c)
  | eta c => exact absurd rfl (heta c)
  | fixpoint =>
      simp only [applyValue_eq, fix_eq]
      split
      · exact f.push_yields _
      · exact f.fail_yields _
  | tuple ref =>
      simp only [applyValue_eq, select_eq]
      split
      · exact f.pushResult_yields _
      · exact f.fail_yields _
  | builtin b =>
      by_cases hprint : b = .print
      · subst hprint
        rintro s' ⟨⟩
        exact ⟨rfl, _, rfl⟩
      · have hne : b ≠ .conc := by
          rintro rfl
          exact hconc rfl
        simp only [applyValue_eq]
        rw [applyBuiltin_of_ne hprint hne]
        exact f.pushResult_yields _
  | _ => exact f.fail_yields _

end Focus

/-- An instruction that neither applies nor branches leaves one value in place of those of the
operands. -/
theorem Instr.perform_yields {i : Instr} (m : Machine) (happly : ∀ line, i ≠ .apply line)
    (hbranch : ∀ line thenArm elseArm, i ≠ .branch line thenArm elseArm) {values : List Value}
    (hvalues : values.length = i.operands) (env : Env) (code : List Instr)
    (callers : List Frame) (below : List Value) (store : Store) (printed : Array String) :
    (i.perform m ⟨env, code, callers, values ++ below, store, printed⟩).Yields
      (⟨env, code⟩ :: callers) below := by
  cases i with
  | apply line => exact absurd rfl (happly line)
  | branch line thenArm elseArm => exact absurd rfl (hbranch line thenArm elseArm)
  | ident line x =>
      rcases List.length_eq_zero_iff.mp hvalues with rfl
      exact Focus.ident_yields _ m x
  | literal line v =>
      rcases List.length_eq_zero_iff.mp hvalues with rfl
      exact Focus.push_yields ⟨env, code, callers, below, store, printed⟩ _
  | lambda line b =>
      rcases List.length_eq_zero_iff.mp hvalues with rfl
      exact Focus.push_yields ⟨env, code, callers, below, store, printed⟩ _
  | fixpoint line =>
      rcases List.length_eq_zero_iff.mp hvalues with rfl
      exact Focus.push_yields ⟨env, code, callers, below, store, printed⟩ _
  | binary line op =>
      rcases List.length_eq_two.mp hvalues with ⟨left, right, rfl⟩
      exact Focus.pushResult_yields ⟨env, code, callers, below, _, printed⟩ _
  | unary line op =>
      rcases List.length_eq_one_iff.mp hvalues with ⟨operand, rfl⟩
      exact Focus.pushResult_yields ⟨env, code, callers, below, store, printed⟩ _
  | tuple line arity =>
      have hitems : values.length = arity := hvalues
      simp only [perform_eq, Focus.formTuple_append hitems]
      rintro s' ⟨⟩
      exact ⟨rfl, _, rfl⟩

/-- A call leaves the values below its operand on the stack. -/
theorem Focus.stack_of_call {m : Machine} {f : Focus} {c : Closure} {operand : Value}
    {s' : State} (h : f.call m c operand = .next s') : s'.stack = f.stack := by
  rw [call_eq] at h
  split at h
  · cases h
  · split at h
    · cases h
    · cases h
      rfl

/-- A step with an instruction left performs it. -/
theorem Machine.perform_of_step {m : Machine} {s s' : State} {env : Env} {i : Instr}
    {code : List Instr} {callers : List Frame} (hframes : s.frames = ⟨env, i :: code⟩ :: callers)
    (hstep : m.step s = .next s') :
    i.perform m ⟨env, code, callers, s.stack, s.store, s.printed⟩ = .next s' := by
  rcases s with ⟨_, stack, store, printed⟩
  cases hframes
  exact Transition.eq_next_of_atLine hstep

/-! ## Where a step leads -/

/-- A block whose code is that of a node that is in operator position of nothing. -/
def Block.BodyIn (t : Term) (name : String → Name) (b : Block) : Prop :=
  ∃ u ∈ t.seats, u.app? = none ∧ ∃ j, b.code = (u.node.named name j).flatten []

namespace Stands

variable {states : Nat → State} {t : Term} {name : String → Name} {n : Nat} {env : Env}
  {callers : List Frame} {g : Option Term} {code : List Instr} {stack base : List Value}
  {m : Machine}

/-- A value that a step has found goes to what waits for it. -/
theorem of_value (hk : Waits states t name n env callers base g code stack)
    (hcallers : FramesWait states t name n callers base) {v : Value}
    (hframes : (states (n + 1)).frames = ⟨env, code⟩ :: callers)
    (hstack : (states (n + 1)).stack = v :: stack) : Stands states t name (n + 1) := by
  rcases hk.exists_eq_append with ⟨above, rfl⟩
  refine settle hframes hstack (hk.later ⟨[], [], [v], hframes, hstack⟩) ?_
  exact hcallers.later [⟨env, code⟩] (v :: above) hframes hstack

/-- A node that stands where another one stood is begun with what waited for that one. -/
theorem of_node {s : Seat} {i : Nat} (hs : s ∈ t.seats)
    (hk : Waits states t name n env callers base s.app? code stack)
    (hcallers : FramesWait states t name n callers base)
    (hframes : (states (n + 1)).frames = ⟨env, (s.node.named name i).flatten code⟩ :: callers)
    (hstack : (states (n + 1)).stack = stack) : Stands states t name (n + 1) := by
  rcases hk.exists_eq_append with ⟨above, rfl⟩
  refine enter hs hframes hstack (hk.later ?_) ?_
  · rw [Expr.flatten_append] at hframes
    exact .of_top hframes hstack
  · exact hcallers.later [⟨env, _⟩] above hframes hstack

/-- The body of a closure that is called is begun with nothing waiting in its activation. -/
theorem call {line : Nat} {c : Closure} {operand : Value}
    (hframes : (states n).frames = ⟨env, .apply line :: code⟩ :: callers)
    (hstack : (states n).stack = .closure c :: operand :: stack)
    (h : FramesWait states t name n (⟨env, code⟩ :: callers) stack)
    (hbody : c.block.BodyIn t name) (hstep : m.step (states n) = .next (states (n + 1))) :
    Stands states t name (n + 1) := by
  rcases hbody with ⟨u, hu, happ, j, hcode⟩
  rcases m.frames_of_call hframes hstack hstep with ⟨env', hframes'⟩
  have hstack' : (states (n + 1)).stack = stack := by
    have hperform := Machine.perform_of_step hframes hstep
    rw [hstack] at hperform
    simp only [Instr.perform_eq, Focus.apply_eq, Focus.applyValue_eq] at hperform
    exact Focus.stack_of_call hperform
  -- a caller that is dropped had nothing left to do, and nothing waited in it
  have hbelow : FramesWait states t name n
      (if m.dropsCallers && code.isEmpty then callers else ⟨env, code⟩ :: callers) stack := by
    split
    · rename_i hdrops
      have hnil : code = [] := by simpa using And.right (by simpa using hdrops)
      subst hnil
      cases h with
      | cons hk hcallers =>
          rw [hk.stack_eq_of_nil]
          exact hcallers
    · exact h
  generalize hcallers' : (if m.dropsCallers && code.isEmpty then callers
    else ⟨env, code⟩ :: callers) = callers' at hframes' hbelow
  rw [hcode] at hframes'
  refine enter hu hframes' hstack' ?_ (hbelow.later [⟨env', _⟩] [] hframes' hstack')
  rw [happ]
  exact .done

/-- Behind a fixed point that is unrolled its application waits, for the operator that is to be
found once more. -/
theorem unroll {line i : Nat} {rator rand : Term} (hs : ⟨g, .app line rator rand⟩ ∈ t.seats)
    {c : Closure} {operand : Value}
    (hframes : (states n).frames = ⟨env, .apply line :: code⟩ :: callers)
    (hstack : (states n).stack = .eta c :: operand :: stack)
    (hvalues : Values states name n env callers (.app line rator rand) i code stack
      [⟨none, rand⟩] (operand :: stack))
    (hk : Waits states t name n env callers base g code stack)
    (hcallers : FramesWait states t name n callers base)
    (hstep : m.step (states n) = .next (states (n + 1))) : Stands states t name (n + 1) := by
  have hperform := Machine.perform_of_step hframes hstep
  rw [hstack] at hperform
  simp only [Instr.perform_eq, Focus.apply_eq, Focus.applyValue_eq, Focus.unroll_eq] at hperform
  have hnext := (Transition.next.inj hperform).symm
  have hframes' : (states (n + 1)).frames =
      ⟨env, .apply line :: .apply line :: code⟩ :: callers := by rw [hnext]
  have hstack' : (states (n + 1)).stack = .closure c :: .eta c :: operand :: stack := by
    rw [hnext]
  have hrator := Waits.rator hs hvalues hk
  rcases hk.exists_eq_append with ⟨above, rfl⟩
  refine .unrolled hframes' hstack' (.cons (hrator.later ?_) ?_)
  · exact ⟨[], [.apply line], [.closure c, .eta c], hframes', hstack'⟩
  · exact hcallers.later [⟨env, _⟩] (.closure c :: .eta c :: operand :: above) hframes' hstack'

/-- If `Conc` finds a value, it is that of the application in whose operator position it has
been applied. -/
theorem conc {line : Nat} {first : Value}
    (hframes : (states n).frames = ⟨env, .apply line :: code⟩ :: callers)
    (hstack : (states n).stack = .builtin .conc :: first :: stack)
    (hk : Waits states t name n env callers base g code stack)
    (hcallers : FramesWait states t name n callers base)
    (hstep : m.step (states n) = .next (states (n + 1))) : Stands states t name (n + 1) := by
  have hperform := Machine.perform_of_step hframes hstep
  rw [hstack] at hperform
  cases g with
  | none =>
      have hmissing : Focus.conc ⟨env, code, callers, stack, (states n).store,
          (states n).printed⟩ first = .next (states (n + 1)) := hperform
      rw [Focus.conc_of_not_apply hk.ne_apply_of_none] at hmissing
      cases hmissing
  | some app =>
      rcases hk.of_some with ⟨g, line', _, _, _, _, k, second, below, _, _, rfl, rfl, _, hk⟩
      rcases Focus.pushResult_yields ⟨env, k, callers, below, (states n).store,
        (states n).printed⟩ _ _ hperform with ⟨hframes', v, hstack'⟩
      exact of_value hk hcallers hframes' hstack'

/-- An application calls a closure, unrolls a fixed point, or finds a value. -/
theorem apply {line i : Nat} {rator rand : Term} (hs : ⟨g, .app line rator rand⟩ ∈ t.seats)
    {operator operand : Value}
    (hframes : (states n).frames = ⟨env, .apply line :: code⟩ :: callers)
    (hstack : (states n).stack = operator :: operand :: stack)
    (hvalues : Values states name n env callers (.app line rator rand) i code stack
      [⟨none, rand⟩] (operand :: stack))
    (hk : Waits states t name n env callers base g code stack)
    (hcallers : FramesWait states t name n callers base)
    (hbodies : ∀ c, .closure c ∈ (states n).stack → c.block.BodyIn t name)
    (hstep : m.step (states n) = .next (states (n + 1))) : Stands states t name (n + 1) := by
  by_cases hclosure : ∃ c, operator = .closure c
  · rcases hclosure with ⟨c, rfl⟩
    exact call hframes hstack (.cons hk hcallers) (hbodies c (by simp [hstack])) hstep
  by_cases heta : ∃ c, operator = .eta c
  · rcases heta with ⟨c, rfl⟩
    exact unroll hs hframes hstack hvalues hk hcallers hstep
  by_cases hconc : operator = .builtin .conc
  · subst hconc
    exact conc hframes hstack hk hcallers hstep
  have hperform := Machine.perform_of_step hframes hstep
  rw [hstack] at hperform
  rcases Focus.applyValue_yields ⟨env, code, callers, stack, (states n).store,
    (states n).printed⟩ m line (fun c hc => hclosure ⟨c, hc⟩) (fun c hc => heta ⟨c, hc⟩) hconc
    operand _ hperform with ⟨hframes', v, hstack'⟩
  exact of_value hk hcallers hframes' hstack'

/-- A conditional goes on with one of its arms. -/
theorem branch {line i : Nat} {c e₁ e₂ : Term} {v : Value}
    (hs : ⟨g, .cond line c e₁ e₂⟩ ∈ t.seats)
    (hframes : (states n).frames =
      ⟨env, (Term.named name i (.cond line c e₁ e₂)).instr :: code⟩ :: callers)
    (hstack : (states n).stack = v :: stack)
    (hk : Waits states t name n env callers base g code stack)
    (hcallers : FramesWait states t name n callers base)
    (hstep : m.step (states n) = .next (states (n + 1))) : Stands states t name (n + 1) := by
  have hperform := Machine.perform_of_step hframes hstep
  rw [hstack] at hperform
  have harm : ∀ (e : Term) (j : Nat), ⟨g, e⟩ ∈ Seat.held ⟨g, .cond line c e₁ e₂⟩ →
      (states (n + 1)).frames = ⟨env, (e.named name j).flatten [] ++ code⟩ :: callers →
      (states (n + 1)).stack = stack → Stands states t name (n + 1) := by
    intro e j he hframes' hstack'
    rw [← Expr.flatten_append] at hframes'
    exact of_node (s := ⟨g, e⟩) (Term.mem_seats_of_mem_held hs he) hk hcallers hframes' hstack'
  cases v with
  | bool b =>
      have hnext := (Transition.next.inj hperform).symm
      have hstack' : (states (n + 1)).stack = stack := congrArg State.stack hnext
      cases b with
      | true => exact harm e₁ _ List.mem_cons_self (congrArg State.frames hnext) hstack'
      | false =>
          have he₂ : ⟨g, e₂⟩ ∈ Seat.held ⟨g, .cond line c e₁ e₂⟩ :=
            List.mem_cons_of_mem _ List.mem_cons_self
          exact harm e₂ _ he₂ (congrArg State.frames hnext) hstack'
  | _ => cases hperform

/-- A step preserves where a run of the code of a tree stands. -/
theorem step (h : Stands states t name n)
    (hbodies : ∀ c, .closure c ∈ (states n).stack → c.block.BodyIn t name)
    (hstep : m.step (states n) = .next (states (n + 1))) : Stands states t name (n + 1) := by
  cases h with
  | ended hframes =>
      generalize states n = s at hframes hstep
      rcases s with ⟨_, stack, store, printed⟩
      cases hframes
      cases hstep
  | @returned env callers v base hframes hstack hcallers =>
      have hnext : (states (n + 1)).frames = callers ∧ (states (n + 1)).stack = v :: base := by
        generalize states n = s at hframes hstack hstep
        rcases s with ⟨_, _, store, printed⟩
        cases hframes
        cases hstack
        rw [← Transition.next.inj hstep]
        exact ⟨rfl, rfl⟩
      have hlater := hcallers.later [] [v] hnext.1 hnext.2
      cases hlater with
      | nil => exact .ended hnext.1
      | cons hk hbelow => exact settle hnext.1 hnext.2 hk hbelow
  | unrolled hframes hstack h =>
      exact call hframes hstack h (hbodies _ (by simp [hstack])) hstep
  | @ready s i env k callers values below base hs hframes hstack hvalues hk hcallers =>
      rcases hvalues.exists_eq_append with ⟨above, habove, rfl⟩
      have hother : (∀ line, (s.node.named name i).instr ≠ .apply line) →
          (∀ line e₁ e₂, (s.node.named name i).instr ≠ .branch line e₁ e₂) →
            Stands states t name (n + 1) := by
        intro happly hbranch
        have hperform := Machine.perform_of_step hframes hstep
        rw [hstack] at hperform
        have hlength : above.length = (s.node.named name i).instr.operands := by
          rw [Term.operands_instr_named, habove]
        rcases Instr.perform_yields m happly hbranch hlength env k callers below (states n).store
          (states n).printed _ hperform with ⟨hframes', v, hstack'⟩
        exact of_value hk hcallers hframes' hstack'
      rcases s with ⟨g, q⟩
      cases q with
      | app line rator rand =>
          rcases List.length_eq_two.mp habove with ⟨operator, operand, rfl⟩
          cases hvalues with
          | cons _ _ hrand => exact apply hs hframes hstack hrand hk hcallers hbodies hstep
      | cond line c e₁ e₂ =>
          rcases List.length_eq_one_iff.mp habove with ⟨v, rfl⟩
          exact branch hs hframes hstack hk hcallers hstep
      | ident line x | literal line v | nil line | fixpoint line | lambda line xs body
      | tuple line items | binary line op left right | unary line op operand =>
          exact hother nofun nofun

end Stands

end CSEMachine
