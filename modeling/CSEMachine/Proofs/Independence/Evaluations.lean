import CSEMachine.Proofs.Independence.Shifts

/-!
# Evaluations do not depend on what was before them

The evaluation of a tree in a world that has tuples and functions already, and with numbers
for its lambdas that start later, goes as in a world that has none.  It takes the same fuel
and comes to the shifted value, it fails in both or it has not ended in either.

Main results:

- Theorem `Direct.evalShifted`: evaluations are shifted when applications are.
- Theorem `Direct.applyShifted`: applications are shifted, whatever the fuel.
-/

namespace CSEMachine

namespace Direct

variable {d : Shift} {fuel : Nat} {w w' : World}

/-! ## Outcomes -/

namespace Outcome.Shifted

variable {α β : Type} {shift : α → α} {shift' : β → β} {o o' : Outcome α}

/-- Shifted outcomes are shifted one after the other. -/
theorem andThen {f f' : α → World → Outcome β} (h : o.Shifted d shift o')
    (hf : ∀ {a : α} {w w' : World}, w.Shifted d w' →
      (f a w).Shifted d shift' (f' (shift a) w')) :
    (o.andThen f).Shifted d shift' (o'.andThen f') := by
  cases h with
  | value h hw =>
      subst h
      exact hf hw
  | fault e e' w w' => exact .fault e e' w w'
  | pending => exact .pending

/-- A shifted result is given or refused. -/
theorem give {x y : Except Fault Value} (hw : w.Shifted d w')
    (h : ShiftedResults (Value.shifted d) x y) (line : Nat) :
    (w.give line x).Shifted d (Value.shifted d) (w'.give line y) := by
  cases h with
  | ok h => exact .value h hw
  | error e e' => exact .fault _ _ w w'

end Outcome.Shifted

/-! ## Trees -/

/-- Applications of shifted values are shifted. -/
def ApplyShifted (d : Shift) (fuel : Nat) : Prop :=
  ∀ ⦃w w' : World⦄ (v : Value) (ws : Waiting), w.Shifted d w' →
    (apply fuel v ws w).Shifted d (Value.shifted d)
      (apply fuel (v.shifted d) (ws.shifted d) w')

mutual

/-- Evaluations are shifted when applications are. -/
theorem evalShifted (happly : ApplyShifted d fuel) : ∀ (t : Term) (n : Nat)
    (env : Environment) (ws : Waiting) {w w' : World}, w.Shifted d w' →
      (t.eval (apply fuel) n env ws w).Shifted d (Value.shifted d)
        (t.eval (apply fuel) (d.lambdas + n) (env.shifted d) (ws.shifted d) w')
  | .ident line x, n, env, ws, w, w', hw => by
      simp only [Term.eval, Environment.find?_shifted]
      cases env.find? x with
      | some v => exact happly v ws hw
      | none =>
          cases Builtin.ofSpelling? x with
          | some b => exact happly (.builtin b) ws hw
          | none => exact .fault _ _ w w'
  | .literal line v, n, env, ws, w, w', hw => by
      have hvalue := happly v.value ws hw
      rw [Literal.value_shifted] at hvalue
      simp only [Term.eval]
      exact hvalue
  | .nil line, n, env, ws, w, w', hw => by
      rcases hw.formTuple [] with ⟨hvalue, hformed⟩
      have hrest := happly (w.formTuple []).1 ws hformed
      rw [← hvalue] at hrest
      simp only [Term.eval]
      exact hrest
  | .fixpoint line, n, env, ws, w, w', hw => by
      simp only [Term.eval]
      exact happly .fixpoint ws hw
  | .lambda line xs body, n, env, ws, w, w', hw => by
      rcases hw.formFunction ⟨n, xs, body, env⟩ with ⟨hvalue, hformed⟩
      have hrest := happly (w.formFunction ⟨n, xs, body, env⟩).1 ws hformed
      rw [← hvalue] at hrest
      simp only [Term.eval]
      exact hrest
  | .app line rator rand, n, env, ws, w, w', hw => by
      simp only [Term.eval, Nat.add_assoc]
      refine (evalShifted happly rand (n + rator.lambdas) env [] hw).andThen ?_
      intro v w w' hw
      exact evalShifted happly rator n env ((v, line) :: ws) hw
  | .cond line condition thenArm elseArm, n, env, ws, w, w', hw => by
      simp only [Term.eval, Nat.add_assoc]
      refine (evalShifted happly condition n env [] hw).andThen ?_
      intro v w w' hw
      cases v with
      | bool b =>
          cases b with
          | true => exact evalShifted happly thenArm (n + condition.lambdas) env ws hw
          | false =>
              exact evalShifted happly elseArm (n + (condition.lambdas + thenArm.lambdas)) env ws hw
      | _ => exact .fault _ _ w w'
  | .tuple line items, n, env, ws, w, w', hw => by
      simp only [Term.eval]
      refine (evalAllShifted happly items n env hw).andThen ?_
      intro vs w w' hw
      rcases hw.formTuple vs with ⟨hvalue, hformed⟩
      have hrest := happly (w.formTuple vs).1 ws hformed
      rwa [← hvalue] at hrest
  | .binary line op left right, n, env, ws, w, w', hw => by
      simp only [Term.eval, Nat.add_assoc]
      refine (evalShifted happly right (n + left.lambdas) env [] hw).andThen ?_
      intro b w w' hw
      refine (evalShifted happly left n env [] hw).andThen ?_
      intro a w w' hw
      have hresult := (op.apply_shifted (d := d) w.store w'.store a b).mapError Fault.of
      refine (Outcome.Shifted.give (hw.binary op a b) hresult line).andThen ?_
      intro v w w' hw
      exact happly v ws hw
  | .unary line op operand, n, env, ws, w, w', hw => by
      simp only [Term.eval]
      refine (evalShifted happly operand n env [] hw).andThen ?_
      intro a w w' hw
      have hresult := (op.apply_shifted (d := d) w.store w'.store a).mapError Fault.of
      refine (Outcome.Shifted.give hw hresult line).andThen ?_
      intro v w w' hw
      exact happly v ws hw

theorem evalAllShifted (happly : ApplyShifted d fuel) : ∀ (ts : List Term) (n : Nat)
    (env : Environment) {w w' : World}, w.Shifted d w' →
      (Term.evalAll (apply fuel) ts n env w).Shifted d (List.map (Value.shifted d))
        (Term.evalAll (apply fuel) ts (d.lambdas + n) (env.shifted d) w')
  | [], n, env, w, w', hw => by
      simp only [Term.evalAll]
      exact .value rfl hw
  | t :: ts, n, env, w, w', hw => by
      simp only [Term.evalAll, Nat.add_assoc]
      refine (evalAllShifted happly ts (n + t.lambdas) env hw).andThen ?_
      intro vs w w' hw
      refine (evalShifted happly t n env [] hw).andThen ?_
      intro v w w' hw
      exact .value rfl hw

end

/-! ## Applications -/

/-- Without fuel no application is made. -/
theorem ApplyShifted.zero (d : Shift) : ApplyShifted d 0 := by
  intro w w' v ws hw
  cases ws with
  | nil => exact .value rfl hw
  | cons a ws => exact .pending

/-- A function is called with the shifted operand. -/
theorem call_shifted (happly : ApplyShifted d fuel) (hw : w.Shifted d w') (c : Closure)
    (operand : Value) (line : Nat) (ws : Waiting) :
    (apply (fuel + 1) (.closure c) ((operand, line) :: ws) w).Shifted d (Value.shifted d)
      (apply (fuel + 1) (.closure (c.shifted d)) ((operand.shifted d, line) :: ws.shifted d)
        w') := by
  simp only [apply, hw.function?_eq]
  cases w.function? c with
  | none => exact .fault _ _ w w'
  | some fn =>
      have hspread := hw.spread fn.params.length operand
      simp only [Option.map_some, Function.shifted]
      generalize w.spread fn.params.length operand = vs at hspread ⊢
      generalize w'.spread fn.params.length (operand.shifted d) = vs' at hspread ⊢
      cases hspread with
      | error cause cause' => exact .fault _ _ w w'
      | @ok vs vs' hvs =>
          subst hvs
          have hbody := evalShifted happly fn.body (fn.number + 1)
            (fn.params.zip vs :: fn.env) [] hw
          rw [Environment.shifted_cons, map_zip_shifted] at hbody
          refine hbody.andThen ?_
          intro v w w' hw
          exact happly v ws hw

/-- `Conc` takes the shifted operands. -/
theorem conc_shifted (happly : ApplyShifted d fuel) (hw : w.Shifted d w') (operand : Value)
    (line : Nat) (ws : Waiting) :
    (apply (fuel + 1) (.builtin .conc) ((operand, line) :: ws) w).Shifted d (Value.shifted d)
      (apply (fuel + 1) (.builtin .conc) ((operand.shifted d, line) :: ws.shifted d) w') := by
  cases ws with
  | nil => exact .fault _ _ w w'
  | cons second ws =>
      have hjoined := Builtin.applyConc_shifted (d := d) w.store w'.store operand second.1
      refine (Outcome.Shifted.give hw hjoined line).andThen ?_
      intro v w w' hw
      exact happly v ws hw

/-- A built-in function is applied to the shifted operand. -/
theorem builtin_shifted (happly : ApplyShifted d fuel) (hw : w.Shifted d w') (b : Builtin)
    (operand : Value) (line : Nat) (ws : Waiting) :
    (apply (fuel + 1) (.builtin b) ((operand, line) :: ws) w).Shifted d (Value.shifted d)
      (apply (fuel + 1) (.builtin b) ((operand.shifted d, line) :: ws.shifted d) w') := by
  have hresult := b.apply_shifted hw operand
  cases b with
  | print => exact happly .dummy ws (hw.print operand (operand.shifted d))
  | conc => exact conc_shifted happly hw operand line ws
  | _ =>
      simp only [apply]
      refine (Outcome.Shifted.give hw hresult line).andThen ?_
      intro v w w' hw
      exact happly v ws hw

/-- Applications are shifted when those with less fuel are. -/
theorem ApplyShifted.succ (happly : ApplyShifted d fuel) : ApplyShifted d (fuel + 1) := by
  intro w w' operator ws hw
  cases ws with
  | nil => exact .value rfl hw
  | cons a ws =>
      obtain ⟨operand, line⟩ := a
      cases operator with
      | closure c => exact call_shifted happly hw c operand line ws
      | eta c => exact happly (.closure c) ((.eta c, line) :: (operand, line) :: ws) hw
      | fixpoint =>
          cases operand with
          | closure c => exact happly (.eta c) ws hw
          | _ => exact .fault _ _ w w'
      | tuple ref =>
          cases operand with
          | int index =>
              have hselected := (hw.select ref index).mapError Fault.of
              refine (Outcome.Shifted.give hw hselected line).andThen ?_
              intro v w w' hw
              exact happly v ws hw
          | _ => exact .fault _ _ w w'
      | builtin b => exact builtin_shifted happly hw b operand line ws
      | _ => exact .fault _ _ w w'

/-- Applications are shifted, whatever the fuel. -/
theorem applyShifted (d : Shift) (fuel : Nat) : ApplyShifted d fuel := by
  induction fuel with
  | zero => exact .zero d
  | succ fuel ih => exact ih.succ

end Direct

end CSEMachine
