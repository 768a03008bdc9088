import CSEMachine.Proofs.Direct.Agreement
import CSEMachine.Proofs.Run

/-!
# Simulated outcomes

A machine that runs the code of a tree comes to what a direct evaluation of the tree comes
to.  Where the evaluation obtains a value, the machine gets to a continuation with a
corresponding value on its stack; where the evaluation fails, so does the machine; and
while the evaluation has not ended for lack of fuel, neither has the machine.

Main results:

- Definition `Simulates`: from a state on, a machine does what an outcome says.
- Theorem `Simulates.andThen`: outcomes are simulated one after the other.
- Theorem `Simulates.give_andThen`: a step pushes a result or fails.
-/

namespace CSEMachine

/-! ## Getting from one state to another -/

/-- A machine gets from one state to another. -/
def Machine.Leads (m : Machine) (s s' : State) : Prop :=
  ∃ n, m.after n (.next s) = .next s'

namespace Machine.Leads

variable {m : Machine} {s s' s'' : State}

theorem refl (m : Machine) (s : State) : m.Leads s s :=
  ⟨0, rfl⟩

theorem of_step (h : m.step s = .next s') : m.Leads s s' :=
  ⟨1, h⟩

theorem trans (h : m.Leads s s') (h' : m.Leads s' s'') : m.Leads s s'' := by
  rcases h with ⟨n, hn⟩
  rcases h' with ⟨k, hk⟩
  exact ⟨k + n, by rw [Machine.after_add, hn, hk]⟩

/-- A run that has not ended from a state on had not ended before it. -/
theorem finish_eq_none (h : m.Leads s s') {fuel : Nat} (hnone : m.finish fuel (.next s') = none) :
    m.finish fuel (.next s) = none := by
  rcases h with ⟨n, hn⟩
  rw [← Machine.finish_add_of_after hn] at hnone
  exact Machine.finish_eq_none_of_le hnone (Nat.le_add_right fuel n)

end Machine.Leads

namespace Direct

/-! ## Continuations -/

/-- What a machine goes on with once it has a value: the rest of the code of a frame, the
frames below it and the values below that value. -/
structure Continuation where
  env : Env
  code : List Instr
  callers : List Frame
  stack : List Value

/-- The frames that are left when a frame without code is dropped. -/
def settled (env : Env) : List Instr → List Frame → List Frame
  | [], callers => callers
  | i :: code, callers => ⟨env, i :: code⟩ :: callers

namespace Continuation

/-- The applications of waiting operands come before the continuation. -/
def waiting (k : Continuation) (us : List Value) (ws : Waiting) : Continuation :=
  ⟨k.env, ws.map (fun w => .apply w.2) ++ k.code, k.callers, us ++ k.stack⟩

/-- The continuation that runs other code. -/
def withCode (k : Continuation) (code : List Instr) : Continuation :=
  ⟨k.env, code, k.callers, k.stack⟩

/-- The continuation on top of further values. -/
def onto (k : Continuation) (us : List Value) : Continuation :=
  ⟨k.env, k.code, k.callers, us ++ k.stack⟩

/-- The continuation of the body of a closure that is activated. -/
def ofCallee (k : Continuation) (m : Machine) (env : Env) (s : Store)
    (printed : Array String) : Continuation :=
  ⟨env, [], Focus.callersBelow ⟨k.env, k.code, k.callers, k.stack, s, printed⟩ m, k.stack⟩

/-- The state in which other code runs in place of that of the continuation. -/
def enter (k : Continuation) (code : List Instr) (s : Store) (printed : Array String) : State :=
  ⟨⟨k.env, code⟩ :: k.callers, k.stack, s, printed⟩

/-- The state in which the continuation has its value. -/
def resume (k : Continuation) (u : Value) (s : Store) (printed : Array String) : State :=
  ⟨settled k.env k.code k.callers, u :: k.stack, s, printed⟩

/-- The state in which a continuation has several values, with its own frame still there. -/
def fill (k : Continuation) (us : List Value) (s : Store) (printed : Array String) :
    State :=
  ⟨⟨k.env, k.code⟩ :: k.callers, us ++ k.stack, s, printed⟩

/-- The continuation in hand. -/
def focus (k : Continuation) (s : Store) (printed : Array String) : Focus :=
  ⟨k.env, k.code, k.callers, k.stack, s, printed⟩

/-- A frame with code left stays. -/
theorem resume_of_ne_nil {k : Continuation} (h : k.code ≠ []) (u : Value)
    (s : Store) (printed : Array String) : k.resume u s printed = k.fill [u] s printed := by
  rcases k with ⟨env, code, callers, stack⟩
  cases code with
  | nil => exact (h rfl).elim
  | cons i code => rfl

end Continuation

/-- A finished frame is dropped before the machine goes on. -/
theorem leads_settled (m : Machine) (env : Env) (code : List Instr) (callers : List Frame)
    (stack : List Value) (s : Store) (printed : Array String) :
    m.Leads ⟨⟨env, code⟩ :: callers, stack, s, printed⟩
      ⟨settled env code callers, stack, s, printed⟩ := by
  cases code with
  | nil => exact .of_step rfl
  | cons i code => exact .refl m _

/-- So is one that was not dropped before its callee was activated. -/
theorem leads_callersBelow (m : Machine) (f : Focus) (stack : List Value) (s : Store)
    (printed : Array String) :
    m.Leads ⟨f.callersBelow m, stack, s, printed⟩
      ⟨settled f.env f.code f.callers, stack, s, printed⟩ := by
  rcases f with ⟨env, code, callers, _, _, _⟩
  rw [Focus.callersBelow_eq]
  split
  · rename_i hdropped
    have hcode : code = [] := by
      simp only [Bool.and_eq_true, List.isEmpty_iff] at hdropped
      exact hdropped.2
    subst hcode
    exact .refl m _
  · exact leads_settled m env code callers stack s printed

/-! ## Simulated outcomes -/

/-- From a state on, a machine does what an outcome says.  `R` relates results in a view,
and `target` is the state that a result leads to. -/
def Simulates (m : Machine) (fuel : Nat) (view : View) {α β : Type} (R : View → β → α → Prop)
    (target : β → Store → Array String → State) (start : State) : Outcome α → Prop
  | .value a w => ∃ (later : View) (b : β) (s : Store) (printed : Array String),
      m.Leads start (target b s printed) ∧ view.Grows later ∧ R later b a ∧
        later.Agrees m.names s printed w
  | .fault e w => ∃ n s, m.after n (.next start) = .failed e s ∧ s.printed = w.printed
  | .pending => m.finish fuel (.next start) = none

namespace Simulates

variable {m : Machine} {fuel : Nat} {view later : View} {α β : Type} {R : View → β → α → Prop}
  {target : β → Store → Array String → State} {start mid : State} {o : Outcome α}

/-- A result is there already. -/
theorem value {a : α} {b : β} {s : Store} {printed : Array String} {w : World}
    (hR : R view b a) (hagrees : view.Agrees m.names s printed w) :
    Simulates m fuel view R target (target b s printed) (.value a w) :=
  ⟨view, b, s, printed, .refl m _, .refl view, hR, hagrees⟩

/-- A step that fails. -/
theorem fail {s s' : State} {fault : Fault} {line : Nat} {w : World}
    (hstep : m.step s = .failed (fault.atLine line) s') (hprinted : s'.printed = w.printed) :
    Simulates m fuel view R target s (w.fail line fault) :=
  ⟨1, s', hstep, hprinted⟩

/-- Steps before the start change nothing. -/
theorem of_leads (h : m.Leads start mid) (hmid : Simulates m fuel view R target mid o) :
    Simulates m fuel view R target start o := by
  cases o with
  | value a w =>
      rcases hmid with ⟨later, b, s, printed, hleads, hrest⟩
      exact ⟨later, b, s, printed, h.trans hleads, hrest⟩
  | fault e w =>
      rcases hmid with ⟨n, s, hn, hprinted⟩
      rcases h with ⟨k, hk⟩
      exact ⟨n + k, s, by rw [Machine.after_add, hk, hn], hprinted⟩
  | pending => exact h.finish_eq_none hmid

/-- A step before the start makes up for one unit of fuel. -/
theorem of_step (h : m.step start = .next mid) (hmid : Simulates m fuel view R target mid o) :
    Simulates m (fuel + 1) view R target start o := by
  cases o with
  | value a w =>
      have hmore : Simulates m (fuel + 1) view R target mid (.value a w) := hmid
      exact of_leads (.of_step h) hmore
  | fault e w =>
      have hmore : Simulates m (fuel + 1) view R target mid (.fault e w) := hmid
      exact of_leads (.of_step h) hmore
  | pending =>
      have hafter : m.after 1 (.next start) = .next mid := h
      exact (Machine.finish_add_of_after hafter fuel).trans hmid

/-- What is simulated with more fuel is simulated with less. -/
theorem of_succ (h : Simulates m (fuel + 1) view R target start o) :
    Simulates m fuel view R target start o := by
  cases o with
  | value a w => exact h
  | fault e w => exact h
  | pending => exact Machine.finish_eq_none_of_le h (Nat.le_succ fuel)

/-- A larger view may be taken at the start. -/
theorem of_grows (hgrows : view.Grows later) (h : Simulates m fuel later R target start o) :
    Simulates m fuel view R target start o := by
  cases o with
  | value a w =>
      rcases h with ⟨last, b, s, printed, hleads, hlast, hrest⟩
      exact ⟨last, b, s, printed, hleads, hgrows.trans hlast, hrest⟩
  | fault e w => exact h
  | pending => exact h

/-- Simulated outcomes are simulated one after the other. -/
theorem andThen {γ δ : Type} {Q : View → δ → γ → Prop} {goal : δ → Store → Array String → State}
    {f : α → World → Outcome γ} (h : Simulates m fuel view R target start o)
    (hf : ∀ {later : View} {b : β} {a : α} {s : Store} {printed : Array String} {w : World},
      view.Grows later → R later b a → later.Agrees m.names s printed w →
        Simulates m fuel later Q goal (target b s printed) (f a w)) :
    Simulates m fuel view Q goal start (o.andThen f) := by
  cases o with
  | value a w =>
      rcases h with ⟨later, b, s, printed, hleads, hgrows, hR, hagrees⟩
      exact of_leads hleads (of_grows hgrows (hf hgrows hR hagrees))
  | fault e w => exact h
  | pending => exact h

/-- A step that pushes a result or fails makes up for one unit of fuel. -/
theorem give_andThen {k : Continuation} {s : Store} {printed : Array String} {w : World}
    {x y : Except Fault Value} {line : Nat} {f : Value → World → Outcome α}
    (hstep : m.step start = ((k.focus s printed).pushResult x).atLine line)
    (hagrees : view.Agrees m.names s printed w) (hlinked : ResultsLinked view.ValueLinked x y)
    (hf : ∀ {u v : Value}, view.ValueLinked u v →
      Simulates m fuel view R target (k.resume u s printed) (f v w)) :
    Simulates m (fuel + 1) view R target start ((w.give line y).andThen f) := by
  cases hlinked with
  | ok huv =>
      refine of_step hstep ?_
      exact of_leads (leads_settled m _ _ _ _ _ _) (hf huv)
  | error e => exact fail hstep hagrees.printed

/-- A step that pushes a value leads on to its application. -/
theorem of_push {k : Continuation} {u : Value} {s : Store}
    {printed : Array String} (hstep : m.step start = .next (k.fill [u] s printed))
    (h : Simulates m fuel view R target (k.resume u s printed) o) :
    Simulates m (fuel + 1) view R target start o :=
  of_step hstep (of_leads (leads_settled m _ _ _ _ _ _) h)

end Simulates

end Direct

end CSEMachine
