import CSEMachine.Evaluation
import CSEMachine.Proofs.Focus
import Mathlib.Logic.Function.Iterate

/-!
# Runs

A run is followed step by step: after `n` steps a transition has led to a further
state, or the run has ended before and its end is repeated.  Every statement about
runs goes back to statements about one step.

Main results:

- Theorem `Machine.finish_eq_ending?_after`: a run with fuel reports the end that
  has been reached after as many steps.
- Theorem `Machine.Reachable.invariant`: what the first state satisfies and every
  step preserves holds in every reachable state.
- Theorem `Machine.failed_of_after`: a run fails at its start or in a step from a
  reachable state.
- Theorem `Machine.after_related`: runs whose steps correspond stay in
  correspondence.
-/

namespace CSEMachine

/-! ## Following a run -/

/-- How the run has ended, if it has. -/
def Transition.ending? : Transition → Option Machine.Ending
  | .next _ => none
  | .halted s => some ⟨.ok s.stack.head?, s.store, s.printed⟩
  | .failed fault s => some ⟨.error fault, s.store, s.printed⟩

/-- What has been printed so far. -/
def Transition.printed : Transition → Array String
  | .next s | .halted s | .failed _ s => s.printed

namespace Machine

/-- Goes one step further, unless the run has ended. -/
def advance (m : Machine) : Transition → Transition
  | .next s => m.step s
  | .halted s => .halted s
  | .failed fault s => .failed fault s

/-- What a transition has led to after `n` more steps. -/
def after (m : Machine) (n : Nat) (t : Transition) : Transition :=
  m.advance^[n] t

@[simp]
theorem after_zero (m : Machine) (t : Transition) : m.after 0 t = t :=
  rfl

/-- The first of several steps is taken from the state at hand. -/
@[simp]
theorem after_succ_next (m : Machine) (n : Nat) (s : State) :
    m.after (n + 1) (.next s) = m.after n (m.step s) :=
  rfl

theorem after_succ (m : Machine) (n : Nat) (t : Transition) :
    m.after (n + 1) t = m.advance (m.after n t) :=
  Function.iterate_succ_apply' _ _ _

theorem after_add (m : Machine) (n k : Nat) (t : Transition) :
    m.after (n + k) t = m.after n (m.after k t) :=
  Function.iterate_add_apply _ _ _ _

/-- A halted run stays where it is. -/
@[simp]
theorem after_halted (m : Machine) (n : Nat) (s : State) :
    m.after n (.halted s) = .halted s := by
  induction n with
  | zero => rfl
  | succ n ih => rw [after_succ, ih, advance]

/-- A failed run stays where it is. -/
@[simp]
theorem after_failed (m : Machine) (n : Nat) (fault : Fault) (s : State) :
    m.after n (.failed fault s) = .failed fault s := by
  induction n with
  | zero => rfl
  | succ n ih => rw [after_succ, ih, advance]

/-- A run with fuel reports the end that has been reached after as many steps. -/
theorem finish_eq_ending?_after (m : Machine) (fuel : Nat) (t : Transition) :
    m.finish fuel t = (m.after fuel t).ending? := by
  induction fuel generalizing t with
  | zero =>
      cases t with
      | next s => rfl
      | halted s => rfl
      | failed fault s => rfl
  | succ fuel ih =>
      cases t with
      | next s =>
          rw [after_succ_next, ← ih]
          rfl
      | halted s =>
          rw [after_halted]
          rfl
      | failed fault s =>
          rw [after_failed]
          rfl

/-- Fuel spent on getting to a state is fuel missing from there on. -/
theorem finish_add_of_after {m : Machine} {k : Nat} {t : Transition} {s : State}
    (h : m.after k t = .next s) (fuel : Nat) :
    m.finish (fuel + k) t = m.finish fuel (.next s) := by
  rw [finish_eq_ending?_after, finish_eq_ending?_after, after_add, h]

/-- More fuel finds the same end. -/
theorem finish_mono {m : Machine} {fuel fuel' : Nat} {t : Transition} {e : Ending}
    (h : m.finish fuel t = some e) (hle : fuel ≤ fuel') : m.finish fuel' t = some e := by
  rw [finish_eq_ending?_after] at h ⊢
  have hsum : fuel' - fuel + fuel = fuel' := Nat.sub_add_cancel hle
  rw [← hsum, after_add]
  cases hafter : m.after fuel t with
  | next s => simp [hafter, Transition.ending?] at h
  | halted s => simpa [hafter] using h
  | failed fault s => simpa [hafter] using h

/-- A run that has not ended had not ended before. -/
theorem finish_eq_none_of_le {m : Machine} {fuel fuel' : Nat} {t : Transition}
    (h : m.finish fuel' t = none) (hle : fuel ≤ fuel') : m.finish fuel t = none := by
  cases hfuel : m.finish fuel t with
  | none => rfl
  | some e =>
      rw [finish_mono hfuel hle] at h
      cases h

/-- A run has one end, whatever the fuel it was found with. -/
theorem finish_unique {m : Machine} {fuel fuel' : Nat} {t : Transition} {e e' : Ending}
    (h : m.finish fuel t = some e) (h' : m.finish fuel' t = some e') : e = e' := by
  have hmax := finish_mono h (Nat.le_max_left fuel fuel')
  rw [finish_mono h' (Nat.le_max_right fuel fuel')] at hmax
  exact (Option.some.inj hmax).symm

/-! ## Ended evaluations -/

/-- The evaluation of a program that is not refused reports the end that its run has
reached. -/
theorem evaluate_of_not_refused {m : Machine} {program : Program}
    (h : m.refusal? program = none) (fuel : Nat) (session : Session) :
    m.evaluate fuel program session =
      (m.after fuel (m.start program.root session.store)).ending?.map
        fun ending => ending.toResult session.sink := by
  rcases session with ⟨store, sink⟩
  simp only [evaluate, h, finish_eq_ending?_after]

/-- An evaluation that reports a fault comes from a run that has failed with it. -/
theorem after_of_evaluate_error {m : Machine} {fuel : Nat} {program : Program}
    {session session' : Session} {fault : Fault} (hrefusal : m.refusal? program = none)
    (h : m.evaluate fuel program session = some (.error fault, session')) :
    ∃ s, m.after fuel (m.start program.root session.store) = .failed fault s ∧
      session' = ⟨s.store, session.sink.writeAll s.printed.toList⟩ := by
  rcases session with ⟨store, sink⟩
  simp only [evaluate, hrefusal, finish_eq_ending?_after] at h
  cases hafter : m.after fuel (m.start program.root store) with
  | next s => simp [hafter, Transition.ending?] at h
  | halted s => simp [hafter, Transition.ending?, Ending.toResult, Except.map] at h
  | failed fault₀ s =>
      simp only [hafter, Transition.ending?, Ending.toResult, Except.map, Option.map_some,
        Option.some.injEq, Prod.mk.injEq, Except.error.injEq] at h
      rcases h with ⟨rfl, rfl⟩
      exact ⟨s, rfl, rfl⟩

/-- An evaluation that reports a value comes from a run that has halted with it. -/
theorem after_of_evaluate_ok {m : Machine} {fuel : Nat} {program : Program}
    {session session' : Session} {e : Evaluation} (hrefusal : m.refusal? program = none)
    (h : m.evaluate fuel program session = some (.ok e, session')) :
    ∃ s, m.after fuel (m.start program.root session.store) = .halted s ∧
      e = ⟨s.printed.back?, s.stack.head?⟩ ∧
      session' = ⟨s.store, session.sink.writeAll s.printed.toList⟩ := by
  rcases session with ⟨store, sink⟩
  simp only [evaluate, hrefusal, finish_eq_ending?_after] at h
  cases hafter : m.after fuel (m.start program.root store) with
  | next s => simp [hafter, Transition.ending?] at h
  | halted s =>
      simp only [hafter, Transition.ending?, Ending.toResult, Except.map, Option.map_some,
        Option.some.injEq, Prod.mk.injEq, Except.ok.injEq] at h
      rcases h with ⟨rfl, rfl⟩
      exact ⟨s, rfl, rfl, rfl⟩
  | failed fault s => simp [hafter, Transition.ending?, Ending.toResult, Except.map] at h

/-- An evaluation has one result, whatever the fuel it was found with. -/
theorem evaluate_unique {m : Machine} {fuel fuel' : Nat} {program : Program}
    {session : Session} {r r' : Result × Session}
    (h : m.evaluate fuel program session = some r)
    (h' : m.evaluate fuel' program session = some r') : r = r' := by
  rcases session with ⟨store, sink⟩
  unfold evaluate at h h'
  cases hrefusal : m.refusal? program with
  | some cause =>
      rw [hrefusal] at h h'
      exact Option.some.inj (h.symm.trans h')
  | none =>
      simp only [hrefusal, Option.map_eq_some_iff] at h h'
      rcases h with ⟨e, hfinish, rfl⟩
      rcases h' with ⟨e', hfinish', rfl⟩
      rw [finish_unique hfinish hfinish']

/-! ## Reachable states -/

/-- The states that the run of a program passes through. -/
def Reachable (m : Machine) (root : Block) (store : Store) (s : State) : Prop :=
  ∃ n, m.after n (m.start root store) = .next s

/-- A step from a reachable state leads to a reachable state. -/
theorem Reachable.step {m : Machine} {root : Block} {store : Store} {s s' : State}
    (h : m.Reachable root store s) (hstep : m.step s = .next s') :
    m.Reachable root store s' := by
  rcases h with ⟨n, hn⟩
  exact ⟨n + 1, by rw [after_succ, hn, advance, hstep]⟩

/-- What the first state satisfies and every step preserves holds in every reachable
state. -/
theorem Reachable.invariant {m : Machine} {root : Block} {store : Store} {P : State → Prop}
    (hstart : ∀ s, m.start root store = .next s → P s)
    (hstep : ∀ s s', P s → m.step s = .next s' → P s')
    {s : State} (h : m.Reachable root store s) : P s := by
  rcases h with ⟨n, hn⟩
  induction n generalizing s with
  | zero => exact hstart s hn
  | succ n ih =>
      rw [after_succ] at hn
      cases hafter : m.after n (m.start root store) with
      | next s₀ =>
          rw [hafter, advance] at hn
          exact hstep s₀ s (ih hafter) hn
      | halted s₀ => simp [hafter, advance] at hn
      | failed fault s₀ => simp [hafter, advance] at hn

/-- A run fails at its start or in a step from a reachable state. -/
theorem failed_of_after {m : Machine} {root : Block} {store : Store} {n : Nat}
    {fault : Fault} {s : State} (h : m.after n (m.start root store) = .failed fault s) :
    m.start root store = .failed fault s ∨
      ∃ s₀, m.Reachable root store s₀ ∧ m.step s₀ = .failed fault s := by
  induction n with
  | zero => exact Or.inl h
  | succ n ih =>
      rw [after_succ] at h
      cases hafter : m.after n (m.start root store) with
      | next s₀ =>
          rw [hafter, advance] at h
          exact Or.inr ⟨s₀, ⟨n, hafter⟩, h⟩
      | halted s₀ => simp [hafter, advance] at h
      | failed fault₀ s₀ =>
          rw [hafter, advance] at h
          exact ih (hafter.trans h)

/-- A run that has halted was in that state before, with no frame left. -/
theorem halted_of_after {m : Machine} {root : Block} {store : Store} {n : Nat} {s : State}
    (h : m.after n (m.start root store) = .halted s) :
    m.start root store = .halted s ∨
      ∃ s₀, m.Reachable root store s₀ ∧ m.step s₀ = .halted s := by
  induction n with
  | zero => exact Or.inl h
  | succ n ih =>
      rw [after_succ] at h
      cases hafter : m.after n (m.start root store) with
      | next s₀ =>
          rw [hafter, advance] at h
          exact Or.inr ⟨s₀, ⟨n, hafter⟩, h⟩
      | halted s₀ =>
          rw [hafter, advance] at h
          exact ih (hafter.trans h)
      | failed fault₀ s₀ => simp [hafter, advance] at h

end Machine

/-! ## Corresponding runs -/

/-- Transitions correspond when both go on or both end alike, in corresponding
states. -/
inductive Transition.Related (R : State → State → Prop) : Transition → Transition → Prop
  | next {s s' : State} : R s s' → Related R (.next s) (.next s')
  | halted {s s' : State} : R s s' → Related R (.halted s) (.halted s')
  | failed {s s' : State} (fault : Fault) :
      R s s' → Related R (.failed fault s) (.failed fault s')

/-- A transition corresponds to itself if states do. -/
theorem Transition.Related.refl {R : State → State → Prop} (hR : ∀ s, R s s) (t : Transition) :
    Related R t t := by
  cases t with
  | next s => exact .next (hR s)
  | halted s => exact .halted (hR s)
  | failed fault s => exact .failed fault (hR s)

/-- A weaker correspondence of states makes a weaker one of transitions. -/
theorem Transition.Related.mono {R Q : State → State → Prop} (hRQ : ∀ s s', R s s' → Q s s')
    {t t' : Transition} (h : Related R t t') : Related Q t t' := by
  cases h with
  | next h => exact .next (hRQ _ _ h)
  | halted h => exact .halted (hRQ _ _ h)
  | failed fault h => exact .failed fault (hRQ _ _ h)

/-- Blaming both sides on one line keeps a correspondence. -/
theorem Transition.Related.atLine {R : State → State → Prop} {t t' : Transition} (line : Nat)
    (h : Related R t t') : Related R (t.atLine line) (t'.atLine line) := by
  cases h with
  | next h => exact .next h
  | halted h => exact .halted h
  | failed fault h => exact .failed _ h

/-- If corresponding states have printed the same, so have corresponding transitions. -/
theorem Transition.Related.printed_eq {R : State → State → Prop}
    (hR : ∀ s s', R s s' → s.printed = s'.printed) {t t' : Transition} (h : Related R t t') :
    t.printed = t'.printed := by
  cases h with
  | next h => exact hR _ _ h
  | halted h => exact hR _ _ h
  | failed fault h => exact hR _ _ h

/-- Runs whose steps correspond stay in correspondence. -/
theorem Machine.after_related {m m' : Machine} {R : State → State → Prop}
    (hstep : ∀ s s', R s s' → Transition.Related R (m.step s) (m'.step s'))
    {t t' : Transition} (h : Transition.Related R t t') (n : Nat) :
    Transition.Related R (m.after n t) (m'.after n t') := by
  induction n with
  | zero => exact h
  | succ n ih =>
      rw [after_succ, after_succ]
      generalize m.after n t = u at ih ⊢
      generalize m'.after n t' = u' at ih ⊢
      cases ih with
      | next hR => exact hstep _ _ hR
      | halted hR => exact .halted hR
      | failed fault hR => exact .failed fault hR

end CSEMachine
