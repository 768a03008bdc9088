import CSEMachine.Proofs.Correspondence.Runs

/-!
# What can be observed of a run

Of a value its kind and its text can be observed, and the kinds of its elements if it
is a tuple; of a run its texts, and how it ended.  Cells and scopes cannot.

Main results:

- Theorem `Machine.evaluate_observed`: an evaluation shows what is observed of its run.
- Theorem `Correspondence.observation?_eq`: of corresponding runs the same is observed.
-/

namespace CSEMachine

/-! ## Observations -/

/-- What can be observed of a value. -/
structure Shown where
  kind : Kind
  text : String
  itemKinds : List Kind
deriving DecidableEq

/-- The kind and the text of a value, and the kinds of the elements of a tuple. -/
def Value.shown (store : Store) (v : Value) : Shown :=
  match v with
  | .tuple ref =>
    ⟨v.kind, v.display store, (store.items ref).toList.map Value.kind⟩
  | _ => ⟨v.kind, v.display store, []⟩

/-- What can be observed of a run that has ended: the fault, or the text of the last
`Print` and the value; and all texts printed. -/
structure Observation where
  result : Except Fault (Option String × Option Shown)
  printed : List String

namespace Machine

/-- What can be observed of an ended run. -/
def Ending.observation (e : Ending) : Observation :=
  ⟨e.result.map fun v => (e.printed.back?, v.map (Value.shown e.store)), e.printed.toList⟩

/-- What can be observed of an evaluation of at most `fuel` steps, once it has ended. -/
def observe (m : Machine) (fuel : Nat) (program : Program) (session : Session) :
    Option Observation :=
  match m.refusal? program with
  | some cause => some ⟨.error cause, []⟩
  | none => (m.finish fuel (m.start program.root session.store)).map Ending.observation

/-- What can be observed of the result of an evaluation. -/
def shownResult (result : Result) (session : Session) :
    Except Fault (Option String × Option Shown) :=
  result.map fun e => (e.output, e.value.map (Value.shown session.store))

/-- An evaluation shows what is observed of its run, and its texts go to the sink in
order. -/
theorem evaluate_observed (m : Machine) (fuel : Nat) (program : Program) (session : Session) :
    (∀ result session', m.evaluate fuel program session = some (result, session') →
      ∃ o, m.observe fuel program session = some o ∧
        shownResult result session' = o.result ∧
        session'.sink = session.sink.writeAll o.printed) ∧
    (m.evaluate fuel program session = none ↔ m.observe fuel program session = none) := by
  rcases session with ⟨store, sink⟩
  unfold evaluate observe
  cases m.refusal? program with
  | some cause =>
      refine ⟨?_, by simp⟩
      intro result session' h
      cases h
      exact ⟨_, rfl, rfl, rfl⟩
  | none =>
      simp only [Option.map_eq_none_iff, Option.map_eq_some_iff]
      refine ⟨?_, trivial⟩
      rintro result session' ⟨ending, hfinish, hresult⟩
      cases hresult
      refine ⟨_, ⟨ending, hfinish, rfl⟩, ?_, rfl⟩
      rcases ending with ⟨result | value, store', printed⟩
      · rfl
      · rfl

end Machine

/-- What can be observed of a run so far, once it has ended. -/
def Transition.observation? (t : Transition) : Option Observation :=
  t.ending?.map Machine.Ending.observation

/-- Of a program that is not refused, what its run has led to is observed. -/
theorem Machine.observe_of_not_refused {m : Machine} {program : Program}
    (h : m.refusal? program = none) (fuel : Nat) (session : Session) :
    m.observe fuel program session =
      (m.after fuel (m.start program.root session.store)).observation? := by
  rw [observe, h, finish_eq_ending?_after]
  rfl

/-! ## Corresponding runs -/

/-- Linked values cannot be told apart. -/
theorem Value.Linked.shown_eq {L : Link} {s s' : Store} (hs : Store.Linked L s s')
    {v v' : Value} (h : Linked L v v') : v.shown s = v'.shown s' := by
  have hdisplay := display_eq hs h
  cases h with
  | @tuple r r' hcell =>
      have hkinds : (s.items r).toList.map Value.kind = (s'.items r').toList.map Value.kind := by
        rw [← List.forall₂_eq_eq_eq]
        exact List.rel_map (fun _ _ hv => hv.kind_eq) (hs.items hcell)
      simp only [shown, hdisplay, hkinds, kind]
  | _ => simp only [shown, hdisplay, kind]

namespace Correspondence

variable {C : Correspondence}

/-- Of corresponding runs the same is observed. -/
theorem observation?_eq {t t' : Transition} (h : Transition.Related C.Related t t') :
    t.observation? = t'.observation? := by
  cases h with
  | next _ => rfl
  | @halted s s' h =>
      have hprinted := h.printed
      have hstack := h.stack
      simp only [Transition.observation?, Transition.ending?, Option.map_some,
        Machine.Ending.observation, Except.map, hprinted]
      generalize s.stack = stack at hstack ⊢
      generalize s'.stack = stack' at hstack ⊢
      cases hstack with
      | nil => rfl
      | cons hv _ =>
          simp only [List.head?_cons, Option.map_some, Value.Linked.shown_eq h.store.tuples hv]
  | failed fault h =>
      have hprinted := h.printed
      simp only [Transition.observation?, Transition.ending?, Option.map_some,
        Machine.Ending.observation, Except.map, hprinted]

/-- Corresponding runs have printed the same. -/
theorem printed_eq {t t' : Transition} (h : Transition.Related C.Related t t') :
    t.printed = t'.printed :=
  Transition.Related.printed_eq (fun _ _ h => h.printed) h

end Correspondence

end CSEMachine
