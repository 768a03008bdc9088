import CSEMachine.Proofs.Effects
import CSEMachine.Proofs.TailCalls

/-!
# The log of a sink

Several machines can share one buffer, and a host can print to it and clear it in between.
What the buffer holds is the log of all that: an evaluation adds one text for every
application of `Print` that it has dispatched, whether it then ends with a value or with a
fault, and nothing if the program is refused.

Main results:

- Theorem `Machine.printed_eq_dispatches`: a run has printed one text for every application
  of `Print` that it has dispatched.
- Theorem `Machine.toResult_of_evaluate`: what an evaluation adds to a sink, and its output.
- Theorem `Sink.Log.contents_eq_join`: a buffer holds its log, and evaluations add theirs.
-/

namespace CSEMachine

/-! ## Applications of `Print` -/

/-- The text that an instruction prints when its turn has come, if it applies `Print`: what
the operand is displayed as at that moment, with its escapes carried out. -/
def Dispatch.text? (d : Dispatch) : Option String :=
  match d.instr, d.stack with
  | .apply _, .builtin .print :: v :: _ => some (Text.unescape (v.display d.store))
  | _, _ => none

/-- The text that the next instruction prints, if it prints one. -/
def State.text? (s : State) : Option String :=
  s.dispatch?.bind Dispatch.text?

/-- Only an application of `Print` prints. -/
theorem State.of_text? {s : State} {text : String} (h : s.text? = some text) :
    ∃ env line code callers v rest, s.frames = ⟨env, .apply line :: code⟩ :: callers ∧
      s.stack = .builtin .print :: v :: rest ∧ text = v.printed s.store := by
  rcases s with ⟨frames, stack, store, printed⟩
  rcases Option.bind_eq_some_iff.mp h with ⟨d, hd, htext⟩
  unfold dispatch? at hd
  split at hd
  · rename_i env i code callers hframes
    cases hd
    unfold Dispatch.text? at htext
    split at htext
    · rename_i line v rest hi hstack
      cases htext
      cases hi
      exact ⟨env, line, code, callers, v, rest, hframes, hstack, rfl⟩
    · cases htext
  · cases hd

namespace Machine

variable {m : Machine}

/-- A step prints the text of its application of `Print` behind the others, and no other
step prints. -/
theorem step_printed (m : Machine) (s : State) :
    (m.step s).printed.toList = s.printed.toList ++ s.text?.toList := by
  cases htext : s.text? with
  | some text =>
      rcases s with ⟨frames, stack, store, printed⟩
      rcases State.of_text? htext with ⟨env, line, code, callers, v, rest, hframes, hstack, rfl⟩
      cases hframes
      cases hstack
      exact Array.toList_push
  | none =>
      have heffect := m.step_effect s
      rw [Option.toList_none, List.append_nil, Transition.printed_eq_state]
      generalize m.step s = t at heffect ⊢
      cases heffect with
      | quiet _ hprinted => rw [hprinted]
      | opens _ _ hprinted => exact congrArg Array.toList hprinted
      | forms _ _ => rfl
      | augments _ _ => rfl
      | prints hframes hstack =>
          simp [State.text?, State.dispatch?, hframes, Dispatch.text?, hstack] at htext

/-- A run has printed one text for every application of `Print` that it has dispatched, in
their order. -/
theorem printed_eq_dispatches (m : Machine) (root : Block) (store : Store) (n : Nat) :
    (m.after n (m.start root store)).printed.toList =
      (m.dispatches (m.start root store) n).filterMap Dispatch.text? := by
  induction n with
  | zero =>
      unfold start
      cases m.limitAbove? [] with
      | some limit => rfl
      | none => rfl
  | succ n ih =>
      rw [dispatches, List.filterMap_append, ← ih, after_succ]
      cases m.after n (m.start root store) with
      | next s =>
          rw [advance, step_printed, State.text?]
          cases hdispatch : s.dispatch? with
          | none => simp [Transition.dispatch?, Transition.printed, hdispatch]
          | some d =>
              cases htext : d.text? with
              | none => simp [Transition.dispatch?, Transition.printed, hdispatch, htext]
              | some text => simp [Transition.dispatch?, Transition.printed, hdispatch, htext]
      | halted s => simp [advance, Transition.dispatch?]
      | failed fault s => simp [advance, Transition.dispatch?]

/-! ## Evaluations -/

/-- The texts that an evaluation of at most `fuel` steps prints: one for every application of
`Print` that it dispatches, and none if the program is refused. -/
def log (m : Machine) (fuel : Nat) (p : Program) (store : Store) : List String :=
  match m.refusal? p with
  | some _ => []
  | none => (m.dispatches (m.start p.root store) fuel).filterMap Dispatch.text?

/-- An evaluation writes its log to the sink, and its output is the last text of it. -/
theorem evaluate_log {fuel : Nat} {p : Program} {session session' : Session} {result : Result}
    (h : m.evaluate fuel p session = some (result, session')) :
    session'.sink = session.sink.writeAll (m.log fuel p session.store) ∧
      ∀ e, result = .ok e → e.output = (m.log fuel p session.store).getLast? := by
  unfold log
  cases hrefusal : m.refusal? p with
  | some cause =>
      simp only [evaluate, hrefusal] at h
      cases h
      exact ⟨rfl, fun e he => by cases he⟩
  | none =>
      simp only []
      rw [← printed_eq_dispatches]
      rw [evaluate_of_not_refused hrefusal] at h
      cases hafter : m.after fuel (m.start p.root session.store) with
      | next s =>
          rw [hafter] at h
          cases h
      | halted s =>
          rw [hafter] at h
          cases h
          refine ⟨rfl, ?_⟩
          rintro e ⟨⟩
          exact (Array.getLast?_toList _).symm
      | failed fault s =>
          rw [hafter] at h
          cases h
          exact ⟨rfl, fun e he => by cases he⟩

/-- What has been dispatched was the next instruction of a state that the run has passed. -/
theorem mem_dispatches {t : Transition} {d : Dispatch} {n : Nat} :
    d ∈ m.dispatches t n ↔ ∃ k < n, (m.after k t).dispatch? = some d := by
  induction n with
  | zero => simp [dispatches]
  | succ n ih =>
      rw [dispatches, List.mem_append, ih, Option.mem_toList]
      constructor
      · rintro (⟨k, hk, hd⟩ | hd)
        · exact ⟨k, Nat.lt_succ_of_lt hk, hd⟩
        · exact ⟨n, Nat.lt_succ_self n, hd⟩
      · rintro ⟨k, hk, hd⟩
        rcases Nat.lt_succ_iff_lt_or_eq.mp hk with hk | rfl
        · exact Or.inl ⟨k, hk, hd⟩
        · exact Or.inr hd

/-- The log of an evaluation that has ended with a value is empty if and only if its run
applied `Print` nowhere. -/
theorem log_eq_nil_iff {fuel : Nat} {p : Program} {session session' : Session} {e : Evaluation}
    (h : m.evaluate fuel p session = some (.ok e, session')) :
    m.log fuel p session.store = [] ↔
      ∀ s, m.Reachable p.root session.store s → s.text? = none := by
  have hrefusal : m.refusal? p = none := by
    cases hrefusal : m.refusal? p with
    | none => rfl
    | some cause =>
        simp only [evaluate, hrefusal] at h
        cases h
  rcases after_of_evaluate_ok hrefusal h with ⟨s', hafter, _⟩
  simp only [log, hrefusal, List.filterMap_eq_nil_iff, mem_dispatches]
  constructor
  · rintro hnone s ⟨k, hk⟩
    -- once it has halted, the run passes through no state any more
    have hlt : k < fuel := by
      apply Nat.lt_of_not_le
      intro hle
      rw [← Nat.sub_add_cancel hle, after_add, hafter, after_halted] at hk
      cases hk
    cases hdispatch : s.dispatch? with
    | none => rw [State.text?, hdispatch, Option.bind_none]
    | some d =>
        rw [State.text?, hdispatch, Option.bind_some]
        exact hnone d ⟨k, hlt, by rw [hk, Transition.dispatch?, hdispatch]⟩
  · rintro hnone d ⟨k, _, hd⟩
    cases hk : m.after k (m.start p.root session.store) with
    | next s =>
        rw [hk, Transition.dispatch?] at hd
        have htext := hnone s ⟨k, hk⟩
        rw [State.text?, hd, Option.bind_some] at htext
        exact htext
    | halted s =>
        rw [hk] at hd
        cases hd
    | failed fault s =>
        rw [hk] at hd
        cases hd

end Machine

/-! ## Shared buffers -/

namespace Sink

/-- A buffer and the texts printed to it since it was last cleared.  Any machine may evaluate
any program, whatever is in its store, and a host may print and clear in between. -/
inductive Log : Sink → List String → Prop
  | empty : Log .emptyBuffer []
  | evaluate {sink : Sink} {texts : List String} (h : Log sink texts) (m : Machine)
      (fuel : Nat) (p : Program) (store : Store) {result : Result} {session : Session}
      (hevaluate : m.evaluate fuel p ⟨store, sink⟩ = some (result, session)) :
      Log session.sink (texts ++ m.log fuel p store)
  | print {sink : Sink} {texts : List String} (h : Log sink texts) (text : String) :
      Log (sink.write text) (texts ++ [text])
  | clear {sink : Sink} {texts : List String} (h : Log sink texts) : Log sink.clear []

/-- A buffer holds its log, one text behind the other. -/
theorem Log.eq_buffer {sink : Sink} {texts : List String} (h : sink.Log texts) :
    sink = .buffer (String.join texts) := by
  induction h with
  | empty => rfl
  | @evaluate sink texts _ m fuel p store result session hevaluate ih =>
      rw [(Machine.evaluate_log hevaluate).1, ih, writeAll_buffer, String.join_append]
  | @print sink texts _ text ih =>
      simp only [ih, write, String.join_append, String.join_cons, String.join_nil,
        String.append_empty]
  | clear _ ih =>
      rw [ih]
      rfl

/-- A buffer that several machines share holds, in order and with nothing added, the texts
printed since it was last cleared: what was printed to it directly, and for every evaluation
one text an application of `Print`, also when the evaluation has failed.  The output of an
evaluation that succeeds is the last text of its own log, and there is none exactly if its
run applied `Print` nowhere. -/
theorem Log.contents_eq_join {sink : Sink} {texts : List String} (h : sink.Log texts) :
    sink.contents = String.join texts ∧
      ∀ (m : Machine) (fuel : Nat) (p : Program) (store : Store) (e : Evaluation)
        (session : Session), m.evaluate fuel p ⟨store, sink⟩ = some (.ok e, session) →
          e.output = (m.log fuel p store).getLast? ∧
            (e.output = none ↔ ∀ s, m.Reachable p.root store s → s.text? = none) := by
  refine ⟨?_, ?_⟩
  · rw [h.eq_buffer, Sink.contents]
  · intro m fuel p store e session hevaluate
    have houtput := (Machine.evaluate_log hevaluate).2 e rfl
    refine ⟨houtput, ?_⟩
    rw [houtput, List.getLast?_eq_none_iff]
    exact Machine.log_eq_nil_iff hevaluate

/-- One machine prints `a` and a line end and then fails to negate `dummy`, the host prints
`x`, and another machine prints `b`. -/
theorem Log.contents_eq_join_shared :
    let failing : Program := ⟨⟨0, [], [.literal 1 (.str "a\\n"), .ident 1 ⟨0⟩, .apply 1,
      .unary 1 .neg]⟩, true, 0⟩
    let printing : Program := ⟨⟨0, [], [.literal 1 (.str "b"), .ident 1 ⟨0⟩, .apply 1]⟩, true, 1⟩
    let first : Machine := ⟨⟨0, ["Print"]⟩, none, true⟩
    let second : Machine := ⟨⟨1, ["print"]⟩, some 1, true⟩
    ∃ fault cut ended session,
      first.evaluate 4 failing (.fresh .emptyBuffer) = some (.error fault, cut) ∧
        second.evaluate 5 printing ⟨Store.empty, cut.sink.write "x"⟩ = some (.ok ended, session) ∧
        session.sink.contents = "a\nxb" ∧ ended.output = some "b" := by
  intro failing printing first second
  have hfirst : first.log 4 failing Store.empty = ["a\n"] := by
    refine Eq.trans (b := [Text.unescape ((Value.str "a\\n").display _)]) rfl ?_
    rw [Value.display_str]
    decide
  have hsecond : second.log 5 printing Store.empty = ["b"] := by
    refine Eq.trans (b := [Text.unescape ((Value.str "b").display _)]) rfl ?_
    rw [Value.display_str]
    decide
  have hfails : ∃ fault cut, first.evaluate 4 failing (.fresh .emptyBuffer) =
      some (.error fault, cut) ∧ ∃ contents, cut.sink = .buffer contents := ⟨_, _, rfl, _, rfl⟩
  rcases hfails with ⟨fault, cut, hfails, contents, hcut⟩
  have hends : ∃ ended session, second.evaluate 5 printing ⟨Store.empty, cut.sink.write "x"⟩ =
      some (.ok ended, session) := by
    rw [hcut]
    exact ⟨_, _, rfl⟩
  rcases hends with ⟨ended, session, hends⟩
  have hprinted := (Log.empty.evaluate first 4 failing Store.empty hfails).print "x"
  have hcontents := (hprinted.evaluate second 5 printing Store.empty hends).contents_eq_join.1
  have houtput := hprinted.contents_eq_join.2 second 5 printing Store.empty ended session hends
  rw [hfirst, hsecond] at hcontents
  rw [hsecond] at houtput
  exact ⟨fault, cut, ended, session, hfails, hends, hcontents, houtput.1⟩

end Sink

end CSEMachine
