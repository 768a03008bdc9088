import CSEMachine.Proofs.DepthLimit
import CSEMachine.Proofs.Framewise

/-!
# Calls in tail position

A finished caller is dropped before its callee is activated.  A machine that keeps such
callers has more frames, but all that it has more are finished: sooner or later it drops
them one by one, and in between it does what the machine without them does.

Main results:

- Theorem `State.Trimmed.step`: a step either drops a frame that the other machine has
  dropped before, or is the same step on both machines.
- Theorems `Machine.InStep.forward` and `Machine.InStep.backward`: each of the two runs
  keeps up with the other.
- Theorem `Machine.sameRuns_keepingCallers`: dropping finished callers early is not
  observable, unless a limit is exceeded for want of it.
-/

namespace CSEMachine

/-! ## Dispatches -/

/-- What an instruction finds when its turn has come. -/
structure Dispatch where
  instr : Instr
  env : Env
  stack : List Value
  store : Store

/-- The instruction whose turn it is, unless no frame or a finished one is on top. -/
def State.dispatch? (s : State) : Option Dispatch :=
  match s.frames with
  | ⟨env, i :: _⟩ :: _ => some ⟨i, env, s.stack, s.store⟩
  | _ => none

/-- A run that has ended dispatches nothing. -/
def Transition.dispatch? : Transition → Option Dispatch
  | .next s => s.dispatch?
  | .halted _ | .failed _ _ => none

namespace Machine

/-- The instructions that are dispatched in the first steps from a transition. -/
def dispatches (m : Machine) (t : Transition) : Nat → List Dispatch
  | 0 => []
  | n + 1 => m.dispatches t n ++ (m.after n t).dispatch?.toList

/-- The machine that keeps every caller until it is back on top. -/
def keepingCallers (m : Machine) : Machine :=
  { m with dropsCallers := false }

/-- Two machines cannot be told apart by running a program: every beginning of one run
has dispatched and printed the same as some beginning of the other, and an evaluation
that ends on one machine ends on the other with the same result and session. -/
structure SameRuns (m m' : Machine) (p : Program) (session : Session) : Prop where
  forward : m.refusal? p = none → ∀ n, ∃ k,
    m.dispatches (m.start p.root session.store) n =
        m'.dispatches (m'.start p.root session.store) k ∧
      m.texts n p session = m'.texts k p session
  backward : m'.refusal? p = none → ∀ k, ∃ n,
    m.dispatches (m.start p.root session.store) n =
        m'.dispatches (m'.start p.root session.store) k ∧
      m.texts n p session = m'.texts k p session
  evaluate : ∀ r, (∃ fuel, m.evaluate fuel p session = some r) ↔
    ∃ fuel, m'.evaluate fuel p session = some r

end Machine

/-! ## Trimmed states -/

/-- The frames on the left are those on the right without some of the finished ones. -/
inductive Trims : List Frame → List Frame → Prop
  | nil : Trims [] []
  | keep {frames frames' : List Frame} (frame : Frame) :
      Trims frames frames' → Trims (frame :: frames) (frame :: frames')
  | drop {frames frames' : List Frame} (env : Env) :
      Trims frames frames' → Trims frames (⟨env, []⟩ :: frames')

theorem Trims.refl (frames : List Frame) : Trims frames frames := by
  induction frames with
  | nil => exact .nil
  | cons frame frames ih => exact .keep frame ih

theorem Trims.length_le {frames frames' : List Frame} (h : Trims frames frames') :
    frames.length ≤ frames'.length := by
  induction h with
  | nil => exact Nat.le_refl 0
  | keep frame _ ih => exact Nat.succ_le_succ ih
  | drop env _ ih => exact Nat.le_succ_of_le ih

/-- States that differ in finished frames only. -/
structure State.Trimmed (s s' : State) : Prop where
  frames : Trims s.frames s'.frames
  stack : s.stack = s'.stack
  store : s.store = s'.store
  printed : s.printed = s'.printed

theorem State.Trimmed.refl (s : State) : s.Trimmed s :=
  ⟨.refl _, rfl, rfl, rfl⟩

theorem State.trimmed_iff_framewise {s s' : State} :
    s.Trimmed s' ↔ State.Framewise Trims s s' :=
  ⟨fun h => ⟨h.frames, h.stack, h.store, h.printed⟩,
    fun h => ⟨h.frames, h.stack, h.store, h.printed⟩⟩

theorem Transition.Related.ending?_eq {t t' : Transition} (h : Related State.Trimmed t t') :
    t.ending? = t'.ending? :=
  (h.mono fun _ _ hs => State.trimmed_iff_framewise.mp hs).ending?_of_framewise

/-! ## Instructions -/

/-- The same instruction in the same frame over other callers. -/
def Focus.atop (f : Focus) (callers : List Frame) : Focus :=
  { f with callers := callers }

section Over

variable {frames frames' : List Frame} (h : Trims frames frames')

include h

namespace Focus

/-- A caller that is dropped early is a finished one. -/
theorem callersBelow_trims (f : Focus) (m : Machine) :
    Trims ((f.atop frames).callersBelow m) ((f.atop frames').callersBelow m.keepingCallers) := by
  rcases f with ⟨env, code, callers, stack, store, printed⟩
  have hkept : (atop ⟨env, code, callers, stack, store, printed⟩ frames').callersBelow
      m.keepingCallers = ⟨env, code⟩ :: frames' := rfl
  rw [hkept]
  rw [callersBelow_eq]
  split
  · rename_i hdrops
    have hcode : code = [] := by simpa [atop] using (Bool.and_eq_true_iff.mp hdrops).2
    subst hcode
    exact .drop env h
  · exact .keep _ h

/-- With more frames a call is the same, unless they exceed the limit. -/
theorem call_trimmed (f : Focus) (m : Machine) (c : Closure) (operand : Value) :
    Transition.Related State.Trimmed ((f.atop frames).call m c operand)
        ((f.atop frames').call m.keepingCallers c operand) ∨
      ((f.atop frames').call m.keepingCallers c operand).Exceeds m.maxDepth := by
  have hbelow := callersBelow_trims h f m
  rw [call_eq, call_eq]
  generalize (f.atop frames).callersBelow m = below at hbelow ⊢
  generalize (f.atop frames').callersBelow m.keepingCallers = below' at hbelow ⊢
  simp only [atop]
  cases c.bindOperand f.store operand with
  | error cause => exact Or.inl (.failed _ ⟨.keep _ h, rfl, rfl, rfl⟩)
  | ok scope =>
      simp only []
      cases hlimit' : m.keepingCallers.limitAbove? below' with
      | some n =>
          exact Or.inr ⟨n, _, _, (Machine.limitAbove?_eq_some.mp hlimit').1, rfl, rfl⟩
      | none =>
          have hroom : Machine.AtMost (some (below'.length + 1)) m.maxDepth :=
            Machine.limitAbove?_eq_none_iff.mp hlimit'
          have hlimit : m.limitAbove? below = none := Machine.limitAbove?_eq_none_iff.mpr
            (hroom.of_le (Nat.succ_le_succ hbelow.length_le))
          rw [hlimit]
          exact Or.inl (.next ⟨.keep _ hbelow, rfl, rfl, rfl⟩)

end Focus

/-- An instruction does the same over more callers, unless these exceed the limit. -/
theorem Instr.perform_trimmed (i : Instr) (f : Focus) (m : Machine) :
    Transition.Related State.Trimmed (i.perform m (f.atop frames))
        (i.perform m.keepingCallers (f.atop frames')) ∨
      (i.perform m.keepingCallers (f.atop frames')).Exceeds m.maxDepth := by
  rcases f with ⟨env, code, callers, stack, store, printed⟩
  by_cases hcall : ∃ line c operand rest, i = .apply line ∧ stack = .closure c :: operand :: rest
  · rcases hcall with ⟨line, c, operand, rest, rfl, rfl⟩
    exact Focus.call_trimmed h ⟨env, code, callers, rest, store, printed⟩ m c operand
  · have hcontinues : Frame.Continues Trims env frames frames' code code :=
      .same (fun code => .keep ⟨env, code⟩ h) code
    have hnames : m.names = m.keepingCallers.names := rfl
    have hsame : Transition.Related (State.Framewise Trims)
        (i.perform m ⟨env, code, frames, stack, store, printed⟩)
        (i.perform m.keepingCallers ⟨env, code, frames', stack, store, printed⟩) :=
      Instr.perform_framewise hcontinues hnames i stack store printed
        fun line c operand rest hi hstack => hcall ⟨line, c, operand, rest, hi, hstack⟩
    exact Or.inl (hsame.mono fun _ _ hs => State.trimmed_iff_framewise.mpr hs)

end Over

/-! ## Steps -/

/-- A machine that keeps finished callers drops one of them, or makes the same step as the
machine without them, or exceeds its limit. -/
theorem State.Trimmed.step {s s' : State} (h : s.Trimmed s') (m : Machine) :
    (∃ s'', m.keepingCallers.step s' = .next s'' ∧ s.Trimmed s'' ∧ s'.dispatch? = none ∧
        s''.frames.length < s'.frames.length) ∨
      s.dispatch? = s'.dispatch? ∧
        (Transition.Related State.Trimmed (m.step s) (m.keepingCallers.step s') ∨
          (m.keepingCallers.step s').Exceeds m.maxDepth) := by
  rcases s with ⟨frames, stack, store, printed⟩
  rcases s' with ⟨frames', stack', store', printed'⟩
  rcases h with ⟨hframes, rfl, rfl, rfl⟩
  cases hframes with
  | nil => exact Or.inr ⟨rfl, Or.inl (.halted (.refl _))⟩
  | drop env hframes =>
      exact Or.inl ⟨_, rfl, ⟨hframes, rfl, rfl, rfl⟩, rfl, Nat.lt_succ_self _⟩
  | keep frame hframes =>
      rcases frame with ⟨env, code⟩
      cases code with
      | nil => exact Or.inr ⟨rfl, Or.inl (.next ⟨hframes, rfl, rfl, rfl⟩)⟩
      | cons i code =>
          refine Or.inr ⟨rfl, ?_⟩
          rcases i.perform_trimmed hframes ⟨env, code, [], stack, store, printed⟩ m with
            hrelated | hexceeds
          · exact Or.inl (hrelated.atLine i.line)
          · exact Or.inr (hexceeds.atLine i.line)

/-! ## Runs -/

/-- Both machines go one step further, or only the one that has a frame left to drop. -/
theorem Transition.Related.advance {m : Machine} {t t' : Transition}
    (h : Related State.Trimmed t t')
    (hwithin : ¬ (m.keepingCallers.advance t').Exceeds m.maxDepth) :
    t.dispatch? = t'.dispatch? ∧
        Related State.Trimmed (m.advance t) (m.keepingCallers.advance t') ∨
      t'.dispatch? = none ∧ Related State.Trimmed t (m.keepingCallers.advance t') ∧
        (m.keepingCallers.advance t').state.frames.length < t'.state.frames.length := by
  cases h with
  | next h =>
      rcases h.step m with ⟨s'', hstep, htrimmed, hnone, hless⟩ | ⟨hsame, hstep | hexceeds⟩
      · simp only [Machine.advance, hstep]
        exact Or.inr ⟨hnone, .next htrimmed, hless⟩
      · exact Or.inl ⟨hsame, hstep⟩
      · exact absurd hexceeds hwithin
  | halted h => exact Or.inl ⟨rfl, .halted h⟩
  | failed fault h => exact Or.inl ⟨rfl, .failed fault h⟩

namespace Machine

/-- After so many steps on either machine the states differ in finished frames only, and
the same instructions have been dispatched. -/
structure InStep (m : Machine) (t : Transition) (n k : Nat) : Prop where
  related : Transition.Related State.Trimmed (m.after n t) (m.keepingCallers.after k t)
  dispatches : m.dispatches t n = m.keepingCallers.dispatches t k

theorem InStep.printed_eq {m : Machine} {t : Transition} {n k : Nat} (h : m.InStep t n k) :
    (m.after n t).printed = (m.keepingCallers.after k t).printed :=
  Transition.Related.printed_eq (fun _ _ htrimmed => htrimmed.printed) h.related

section Runs

variable {m : Machine} {t : Transition}
  (hwithin : ∀ k, ¬ (m.keepingCallers.after k t).Exceeds m.maxDepth)

include hwithin

/-- Either both runs get one step further, or only the one of the machine that keeps its
callers, which has one frame less then. -/
theorem InStep.next {n k : Nat} (h : m.InStep t n k) :
    m.InStep t (n + 1) (k + 1) ∨
      m.InStep t n (k + 1) ∧ (m.keepingCallers.after (k + 1) t).state.frames.length <
        (m.keepingCallers.after k t).state.frames.length := by
  have hwithin' := hwithin (k + 1)
  rw [after_succ] at hwithin'
  rcases h.related.advance hwithin' with ⟨hsame, hrelated⟩ | ⟨hnone, hrelated, hless⟩
  · refine Or.inl ⟨?_, ?_⟩
    · rw [after_succ, after_succ]
      exact hrelated
    · simp only [Machine.dispatches, hsame, h.dispatches]
  · rw [after_succ]
    refine Or.inr ⟨⟨?_, ?_⟩, hless⟩
    · rw [after_succ]
      exact hrelated
    · simp only [Machine.dispatches, hnone, h.dispatches, Option.toList_none, List.append_nil]

/-- The machine that keeps its callers gets there too, after it has dropped what frames it
has too many. -/
theorem InStep.forward (n : Nat) : ∃ k, m.InStep t n k := by
  induction n with
  | zero => exact ⟨0, .refl State.Trimmed.refl t, rfl⟩
  | succ n ih =>
      rcases ih with ⟨k, h⟩
      -- induction on the number of its frames
      generalize hframes : (m.keepingCallers.after k t).state.frames.length = l
      induction l using Nat.strongRecOn generalizing k with
      | ind l ih =>
          rcases h.next hwithin with hboth | ⟨hone, hless⟩
          · exact ⟨k + 1, hboth⟩
          · exact ih _ (hframes ▸ hless) (k + 1) hone rfl

/-- And it gets nowhere else. -/
theorem InStep.backward (k : Nat) : ∃ n, m.InStep t n k := by
  induction k with
  | zero => exact ⟨0, .refl State.Trimmed.refl t, rfl⟩
  | succ k ih =>
      rcases ih with ⟨n, h⟩
      rcases h.next hwithin with hboth | ⟨hone, _⟩
      · exact ⟨n + 1, hboth⟩
      · exact ⟨n, hone⟩

end Runs

/-! ## Evaluations -/

section Evaluations

variable {m : Machine} {p : Program} {session : Session}

/-- An evaluation that never reports an exceeded limit comes from a run that never exceeds
its limit. -/
theorem not_exceeds_of_evaluate (hrefusal : m.refusal? p = none)
    (h : ∀ fuel r, m.evaluate fuel p session = some r → ¬ Result.Exceeds m.maxDepth r.1)
    (n : Nat) : ¬ (m.after n (m.start p.root session.store)).Exceeds m.maxDepth := by
  rintro ⟨limit, fault, s, hlimit, hafter, hcause⟩
  have hevaluate := evaluate_of_not_refused hrefusal n session
  rw [hafter] at hevaluate
  exact h n _ hevaluate ⟨limit, fault, hlimit, rfl, hcause⟩

/-- A program that is refused is refused with its callers kept or dropped. -/
theorem sameRuns_of_refused {cause : Cause} (h : m.refusal? p = some cause) :
    SameRuns m m.keepingCallers p session := by
  have hrefused : m.keepingCallers.refusal? p = some cause := h
  refine ⟨?_, ?_, fun r => ?_⟩
  · intro hnone
    rw [h] at hnone
    cases hnone
  · intro hnone
    rw [hrefused] at hnone
    cases hnone
  · simp only [Machine.evaluate, h, hrefused]

/-- A run that exceeds no limit with its callers kept is the same with its callers dropped. -/
theorem sameRuns_of_not_exceeds (hrefusal : m.refusal? p = none)
    (hwithin : ∀ k, ¬ (m.keepingCallers.after k (m.start p.root session.store)).Exceeds
      m.maxDepth) :
    SameRuns m m.keepingCallers p session := by
  have hstart : m.keepingCallers.start p.root session.store = m.start p.root session.store := rfl
  have hends := fun fuel => evaluate_of_not_refused (m := m.keepingCallers) hrefusal fuel session
  rw [hstart] at hends
  refine ⟨fun _ n => ?_, fun _ k => ?_, fun r => ⟨?_, ?_⟩⟩
  · rcases InStep.forward hwithin n with ⟨k, hk⟩
    rw [hstart]
    refine ⟨k, hk.dispatches, ?_⟩
    rw [texts, texts, hstart, hk.printed_eq]
  · rcases InStep.backward hwithin k with ⟨n, hn⟩
    rw [hstart]
    refine ⟨n, hn.dispatches, ?_⟩
    rw [texts, texts, hstart, hn.printed_eq]
  · rintro ⟨n, hn⟩
    rcases InStep.forward hwithin n with ⟨k, hk⟩
    refine ⟨k, ?_⟩
    rw [evaluate_of_not_refused hrefusal] at hn
    rw [hends, ← hk.related.ending?_eq]
    exact hn
  · rintro ⟨k, hk⟩
    rcases InStep.backward hwithin k with ⟨n, hn⟩
    refine ⟨n, ?_⟩
    rw [hends] at hk
    rw [evaluate_of_not_refused hrefusal, hn.related.ending?_eq]
    exact hk

/-- Keeping callers is not observable within the limit. -/
theorem sameRuns_of_within
    (h : ∀ fuel r, m.keepingCallers.evaluate fuel p session = some r →
      ¬ Result.Exceeds m.maxDepth r.1) :
    SameRuns m m.keepingCallers p session := by
  cases hrefusal : m.refusal? p with
  | some cause => exact sameRuns_of_refused hrefusal
  | none =>
      have hstart : m.keepingCallers.start p.root session.store =
        m.start p.root session.store := rfl
      have hdepth : m.keepingCallers.maxDepth = m.maxDepth := rfl
      have hwithin := not_exceeds_of_evaluate (m := m.keepingCallers) hrefusal h
      rw [hstart, hdepth] at hwithin
      exact sameRuns_of_not_exceeds hrefusal hwithin

/-- Dropping finished callers before their callees are activated is not observable.
Without a limit, a machine that does so and one that does not cannot be told apart by any
program; under a limit they cannot be told apart either, unless the one that keeps its
callers exceeds the limit. -/
theorem sameRuns_keepingCallers (m : Machine) (p : Program) (session : Session) :
    SameRuns (m.withLimit none) (m.withLimit none).keepingCallers p session ∧
      ∀ limit : Nat,
        (∀ fuel r, (m.withLimit (some limit)).keepingCallers.evaluate fuel p session = some r →
          ¬ Result.Exceeds (some limit) r.1) →
        SameRuns (m.withLimit (some limit)) (m.withLimit (some limit)).keepingCallers p session := by
  refine ⟨sameRuns_of_within ?_, fun limit h => sameRuns_of_within h⟩
  rintro fuel r _ ⟨n, _, hnone, _⟩
  cases hnone

/-- With its callers kept, `(fn x. (fn y. y) x) 7` needs three activations at a time: a limit
of three makes no difference, while a limit of one is exceeded only because they are kept. -/
theorem sameRuns_keepingCallers_three :
    let p : Program := ⟨⟨0, [], [.literal 1 (.int 7), .lambda 1 ⟨1, [⟨0⟩], [.ident 1 ⟨0⟩,
      .lambda 1 ⟨2, [⟨1⟩], [.ident 1 ⟨1⟩]⟩, .apply 1]⟩, .apply 1]⟩, true, 0⟩
    let m : Machine := ⟨⟨0, ["x", "y"]⟩, none, true⟩
    SameRuns (m.withLimit (some 3)) (m.withLimit (some 3)).keepingCallers p (.fresh .silent) ∧
      (∃ session, (m.withLimit (some 1)).evaluate 12 p (.fresh .silent) =
        some (.ok ⟨none, some (.int 7)⟩, session)) ∧
      ∃ r, (m.withLimit (some 1)).keepingCallers.evaluate 12 p (.fresh .silent) = some r ∧
        Result.Exceeds (some 1) r.1 := by
  intro p m
  refine ⟨?_, ⟨_, rfl⟩, ⟨_, rfl, 1, _, rfl, rfl, rfl⟩⟩
  refine (sameRuns_keepingCallers m p (.fresh .silent)).2 3 ?_
  rintro fuel r hr ⟨limit, fault, _, herror, _⟩
  have hended : ∃ session, (m.withLimit (some 3)).keepingCallers.evaluate 12 p
      (.fresh .silent) = some (.ok ⟨none, some (.int 7)⟩, session) := ⟨_, rfl⟩
  rcases hended with ⟨session, hended⟩
  cases evaluate_unique hr hended
  cases herror

end Evaluations

end Machine

end CSEMachine
