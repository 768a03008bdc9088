import CSEMachine.Proofs.Framewise
import CSEMachine.Proofs.Observation

/-!
# What waits behind running code

Code that is run in a frame does not depend on what the frame goes on with, as long as that
is no application, nor on where in the program that belongs.  Two runs that differ only in
what waits behind the same code stay in step until it is done.  So they cannot be told apart
if they cannot be told apart from then on.

Main results:

- Theorem `State.step_ahead`: a step before what waits is the same, whatever waits.
- Theorem `Machine.alike_of_ahead`: runs with the same code ahead are alike if they are alike
  once it is done.
-/

namespace CSEMachine

/-! ## Runs that cannot be told apart -/

/-- Runs of which the same is observed after any number of steps, and which have printed the
same by then. -/
def Machine.Alike (m : Machine) (t t' : Transition) : Prop :=
  ∀ n, (m.after n t).observation? = (m.after n t').observation? ∧
    (m.after n t).printed = (m.after n t').printed

namespace Machine.Alike

variable {m : Machine} {s s' : State} {t t' : Transition}

theorem refl (m : Machine) (t : Transition) : m.Alike t t :=
  fun _ => ⟨rfl, rfl⟩

/-- Runs are alike if they have printed the same and are alike after one step. -/
theorem of_step (hprinted : s.printed = s'.printed) (h : m.Alike (m.step s) (m.step s')) :
    m.Alike (.next s) (.next s') := by
  intro n
  cases n with
  | zero => exact ⟨rfl, hprinted⟩
  | succ n => exact h n

/-- Runs that have failed with the same fault are alike if they have printed the same. -/
theorem of_failed (fault : Fault) (hprinted : s.printed = s'.printed) :
    m.Alike (.failed fault s) (.failed fault s') := by
  intro n
  rw [after_failed, after_failed]
  refine ⟨?_, hprinted⟩
  simp only [Transition.observation?, Transition.ending?, Option.map_some, Ending.observation,
    Except.map, hprinted]

end Machine.Alike

/-! ## Frames with code ahead -/

section Ahead

variable (env : Env) (callers : List Frame) (code code' : List Instr)

/-- Frames that are the same up to what waits in one frame, behind the same code and above
the same callers. -/
inductive Frame.Ahead : List Frame → List Frame → Prop
  | here (front : List Instr) :
      Ahead (⟨env, front ++ code⟩ :: callers) (⟨env, front ++ code'⟩ :: callers)
  | above (frame : Frame) {frames frames' : List Frame} (h : Ahead frames frames') :
      Ahead (frame :: frames) (frame :: frames')

end Ahead

section Marked

variable {env : Env} {callers : List Frame} {i i' : Instr} {code code' : List Instr}

theorem Frame.Ahead.length_eq {frames frames' : List Frame}
    (h : Frame.Ahead env callers code code' frames frames') :
    frames.length = frames'.length := by
  induction h with
  | here front => rfl
  | above frame _ ih => simp only [List.length_cons, ih]

variable (hi : ∀ line, i ≠ .apply line) (hi' : ∀ line, i' ≠ .apply line)

include hi hi'

/-- What does not begin with an application continues alike behind the same code. -/
theorem Frame.Continues.of_front (front : List Instr) :
    Frame.Continues (Frame.Ahead env callers (i :: code) (i' :: code')) env callers callers
      (front ++ i :: code) (front ++ i' :: code') := by
  have hahead : ∀ front more, Frame.Ahead env callers (i :: code) (i' :: code')
      (⟨env, more ++ (front ++ i :: code)⟩ :: callers)
      (⟨env, more ++ (front ++ i' :: code')⟩ :: callers) := by
    intro front more
    rw [← List.append_assoc, ← List.append_assoc]
    exact .here _
  cases front with
  | nil =>
      refine .other ?_ ?_ (hahead [])
      · rintro line rest ⟨⟩
        exact hi line rfl
      · rintro line rest ⟨⟩
        exact hi' line rfl
  | cons j front =>
      by_cases hj : ∃ line, j = .apply line
      · rcases hj with ⟨line, rfl⟩
        exact .apply line (hahead front)
      · refine .other ?_ ?_ (hahead (j :: front))
        · rintro line rest ⟨⟩
          exact hj ⟨line, rfl⟩
        · rintro line rest ⟨⟩
          exact hj ⟨line, rfl⟩

/-- An instruction before what waits does the same, whatever waits. -/
theorem Instr.perform_ahead (front : List Instr) (j : Instr) (m : Machine) (stack : List Value)
    (store : Store) (printed : Array String) :
    Transition.Related (State.Framewise (Frame.Ahead env callers (i :: code) (i' :: code')))
      (j.perform m ⟨env, front ++ i :: code, callers, stack, store, printed⟩)
      (j.perform m ⟨env, front ++ i' :: code', callers, stack, store, printed⟩) := by
  have hcontinues : Frame.Continues (Frame.Ahead env callers (i :: code) (i' :: code')) env
      callers callers (front ++ i :: code) (front ++ i' :: code') := .of_front hi hi' front
  by_cases hcall : ∃ line c operand rest, j = .apply line ∧ stack = .closure c :: operand :: rest
  · rcases hcall with ⟨line, c, operand, rest, rfl, rfl⟩
    -- the caller is not finished, so it stays
    have hbelow : ∀ k more, Focus.callersBelow
        ⟨env, front ++ k :: more, callers, rest, store, printed⟩ m =
          ⟨env, front ++ k :: more⟩ :: callers := by
      intro k more
      simp [Focus.callersBelow_eq]
    exact Focus.call_framewise hcontinues rfl c operand rest store printed (hbelow i code)
      (hbelow i' code') rfl fun frame => .above frame (.here front)
  · refine j.perform_framewise hcontinues rfl stack store printed ?_
    rintro line c operand rest rfl rfl
    exact hcall ⟨line, c, operand, rest, rfl, rfl⟩

omit hi hi' in
/-- An instruction in a frame above does the same, whatever waits below. -/
theorem Instr.perform_above {frames frames' : List Frame}
    (h : Frame.Ahead env callers (i :: code) (i' :: code') frames frames') (top : Env)
    (rest : List Instr) (j : Instr) (m : Machine) (stack : List Value) (store : Store)
    (printed : Array String) :
    Transition.Related (State.Framewise (Frame.Ahead env callers (i :: code) (i' :: code')))
      (j.perform m ⟨top, rest, frames, stack, store, printed⟩)
      (j.perform m ⟨top, rest, frames', stack, store, printed⟩) := by
  have hcontinues := Frame.Continues.same (fun code => h.above ⟨top, code⟩) rest
  by_cases hcall : ∃ line c operand more, j = .apply line ∧ stack = .closure c :: operand :: more
  · rcases hcall with ⟨line, c, operand, more, rfl, rfl⟩
    have hbelow : Frame.Ahead env callers (i :: code) (i' :: code')
        (Focus.callersBelow ⟨top, rest, frames, more, store, printed⟩ m)
        (Focus.callersBelow ⟨top, rest, frames', more, store, printed⟩ m) := by
      simp only [Focus.callersBelow_eq]
      split
      · exact h
      · exact h.above ⟨top, rest⟩
    exact Focus.call_framewise hcontinues rfl c operand more store printed rfl rfl
      hbelow.length_eq hbelow.above
  · refine j.perform_framewise hcontinues rfl stack store printed ?_
    rintro line c operand more rfl rfl
    exact hcall ⟨line, c, operand, more, rfl, rfl⟩

/-- A step before what waits is the same, whatever waits. -/
theorem State.step_ahead {s s' : State} (m : Machine)
    (h : s.Framewise (Frame.Ahead env callers (i :: code) (i' :: code')) s') :
    s.frames = ⟨env, i :: code⟩ :: callers ∧ s'.frames = ⟨env, i' :: code'⟩ :: callers ∨
      Transition.Related (State.Framewise (Frame.Ahead env callers (i :: code) (i' :: code')))
        (m.step s) (m.step s') := by
  rcases s with ⟨frames, stack, store, printed⟩
  rcases s' with ⟨frames', stack', store', printed'⟩
  rcases h with ⟨hframes, rfl, rfl, rfl⟩
  cases hframes with
  | here front =>
      cases front with
      | nil => exact Or.inl ⟨rfl, rfl⟩
      | cons j front =>
          exact Or.inr ((Instr.perform_ahead hi hi' front j m stack store printed).atLine j.line)
  | above frame hframes =>
      rcases frame with ⟨top, rest⟩
      cases rest with
      | nil => exact Or.inr (.next ⟨hframes, rfl, rfl, rfl⟩)
      | cons j rest =>
          exact Or.inr ((Instr.perform_above hframes top rest j m stack store printed).atLine j.line)

/-- Runs with the same code ahead are alike if they are alike once it is done. -/
theorem Machine.alike_of_ahead {m : Machine} {root : Block} {store₀ : Store}
    (hmark : ∀ stack store printed,
      m.Reachable root store₀ ⟨⟨env, i :: code⟩ :: callers, stack, store, printed⟩ →
        m.Alike (.next ⟨⟨env, i :: code⟩ :: callers, stack, store, printed⟩)
          (.next ⟨⟨env, i' :: code'⟩ :: callers, stack, store, printed⟩))
    {s s' : State} (hs : m.Reachable root store₀ s)
    (h : s.Framewise (Frame.Ahead env callers (i :: code) (i' :: code')) s') :
    m.Alike (.next s) (.next s') := by
  intro n
  induction n generalizing s s' with
  | zero => exact ⟨rfl, h.printed⟩
  | succ n ih =>
      rcases State.step_ahead hi hi' m h with ⟨hframes, hframes'⟩ | hstep
      · rcases s with ⟨frames, stack, store, printed⟩
        rcases s' with ⟨frames', stack', store', printed'⟩
        rcases h with ⟨_, rfl, rfl, rfl⟩
        cases hframes
        cases hframes'
        exact hmark _ _ _ hs (n + 1)
      · rw [after_succ_next, after_succ_next]
        generalize ht : m.step s = t at hstep ⊢
        generalize m.step s' = t' at hstep ⊢
        cases hstep with
        | next h => exact ih (hs.step ht) h
        | halted h =>
            rw [after_halted, after_halted]
            refine ⟨?_, h.printed⟩
            simp only [Transition.observation?, Transition.ending?, h.stack, h.store, h.printed]
        | failed fault h => exact Alike.of_failed fault h.printed n

end Marked

end CSEMachine
