import CSEMachine.Proofs.Balance.Runs
import CSEMachine.Proofs.Blocks
import CSEMachine.Proofs.TailCalls
import CSEMachine.Proofs.TailPositions

/-!
# Work ahead

The work ahead of a run is the size of all code that is left in its frames, where a branch
counts for the larger of its arms.  Every instruction that does not call a closure uses up
some of it, with one exception: the unrolling of a fixed point adds one application, but the
next thing that it leads to is a call.  So a run can only go on by calling closures.

Main results:

- Theorem `State.workload_step`: a step that neither calls nor unrolls uses up what it
  dispatches.
- Theorem `Machine.exists_end_or_call`: a run dispatches no more than the work ahead before it
  ends or calls a closure.
- Theorem `Machine.calls_or_ends`: what this means for programs without lambdas.
-/

namespace CSEMachine

/-! ## The size of code -/

mutual

/-- The size of an instruction: a branch counts one more than the larger of its arms, every
other instruction one. -/
def Instr.size : Instr → Nat
  | .branch _ thenArm elseArm => 1 + max (Instr.codeSize thenArm) (Instr.codeSize elseArm)
  | .ident _ _ | .literal _ _ | .lambda _ _ | .binary _ _ | .unary _ _ | .tuple _ _
  | .apply _ | .fixpoint _ => 1

/-- The size of code. -/
def Instr.codeSize : List Instr → Nat
  | [] => 0
  | i :: code => i.size + Instr.codeSize code

end

namespace Instr

@[simp]
theorem codeSize_nil : codeSize [] = 0 :=
  rfl

@[simp]
theorem codeSize_cons (i : Instr) (code : List Instr) :
    codeSize (i :: code) = i.size + codeSize code :=
  rfl

@[simp]
theorem codeSize_append (code code' : List Instr) :
    codeSize (code ++ code') = codeSize code + codeSize code' := by
  induction code with
  | nil => simp
  | cons i code ih => simp [ih, Nat.add_assoc]

theorem size_pos (i : Instr) : 0 < i.size := by
  cases i with
  | branch line thenArm elseArm => exact Nat.lt_of_lt_of_le Nat.zero_lt_one (Nat.le_add_right 1 _)
  | _ => exact Nat.zero_lt_one

end Instr

/-- The size of all code that is left in the frames. -/
def State.workload (s : State) : Nat :=
  Instr.codeSize s.pending

/-! ## Steps -/

/-- What is dispatched is part of the work ahead. -/
theorem State.length_dispatch?_le (s : State) : s.dispatch?.toList.length ≤ s.workload := by
  rcases s with ⟨frames, stack, store, printed⟩
  match frames with
  | [] => exact Nat.zero_le _
  | ⟨env, []⟩ :: callers => exact Nat.zero_le _
  | ⟨env, i :: code⟩ :: callers =>
      have hpos := i.size_pos
      simp only [dispatch?, workload, pending, List.flatMap_cons, List.cons_append,
        Instr.codeSize_cons, Option.toList_some, List.length_singleton]
      omega

/-- An instruction that neither calls a closure nor unrolls a fixed point leaves less code. -/
theorem Instr.perform_shrinks (m : Machine) {i : Instr} {f : Focus}
    (hcall : ∀ line c operand rest, i = .apply line → f.stack ≠ .closure c :: operand :: rest)
    (hunroll : ∀ line c operand rest, i = .apply line → f.stack ≠ .eta c :: operand :: rest) :
    (i.perform m f).Stays f fun code => codeSize code < codeSize (i :: f.code) := by
  have hpos := i.size_pos
  refine Instr.perform_stays m hcall ?_ ?_ ?_ ?_
  · rw [codeSize_cons]
    omega
  · rintro line thenArm elseArm rfl
    simp only [codeSize_append, codeSize_cons, size]
    omega
  · intro line code hf
    rw [hf, codeSize_cons, codeSize_cons]
    omega
  · intro line c operand rest hi hstack
    exact absurd hstack (hunroll line c operand rest hi)

/-- A step that neither calls nor unrolls uses up what it dispatches.  If it dispatches
nothing, it drops a frame. -/
theorem State.workload_step {m : Machine} {s s' : State} (hstep : m.step s = .next s')
    (hcall : s.callee? = none) (hunroll : s.unrolls = false) :
    s.dispatch?.toList.length + s'.workload ≤ s.workload ∧
      s'.workload + s'.frames.length < s.workload + s.frames.length := by
  rcases s with ⟨frames, stack, store, printed⟩
  match frames with
  | [] => cases hstep
  | ⟨env, []⟩ :: callers =>
      cases hstep
      simp [dispatch?, workload, pending]
  | ⟨env, i :: code⟩ :: callers =>
      have hstays := Instr.perform_shrinks m (i := i)
        (f := ⟨env, code, callers, stack, store, printed⟩)
        (by rintro line c operand rest rfl rfl; cases hcall)
        (by rintro line c operand rest rfl rfl; cases hunroll)
      rcases hstays s' (Transition.eq_next_of_atLine hstep) with ⟨⟨code', hframes, hless⟩, _⟩
      simp only [dispatch?, workload, pending, hframes, List.flatMap_cons, List.length_cons,
        Instr.codeSize_append, Option.toList_some, List.length_nil] at hless ⊢
      omega

/-! ## Runs -/

/-- A run that is about to call a closure. -/
def Transition.Calls (t : Transition) : Prop :=
  ∃ s c, t = .next s ∧ s.callee? = some c

namespace Machine

/-- The first of several steps dispatches what is next in the state at hand. -/
theorem dispatches_succ_next (m : Machine) (s : State) (n : Nat) :
    m.dispatches (.next s) (n + 1) = s.dispatch?.toList ++ m.dispatches (m.step s) n := by
  induction n with
  | zero => simp [dispatches, Transition.dispatch?]
  | succ n ih =>
      rw [dispatches, ih, after_succ_next, dispatches, List.append_assoc]

/-- A run dispatches no more than the work ahead before it ends or calls a closure, which it
does sooner or later. -/
theorem exists_end_or_call (m : Machine) (s : State) :
    ∃ n, (∀ k < n, ¬ (m.after k (.next s)).Calls) ∧
      (m.dispatches (.next s) n).length ≤ s.workload ∧
      ((m.after n (.next s)).ending? ≠ none ∨ (m.after n (.next s)).Calls) := by
  -- each step uses up some of the work ahead, or drops a frame
  generalize hmeasure : s.workload + s.frames.length = measure
  induction measure using Nat.strongRecOn generalizing s with
  | ind measure ih =>
      have hdispatch := s.length_dispatch?_le
      cases hcall : s.callee? with
      | some c => exact ⟨0, nofun, Nat.zero_le _, Or.inr ⟨s, c, rfl, hcall⟩⟩
      | none =>
          have hnot : ¬ (m.after 0 (.next s)).Calls := by
            rintro ⟨_, c, ⟨⟩, hcallee⟩
            rw [hcall] at hcallee
            cases hcallee
          have hfirst : ∀ k < 1, ¬ (m.after k (.next s)).Calls := by
            intro k hk
            rw [Nat.lt_one_iff.mp hk]
            exact hnot
          have hone : (m.dispatches (.next s) 1).length ≤ s.workload := by
            rw [dispatches_succ_next]
            simpa [dispatches] using hdispatch
          cases hstep : m.step s with
          | halted s' =>
              exact ⟨1, hfirst, hone, Or.inl (by simp [hstep, Transition.ending?])⟩
          | failed fault s' =>
              exact ⟨1, hfirst, hone, Or.inl (by simp [hstep, Transition.ending?])⟩
          | next s' =>
              by_cases hunroll : s.unrolls = true
              · -- the first of the two applications is a call
                rcases of_unrolls hunroll hstep with
                  ⟨env, line, code, callers, c, operand, rest, _, _, hframes, hstack⟩
                refine ⟨1, hfirst, hone, Or.inr ⟨s', c, hstep, ?_⟩⟩
                simp [State.callee?, hframes, hstack]
              · rcases State.workload_step hstep hcall (by simpa using hunroll) with ⟨hle, hless⟩
                rcases ih _ (hmeasure ▸ hless) s' rfl with ⟨n, hbefore, hlength, hend⟩
                refine ⟨n + 1, ?_, ?_, ?_⟩
                · intro k hk
                  cases k with
                  | zero => exact hnot
                  | succ k =>
                      rw [after_succ_next, hstep]
                      exact hbefore k (Nat.lt_of_succ_lt_succ hk)
                · rw [dispatches_succ_next, hstep, List.length_append]
                  omega
                · rw [after_succ_next, hstep]
                  exact hend

/-! ## Programs without lambdas -/

end Machine

/-- What holds no block leads to no closure. -/
theorem Instr.blockless_inherited :
    Instr.Inherited (fun i => i.blocks = []) fun _ => False where
  lambda h := List.cons_ne_nil _ _ h
  branch := by
    intro line thenArm elseArm h
    rw [Instr.blocks, List.append_eq_nil_iff] at h
    constructor
    · intro i hi
      exact List.subset_nil.mp (h.1 ▸ Instr.blocks_subset_codeBlocks hi)
    · intro i hi
      exact List.subset_nil.mp (h.2 ▸ Instr.blocks_subset_codeBlocks hi)
  code h := h.elim

namespace Machine

variable {m : Machine} {root : Block} {store : Store}

/-- A run of code without lambdas calls no closure. -/
theorem not_calls_of_inner_eq_nil (h : root.inner = []) (n : Nat) :
    ¬ (m.after n (m.start root store)).Calls := by
  rintro ⟨s, c, hafter, hcallee⟩
  have hroot : ∀ i ∈ root.code, i.blocks = [] := by
    intro i hi
    rcases root with ⟨index, params, code⟩
    exact List.subset_nil.mp (h ▸ Instr.blocks_subset_codeBlocks hi)
  rcases State.of_callee? hcallee with ⟨_, _, _, _, operand, rest, _, hstack⟩
  refine (Reachable.holding Instr.blockless_inherited hroot ⟨n, hafter⟩).2 c (Or.inl (.stack ?_))
  rw [hstack]
  exact List.mem_cons_self

/-- The work ahead of a run that begins is the code of its root. -/
theorem workload_of_start {s : State} (h : m.start root store = .next s) :
    s.workload = Instr.codeSize root.code := by
  rcases frames_of_start h with ⟨env, hframes⟩
  simp [State.workload, State.pending, hframes]

/-- A run of code without lambdas ends, after no more dispatches than the code is large. -/
theorem exists_ending_of_inner_eq_nil (m : Machine) (store : Store) (h : root.inner = []) :
    ∃ n ending, (m.after n (m.start root store)).ending? = some ending ∧
      (m.dispatches (m.start root store) n).length ≤ Instr.codeSize root.code := by
  cases hstart : m.start root store with
  | halted s => exact ⟨0, _, rfl, Nat.zero_le _⟩
  | failed fault s => exact ⟨0, _, rfl, Nat.zero_le _⟩
  | next s =>
      rcases m.exists_end_or_call s with ⟨n, _, hlength, hend⟩
      rw [workload_of_start hstart] at hlength
      have hcalls : ¬ (m.after n (m.start root store)).Calls := not_calls_of_inner_eq_nil h n
      rw [hstart] at hcalls
      rcases Option.ne_none_iff_exists'.mp (hend.resolve_right hcalls) with ⟨ending, hending⟩
      exact ⟨n, ending, hending, hlength⟩

/-- From any state on, a run dispatches no more than the work ahead before it ends or is about
to call a closure, and one of these happens.  So a program without lambdas always comes to an
end, after no more dispatches than its code is large. -/
theorem calls_or_ends :
    (∀ (m : Machine) (s : State), ∃ n,
      (∀ k < n, ¬ (m.after k (.next s)).Calls) ∧
        (m.dispatches (.next s) n).length ≤ s.workload ∧
        ((m.after n (.next s)).ending? ≠ none ∨ (m.after n (.next s)).Calls)) ∧
    ∀ (m : Machine) (p : Program) (session : Session), p.root.inner = [] →
      ∃ fuel r, m.evaluate fuel p session = some r ∧
        (m.dispatches (m.start p.root session.store) fuel).length ≤
          Instr.codeSize p.root.code := by
  refine ⟨exists_end_or_call, ?_⟩
  intro m p session hinner
  cases hrefusal : m.refusal? p with
  | some cause =>
      have hrefused : m.evaluate 0 p session = some (.error cause, session) := by
        simp only [evaluate, hrefusal]
      exact ⟨0, _, hrefused, Nat.zero_le _⟩
  | none =>
      rcases m.exists_ending_of_inner_eq_nil session.store hinner with
        ⟨n, ending, hending, hlength⟩
      refine ⟨n, ending.toResult session.sink, ?_, hlength⟩
      rw [evaluate_of_not_refused hrefusal, hending]
      rfl

/-- The code of `Print (not true -> 1 | Conc 'a' 'b')`, whose size is 10, holds no lambda, so
its run ends after no more than ten dispatches. -/
theorem calls_or_ends_conc :
    let code : List Instr := [.literal 1 (.bool true), .unary 1 .not,
      .branch 1 [.literal 1 (.int 1)]
        [.literal 2 (.str "b"), .literal 2 (.str "a"), .ident 2 ⟨0⟩, .apply 2, .apply 2],
      .ident 3 ⟨1⟩, .apply 3]
    let p : Program := ⟨⟨0, [], code⟩, true, 0⟩
    let m : Machine := ⟨⟨0, ["Conc", "Print"]⟩, none, true⟩
    p.root.inner = [] ∧ Instr.codeSize code = 10 ∧
      ∃ fuel r, m.evaluate fuel p (.fresh .silent) = some r ∧
        (m.dispatches (m.start p.root .empty) fuel).length ≤ 10 := by
  intro code p m
  have hinner : p.root.inner = [] := rfl
  exact ⟨hinner, rfl, calls_or_ends.2 m p (.fresh .silent) hinner⟩

end Machine

end CSEMachine
