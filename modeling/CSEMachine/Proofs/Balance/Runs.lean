import CSEMachine.Proofs.Balance.Code
import CSEMachine.Proofs.Correspondence.Code
import CSEMachine.Proofs.Failures

/-!
# Runs of balanced programs

While a program with a balanced root runs, the values on the stack and the effects of
all instructions still pending add up to one, so no instruction ever lacks a value.
The code that a closure brings in is balanced wherever the closure was kept, which is
an invariant of its own.

Main results:

- Theorem `State.Level.step_steady`: a step keeps the level, or fails for another reason
  than the program.
- Theorem `Machine.level_of_reachable`: every reachable state is level.
- Theorem `Machine.balanced_run`: what this means for whole evaluations.
-/

namespace CSEMachine

/-! ## Balanced closures -/

/-- The correspondence of a run with itself in which all code inside instructions and
all blocks of closures are balanced. -/
def Correspondence.balanced (store : Store) : Correspondence where
  tuples := (store.tuples.size, store.tuples.size)
  scopes := (store.scopes.size, store.scopes.size)
  name := Eq
  closure _ _ c d := c.block = d.block ∧ c.block.Balanced
  instr _ _ _ _ i j := i = j ∧ ∀ inner ∈ i.carried, Instr.Balanced (Instr.written inner)
  index_eq h := by rw [h.1]

/-- The instructions of balanced code only carry balanced code. -/
theorem Instr.Balanced.carried {code : List Instr} (h : Instr.Balanced (Instr.written code)) :
    ∀ i ∈ code, ∀ inner ∈ i.carried, Instr.Balanced (Instr.written inner) :=
  fun _ hi _ hinner => h.of_carried (List.mem_reverse.mpr hi) hinner

/-- The code inside instructions that carry balanced code, and inside balanced blocks, only
carries balanced code. -/
theorem Instr.balanced_inherited :
    Instr.Inherited (fun i => ∀ inner ∈ i.carried, Instr.Balanced (Instr.written inner))
      Block.Balanced where
  lambda := by
    intro line b h
    exact h b.code (by simp [Instr.carried])
  branch := by
    intro line t e h
    have ht : Instr.Balanced (Instr.written t) := h t (by simp [Instr.carried])
    have he : Instr.Balanced (Instr.written e) := h e (by simp [Instr.carried])
    exact ⟨ht.carried, he.carried⟩
  code h := h.carried

namespace Correspondence

theorem balanced_code {store : Store} {code : List Instr}
    (h : Instr.Balanced (Instr.written code)) (σ σ' : Array Bindings) (env env' : Env) :
    List.Forall₂ ((balanced store).instr σ σ' env env') code code :=
  holding_code h.carried σ σ' env env'

/-- Every machine respects this correspondence. -/
theorem balanced_lawful (m : Machine) (store : Store) : (balanced store).Lawful m m :=
  holding_lawful Instr.balanced_inherited m store

end Correspondence

/-! ## Levels -/

/-- The instructions that are left to run, in the order in which they run. -/
def State.pending (s : State) : List Instr :=
  s.frames.flatMap Frame.code

/-- A state is level when its values are enough for all pending instructions, which
then leave one value. -/
def State.Level (s : State) : Prop :=
  Instr.height s.pending s.stack.length = some 1

/-- The values of a level state and the effects of what is pending add up to one. -/
theorem State.Level.sum_eq {s : State} (h : s.Level) :
    (s.stack.length : Int) + (s.pending.map Instr.effect).sum = 1 :=
  Instr.add_effects_of_height h

/-- A level state has the values that its next instruction takes. -/
theorem State.Level.operands_le {s : State} (h : s.Level) {i : Instr} {rest : List Instr}
    (hpending : s.pending = i :: rest) : i.operands ≤ s.stack.length := by
  rw [State.Level, hpending, Instr.height] at h
  split at h
  · assumption
  · cases h

/-- A level state has three values for two applications in a row. -/
theorem State.Level.three_le {s : State} (h : s.Level) {line line' : Nat} {rest : List Instr}
    (hpending : s.pending = .apply line :: .apply line' :: rest) : 3 ≤ s.stack.length := by
  have htwo : 2 ≤ s.stack.length := h.operands_le hpending
  rw [State.Level, hpending, Instr.height, Instr.operands, if_pos htwo, Instr.height] at h
  split at h
  · rename_i hle
    simp only [Instr.operands] at hle
    omega
  · cases h

/-- What a run does that never lacks a value. -/
def Transition.Steady : Transition → Prop
  | .next s => s.Level
  | .halted s => s.stack.length = 1
  | .failed fault _ => fault.cause.origin ≠ .program

theorem Transition.Steady.atLine {t : Transition} (h : t.Steady) (line : Nat) :
    (t.atLine line).Steady := by
  cases t with
  | next s => exact h
  | halted s => exact h
  | failed fault s => exact h

/-! ## Levels through instructions -/

namespace Focus

/-- The instructions that are left to run after the one in hand. -/
def pending (f : Focus) : List Instr :=
  f.code ++ f.callers.flatMap Frame.code

/-- Stopping for another reason than malformed control is steady. -/
theorem fail_steady (f : Focus) {fault : Fault} (h : fault.cause.origin ≠ .program) :
    (f.fail fault).Steady :=
  h

theorem fail_operands_steady (f : Focus) {fault : Fault}
    (h : fault.cause.origin = .operands) : (f.fail fault).Steady := by
  refine f.fail_steady ?_
  rw [h]
  decide

/-- An instruction that adds one value is steady. -/
theorem push_steady {f : Focus} (h : Instr.height f.pending (f.stack.length + 1) = some 1)
    (v : Value) : (f.push v).Steady := by
  rcases f with ⟨env, code, callers, stack, store, printed⟩
  simpa [push_eq, Transition.Steady, State.Level, State.pending, pending] using h

theorem pushResult_steady {f : Focus}
    (h : Instr.height f.pending (f.stack.length + 1) = some 1) {r : Except Fault Value}
    (hr : Sound r) : (f.pushResult r).Steady := by
  cases r with
  | ok v => exact push_steady h v
  | error fault => exact f.fail_operands_steady (hr fault rfl)

theorem ident_steady {f : Focus} (h : Instr.height f.pending (f.stack.length + 1) = some 1)
    (m : Machine) (x : Name) : (f.ident m x).Steady := by
  rw [ident_eq]
  split
  · exact push_steady h _
  · split
    · exact push_steady h _
    · exact f.fail_steady (by simp [Cause.origin, Fault.of])

theorem unary_steady {f : Focus} {line : Nat} (op : UnaryOp)
    (h : Instr.height (.unary line op :: f.pending) f.stack.length = some 1) :
    (f.unary op).Steady := by
  rcases f with ⟨env, code, callers, stack, store, printed⟩
  cases stack with
  | nil => simp [Instr.height, Instr.operands] at h
  | cons operand rest =>
      simp only [unary_eq]
      refine pushResult_steady ?_ (UnaryOp.apply_sound op store operand)
      simpa [Instr.height, Instr.operands, pending] using h

theorem binary_steady {f : Focus} {line : Nat} (op : BinaryOp)
    (h : Instr.height (.binary line op :: f.pending) f.stack.length = some 1) :
    (f.binary op).Steady := by
  rcases f with ⟨env, code, callers, stack, store, printed⟩
  match stack with
  | [] => simp [Instr.height, Instr.operands] at h
  | [v] => simp [Instr.height, Instr.operands] at h
  | left :: right :: rest =>
      simp only [binary_eq]
      refine pushResult_steady ?_ (BinaryOp.apply_sound op store left right)
      simpa [Instr.height, Instr.operands, pending] using h

theorem formTuple_steady {f : Focus} {line : Nat} (arity : Nat)
    (h : Instr.height (.tuple line arity :: f.pending) f.stack.length = some 1) :
    (f.formTuple arity).Steady := by
  rcases f with ⟨env, code, callers, stack, store, printed⟩
  by_cases hle : arity ≤ stack.length
  · have hitems : (stack.take arity).length = arity := List.length_take_of_le hle
    simp only [formTuple_eq, if_pos hitems]
    simpa [Transition.Steady, State.Level, State.pending, pending, Instr.height, Instr.operands,
      hle] using h
  · simp [Instr.height, Instr.operands, hle] at h

theorem branch_steady {f : Focus} {line : Nat} {thenArm elseArm : List Instr}
    (hthen : Instr.Balanced (Instr.written thenArm))
    (helse : Instr.Balanced (Instr.written elseArm))
    (h : Instr.height (.branch line thenArm elseArm :: f.pending) f.stack.length = some 1) :
    (f.branch thenArm elseArm).Steady := by
  rcases f with ⟨env, code, callers, stack, store, printed⟩
  cases stack with
  | nil => simp [Instr.height, Instr.operands] at h
  | cons v rest =>
      simp only [Instr.height, Instr.operands, List.length_cons, Nat.le_add_left, if_true,
        Nat.add_sub_cancel] at h
      cases v with
      | bool b =>
          -- the arm that is chosen adds the value that the branch stands for
          have harm : Instr.Balanced (Instr.written (if b then thenArm else elseArm)) := by
            cases b with
            | true => exact hthen
            | false => exact helse
          have hheight := harm.height_written (code ++ callers.flatMap Frame.code) rest.length
          simp only [Instr.written, List.reverse_reverse] at hheight
          simp only [branch_eq, Transition.Steady, State.Level, State.pending, List.flatMap_cons,
            List.append_assoc]
          rw [hheight]
          exact h
      | _ =>
          simp only [branch_eq]
          exact fail_operands_steady _ rfl

/-! ## Levels through applications -/

/-- Dropping a finished caller drops no instruction. -/
theorem flatMap_callersBelow (f : Focus) (m : Machine) :
    (f.callersBelow m).flatMap Frame.code = f.pending := by
  rw [callersBelow_eq]
  split
  · rename_i h
    have hcode : f.code = [] := by simpa using And.right (by simpa using h)
    simp [pending, hcode]
  · simp [pending]

/-- The body of a closure adds the value that the application stands for. -/
theorem call_steady {f : Focus} (h : Instr.height f.pending (f.stack.length + 1) = some 1)
    (m : Machine) {c : Closure} (hc : c.block.Balanced) (operand : Value) :
    (f.call m c operand).Steady := by
  have hsound := c.bindOperand_sound f.store operand
  rw [call_eq]
  split
  · rename_i cause hbind
    rw [hbind] at hsound
    have hcause : (Fault.of cause).cause.origin = .operands := hsound _ rfl
    exact f.fail_operands_steady hcause
  · split
    · exact f.fail_steady (by simp [Cause.origin, Fault.of])
    · have hheight := hc.height_written f.pending f.stack.length
      simp only [Instr.written, List.reverse_reverse] at hheight
      simp only [Transition.Steady, State.Level, State.pending, List.flatMap_cons,
        flatMap_callersBelow, hheight]
      exact h

theorem unroll_steady {f : Focus} (h : Instr.height f.pending (f.stack.length + 1) = some 1)
    (line : Nat) (c : Closure) (operand : Value) : (f.unroll line c operand).Steady := by
  rcases f with ⟨env, code, callers, stack, store, printed⟩
  simpa [unroll_eq, Transition.Steady, State.Level, State.pending, pending, Instr.height,
    Instr.operands] using h

theorem fix_steady {f : Focus} (h : Instr.height f.pending (f.stack.length + 1) = some 1)
    (operand : Value) : (f.fix operand).Steady := by
  rw [fix_eq]
  split
  · exact push_steady h _
  · exact f.fail_operands_steady rfl

theorem select_steady {f : Focus} (h : Instr.height f.pending (f.stack.length + 1) = some 1)
    (ref : Nat) (operand : Value) : (f.select ref operand).Steady := by
  rw [select_eq]
  split
  · exact pushResult_steady h (Store.select_sound _ _ _)
  · exact f.fail_operands_steady rfl

/-- `Conc` consumes two applications and their two operands, and pushes one value. -/
theorem conc_steady {f : Focus} (h : Instr.height f.pending (f.stack.length + 1) = some 1)
    (first : Value) : (f.conc first).Steady := by
  rcases f with ⟨env, code, callers, stack, store, printed⟩
  rw [conc_eq]
  split
  · rename_i heq
    cases heq
    refine pushResult_steady ?_ (Builtin.applyConc_sound _ _ _)
    simpa [pending, Instr.height, Instr.operands] using h
  · rename_i heq
    cases heq
    simp [pending, Instr.height, Instr.operands] at h
  · exact fail_operands_steady _ rfl

theorem applyBuiltin_steady {f : Focus}
    (h : Instr.height f.pending (f.stack.length + 1) = some 1) (b : Builtin)
    (operand : Value) : (f.applyBuiltin b operand).Steady := by
  by_cases hprint : b = .print
  · subst hprint
    exact push_steady h .dummy
  · by_cases hconc : b = .conc
    · subst hconc
      exact conc_steady h operand
    · rw [applyBuiltin_of_ne hprint hconc]
      exact pushResult_steady h (Builtin.apply_sound b _ _)

theorem apply_steady {f : Focus} (m : Machine) {line : Nat}
    (hclosures : ∀ c, .closure c ∈ f.stack → c.block.Balanced)
    (h : Instr.height (.apply line :: f.pending) f.stack.length = some 1) :
    (f.apply m line).Steady := by
  rcases f with ⟨env, code, callers, stack, store, printed⟩
  match stack with
  | [] => simp [Instr.height, Instr.operands] at h
  | [v] => simp [Instr.height, Instr.operands] at h
  | operator :: operand :: rest =>
      have hrest : Instr.height (pending ⟨env, code, callers, rest, store, printed⟩)
          (rest.length + 1) = some 1 := by
        simpa [Instr.height, Instr.operands, pending] using h
      simp only [apply_eq, applyValue_eq]
      cases operator with
      | closure c => exact call_steady hrest m (hclosures c List.mem_cons_self) operand
      | fixpoint => exact fix_steady hrest operand
      | eta c => exact unroll_steady hrest line c operand
      | tuple ref => exact select_steady hrest ref operand
      | builtin b => exact applyBuiltin_steady hrest b operand
      | _ => exact fail_operands_steady _ rfl

end Focus

/-! ## Steps -/

/-- A state all of whose closures and pending branches carry balanced code. -/
structure State.Carrying (s : State) : Prop where
  pending : ∀ i ∈ s.pending, ∀ inner ∈ i.carried, Instr.Balanced (Instr.written inner)
  closures : ∀ c, .closure c ∈ s.stack → c.block.Balanced

/-- A step keeps the level, or fails for another reason than malformed control. -/
theorem State.Level.step_steady {s : State} (m : Machine) (h : s.Level) (hs : s.Carrying) :
    (m.step s).Steady := by
  rcases s with ⟨frames, stack, store, printed⟩
  match frames with
  | [] => exact Option.some.inj h
  | ⟨env, []⟩ :: callers => exact h
  | ⟨env, i :: code⟩ :: callers =>
      let f : Focus := ⟨env, code, callers, stack, store, printed⟩
      have hlevel : Instr.height (i :: f.pending) f.stack.length = some 1 := h
      have hcarried := hs.pending i (by simp [State.pending])
      refine Transition.Steady.atLine (t := i.perform m f) ?_ i.line
      have hpush : i.operands = 0 → Instr.height f.pending (f.stack.length + 1) = some 1 := by
        intro hoperands
        simpa [Instr.height, hoperands] using hlevel
      cases i with
      | ident line x => exact Focus.ident_steady (hpush rfl) m x
      | literal line v => exact Focus.push_steady (hpush rfl) v.value
      | lambda line b => exact Focus.push_steady (hpush rfl) _
      | fixpoint line => exact Focus.push_steady (hpush rfl) .fixpoint
      | binary line op => exact Focus.binary_steady op hlevel
      | unary line op => exact Focus.unary_steady op hlevel
      | tuple line arity => exact Focus.formTuple_steady arity hlevel
      | apply line => exact Focus.apply_steady m hs.closures hlevel
      | branch line t e =>
          have ht := hcarried t (by simp [Instr.carried])
          have he := hcarried e (by simp [Instr.carried])
          exact Focus.branch_steady ht he hlevel

/-! ## Runs -/

namespace Machine

variable {m : Machine} {root : Block} {store : Store}

/-- Code is balanced wherever a reachable state keeps it. -/
theorem carrying_of_reachable (hroot : root.Balanced) {s : State}
    (hs : m.Reachable root store s) : s.Carrying := by
  have hlawful := Correspondence.balanced_lawful m store
  have hbegins : (Correspondence.balanced store).BeginsWith store store := ⟨rfl, rfl⟩
  have hrelated := Correspondence.related_of_reachable hlawful hbegins
    (Correspondence.balanced_code hroot _ _ _ _) hs
  have hframes := List.forall₂_same.mp hrelated.frames
  have hstack := List.forall₂_same.mp hrelated.stack
  constructor
  · intro i hi
    rcases List.mem_flatMap.mp hi with ⟨frame, hframe, hi⟩
    exact (List.forall₂_same.mp (hframes frame hframe).2 i hi).2
  · intro c hc
    cases hstack _ hc with
    | closure hlinked => exact hlinked.2.2

/-- Every reachable state is level. -/
theorem level_of_reachable (hroot : root.Balanced) {s : State}
    (hs : m.Reachable root store s) : s.Level := by
  have hboth : s.Level ∧ m.Reachable root store s := by
    refine Reachable.invariant (P := fun s => s.Level ∧ m.Reachable root store s) ?_ ?_ hs
    · intro s₀ hstart
      refine ⟨?_, 0, hstart⟩
      unfold start at hstart
      split at hstart
      · cases hstart
      · cases hstart
        simpa [State.Level, State.pending, Instr.written, Instr.height] using
          hroot.height_written [] 0
    · intro s₀ s₁ h₀ hstep
      refine ⟨?_, h₀.2.step hstep⟩
      have hsteady := h₀.1.step_steady m (carrying_of_reachable hroot h₀.2)
      rw [hstep] at hsteady
      exact hsteady
  exact hboth.1

/-- Whatever a run has led to is steady. -/
theorem steady_after (hroot : root.Balanced) (n : Nat) :
    (m.after n (m.start root store)).Steady := by
  cases hafter : m.after n (m.start root store) with
  | next s => exact level_of_reachable hroot ⟨n, hafter⟩
  | halted s =>
      rcases halted_of_after hafter with hstart | ⟨s₀, hs₀, hstep⟩
      · unfold start at hstart
        split at hstart
        · cases hstart
        · cases hstart
      · have hsteady := (level_of_reachable hroot hs₀).step_steady m
          (carrying_of_reachable hroot hs₀)
        rw [hstep] at hsteady
        exact hsteady
  | failed fault s =>
      rcases failed_of_after hafter with hstart | ⟨s₀, hs₀, hstep⟩
      · unfold start at hstart
        split at hstart
        · cases hstart
          simp [Transition.Steady, Cause.origin, Fault.of]
        · cases hstart
      · have hsteady := (level_of_reachable hroot hs₀).step_steady m
          (carrying_of_reachable hroot hs₀)
        rw [hstep] at hsteady
        exact hsteady

/-- A program that a tree gives has a balanced root.  Whenever the root of a program is
balanced, the values on the stack and the effects of what is pending add up to one in
every reachable state, the next instruction has all the values it takes, two
applications in a row have the three that `Conc` takes, and no step fails for malformed
control.  So an evaluation never does, unless the program is refused at once, and one
that succeeds leaves exactly the value that it gives. -/
theorem balanced_run :
    (∀ (t : Term) (standardized : Bool) (table table' : NameTable) (p : Program),
      Program.ofTerm t standardized table = (.ok p, table') → p.root.Balanced) ∧
    ∀ (m : Machine) (p : Program) (session : Session), p.root.Balanced →
      (∀ s, m.Reachable p.root session.store s →
        (s.stack.length : Int) + (s.pending.map Instr.effect).sum = 1 ∧
        (∀ env i code callers, s.frames = ⟨env, i :: code⟩ :: callers →
          i.operands ≤ s.stack.length) ∧
        (∀ env line line' code callers,
          s.frames = ⟨env, .apply line :: .apply line' :: code⟩ :: callers →
            3 ≤ s.stack.length) ∧
        ∀ fault s', m.step s = .failed fault s' → fault.cause.code ≠ .malformed) ∧
      (m.refusal? p = none → ∀ fuel session',
        (∀ fault, m.evaluate fuel p session = some (.error fault, session') →
          fault.cause.code ≠ .malformed) ∧
        ∀ e, m.evaluate fuel p session = some (.ok e, session') →
          ∃ s v, m.after fuel (m.start p.root session.store) = .halted s ∧ s.stack = [v] ∧
            e.value = some v) := by
  refine ⟨?_, ?_⟩
  · intro t standardized table table' p h
    exact Program.balanced_root_of_ofTerm h
  intro m p session hroot
  refine ⟨?_, ?_⟩
  · intro s hs
    have hlevel := level_of_reachable hroot hs
    refine ⟨hlevel.sum_eq, ?_, ?_, ?_⟩
    · intro env i code callers hframes
      have hpending : s.pending = i :: (code ++ callers.flatMap Frame.code) := by
        simp [State.pending, hframes]
      exact hlevel.operands_le hpending
    · intro env line line' code callers hframes
      have hpending : s.pending =
          .apply line :: .apply line' :: (code ++ callers.flatMap Frame.code) := by
        simp [State.pending, hframes]
      exact hlevel.three_le hpending
    · intro fault s' hstep
      have hsteady := hlevel.step_steady m (carrying_of_reachable hroot hs)
      rw [hstep] at hsteady
      exact Cause.code_ne_malformed hsteady
  · intro hrefusal fuel session'
    have hsteady : (m.after fuel (m.start p.root session.store)).Steady :=
      steady_after hroot fuel
    refine ⟨?_, ?_⟩
    · intro fault h
      rcases after_of_evaluate_error hrefusal h with ⟨s, hafter, _⟩
      rw [hafter] at hsteady
      exact Cause.code_ne_malformed hsteady
    · intro e h
      rcases after_of_evaluate_ok hrefusal h with ⟨s, hafter, rfl, _⟩
      rw [hafter] at hsteady
      rcases List.length_eq_one_iff.mp hsteady with ⟨v, hv⟩
      exact ⟨s, v, hafter, hv, by rw [hv, List.head?_cons]⟩

/-- The program `(fn x. x) 7` is balanced and leaves exactly its value. -/
theorem balanced_run_identity :
    let table : NameTable := ⟨0, []⟩
    let t : Term := .app 1 (.lambda 1 ["x"] (.ident 1 "x")) (.literal 1 (.int 7))
    let p : Program := ⟨⟨0, [], [.literal 1 (.int 7),
      .lambda 1 ⟨1, [⟨0⟩], [.ident 1 ⟨0⟩]⟩, .apply 1]⟩, true, 0⟩
    let m : Machine := ⟨table, none, true⟩
    Program.ofTerm t true table = (.ok p, ⟨0, ["x"]⟩) ∧ p.root.Balanced ∧
      m.refusal? p = none ∧
      ∃ s, m.after 6 (m.start p.root Store.empty) = .halted s ∧ s.stack = [.int 7] := by
  intro table t p m
  have hlowered : Program.ofTerm t true table = (.ok p, ⟨0, ["x"]⟩) := rfl
  have hroot : p.root.Balanced := balanced_run.1 t true table _ p hlowered
  have hrefusal : m.refusal? p = none := rfl
  have hevaluate : m.evaluate 6 p (.fresh .silent) =
      some (.ok ⟨none, some (.int 7)⟩, ⟨⟨#[], #[[], [(⟨0⟩, .int 7)]]⟩, .silent⟩) := rfl
  rcases ((balanced_run.2 m p (.fresh .silent) hroot).2 hrefusal 6 _).2 _ hevaluate with
    ⟨s, v, hs, hstack, hv⟩
  cases hv
  exact ⟨hlowered, hroot, hrefusal, s, hs, hstack⟩

end Machine

end CSEMachine
