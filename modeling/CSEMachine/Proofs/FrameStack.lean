import CSEMachine.Proofs.TailCalls

/-!
# The frames of a run

A caller that has nothing left to do is dropped before its callee is activated, and every
other frame that a call leaves behind has code left.  So of all frames only the top one may
be finished, and the limit bounds them all.  It is exceeded by a call whose operand fits the
closure, when as many frames are to stay below the callee as the limit allows.

Several rules look up the current frame, and find control malformed if there is none.  Which
of them do is a matter of the instruction and of the values on the stack, and that they would
fail without a frame is not in question; but the machine performs an instruction only after it
has taken it off the code of a frame.

Main results:

- Theorem `Machine.step_call`: a call refuses its operand, exceeds the limit, or activates
  the closure.
- Theorem `Machine.Reachable.stacked`: in every reachable state the frames below the top
  one have code left, and there are no more frames than the limit allows.
- Theorem `Machine.evaluate_exceeds_iff`: when evaluations exceed the limit.
- Theorem `State.perform_misses_frame_iff`: an instruction misses the current frame exactly if
  there is none and it looks it up.
- Theorem `Machine.evaluate_malformed`: control is malformed only for want of values.
- Theorem `Machine.frames_run`: what this means for whole evaluations.
-/

namespace CSEMachine

/-! ## Calls -/

/-- A call that is about to be made: where it stands, what is applied to what, and the
frames that are to stay below the callee.  A finished caller is not among them. -/
structure Call where
  line : Nat
  closure : Closure
  operand : Value
  below : List Frame

/-- The call that the next instruction makes, if it applies a closure. -/
def State.call? (s : State) : Option Call :=
  match s.frames, s.stack with
  | ⟨env, .apply line :: code⟩ :: callers, .closure c :: operand :: _ =>
    some ⟨line, c, operand, if code.isEmpty then callers else ⟨env, code⟩ :: callers⟩
  | _, _ => none

/-- A single parameter takes any operand, any other number of parameters takes a tuple of
as many elements. -/
def Closure.Fits (c : Closure) (store : Store) (operand : Value) : Prop :=
  c.block.params.length = 1 ∨
    ∃ ref, operand = .tuple ref ∧ store.order ref = c.block.params.length

/-- Why an operand that does not fit is refused. -/
def Closure.misfit (c : Closure) (store : Store) (operand : Value) : Cause :=
  match operand with
  | .tuple ref => .arityMismatch c.block.params.length (store.order ref)
  | v => .wrongKind s!"a tuple of {c.block.params.length} elements" (v.cite store)

/-- The operand of a call fits the closure that is called. -/
def Call.Fits (call : Call) (store : Store) : Prop :=
  call.closure.Fits store call.operand

/-- An operand that fits is bound. -/
theorem Closure.Fits.bindOperand {c : Closure} {store : Store} {operand : Value}
    (h : c.Fits store operand) : ∃ scope, c.bindOperand store operand = .ok scope := by
  by_cases hone : c.block.params.length = 1
  · exact ⟨_, bindOperand_of_length_eq_one hone store operand⟩
  · rcases h with hone' | ⟨ref, rfl, horder⟩
    · exact absurd hone' hone
    · rw [Store.order] at horder
      refine ⟨c.env.extend.bindEach c.block.params (store.items ref).toList, ?_⟩
      rw [bindOperand_of_length_ne_one hone]
      simp only [Scope.bindPositional, horder, if_true]

/-- Any other operand is refused. -/
theorem Closure.bindOperand_of_not_fits {c : Closure} {store : Store} {operand : Value}
    (h : ¬ c.Fits store operand) :
    c.bindOperand store operand = .error (c.misfit store operand) := by
  rw [Fits, not_or] at h
  rcases h with ⟨hone, htuple⟩
  rw [bindOperand_of_length_ne_one hone]
  cases operand with
  | tuple ref =>
      have horder : (store.items ref).size ≠ c.block.params.length := fun horder =>
        htuple ⟨ref, rfl, horder⟩
      simp only [Scope.bindPositional, horder, if_false, misfit, Store.order]
  | _ => rfl

/-- What a call does: it refuses an operand that does not fit, whatever the limit; it
exceeds a limit that forbids one more frame; or it activates the closure. -/
inductive Call.Made (m : Machine) (s : State) (call : Call) : Transition → Prop
  | refused {s' : State} (h : ¬ call.Fits s.store) :
      Made m s call
        (.failed ⟨call.closure.misfit s.store call.operand, some call.line, []⟩ s')
  | exceeds {limit : Nat} {s' : State} (h : call.Fits s.store)
      (hlimit : m.limitAbove? call.below = some limit) :
      Made m s call (.failed ⟨.depthExceeded limit, some call.line, []⟩ s')
  | activates {env : Env} {s' : State} (h : call.Fits s.store)
      (hlimit : m.limitAbove? call.below = none)
      (hframes : s'.frames = ⟨env, call.closure.block.code⟩ :: call.below) :
      Made m s call (.next s')

namespace State

variable {s : State} {call : Call}

/-- A call stands at an application, with the closure on top of its operand. -/
theorem of_call? (h : s.call? = some call) :
    ∃ env code callers rest, s.frames = ⟨env, .apply call.line :: code⟩ :: callers ∧
      s.stack = .closure call.closure :: call.operand :: rest ∧
      call.below = if code.isEmpty then callers else ⟨env, code⟩ :: callers := by
  unfold call? at h
  split at h
  · rename_i env line code callers c operand rest hframes hstack
    cases h
    exact ⟨env, code, callers, rest, hframes, hstack, rfl⟩
  · cases h

/-- The frames that stay below a callee have code left. -/
theorem code_ne_nil_of_mem_below (h : s.call? = some call)
    (hwaiting : ∀ frame ∈ s.frames.tail, frame.code ≠ []) {frame : Frame}
    (hframe : frame ∈ call.below) : frame.code ≠ [] := by
  rcases of_call? h with ⟨env, code, callers, rest, hframes, _, hbelow⟩
  rw [hframes, List.tail_cons] at hwaiting
  rw [hbelow] at hframe
  split at hframe
  · exact hwaiting frame hframe
  · rename_i hcode
    rcases List.mem_cons.mp hframe with rfl | hframe
    · simpa using hcode
    · exact hwaiting frame hframe

/-- Where no call is made, no closure is applied. -/
theorem callee?_eq_none (h : s.call? = none) : s.callee? = none := by
  cases hcallee : s.callee? with
  | none => rfl
  | some c =>
      unfold callee? at hcallee
      split at hcallee
      · rename_i hframes hstack
        simp [call?, hframes, hstack] at h
      · cases hcallee

end State

namespace Machine

variable {m : Machine} {s s' : State} {call : Call}

/-- A call refuses its operand, exceeds the limit, or activates the closure. -/
theorem step_call (hdrops : m.dropsCallers = true) (h : s.call? = some call) :
    call.Made m s (m.step s) := by
  rcases s with ⟨frames, stack, store, printed⟩
  rcases State.of_call? h with ⟨env, code, callers, rest, hframes, hstack, hbelow⟩
  cases hframes
  cases hstack
  have hcallers : Focus.callersBelow ⟨env, code, callers, rest, store, printed⟩ m =
      call.below := by
    rw [hbelow, Focus.callersBelow_eq, hdrops, Bool.true_and]
  simp only [step_cons_cons, Instr.perform_eq, Focus.apply_eq, Focus.applyValue_eq, Focus.call_eq,
    hcallers]
  by_cases hfits : call.Fits store
  · rcases Closure.Fits.bindOperand hfits with ⟨scope, hbind⟩
    rw [hbind]
    cases hlimit : m.limitAbove? call.below with
    | some limit => exact .exceeds hfits hlimit
    | none => exact .activates hfits hlimit rfl
  · rw [Closure.bindOperand_of_not_fits hfits]
    exact .refused hfits

/-- A step that makes no call exceeds no limit. -/
theorem step_failsFor_of_no_call (h : s.call? = none) : (m.step s).FailsFor (· ≠ .depth) := by
  rcases s with ⟨frames, stack, store, printed⟩
  match frames with
  | [] => rintro fault s' ⟨⟩
  | ⟨env, []⟩ :: callers => rintro fault s' ⟨⟩
  | ⟨env, i :: code⟩ :: callers =>
      rw [step_cons_cons]
      refine Transition.FailsFor.atLine ?_ i.line
      refine Instr.perform_failsFor m ?_ ?_ ?_ ?_
      · decide
      · decide
      · exact fun _ _ _ => by decide
      · rintro line c operand rest rfl hstack
        cases hstack
        cases h

/-! ## The frames of a state -/

/-- The frames of a state below the top one have code left, and there are no more frames
than the limit allows. -/
structure Stacked (m : Machine) (s : State) : Prop where
  waiting : ∀ frame ∈ s.frames.tail, frame.code ≠ []
  within : ∀ limit, m.maxDepth = some limit → s.frames.length ≤ limit

/-- Where one more frame is allowed, there are fewer frames than the limit allows. -/
theorem length_lt_of_limitAbove? {frames : List Frame} (h : m.limitAbove? frames = none)
    {limit : Nat} (hlimit : m.maxDepth = some limit) : frames.length < limit := by
  apply Nat.lt_of_not_le
  intro hle
  rw [limitAbove?_eq_some.mpr ⟨hlimit, hle⟩] at h
  cases h

/-- A step keeps the frames stacked. -/
theorem Stacked.step (hdrops : m.dropsCallers = true) (h : m.Stacked s)
    (hstep : m.step s = .next s') : m.Stacked s' := by
  cases hcall : s.call? with
  | some call =>
      have hmade := m.step_call hdrops hcall
      rw [hstep] at hmade
      cases hmade with
      | activates _ hlimit hframes =>
          refine ⟨?_, ?_⟩
          · rw [hframes]
            exact fun frame hframe => State.code_ne_nil_of_mem_below hcall h.waiting hframe
          · intro limit hmax
            rw [hframes]
            exact length_lt_of_limitAbove? hlimit hmax
  | none =>
      rcases step_cases hstep with ⟨env, hframes, _⟩ |
        ⟨env, i, code, code', callers, hframes, hframes', _⟩ | ⟨_, _, c, _, _, _, hcallee, _⟩
      · -- the frame that is dropped was on top
        rcases h with ⟨hwaiting, hwithin⟩
        rw [hframes] at hwaiting hwithin
        refine ⟨fun frame hframe => hwaiting frame (List.mem_of_mem_tail hframe), ?_⟩
        exact fun limit hmax => Nat.le_of_succ_le (hwithin limit hmax)
      · rcases h with ⟨hwaiting, hwithin⟩
        rw [hframes] at hwaiting hwithin
        exact ⟨hframes' ▸ hwaiting, hframes' ▸ hwithin⟩
      · rw [State.callee?_eq_none hcall] at hcallee
        cases hcallee

/-- In every reachable state the frames are stacked. -/
theorem Reachable.stacked (hdrops : m.dropsCallers = true) {root : Block} {store : Store}
    (h : m.Reachable root store s) : m.Stacked s := by
  refine h.invariant ?_ fun _ _ hstacked hstep => hstacked.step hdrops hstep
  intro s₀ hstart
  unfold start at hstart
  split at hstart
  · cases hstart
  · rename_i hlimit
    cases hstart
    exact ⟨nofun, fun limit hmax => length_lt_of_limitAbove? hlimit hmax⟩

/-- In a reachable state a call is forbidden exactly when as many frames are to stay below
the callee as the limit allows. -/
theorem Stacked.limitAbove?_below (h : m.Stacked s) (hcall : s.call? = some call) {n : Nat} :
    m.limitAbove? call.below = some n ↔ m.maxDepth = some n ∧ call.below.length = n := by
  rw [limitAbove?_eq_some]
  refine and_congr_right fun hmax => ⟨fun hle => ?_, fun heq => Nat.le_of_eq heq.symm⟩
  rcases State.of_call? hcall with ⟨env, code, callers, rest, hframes, _, hbelow⟩
  have hwithin := h.within n hmax
  have hlength : call.below.length ≤ s.frames.length := by
    rw [hbelow, hframes]
    split
    · exact Nat.le_succ _
    · exact Nat.le_refl _
  omega

/-- A finished caller is dropped, which makes room for the callee. -/
theorem Stacked.not_exceeds_of_finished (hdrops : m.dropsCallers = true) (h : m.Stacked s)
    {env : Env} {line : Nat} {callers : List Frame}
    (hframes : s.frames = ⟨env, [.apply line]⟩ :: callers) :
    (m.step s).FailsFor (· ≠ .depth) := by
  cases hcall : s.call? with
  | none => exact step_failsFor_of_no_call hcall
  | some call =>
      intro fault s' hfailed
      have hmade := m.step_call hdrops hcall
      rw [hfailed] at hmade
      cases hmade with
      | refused hfits =>
          cases hoperand : call.operand <;> simp [Closure.misfit, Cause.origin]
      | exceeds _ hlimit =>
          rcases State.of_call? hcall with ⟨_, code, _, _, hframes', _, hbelow⟩
          rw [hframes] at hframes'
          cases hframes'
          rcases limitAbove?_eq_some.mp hlimit with ⟨hmax, hle⟩
          have hwithin := h.within _ hmax
          rw [hframes, List.length_cons] at hwithin
          rw [hbelow] at hle
          exact absurd (Nat.le_trans hwithin hle) (Nat.not_succ_le_self _)

/-! ## Exceeding the limit -/

/-- The two reasons for which programs are refused. -/
theorem refusal?_eq_some {p : Program} {cause : Cause} (h : m.refusal? p = some cause) :
    cause = .notStandardized ∨
      cause = .malformed "program was lowered with a different interner" := by
  unfold refusal? at h
  split at h
  · cases h
    exact Or.inl rfl
  · split at h
    · cases h
      exact Or.inr rfl
    · cases h

/-- The first activation exceeds a limit of zero and no other. -/
theorem start_eq_failed_iff {root : Block} {store : Store} {fault : Fault} :
    m.start root store = .failed fault s ↔
      m.maxDepth = some 0 ∧ fault = .of (.depthExceeded 0) ∧ s = ⟨[], [], store, #[]⟩ := by
  unfold start
  cases hlimit : m.limitAbove? [] with
  | some limit =>
      rcases limitAbove?_eq_some.mp hlimit with ⟨hmax, hle⟩
      obtain rfl : limit = 0 := Nat.le_zero.mp hle
      simp [hmax, eq_comm]
  | none =>
      have hmax : m.maxDepth ≠ some 0 := by
        intro hmax
        exact absurd (length_lt_of_limitAbove? hlimit hmax) (Nat.lt_irrefl 0)
      simp [hmax]

/-- An evaluation exceeds the limit exactly when the first activation is forbidden, or a
call whose operand fits is made while as many frames stay as the limit allows. -/
theorem evaluate_exceeds_iff (hdrops : m.dropsCallers = true) {p : Program}
    {session : Session} (hrefusal : m.refusal? p = none) (n : Nat) :
    (∃ fuel fault session', m.evaluate fuel p session = some (.error fault, session') ∧
        fault.cause = .depthExceeded n) ↔
      m.maxDepth = some n ∧ (n = 0 ∨ ∃ s call, m.Reachable p.root session.store s ∧
        s.call? = some call ∧ call.Fits s.store ∧ call.below.length = n) := by
  constructor
  · rintro ⟨fuel, fault, session', hevaluate, hcause⟩
    rcases after_of_evaluate_error hrefusal hevaluate with ⟨s', hafter, _⟩
    rcases failed_of_after hafter with hstart | ⟨s, hreachable, hstep⟩
    · rcases start_eq_failed_iff.mp hstart with ⟨hmax, rfl, _⟩
      cases hcause
      exact ⟨hmax, Or.inl rfl⟩
    · cases hcall : s.call? with
      | none =>
          have horigin := step_failsFor_of_no_call hcall fault s' hstep
          rw [hcause] at horigin
          exact absurd rfl horigin
      | some call =>
          have hmade := m.step_call hdrops hcall
          rw [hstep] at hmade
          cases hmade with
          | refused _ =>
              cases hoperand : call.operand <;> simp [Closure.misfit, hoperand] at hcause
          | exceeds hfits hlimit =>
              cases hcause
              rcases ((hreachable.stacked hdrops).limitAbove?_below hcall).mp hlimit with
                ⟨hmax, hlength⟩
              exact ⟨hmax, Or.inr ⟨s, call, hreachable, hcall, hfits, hlength⟩⟩
  · rintro ⟨hmax, rfl | ⟨s, call, hreachable, hcall, hfits, hlength⟩⟩
    · have hstart : m.start p.root session.store =
          .failed (.of (.depthExceeded 0)) ⟨[], [], session.store, #[]⟩ :=
        start_eq_failed_iff.mpr ⟨hmax, rfl, rfl⟩
      have hevaluate := evaluate_of_not_refused hrefusal 0 session
      rw [after_zero, hstart] at hevaluate
      exact ⟨0, _, _, hevaluate, rfl⟩
    · have hmade := m.step_call hdrops hcall
      have hlimit := ((hreachable.stacked hdrops).limitAbove?_below hcall).mpr ⟨hmax, hlength⟩
      rcases hreachable with ⟨k, hk⟩
      have hnext := m.after_succ k (m.start p.root session.store)
      rw [hk, advance] at hnext
      generalize m.step s = t at hmade hnext
      cases hmade with
      | refused hnot => exact absurd hfits hnot
      | activates _ hnone _ =>
          rw [hlimit] at hnone
          cases hnone
      | exceeds _ hlimit' =>
          rw [hlimit] at hlimit'
          cases hlimit'
          have hevaluate := evaluate_of_not_refused hrefusal (k + 1) session
          rw [hnext] at hevaluate
          exact ⟨k + 1, _, _, hevaluate, rfl⟩

/-- A program that is refused exceeds no limit. -/
theorem refusal?_eq_none_of_exceeds {p : Program} {session : Session} {n : Nat}
    (h : ∃ fuel fault session', m.evaluate fuel p session = some (.error fault, session') ∧
      fault.cause = .depthExceeded n) : m.refusal? p = none := by
  rcases h with ⟨fuel, fault, session', hevaluate, hcause⟩
  cases hrefusal : m.refusal? p with
  | none => rfl
  | some cause =>
      unfold evaluate at hevaluate
      rw [hrefusal] at hevaluate
      cases hevaluate
      rcases refusal?_eq_some hrefusal with rfl | rfl
      · cases hcause
      · cases hcause

end Machine

/-! ## Malformed control -/

/-- The instructions whose rules look up the current frame, given the values on the stack: those
that read its environment, put code in front of its code, or take an application off it. -/
inductive Instr.LooksUp : Instr → List Value → Prop
  | ident (line : Nat) (x : Name) (stack : List Value) : LooksUp (.ident line x) stack
  | lambda (line : Nat) (b : Block) (stack : List Value) : LooksUp (.lambda line b) stack
  | branch (line : Nat) (thenArm elseArm : List Instr) (b : Bool) (stack : List Value) :
      LooksUp (.branch line thenArm elseArm) (.bool b :: stack)
  | unroll (line : Nat) (c : Closure) (operand : Value) (stack : List Value) :
      LooksUp (.apply line) (.eta c :: operand :: stack)
  | conc (line : Nat) (first : Value) (stack : List Value) :
      LooksUp (.apply line) (.builtin .conc :: first :: stack)

/-- A transition that finds control malformed, if it does, because values are missing, or,
given `frameless`, because the current frame is. -/
def Transition.Misses (frameless : Prop) (t : Transition) : Prop :=
  ∀ fault s detail, t = .failed fault s → fault.cause = .malformed detail →
    detail = "value stack underflow" ∨ detail = "not enough values to form a tuple" ∨
      frameless ∧ detail = "no active control structure"

theorem Transition.Misses.mono {t : Transition} {p q : Prop} (h : t.Misses p) (hpq : p → q) :
    t.Misses q := by
  intro fault s detail hfailed hcause
  rcases h fault s detail hfailed hcause with heq | heq | ⟨hp, heq⟩
  · exact Or.inl heq
  · exact Or.inr (Or.inl heq)
  · exact Or.inr (Or.inr ⟨hpq hp, heq⟩)

theorem Transition.Misses.atLine {t : Transition} {frameless : Prop} (h : t.Misses frameless)
    (line : Nat) : (t.atLine line).Misses frameless := by
  intro fault s detail hfailed
  rcases exists_of_atLine_eq_failed hfailed with ⟨fault₀, hfault₀, rfl⟩
  exact h fault₀ s detail hfault₀

namespace State

variable {s : State} {i : Instr} {frameless : Prop}

theorem fail_misses (s : State) (code : ErrorCode) (hcode : code ≠ .malformed) {fault : Fault}
    (h : fault.cause.code = code) : (s.fail fault).Misses frameless := by
  rintro _ _ detail ⟨⟩ hcause
  rw [hcause] at h
  exact absurd h.symm hcode

theorem underflow_misses (s : State) : s.underflow.Misses frameless := by
  rintro _ _ detail ⟨⟩ ⟨⟩
  exact Or.inl rfl

theorem pushResult_misses (s : State) {codes : List ErrorCode} {r : Except Fault Value}
    (hr : FailsUnder codes r) (hcodes : .malformed ∉ codes) :
    (s.pushResult r).Misses frameless := by
  cases r with
  | ok v => rintro _ _ _ ⟨⟩
  | error fault =>
      refine s.fail_misses fault.cause.code (fun hcode => hcodes ?_) rfl
      rw [← hcode]
      exact hr fault rfl

/-- Looking up the current frame misses it where there is none. -/
theorem inFrame_misses {rule : Frame → Transition}
    (hrule : ∀ frame, (rule frame).Misses frameless) (hnone : s.frames = [] → frameless) :
    (s.inFrame rule).Misses frameless := by
  rcases s with ⟨frames, stack, store, printed⟩
  cases frames with
  | nil =>
      rw [inFrame_nil]
      rintro _ _ detail ⟨⟩ ⟨⟩
      exact Or.inr (Or.inr ⟨hnone rfl, rfl⟩)
  | cons frame callers =>
      rw [inFrame_cons]
      exact hrule frame

theorem prepend_misses (hnone : s.frames = [] → frameless) (code : List Instr) :
    (s.prepend code).Misses frameless :=
  inFrame_misses (fun _ => by rintro _ _ _ ⟨⟩) hnone

theorem ident_misses (hnone : s.frames = [] → frameless) (m : Machine) (x : Name) :
    (s.ident m x).Misses frameless := by
  refine inFrame_misses (fun frame => ?_) hnone
  split
  · rintro _ _ _ ⟨⟩
  · split
    · rintro _ _ _ ⟨⟩
    · exact s.fail_misses .undeclared (by decide) rfl

theorem conc_misses (hnone : s.frames = [] → frameless) (first : Value) :
    (s.conc first).Misses frameless := by
  refine inFrame_misses (fun frame => ?_) hnone
  split
  · split
    · have hwrongKind : ErrorCode.wrongKind ∈ [ErrorCode.wrongKind] := List.mem_cons_self
      exact pushResult_misses _ (Builtin.applyConc_failsUnder hwrongKind _ _ _) (by decide)
    · exact underflow_misses _
  · exact s.fail_misses .missingOperand (by decide) rfl

theorem call_misses (m : Machine) (c : Closure) (operand : Value) :
    (s.call m c operand).Misses frameless := by
  have hbound := c.bindOperand_failsUnder s.store operand
  unfold call
  split
  · rename_i cause hbind
    rw [hbind] at hbound
    refine s.fail_misses cause.code (fun hcode => ?_) rfl
    have hmem : cause.code ∈ [.wrongKind, .arityMismatch] := hbound _ rfl
    rw [hcode] at hmem
    exact absurd hmem (by decide)
  · simp only []
    split
    · exact s.fail_misses .depthExceeded (by decide) rfl
    · rintro _ _ _ ⟨⟩

theorem applyBuiltin_misses {b : Builtin} (hnone : b = .conc → s.frames = [] → frameless)
    (operand : Value) : (s.applyBuiltin b operand).Misses frameless := by
  by_cases hprint : b = .print
  · subst hprint
    rintro _ _ _ ⟨⟩
  · by_cases hconc : b = .conc
    · subst hconc
      exact conc_misses (hnone rfl) operand
    · rw [applyBuiltin_of_ne hprint hconc]
      refine s.pushResult_misses (b.apply_failsUnder _ _) ?_
      cases b <;> decide

/-- Of all values only closures under the fixed-point operator and `Conc` look up the current
frame when they are applied. -/
theorem applyValue_misses (m : Machine) (line : Nat) (operator operand : Value) :
    (s.applyValue m line operator operand).Misses
      (s.frames = [] ∧ Instr.LooksUp (.apply line) (operator :: operand :: s.stack)) := by
  cases operator with
  | closure c => exact call_misses m c operand
  | fixpoint =>
      cases operand with
      | closure c => rintro _ _ _ ⟨⟩
      | _ => exact s.fail_misses .wrongKind (by decide) rfl
  | eta c => exact prepend_misses (fun hframes => ⟨hframes, .unroll line c operand s.stack⟩) _
  | tuple ref =>
      cases operand with
      | int index =>
          exact s.pushResult_misses (Store.select_failsUnder _ ref _) (by simp [Value.failures])
      | _ => exact s.fail_misses .wrongKind (by decide) rfl
  | builtin b =>
      refine applyBuiltin_misses ?_ operand
      rintro rfl hframes
      exact ⟨hframes, .conc line operand s.stack⟩
  | _ => exact s.fail_misses .notApplicable (by decide) rfl

/-- An instruction finds control malformed only because values are missing, or because it looks
up the current frame where there is none. -/
theorem perform_misses (m : Machine) (s : State) (i : Instr) :
    (s.perform m i).Misses (s.frames = [] ∧ i.LooksUp s.stack) := by
  rcases s with ⟨frames, stack, store, printed⟩
  cases i with
  | ident line x => exact ident_misses (fun hframes => ⟨hframes, .ident line x stack⟩) m x
  | literal line v => rintro _ _ _ ⟨⟩
  | lambda line b =>
      refine inFrame_misses (fun frame => ?_) fun hframes => ⟨hframes, .lambda line b stack⟩
      rintro _ _ _ ⟨⟩
  | fixpoint line => rintro _ _ _ ⟨⟩
  | binary line op =>
      match stack with
      | [] => exact underflow_misses _
      | [_] => exact underflow_misses _
      | left :: right :: rest =>
          refine pushResult_misses _ (op.apply_failsUnder store left right) ?_
          cases op <;> decide
  | unary line op =>
      cases stack with
      | nil => exact underflow_misses _
      | cons operand rest =>
          refine pushResult_misses _ (op.apply_failsUnder store operand) ?_
          cases op <;> decide
  | tuple line arity =>
      simp only [perform, formTuple]
      split
      · rintro _ _ _ ⟨⟩
      · rintro _ _ _ ⟨⟩ ⟨⟩
        exact Or.inr (Or.inl rfl)
  | branch line thenArm elseArm =>
      cases stack with
      | nil => exact underflow_misses _
      | cons v rest =>
          cases v with
          | bool b =>
              exact prepend_misses
                (fun hframes => ⟨hframes, .branch line thenArm elseArm b rest⟩) _
          | _ => exact fail_misses _ .wrongKind (by decide) rfl
  | apply line =>
      match stack with
      | [] => exact underflow_misses _
      | [_] => exact underflow_misses _
      | operator :: operand :: rest =>
          exact applyValue_misses (s := ⟨frames, rest, store, printed⟩) m line operator operand

/-- Without a frame, an instruction that looks up the current one does miss it. -/
theorem perform_of_looksUp (m : Machine) (h : i.LooksUp s.stack) (hframes : s.frames = []) :
    ∃ s', s.perform m i = .failed (Cause.malformed "no active control structure") s' := by
  rcases s with ⟨frames, stack, store, printed⟩
  cases hframes
  generalize hstack : stack = values at h
  cases h with
  | ident line x => exact ⟨_, rfl⟩
  | lambda line b => exact ⟨_, rfl⟩
  | branch line t e b rest =>
      subst hstack
      exact ⟨_, rfl⟩
  | unroll line c operand rest =>
      subst hstack
      exact ⟨_, rfl⟩
  | conc line first rest =>
      subst hstack
      exact ⟨_, rfl⟩

/-- An instruction misses the current frame exactly if there is none and it looks it up. -/
theorem perform_misses_frame_iff (m : Machine) (s : State) (i : Instr) :
    (∃ s', s.perform m i = .failed (Cause.malformed "no active control structure") s') ↔
      s.frames = [] ∧ i.LooksUp s.stack := by
  refine ⟨?_, fun ⟨hframes, hlooks⟩ => perform_of_looksUp m hlooks hframes⟩
  rintro ⟨s', hs'⟩
  rcases perform_misses m s i _ s' _ hs' rfl with heq | heq | ⟨hmisses, -⟩
  · exact absurd heq (by decide)
  · exact absurd heq (by decide)
  · exact hmisses

end State

namespace Machine

variable {m : Machine} {s s' : State} {p : Program} {session : Session}

/-- A step finds control malformed only because values are missing. -/
theorem step_misses (m : Machine) (s : State) : (m.step s).Misses False := by
  rcases s with ⟨frames, stack, store, printed⟩
  match frames with
  | [] => rintro _ _ _ ⟨⟩
  | ⟨env, []⟩ :: callers => rintro _ _ _ ⟨⟩
  | ⟨env, i :: code⟩ :: callers =>
      have hperform := State.perform_misses m ⟨⟨env, code⟩ :: callers, stack, store, printed⟩ i
      exact (hperform.mono fun h => List.cons_ne_nil _ _ h.1).atLine i.line

/-- An evaluation finds control malformed only because values are missing, or because the
names of the program are those of another table. -/
theorem evaluate_malformed {fuel : Nat} {fault : Fault} {session' : Session} {detail : String}
    (h : m.evaluate fuel p session = some (.error fault, session'))
    (hcause : fault.cause = .malformed detail) :
    detail = "program was lowered with a different interner" ∨
      detail = "value stack underflow" ∨ detail = "not enough values to form a tuple" := by
  cases hrefusal : m.refusal? p with
  | some cause =>
      unfold evaluate at h
      rw [hrefusal] at h
      cases h
      rcases refusal?_eq_some hrefusal with rfl | rfl
      · cases hcause
      · cases hcause
        exact Or.inl rfl
  | none =>
      rcases after_of_evaluate_error hrefusal h with ⟨s, hafter, _⟩
      rcases failed_of_after hafter with hstart | ⟨s₀, _, hstep⟩
      · rcases start_eq_failed_iff.mp hstart with ⟨_, rfl, _⟩
        cases hcause
      · have hmisses := m.step_misses s₀ fault s detail hstep hcause
        exact Or.inr (by simpa using hmisses)

/-- An instruction leaves a frame behind. -/
theorem frames_ne_nil_of_step {env : Env} {i : Instr} {code : List Instr} {callers : List Frame}
    (hframes : s.frames = ⟨env, i :: code⟩ :: callers) (hstep : m.step s = .next s') :
    s'.frames ≠ [] := by
  rcases step_cases hstep with ⟨_, hfinished, _⟩ | ⟨_, _, _, _, _, _, hframes', _⟩ |
    ⟨_, _, _, _, _, _, _, hactivates⟩
  · rw [hframes] at hfinished
    cases hfinished
  · rw [hframes']
    exact List.cons_ne_nil _ _
  · rw [hactivates.frames]
    exact List.cons_ne_nil _ _

end Machine

/-! ## Instructions and their frames -/

namespace State

variable {s t : State} {i : Instr}

/-- The instruction that the next step performs, if it performs one, and the state that it is
performed in: the instruction has been taken off the code of the current frame. -/
def taken? (s : State) : Option (Instr × State) :=
  match s.frames with
  | ⟨env, i :: code⟩ :: callers =>
    some (i, ⟨⟨env, code⟩ :: callers, s.stack, s.store, s.printed⟩)
  | _ => none

/-- The instruction was the first of the current frame, which is still the current one. -/
theorem of_taken? (h : s.taken? = some (i, t)) :
    ∃ env code callers, s.frames = ⟨env, i :: code⟩ :: callers ∧
      t = ⟨⟨env, code⟩ :: callers, s.stack, s.store, s.printed⟩ := by
  unfold taken? at h
  split at h
  · rename_i env i' code callers hframes
    cases h
    exact ⟨env, code, callers, hframes, rfl⟩
  · cases h

end State

namespace Machine

variable {m : Machine} {s s' t : State} {i : Instr}

/-- A step performs the instruction that is to be performed next. -/
theorem step_of_taken? (m : Machine) (h : s.taken? = some (i, t)) :
    m.step s = (t.perform m i).atLine i.line := by
  rcases State.of_taken? h with ⟨env, code, callers, hframes, rfl⟩
  rcases s with ⟨frames, stack, store, printed⟩
  cases hframes
  rfl

/-- No step misses the current frame. -/
theorem step_ne_missing {fault : Fault} (h : m.step s = .failed fault s') :
    fault.cause ≠ .malformed "no active control structure" := by
  intro hcause
  exact absurd (m.step_misses s fault s' _ h hcause) (by decide)

/-! ## Evaluations -/

/-- What holds of the frames between any two steps of a run. -/
structure Framed (m : Machine) (s : State) : Prop where
  /-- Every frame below the top one has code left, and the limit bounds the frames. -/
  stacked : m.Stacked s
  /-- An instruction is performed with a current frame, the one that it has been taken from. -/
  current : ∀ i t, s.taken? = some (i, t) →
    m.step s = (t.perform m i).atLine i.line ∧
      ∃ env code callers, s.frames = ⟨env, i :: code⟩ :: callers ∧
        t.currentFrame = .ok ⟨env, code⟩
  /-- No step misses the current frame. -/
  found : ∀ fault s', m.step s = .failed fault s' →
    fault.cause ≠ .malformed "no active control structure"
  /-- An instruction leaves a frame behind. -/
  nonempty : ∀ env i code callers s', s.frames = ⟨env, i :: code⟩ :: callers →
    m.step s = .next s' → s'.frames ≠ []
  /-- Calls are refused, exceed the limit, or are made. -/
  made : ∀ call, s.call? = some call → call.Made m s (m.step s)
  /-- The limit is exceeded only by as many frames as it allows. -/
  exceeded : ∀ call, s.call? = some call → ∀ n,
    m.limitAbove? call.below = some n ↔ m.maxDepth = some n ∧ call.below.length = n
  /-- Nothing else exceeds the limit. -/
  uncalled : s.call? = none → (m.step s).FailsFor (· ≠ .depth)
  /-- A frame that has no code left makes room for the callee. -/
  finished : ∀ env line callers, s.frames = ⟨env, [.apply line]⟩ :: callers →
    (m.step s).FailsFor (· ≠ .depth)

/-- In every reachable state the frames are as they should be. -/
theorem Reachable.framed (hdrops : m.dropsCallers = true) {root : Block} {store : Store}
    (h : m.Reachable root store s) : m.Framed s where
  stacked := h.stacked hdrops
  current _ _ htaken := by
    refine ⟨m.step_of_taken? htaken, ?_⟩
    rcases State.of_taken? htaken with ⟨env, code, callers, hframes, rfl⟩
    exact ⟨env, code, callers, hframes, rfl⟩
  found _ _ hfailed := step_ne_missing hfailed
  nonempty _ _ _ _ _ hframes hstep := frames_ne_nil_of_step hframes hstep
  made _ hcall := m.step_call hdrops hcall
  exceeded _ hcall _ := (h.stacked hdrops).limitAbove?_below hcall
  uncalled hcall := step_failsFor_of_no_call hcall
  finished _ _ _ hframes := (h.stacked hdrops).not_exceeds_of_finished hdrops hframes

/-- The frames of a run.  An instruction that looks up the current frame finds control malformed
exactly where there is none.  Between any two steps, every frame below the top one has code
left and the limit bounds the frames; an instruction is performed with a current frame, so
control is never malformed for want of one.  The limit is exceeded exactly by the first
activation, if it is zero, and by a call whose operand fits the closure and which leaves as
many frames below its callee as the limit allows; an operand that does not fit is refused
first. -/
theorem frames_run (m : Machine) (hdrops : m.dropsCallers = true) (p : Program)
    (session : Session) :
    (∀ (s : State) (i : Instr),
      (∃ s', s.perform m i = .failed (Cause.malformed "no active control structure") s') ↔
        s.frames = [] ∧ i.LooksUp s.stack) ∧
    (∀ s, m.Reachable p.root session.store s → m.Framed s) ∧
    (∀ fuel fault session', m.evaluate fuel p session = some (.error fault, session') →
      fault.cause ≠ .malformed "no active control structure") ∧
    ∀ n, (∃ fuel fault session', m.evaluate fuel p session = some (.error fault, session') ∧
        fault.cause = .depthExceeded n) ↔
      m.refusal? p = none ∧ m.maxDepth = some n ∧
        (n = 0 ∨ ∃ s call, m.Reachable p.root session.store s ∧
          s.call? = some call ∧ call.Fits s.store ∧ call.below.length = n) := by
  refine ⟨State.perform_misses_frame_iff m, fun s h => h.framed hdrops, ?_,
    fun n => ⟨?_, ?_⟩⟩
  · intro fuel fault session' hevaluate hcause
    rcases evaluate_malformed hevaluate hcause with heq | heq | heq
    · exact absurd heq (by decide)
    · exact absurd heq (by decide)
    · exact absurd heq (by decide)
  · intro hexceeds
    have hrefusal := refusal?_eq_none_of_exceeds hexceeds
    exact ⟨hrefusal, (evaluate_exceeds_iff hdrops hrefusal n).mp hexceeds⟩
  · rintro ⟨hrefusal, hcall⟩
    exact (evaluate_exceeds_iff hdrops hrefusal n).mpr hcall

/-- The run of `not ((fn x. x) true)` exceeds a limit of one, so it makes a call while one
frame is left. -/
theorem frames_run_not :
    let p : Program := ⟨⟨0, [], [.literal 1 (.bool true),
      .lambda 1 ⟨1, [⟨0⟩], [.ident 1 ⟨0⟩]⟩, .apply 1, .unary 1 .not]⟩, true, 0⟩
    let m : Machine := ⟨⟨0, ["x"]⟩, some 1, true⟩
    m.dropsCallers = true ∧ ∃ s call, m.Reachable p.root Store.empty s ∧
      s.call? = some call ∧ call.Fits s.store ∧ call.below.length = 1 := by
  intro p m
  refine ⟨rfl, ?_⟩
  have hexceeds := ((frames_run m rfl p (.fresh .silent)).2.2.2 1).mp ⟨3, _, _, rfl, rfl⟩
  rcases hexceeds with ⟨_, _, hzero | hcall⟩
  · cases hzero
  · exact hcall

end Machine

end CSEMachine
