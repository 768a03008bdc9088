import CSEMachine.Proofs.Direct.Simulation
import CSEMachine.Proofs.DepthLimit
import CSEMachine.Proofs.Nesting.Maps

/-!
# Steps of recursive functions

A recursive function of one parameter is the fixed point of a closure `fn f. fn n. body`.  To
apply it, the closure is activated on the fixed point itself, which gives `fn n. body`, and
that is activated on the operand.  The first of the two activations is over before the second
one begins, but it needs a frame above that of the caller.

Main results:

- Theorem `Machine.Leads.keeps`: environments keep their meaning along a run.
- Theorem `Recursion.enters`: applying the fixed point enters the body.
- Theorem `Recursion.exceeds`: it exceeds a limit that leaves no room above the caller.
- Theorem `Recursion.At.stops`: the body is over at zero.
- Theorem `Recursion.At.recurs`: otherwise a body that starts with `f (n - 1)` enters the body
  for the operand less one.
-/

namespace CSEMachine

namespace Machine

variable {m : Machine} {s s' : State}

/-- A step keeps all scopes. -/
theorem step_keeps (h : m.step s = .next s') : s.store.Keeps s'.store := by
  rcases step_cases h with ⟨_, _, hscopes⟩ | ⟨_, _, _, _, _, _, _, _, hscopes⟩ |
    ⟨f, _, c, _, hstore, _, _, hactivates⟩
  · exact .of_scopes_eq hscopes
  · exact .of_scopes_eq hscopes
  · rcases hactivates.scopes with ⟨vs, _, hscopes⟩
    rw [hstore] at hscopes
    exact .of_scopes_push hscopes

/-- Environments keep their meaning along a run. -/
theorem Leads.keeps (h : m.Leads s s') : s.store.Keeps s'.store := by
  rcases h with ⟨n, hn⟩
  induction n generalizing s with
  | zero =>
      cases hn
      exact .refl _
  | succ n ih =>
      rw [after_succ_next] at hn
      cases hstep : m.step s with
      | next s₁ =>
          rw [hstep] at hn
          exact (step_keeps hstep).trans (ih hn)
      | halted s₁ => simp [hstep] at hn
      | failed fault s₁ => simp [hstep] at hn

/-! ## Passages and failures -/

/-- A run gets from one state to another, and all states before the latter have at most so
many frames and values. -/
inductive Passes (m : Machine) (frames values : Nat) : State → State → Prop
  | refl (s : State) : Passes m frames values s s
  | step {s s' s'' : State} (hframes : s.frames.length ≤ frames)
      (hvalues : s.stack.length ≤ values) (hstep : m.step s = .next s')
      (h : Passes m frames values s' s'') : Passes m frames values s s''

namespace Passes

variable {frames values : Nat} {s'' : State}

theorem trans (h : m.Passes frames values s s') (h' : m.Passes frames values s' s'') :
    m.Passes frames values s s'' := by
  induction h with
  | refl s => exact h'
  | step hframes hvalues hstep _ ih => exact .step hframes hvalues hstep (ih h')

theorem leads (h : m.Passes frames values s s') : m.Leads s s' := by
  induction h with
  | refl s => exact .refl m s
  | step _ _ hstep _ ih => exact (Leads.of_step hstep).trans ih

end Passes

/-- A run fails for a cause. -/
def Fails (m : Machine) (s : State) (cause : Cause) : Prop :=
  ∃ n fault s', m.after n (.next s) = .failed fault s' ∧ fault.cause = cause

/-- Steps before a failure change nothing. -/
theorem Leads.fails {cause : Cause} (h : m.Leads s s') (hfails : m.Fails s' cause) :
    m.Fails s cause := by
  rcases h with ⟨n, hn⟩
  rcases hfails with ⟨k, fault, s'', hk, hcause⟩
  exact ⟨k + n, fault, s'', by rw [after_add, hn, hk], hcause⟩

theorem fails_of_step {fault : Fault} (h : m.step s = .failed fault s') :
    m.Fails s fault.cause :=
  ⟨1, fault, s', h, rfl⟩

end Machine

/-! ## Scopes of activations -/

namespace Env

variable {env : Env} {store : Store}

/-- The scope of an activation and those around it are in the store. -/
theorem lt_size_activated (h : ∀ i ∈ env.scopes, i < store.scopes.size) (b : Bindings) :
    ∀ i ∈ (⟨store.scopes.size, env.scopes⟩ : Env).scopes,
      i < (store.addScope b).2.scopes.size := by
  have hsize : (store.addScope b).2.scopes.size = store.scopes.size + 1 := by
    simp [Store.addScope]
  intro i hi
  rw [hsize]
  rcases List.mem_cons.mp hi with rfl | hi
  · exact Nat.lt_succ_self _
  · exact Nat.lt_succ_of_lt (h i hi)

/-- The scope of an activation binds its parameter and leaves all other names alone. -/
theorem lookup_activated (h : ∀ i ∈ env.scopes, i < store.scopes.size) (x y : Name) (v : Value) :
    lookup ⟨store.scopes.size, env.scopes⟩ (store.addScope [(x, v)]).2 y =
      if y = x then some v else env.lookup store y := by
  have hclose : lookup ⟨store.scopes.size, env.scopes⟩ (store.addScope [(x, v)]).2 y =
      (Bindings.find? y [(x, v)] <|> env.lookup store y) :=
    @Scope.lookup_close ⟨env, [(x, v)]⟩ store y h
  rw [hclose]
  by_cases hy : y = x
  · simp [Bindings.find?, hy]
  · simp [Bindings.find?, hy]

end Env

/-! ## Single steps -/

namespace Machine

variable {m : Machine} {env cenv : Env} {line index : Nat} {x : Name}
  {code body : List Instr} {callers below : List Frame} {v : Value} {stack : List Value}
  {store : Store} {printed : Array String}

/-- A name that is bound gives its value. -/
theorem step_ident (h : env.lookup store x = some v) :
    m.step ⟨⟨env, .ident line x :: code⟩ :: callers, stack, store, printed⟩ =
      .next ⟨⟨env, code⟩ :: callers, v :: stack, store, printed⟩ := by
  simp only [step_cons_cons, Instr.perform_eq, Focus.ident_eq, h]
  rfl

/-- An operator goes on with what it gives. -/
theorem step_binary {op : BinaryOp} {left right : Value} {store' : Store}
    (h : op.apply left right store = (.ok v, store')) :
    m.step ⟨⟨env, .binary line op :: code⟩ :: callers, left :: right :: stack, store, printed⟩ =
      .next ⟨⟨env, code⟩ :: callers, v :: stack, store', printed⟩ := by
  simp only [step_cons_cons, Instr.perform_eq, Focus.binary_eq, h]
  rfl

/-- An operator fails on its own line. -/
theorem step_binary_failed {op : BinaryOp} {left right : Value} {cause : Cause} {store' : Store}
    (h : op.apply left right store = (.error cause, store')) :
    m.step ⟨⟨env, .binary line op :: code⟩ :: callers, left :: right :: stack, store, printed⟩ =
      .failed ⟨cause, some line, []⟩ ⟨⟨env, code⟩ :: callers, stack, store', printed⟩ := by
  simp only [step_cons_cons, Instr.perform_eq, Focus.binary_eq, h]
  rfl

/-- A call drops its caller if that has no code left. -/
theorem callersBelow_of_drops (hdrops : m.dropsCallers = true) :
    Focus.callersBelow ⟨env, code, callers, stack, store, printed⟩ m =
      if code.isEmpty then callers else ⟨env, code⟩ :: callers := by
  rw [Focus.callersBelow_eq, hdrops, Bool.true_and]

/-- A closure of one parameter is activated on any operand. -/
theorem step_call_one (hdrops : m.dropsCallers = true) (hlimit : m.limitAbove? below = none)
    (hbelow : (if code.isEmpty then callers else ⟨env, code⟩ :: callers) = below) :
    m.step ⟨⟨env, .apply line :: code⟩ :: callers,
        .closure ⟨⟨index, [x], body⟩, cenv⟩ :: v :: stack, store, printed⟩ =
      .next ⟨⟨⟨store.scopes.size, cenv.scopes⟩, body⟩ :: below, stack,
        (store.addScope [(x, v)]).2, printed⟩ := by
  simp only [step_cons_cons, Instr.perform_eq, Focus.apply_eq, Focus.applyValue_eq, Focus.call_eq,
    Closure.bindOperand, callersBelow_of_drops hdrops, hbelow, hlimit]
  rfl

/-- It is not activated if the limit forbids that. -/
theorem step_call_one_exceeded (hdrops : m.dropsCallers = true) {limit : Nat}
    (hlimit : m.limitAbove? below = some limit)
    (hbelow : (if code.isEmpty then callers else ⟨env, code⟩ :: callers) = below) :
    m.step ⟨⟨env, .apply line :: code⟩ :: callers,
        .closure ⟨⟨index, [x], body⟩, cenv⟩ :: v :: stack, store, printed⟩ =
      .failed ⟨.depthExceeded limit, some line, []⟩
        ⟨⟨env, code⟩ :: callers, stack, store, printed⟩ := by
  simp only [step_cons_cons, Instr.perform_eq, Focus.apply_eq, Focus.applyValue_eq, Focus.call_eq,
    Closure.bindOperand, callersBelow_of_drops hdrops, hbelow, hlimit]
  rfl

end Machine

/-! ## Recursive functions -/

/-- A closure `fn f. fn n. n eq 0 -> stop | more` over an environment, each node of it on a
line of its own.  Its fixed point is a function of `n` that is called `f` in its own body. -/
structure Recursion where
  line : Nat → Nat
  self : Name
  param : Name
  stop : Literal
  more : List Instr
  env : Env

namespace Recursion

/-- The code of the conditional. -/
def body (r : Recursion) : List Instr :=
  [.literal (r.line 12) (.int 0), .ident (r.line 11) r.param, .binary (r.line 10) .eq,
    .branch (r.line 9) [.literal (r.line 13) r.stop] r.more]

/-- The closure itself. -/
def closure (r : Recursion) : Closure :=
  ⟨⟨2, [r.self], [.lambda (r.line 8) ⟨3, [r.param], r.body⟩]⟩, r.env⟩

/-- The code of `f (n - 1)`, to run before `rest`. -/
def again (r : Recursion) (rest : List Instr) : List Instr :=
  .literal (r.line 18) (.int 1) :: .ident (r.line 17) r.param :: .binary (r.line 16) .sub ::
    .ident (r.line 15) r.self :: .apply (r.line 14) :: rest

/-- An environment in which the body runs for an operand. -/
structure At (r : Recursion) (operand : Value) (env : Env) (store : Store) : Prop where
  scopes : ∀ i ∈ env.scopes, i < store.scopes.size
  outer : ∀ i ∈ r.env.scopes, i < store.scopes.size
  param : env.lookup store r.param = some operand
  self : env.lookup store r.self = some (.eta r.closure)

variable {r : Recursion} {m : Machine} {env : Env} {line : Nat} {code : List Instr}
  {callers : List Frame} {v : Value} {stack : List Value} {store : Store}
  {printed : Array String}

/-- The body can go on in a later store. -/
theorem At.keeps {later : Store} (h : r.At v env store) (hkeeps : store.Keeps later) :
    r.At v env later where
  scopes i hi := Nat.lt_of_lt_of_le (h.scopes i hi) hkeeps.size_le
  outer i hi := Nat.lt_of_lt_of_le (h.outer i hi) hkeeps.size_le
  param := (hkeeps.lookup h.scopes _).trans h.param
  self := (hkeeps.lookup h.scopes _).trans h.self

/-- The scopes of both activations are an environment for the body. -/
theorem at_of_scopes (hne : r.self ≠ r.param) (hvalid : ∀ i ∈ r.env.scopes, i < store.scopes.size)
    (v : Value) :
    let outer : Env := ⟨store.scopes.size, r.env.scopes⟩
    let store₁ := (store.addScope [(r.self, .eta r.closure)]).2
    r.At v ⟨store₁.scopes.size, outer.scopes⟩ (store₁.addScope [(r.param, v)]).2 := by
  intro outer store₁
  have houter := Env.lt_size_activated hvalid [(r.self, .eta r.closure)]
  have hinner := Env.lt_size_activated houter [(r.param, v)]
  refine ⟨hinner, ?_, ?_, ?_⟩
  · intro i hi
    refine hinner i ?_
    exact List.mem_cons_of_mem _ (List.mem_cons_of_mem _ hi)
  · rw [Env.lookup_activated houter, if_pos rfl]
  · rw [Env.lookup_activated houter, if_neg hne, Env.lookup_activated hvalid, if_pos rfl]

/-- Applying the fixed point enters the body, if the limit leaves room above the caller. -/
theorem enters (hne : r.self ≠ r.param) (hdrops : m.dropsCallers = true)
    (hvalid : ∀ i ∈ r.env.scopes, i < store.scopes.size) {below : List Frame}
    (hbelow : (if code.isEmpty then callers else ⟨env, code⟩ :: callers) = below)
    (hroom : Machine.AtMost (some (callers.length + 2)) m.maxDepth) (v : Value)
    (stack : List Value) (printed : Array String) :
    ∃ env' store', r.At v env' store' ∧
      m.Passes (callers.length + 2) (stack.length + 3)
        ⟨⟨env, .apply line :: code⟩ :: callers, .eta r.closure :: v :: stack, store, printed⟩
        ⟨⟨env', r.body⟩ :: below, stack, store', printed⟩ := by
  have hbelow_length : below.length ≤ callers.length + 1 := by
    rw [← hbelow]
    split
    · exact Nat.le_succ _
    · exact Nat.le_refl _
  have hfirst : m.limitAbove? (⟨env, .apply line :: code⟩ :: callers) = none :=
    Machine.limitAbove?_eq_none_iff.mpr hroom
  have hsecond : m.limitAbove? below = none :=
    Machine.limitAbove?_eq_none_iff.mpr (hroom.of_le (Nat.succ_le_succ hbelow_length))
  refine ⟨_, _, at_of_scopes hne hvalid v, ?_⟩
  -- the fixed point is unrolled, and the closure is activated on it
  refine .step (by simp) (by simp) rfl ?_
  refine .step (by simp) (by simp) (Machine.step_call_one hdrops hfirst rfl) ?_
  -- it gives the function of the operand and is over
  refine .step (by simp) (by simp) rfl ?_
  refine .step (by simp) (by simp) rfl ?_
  -- that function is activated on the operand
  refine .step (by simp) (by simp) (Machine.step_call_one hdrops hsecond hbelow) ?_
  exact .refl _

/-- Applying the fixed point exceeds a limit that leaves no room above the caller. -/
theorem exceeds (hdrops : m.dropsCallers = true) {limit : Nat} (hmax : m.maxDepth = some limit)
    (hle : limit ≤ callers.length + 1) :
    m.Fails
      ⟨⟨env, .apply line :: code⟩ :: callers, .eta r.closure :: v :: stack, store, printed⟩
      (.depthExceeded limit) := by
  have hlimit : m.limitAbove? (⟨env, .apply line :: code⟩ :: callers) = some limit :=
    Machine.limitAbove?_eq_some.mpr ⟨hmax, hle⟩
  have hunroll : m.Leads
      ⟨⟨env, .apply line :: code⟩ :: callers, .eta r.closure :: v :: stack, store, printed⟩
      ⟨⟨env, .apply line :: .apply line :: code⟩ :: callers,
        .closure r.closure :: .eta r.closure :: v :: stack, store, printed⟩ := .of_step rfl
  exact hunroll.fails (Machine.fails_of_step (Machine.step_call_one_exceeded hdrops hlimit rfl))

/-- The condition `n eq 0` goes on with one of two arms. -/
theorem At.tests {n : Int64} (h : r.At (.int n) env store) :
    m.Passes (callers.length + 2) (stack.length + 3)
      ⟨⟨env, r.body⟩ :: callers, stack, store, printed⟩
      ⟨⟨env, if n = 0 then [.literal (r.line 13) r.stop] else r.more⟩ :: callers, stack, store,
        printed⟩ := by
  have harm : ((if (n == 0) = true then [.literal (r.line 13) r.stop] else r.more) ++ []) =
      if n = 0 then [.literal (r.line 13) r.stop] else r.more := by
    simp only [List.append_nil, beq_iff_eq]
  refine .step (by simp) (by simp) rfl ?_
  refine .step (by simp) (by simp) (Machine.step_ident h.param) ?_
  refine .step (by simp) (by simp) rfl ?_
  refine .step (by simp) (by simp) rfl ?_
  rw [harm]
  exact .refl _

/-- The body is over at zero. -/
theorem At.stops (h : r.At (.int 0) env store) :
    m.Passes (callers.length + 2) (stack.length + 3)
      ⟨⟨env, r.body⟩ :: callers, stack, store, printed⟩
      ⟨callers, r.stop.value :: stack, store, printed⟩ := by
  refine h.tests.trans ?_
  rw [if_pos rfl]
  refine .step (by simp) (by simp) rfl ?_
  refine .step (by simp) (by simp) rfl ?_
  exact .refl _

/-- What is less than a number that fits a word fits one, too. -/
theorem toInt_ofNat_of_succ {k : Nat} (hk : (Int64.ofNat (k + 1)).toInt = k + 1) :
    (Int64.ofNat k).toInt = k := by
  have hlt := (Int64.ofNat (k + 1)).toInt_lt
  exact Int64.toInt_ofNat_of_lt (by omega)

/-- Above zero, a body that starts with `f (n - 1)` comes to apply the fixed point to the
operand less one. -/
theorem At.descends {k : Nat} (hk : (Int64.ofNat (k + 1)).toInt = k + 1) {rest : List Instr}
    (hmore : r.more = r.again rest) (h : r.At (.int (.ofNat (k + 1))) env store) :
    m.Passes (callers.length + 2) (stack.length + 3)
      ⟨⟨env, r.body⟩ :: callers, stack, store, printed⟩
      ⟨⟨env, .apply (r.line 14) :: rest⟩ :: callers,
        .eta r.closure :: .int (.ofNat k) :: stack, store, printed⟩ := by
  have hne : Int64.ofNat (k + 1) ≠ 0 := by
    intro heq
    rw [heq, Int64.toInt_zero] at hk
    omega
  have hsub : Arithmetic.sub (.ofNat (k + 1)) 1 = .ok (.ofNat k) := by
    rw [Arithmetic.sub, Arithmetic.checked_eq_ok_iff, hk, toInt_ofNat_of_succ hk]
    simp
  have hminus : BinaryOp.apply .sub (.int (.ofNat (k + 1))) (.int 1) store =
      (.ok (.int (.ofNat k)), store) :=
    congrArg (fun result => (result.map Value.int, store)) hsub
  refine h.tests.trans ?_
  rw [if_neg hne, hmore]
  refine .step (by simp) (by simp) rfl ?_
  refine .step (by simp) (by simp) (Machine.step_ident h.param) ?_
  refine .step (by simp) (by simp) (Machine.step_binary hminus) ?_
  refine .step (by simp) (by simp) (Machine.step_ident h.self) ?_
  exact .refl _

/-- A level enters the level below it. -/
theorem At.recurs {k : Nat} (hk : (Int64.ofNat (k + 1)).toInt = k + 1) {rest : List Instr}
    (hmore : r.more = r.again rest) (h : r.At (.int (.ofNat (k + 1))) env store)
    (hne : r.self ≠ r.param) (hdrops : m.dropsCallers = true) {below : List Frame}
    (hbelow : (if rest.isEmpty then callers else ⟨env, rest⟩ :: callers) = below)
    (hroom : Machine.AtMost (some (callers.length + 2)) m.maxDepth) (stack : List Value)
    (printed : Array String) :
    ∃ env' store', r.At (.int (.ofNat k)) env' store' ∧
      m.Passes (callers.length + 2) (stack.length + 3)
        ⟨⟨env, r.body⟩ :: callers, stack, store, printed⟩
        ⟨⟨env', r.body⟩ :: below, stack, store', printed⟩ := by
  rcases enters hne hdrops h.outer hbelow hroom (.int (.ofNat k)) stack printed with
    ⟨env', store', hat, henters⟩
  exact ⟨env', store', hat, (h.descends hk hmore).trans henters⟩

end Recursion

end CSEMachine
