import CSEMachine.Proofs.Balance.Runs
import CSEMachine.Proofs.Continuations
import CSEMachine.Proofs.Similarity.Runs

/-!
# The fixed-point equation

`Y* f` and `f (Y* f)` are the same function.  Applied to a value, the former is unrolled: `f`
is to be applied to it first, and the result to the value.  The code of the latter comes to
just that, in as many steps, or fails in the same place.

Main results:

- Theorem `Machine.alike_unrolled`: once there is an operand, both functions are applied to
  it alike.
- Theorem `Machine.alike_entered`: closures are entered alike if their bodies run alike.
- Theorem `Machine.observe_unrolled`: unrolling a fixed point cannot be observed.
-/

namespace CSEMachine

/-! ## Trees -/

/-- The fixed point of a variable, `Y* f`. -/
def Term.fixed (line : Nat) (f : String) : Term :=
  .app line (.fixpoint line) (.ident line f)

/-- The fixed point of a variable, unrolled once, `f (Y* f)`. -/
def Term.unrolled (line : Nat) (f : String) : Term :=
  .app line (.ident line f) (.fixed line f)

/-- A function applied to an operand where a variable is bound, `(fn f. g x) v`. -/
def Term.letApp (line : Nat) (f : String) (function operand value : Term) : Term :=
  .app line (.lambda line [f] (.app line function operand)) value

/-! ## Unrolling -/

namespace Machine

variable {m : Machine}

/-- An identifier pushes the same value or fails with the same fault, whatever comes behind
it and whatever is on the stack. -/
theorem step_ident_cases (m : Machine) (env : Env) (line : Nat) (x : Name) (callers : List Frame)
    (store : Store) (printed : Array String) :
    (∃ v, ∀ code stack, m.step ⟨⟨env, .ident line x :: code⟩ :: callers, stack, store, printed⟩ =
      .next ⟨⟨env, code⟩ :: callers, v :: stack, store, printed⟩) ∨
    ∃ fault, ∀ code stack,
      m.step ⟨⟨env, .ident line x :: code⟩ :: callers, stack, store, printed⟩ =
        .failed fault ⟨⟨env, code⟩ :: callers, stack, store, printed⟩ := by
  simp only [step_cons_cons, Instr.perform_eq, Focus.ident_eq]
  cases env.lookup store x with
  | some v => exact Or.inl ⟨v, fun _ _ => rfl⟩
  | none =>
      cases Builtin.ofSpelling? (m.names.text x) with
      | some b => exact Or.inl ⟨_, fun _ _ => rfl⟩
      | none => exact Or.inr ⟨_, fun _ _ => rfl⟩

/-- Once there is an operand, a fixed point and the fixed point unrolled once are applied to
it alike. -/
theorem alike_unrolled (m : Machine) (line : Nat) (x : Name) (env : Env) (callers : List Frame)
    (operand : Value) (stack : List Value) (store : Store) (printed : Array String) :
    m.Alike
      (.next ⟨⟨env, [.ident line x, .fixpoint line, .apply line, .apply line]⟩ :: callers,
        operand :: stack, store, printed⟩)
      (.next ⟨⟨env, [.ident line x, .fixpoint line, .apply line, .ident line x, .apply line,
        .apply line]⟩ :: callers, operand :: stack, store, printed⟩) := by
  rcases m.step_ident_cases env line x callers store printed with ⟨f, hident⟩ | ⟨fault, hident⟩
  · refine .of_step rfl ?_
    rw [hident, hident]
    refine .of_step rfl ?_
    refine .of_step rfl ?_
    cases f with
    | closure c =>
        refine .of_step rfl ?_
        -- the eta closure is unrolled on the left, and `f` is looked up on the right
        rw [hident]
        exact .refl m _
    | _ => exact .of_failed _ rfl
  · refine .of_step rfl ?_
    rw [hident, hident]
    exact .of_failed fault rfl

/-- Closures that differ in their code only fail to be activated for the same reason, or are
activated in the same environment. -/
theorem call_cases (f : Focus) (m : Machine) (index : Nat) (params : List Name) (env : Env)
    (operand : Value) :
    (∃ fault, ∀ code, f.call m ⟨⟨index, params, code⟩, env⟩ operand = f.fail fault) ∨
    ∃ env' store', ∀ code, f.call m ⟨⟨index, params, code⟩, env⟩ operand =
      .next ⟨⟨env', code⟩ :: f.callersBelow m, f.stack, store', f.printed⟩ := by
  have hbind : ∀ code, Closure.bindOperand ⟨⟨index, params, code⟩, env⟩ f.store operand =
      Closure.bindOperand ⟨⟨index, params, []⟩, env⟩ f.store operand := fun _ => rfl
  simp only [Focus.call_eq, hbind]
  cases Closure.bindOperand ⟨⟨index, params, []⟩, env⟩ f.store operand with
  | error cause => exact Or.inl ⟨_, fun _ => rfl⟩
  | ok scope =>
      simp only []
      cases m.limitAbove? (f.callersBelow m) with
      | some limit => exact Or.inl ⟨_, fun _ => rfl⟩
      | none => exact Or.inr ⟨_, _, fun _ => rfl⟩

/-- Closures that differ in their code only are entered alike if their bodies run alike. -/
theorem alike_entered {root : Block} {store₀ : Store} {index : Nat} {params : List Name}
    {code code' : List Instr}
    (hbody : ∀ env callers stack store printed,
      m.Reachable root store₀ ⟨⟨env, code⟩ :: callers, stack, store, printed⟩ →
        m.Alike (.next ⟨⟨env, code⟩ :: callers, stack, store, printed⟩)
          (.next ⟨⟨env, code'⟩ :: callers, stack, store, printed⟩))
    (line : Nat) (env : Env) (callers : List Frame) (stack : List Value) (store : Store)
    (printed : Array String)
    (hs : m.Reachable root store₀ ⟨⟨env, [.lambda line ⟨index, params, code⟩, .apply line]⟩ ::
      callers, stack, store, printed⟩) :
    m.Alike
      (.next ⟨⟨env, [.lambda line ⟨index, params, code⟩, .apply line]⟩ :: callers, stack, store,
        printed⟩)
      (.next ⟨⟨env, [.lambda line ⟨index, params, code'⟩, .apply line]⟩ :: callers, stack, store,
        printed⟩) := by
  have hs' : m.Reachable root store₀ ⟨⟨env, [.apply line]⟩ :: callers,
      .closure ⟨⟨index, params, code⟩, env⟩ :: stack, store, printed⟩ := hs.step rfl
  refine .of_step rfl ?_
  refine .of_step rfl ?_
  cases stack with
  | nil => exact .of_failed _ rfl
  | cons operand stack =>
      let f : Focus := ⟨env, [], callers, stack, store, printed⟩
      have hstep : ∀ code, m.step ⟨⟨env, [.apply line]⟩ :: callers,
          .closure ⟨⟨index, params, code⟩, env⟩ :: operand :: stack, store, printed⟩ =
            (f.call m ⟨⟨index, params, code⟩, env⟩ operand).atLine line := fun _ => rfl
      rcases call_cases f m index params env operand with ⟨fault, hcall⟩ | ⟨env', store', hcall⟩
      · rw [hstep, hstep, hcall, hcall]
        exact .of_failed _ rfl
      · have hentered := hstep code
        rw [hcall] at hentered
        rw [hstep, hstep, hcall, hcall]
        exact hbody _ _ _ _ _ (hs'.step hentered)

/-! ## Programs -/

/-- The code of a function applied to an operand where a variable is bound. -/
theorem flatten_letApp (name : String → Name) (line : Nat) (f : String)
    {function : Term} (hfunction : function.lambdas = 0) (operand value : Term) :
    ((Term.letApp line f function operand value).named name 1).flatten [] =
      (value.named name (operand.lambdas + 2)).flatten [] ++
        [.lambda line ⟨1, [name f], (operand.named name 2).flatten [] ++
          (function.named name 2).flatten [.apply line]⟩, .apply line] := by
  simp only [Term.letApp, Term.named, Expr.flatten, Term.lambdas, hfunction, List.map_cons,
    List.map_nil, Nat.zero_add, Nat.add_zero]
  rw [Expr.flatten_append (value.named _ _), Expr.flatten_append (operand.named _ _)]
  have hnumber : 1 + (operand.lambdas + 1) = operand.lambdas + 2 := by omega
  rw [hnumber]
  rfl

/-- The code of a fixed point, and of the fixed point unrolled once, that is to be applied. -/
theorem flatten_fixed (name : String → Name) (n line : Nat) (f : String) :
    ((Term.fixed line f).named name n).flatten [.apply line] =
        [.ident line (name f), .fixpoint line, .apply line, .apply line] ∧
      ((Term.unrolled line f).named name n).flatten [.apply line] =
        [.ident line (name f), .fixpoint line, .apply line, .ident line (name f), .apply line,
          .apply line] := by
  simp [Term.fixed, Term.unrolled, Term.named, Expr.flatten]

/-- A level state that is to apply a fixed point has an operand for it. -/
theorem operand_of_level {env : Env} {line : Nat} {x : Name} {callers : List Frame}
    {stack : List Value} {store : Store} {printed : Array String}
    (h : State.Level ⟨⟨env, [.ident line x, .fixpoint line, .apply line, .apply line]⟩ :: callers,
      stack, store, printed⟩) : stack ≠ [] := by
  rintro rfl
  simp [State.Level, State.pending, Instr.height, Instr.operands] at h

/-- Bodies that apply a fixed point, and the fixed point unrolled once, to an operand run
alike. -/
theorem alike_body {root : Block} (hroot : root.Balanced) {store₀ : Store} (line : Nat)
    (x : Name) (operand : List Instr) (env : Env) (callers : List Frame) (stack : List Value)
    (store : Store) (printed : Array String)
    (hs : m.Reachable root store₀ ⟨⟨env, operand ++
      [.ident line x, .fixpoint line, .apply line, .apply line]⟩ :: callers, stack, store,
        printed⟩) :
    m.Alike
      (.next ⟨⟨env, operand ++ [.ident line x, .fixpoint line, .apply line, .apply line]⟩ ::
        callers, stack, store, printed⟩)
      (.next ⟨⟨env, operand ++ [.ident line x, .fixpoint line, .apply line, .ident line x,
        .apply line, .apply line]⟩ :: callers, stack, store, printed⟩) := by
  refine alike_of_ahead ?_ ?_ ?_ hs ⟨.here operand, rfl, rfl, rfl⟩
  · exact fun line heq => Instr.noConfusion heq
  · exact fun line heq => Instr.noConfusion heq
  · intro stack store printed hs
    cases stack with
    | nil => exact absurd rfl (operand_of_level (level_of_reachable hroot hs))
    | cons operand stack => exact alike_unrolled m line x env callers operand stack store printed

/-- Where a variable is bound to any value, its fixed point and the fixed point unrolled once
can be applied to any operand alike. -/
theorem alike_letApp (m : Machine) (line : Nat) (f : String) (operand value : Term)
    (store : Store) :
    m.Alike
      (m.start ((Term.letApp line f (.fixed line f) operand value).program true m.names).root
        store)
      (m.start ((Term.letApp line f (.unrolled line f) operand value).program true m.names).root
        store) := by
  have hroot : ((Term.letApp line f (.fixed line f) operand value).program true
      m.names).root.Balanced := Expr.balanced_flatten _
  simp only [Term.program, Expr.toBlock] at hroot ⊢
  rw [flatten_letApp m.names.nameOf line f rfl, (flatten_fixed m.names.nameOf 2 line f).1]
    at hroot ⊢
  rw [flatten_letApp m.names.nameOf line f rfl, (flatten_fixed m.names.nameOf 2 line f).2]
  cases hlimit : m.limitAbove? [] with
  | some limit =>
      simp only [start, hlimit]
      exact .refl m _
  | none =>
      have hstart : ∀ code, m.start ⟨0, [], code⟩ store =
          .next ⟨[⟨⟨store.scopes.size, []⟩, code⟩], [], (store.addScope []).2, #[]⟩ := by
        intro code
        simp only [start, hlimit]
        rfl
      rw [hstart, hstart]
      refine alike_of_ahead ?_ ?_ ?_ ⟨0, hstart _⟩ ⟨.here _, rfl, rfl, rfl⟩
      · exact fun line heq => Instr.noConfusion heq
      · exact fun line heq => Instr.noConfusion heq
      · exact alike_entered (alike_body hroot line _ _) line _ []

/-- Unrolling a fixed point cannot be observed.  Where `f` is bound to any value, `Y* f` and
`f (Y* f)` applied to any operand show the same after any number of steps and have printed
the same, under any limit, whatever tables their names come from and whatever happened
before. -/
theorem observe_unrolled (line : Nat) (f : String) (operand value : Term)
    {table table₁ table' table₁' : NameTable} {p p' : Program}
    (hp : Program.ofTerm (.letApp line f (.fixed line f) operand value) true table =
      (.ok p, table₁))
    (hp' : Program.ofTerm (.letApp line f (.unrolled line f) operand value) true table' =
      (.ok p', table₁'))
    (m m' : Machine) (session session' : Session) (hgrows : table₁.Grows m.names)
    (hgrows' : table₁'.Grows m'.names) (hlimit : m.maxDepth = m'.maxDepth)
    (hdrops : m.dropsCallers = m'.dropsCallers) (fuel : Nat) :
    m.observe fuel p session = m'.observe fuel p' session' ∧
      (m.after fuel (m.start p.root session.store)).printed =
        (m'.after fuel (m'.start p'.root session'.store)).printed := by
  rcases Program.of_ofTerm hp hgrows with ⟨_, rfl, hlists⟩
  rcases Program.of_ofTerm hp' hgrows' with ⟨hwell, rfl, hlists'⟩
  have hmixed : m.names.Lists (Term.letApp line f (.unrolled line f) operand value).texts := by
    intro x hx
    refine hlists x ?_
    simpa [Term.letApp, Term.fixed, Term.unrolled, Term.texts] using hx
  have hplain : Context.Plain [[]] := by simp [Context.Plain]
  have hC := Correspondence.similar_lawful hlimit hdrops session.store session'.store
  have hsimilar := Correspondence.after_related hC (start_similar hlimit hdrops
    (Term.Similar.refl _ hwell hplain) hmixed hlists' true session.store session'.store) fuel
  rcases m.alike_letApp line f operand value session.store fuel with ⟨hobserve, hprinted⟩
  rw [observe_of_not_refused (m.refusal?_program _),
    observe_of_not_refused (m'.refusal?_program _)]
  exact ⟨hobserve.trans (Correspondence.observation?_eq hsimilar),
    hprinted.trans (Correspondence.printed_eq hsimilar)⟩

/-- The fixed point of `fn g. fn n. n` applied to seven is seven, unrolled or not, with two
activations at a time. -/
theorem observe_unrolled_seven :
    let value : Term := .lambda 2 ["g"] (.lambda 3 ["n"] (.ident 3 "n"))
    let t : Term := .letApp 1 "f" (.fixed 1 "f") (.literal 4 (.int 7)) value
    let t' : Term := .letApp 1 "f" (.unrolled 1 "f") (.literal 4 (.int 7)) value
    let m : Machine := ⟨⟨0, ["f", "g", "n"]⟩, some 2, true⟩
    let p := t.program true m.names
    let p' := t'.program true m.names
    Program.ofTerm t true ⟨0, []⟩ = (.ok p, m.names) ∧
      Program.ofTerm t' true ⟨0, []⟩ = (.ok p', m.names) ∧
      (∃ session, m.evaluate 16 p (.fresh .silent) =
        some (.ok ⟨none, some (.int 7)⟩, session)) ∧
      ∀ fuel, m.observe fuel p (.fresh .silent) = m.observe fuel p' (.fresh .silent) := by
  intro value t t' m p p'
  have hp : Program.ofTerm t true ⟨0, []⟩ = (.ok p, m.names) := rfl
  have hp' : Program.ofTerm t' true ⟨0, []⟩ = (.ok p', m.names) := rfl
  refine ⟨hp, hp', ⟨_, rfl⟩, fun fuel => ?_⟩
  exact (observe_unrolled 1 "f" _ value hp hp' m m (.fresh .silent) (.fresh .silent) (.refl _)
    (.refl _) rfl rfl fuel).1

end Machine

end CSEMachine
