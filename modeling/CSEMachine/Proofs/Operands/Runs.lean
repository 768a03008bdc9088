import CSEMachine.Proofs.Blame
import CSEMachine.Proofs.Operands.Steps

/-!
# The operands of `Conc`

`Conc` takes the operand of the next application with its own.  Which application that is,
if any, is a matter of the tree: it is the one in whose operator position the application of
`Conc` stands.  Where that position is empty, nothing is taken from the expression around it
or from a caller, and the run fails for want of an operand.

Main results:

- Theorem `Machine.stands_of_after`: where every state of a run of the code of a tree stands.
- Theorem `Machine.conc_of_missingOperand`: only `Conc` misses an operand.
- Theorem `Machine.conc_operands_run`: which operands `Conc` takes, and when it misses one.
-/

namespace CSEMachine

/-! ## Bodies -/

/-- Code comes from nodes wherever it stands, and the code of blocks is that of bodies. -/
theorem Term.bodies_inherited (t : Term) (name : String → Name) :
    Instr.Inherited (Instr.StemsFrom t name)
      fun b => Instr.Placed name t true b.code ∧ b.BodyIn t name where
  lambda := by
    rintro line b ⟨p, hp, n, hi⟩
    refine ⟨Instr.Placed.of_lambda hp hi.symm, ?_⟩
    rcases exists_seat (List.mem_map_of_mem hp) with ⟨g, hseat⟩
    rcases p with ⟨tail, node⟩
    cases node with
    | lambda line xs body =>
        cases hi
        exact ⟨⟨none, body⟩, mem_seats_of_mem_held hseat List.mem_cons_self, rfl, n + 1, rfl⟩
    | _ => cases hi
  branch := (t.stems_inherited name).branch
  code h _ hi := h.1.of_mem hi

/-! ## Runs -/

namespace Machine

variable {m : Machine} {t : Term} {name : String → Name} {i n : Nat} {store : Store} {s : State}

/-- The closures of a run have the code of bodies. -/
theorem Reachable.bodyIn (hs : m.Reachable (t.named name i).toBlock store s) {c : Closure}
    (hc : .closure c ∈ s.stack) : c.block.BodyIn t name := by
  have hroot : ∀ j ∈ (t.named name i).toBlock.code, Instr.StemsFrom t name j := fun _ hj =>
    (Instr.Placed.of_root name t i).of_mem hj
  exact ((hs.holding (t.bodies_inherited name) hroot).2 c (Or.inl (.stack hc))).2

/-- A run begins with nothing on the stack. -/
theorem stack_of_start {root : Block} (h : m.start root store = .next s) : s.stack = [] := by
  unfold start at h
  split at h
  · cases h
  · cases h
    rfl

/-- Where every state of a run of the code of a tree stands. -/
theorem stands_of_after (h : m.after n (m.start (t.named name i).toBlock store) = .next s) :
    Stands (m.stateAt (t.named name i).toBlock store) t name n := by
  induction n generalizing s with
  | zero =>
      rcases frames_of_start h with ⟨env, hframes⟩
      have hstack := stack_of_start h
      rw [← stateAt_eq h] at hframes hstack
      exact .enter (Term.self_mem_seats t) hframes hstack .done .nil
  | succ n ih =>
      rcases before_of_after_succ h with ⟨s₀, hafter, hstep⟩
      rw [← stateAt_eq hafter, ← stateAt_eq h] at hstep
      refine (ih hafter).step ?_ hstep
      intro c hc
      rw [stateAt_eq hafter] at hc
      exact Reachable.bodyIn ⟨n, hafter⟩ hc

end Machine

/-- `Conc` is applied by the application on the line of that instruction, and what waits behind
it is known from the seat of that application. -/
theorem Stands.of_conc {states : Nat → State} {t : Term} {name : String → Name} {n line : Nat}
    {env : Env} {code : List Instr} {callers : List Frame} {first : Value} {rest : List Value}
    (h : Stands states t name n)
    (hframes : (states n).frames = ⟨env, .apply line :: code⟩ :: callers)
    (hstack : (states n).stack = .builtin .conc :: first :: rest) :
    ∃ g rator rand base, ⟨g, .app line rator rand⟩ ∈ t.seats ∧
      Waits states t name n env callers base g code rest := by
  cases h with
  | ended hended =>
      rw [hframes] at hended
      cases hended
  | returned hframes' =>
      rw [hframes] at hframes'
      cases hframes'
  | unrolled _ hstack' =>
      rw [hstack] at hstack'
      cases hstack'
  | @ready s j env' k callers' values below base hs hframes' hstack' hvalues hk hcallers =>
      rw [hframes, List.cons.injEq, Frame.mk.injEq, List.cons.injEq] at hframes'
      rcases hframes' with ⟨⟨rfl, hinstr, rfl⟩, rfl⟩
      rw [hstack] at hstack'
      rcases s with ⟨g, q⟩
      cases q with
      | app line' rator rand =>
          cases hinstr
          rcases hvalues.exists_eq_append with ⟨above, habove, hsplit⟩
          rcases List.length_eq_two.mp habove with ⟨operator, operand, rfl⟩
          rw [← hstack'] at hsplit
          cases hsplit
          exact ⟨g, rator, rand, base, hs, hk⟩
      | _ => cases hinstr

/-! ## Missing operands -/

/-- Of all values only `Conc` misses an operand when it is applied. -/
theorem Value.eq_conc_of_missingOperand {v : Value} (h : .missingOperand ∈ v.failures) :
    v = .builtin .conc := by
  cases v with
  | builtin b => cases b <;> simp_all [failures, Builtin.failures]
  | _ => simp [failures] at h

namespace Machine

variable {m : Machine} {s s' : State} {fault : Fault}

/-- Only `Conc` misses an operand. -/
theorem conc_of_missingOperand (h : m.step s = .failed fault s')
    (hcode : fault.cause.code = .missingOperand) :
    ∃ env line code callers first rest, s.frames = ⟨env, .apply line :: code⟩ :: callers ∧
      s.stack = .builtin .conc :: first :: rest ∧ fault.line = some line := by
  rcases s with ⟨frames, stack, store, printed⟩
  rcases step_failsUnder h with ⟨env, i, code, callers, hframes, hline, hfailures⟩
  cases hframes
  rw [hcode] at hfailures
  cases i with
  | apply line =>
      match stack with
      | [] =>
          cases h
          cases hcode
      | [v] =>
          cases h
          cases hcode
      | operator :: operand :: rest =>
          simp only [step_cons_cons, Instr.perform_eq, Focus.apply_eq] at h
          have hmissing := (Focus.applyValue_failsUnder m line operator operand).atLine line fault
            _ h
          rw [hcode] at hmissing
          rw [Value.eq_conc_of_missingOperand hmissing]
          exact ⟨env, line, code, callers, operand, rest, rfl, rfl, hline⟩
  | binary line op =>
      have hop := (List.mem_cons.mp hfailures).resolve_left nofun
      exact absurd (BinaryOp.mem_sites hop) (by decide)
  | unary line op =>
      have hop := (List.mem_cons.mp hfailures).resolve_left nofun
      exact absurd (UnaryOp.mem_sites hop) (by cases op <;> decide)
  | _ => simp [Instr.failures] at hfailures

end Machine

/-! ## The operands of `Conc` -/

namespace Machine

section Tree

variable {m : Machine} {t : Term} {name : String → Name} {i n line : Nat} {store later : Store}
  {env : Env} {code : List Instr} {callers : List Frame} {first : Value} {rest : List Value}
  {printed : Array String}

/-- The application that applies `Conc`, and what waits behind it. -/
theorem waits_of_conc (h : m.after n (m.start (t.named name i).toBlock store) =
      .next ⟨⟨env, .apply line :: code⟩ :: callers, .builtin .conc :: first :: rest, later,
        printed⟩) :
    ∃ g rator rand base, ⟨g, .app line rator rand⟩ ∈ t.seats ∧
      Waits (m.stateAt (t.named name i).toBlock store) t name n env callers base g code rest := by
  have hstate := stateAt_eq h
  exact (stands_of_after h).of_conc (congrArg State.frames hstate) (congrArg State.stack hstate)

/-- In operator position of an application, `Conc` takes its operand and its instruction. -/
theorem after_conc_of_some {app : Term} {base : List Value}
    (h : m.after n (m.start (t.named name i).toBlock store) =
      .next ⟨⟨env, .apply line :: code⟩ :: callers, .builtin .conc :: first :: rest, later,
        printed⟩)
    (hk : Waits (m.stateAt (t.named name i).toBlock store) t name n env callers base (some app)
      code rest) :
    ∃ line' rator rand i' j code' second below, app = .app line' rator rand ∧
      code = .apply line' :: code' ∧ rest = second :: below ∧
      Evaluated (m.stateAt (t.named name i).toBlock store) env callers (rand.named name j)
        ((rator.named name i').flatten (.apply line' :: code')) second below n ∧
      m.after (n + 1) (m.start (t.named name i).toBlock store) =
        (Focus.pushResult ⟨env, code', callers, below, later, printed⟩
          (Builtin.applyConc later first second)).atLine line := by
  rcases hk.of_some with
    ⟨_, line', rator, rand, i', j, code', second, below, happ, _, rfl, rfl, hsecond, _⟩
  refine ⟨line', rator, rand, i', j, code', second, below, happ, rfl, rfl, hsecond, ?_⟩
  rw [after_succ, h]
  rfl

/-- In operator position of nothing, it misses an operand. -/
theorem after_conc_of_none {base : List Value}
    (h : m.after n (m.start (t.named name i).toBlock store) =
      .next ⟨⟨env, .apply line :: code⟩ :: callers, .builtin .conc :: first :: rest, later,
        printed⟩)
    (hk : Waits (m.stateAt (t.named name i).toBlock store) t name n env callers base none code
      rest) :
    m.after (n + 1) (m.start (t.named name i).toBlock store) =
      .failed ⟨.missingOperand Builtin.conc.spelling, some line, []⟩
        ⟨⟨env, code⟩ :: callers, rest, later, printed⟩ := by
  have hmissing : Focus.conc ⟨env, code, callers, rest, later, printed⟩ first =
      Focus.fail ⟨env, code, callers, rest, later, printed⟩
        (Cause.missingOperand Builtin.conc.spelling) :=
    Focus.conc_of_not_apply hk.ne_apply_of_none first
  rw [after_succ, h]
  exact congrArg (Transition.atLine line) hmissing

/-- An error that misses an operand is on the line of an application that is in operator
position of nothing. -/
theorem seat_of_missingOperand {fault : Fault} {s : State}
    (h : m.after n (m.start (t.named name i).toBlock store) = .failed fault s)
    (hcode : fault.cause.code = .missingOperand) :
    ∃ line rator rand, fault.line = some line ∧ ⟨none, .app line rator rand⟩ ∈ t.seats := by
  rcases failed_after h with ⟨_, rfl⟩ | ⟨_, ⟨frames, stack, later, printed⟩, ⟨k, hafter⟩, hstep⟩
  · cases hcode
  rcases conc_of_missingOperand hstep hcode with
    ⟨env, line, code, callers, first, rest, hframes, hstack, hline⟩
  cases hframes
  cases hstack
  rcases waits_of_conc hafter with ⟨g, rator, rand, base, hseat, hk⟩
  cases g with
  | none => exact ⟨line, rator, rand, hline, hseat⟩
  | some app =>
      -- with both operands at hand, only their kinds can be wrong
      rcases after_conc_of_some hafter hk with
        ⟨_, _, _, _, _, code', second, below, _, _, _, _, hnext⟩
      rw [after_succ, hafter, advance, hstep] at hnext
      have hwrongKind : FailsUnder [.wrongKind] (Builtin.applyConc later first second) :=
        Builtin.applyConc_failsUnder (by decide) later first second
      cases hresult : Builtin.applyConc later first second with
      | ok v =>
          rw [hresult] at hnext
          cases hnext
      | error fault₀ =>
          rw [hresult] at hnext
          cases hnext
          have hmem := hwrongKind fault₀ hresult
          rw [show fault₀.cause.code = .missingOperand from hcode] at hmem
          cases List.mem_singleton.mp hmem

end Tree

/-- In a run of a tree no two nodes of which share a line, `Conc` is applied by the
application on one line.  If that stands in operator position of another application, the
second operand is the value that the same activation has found for the operand of that other
application, whose instruction is next and is consumed.  If it stands in operator position of
nothing, the run fails and nothing but the operand at hand has been taken.  So no error that
misses an operand is on the line of a node in operator position. -/
theorem conc_operands_run (t : Term) (standardized : Bool) (table table' : NameTable)
    (p : Program) (hlowered : Program.ofTerm t standardized table = (.ok p, table'))
    (hlines : t.lines.Nodup) (m : Machine) :
    (∀ (store : Store) (n : Nat) (env : Env) (line : Nat) (code : List Instr)
      (callers : List Frame) (first : Value) (rest : List Value) (later : Store)
      (printed : Array String),
      m.after n (m.start p.root store) = .next ⟨⟨env, .apply line :: code⟩ :: callers,
        .builtin .conc :: first :: rest, later, printed⟩ →
      ∃ g ∈ t.nodes, g.line = line ∧ (∃ rator rand, g = .app line rator rand) ∧
        (∀ u ∈ t.nodes, u.line = line → u = g) ∧
        (∀ line' rator rand, .app line' rator rand ∈ t.nodes →
          Term.OperatorOf (.app line' rator rand) g →
            ∃ i j code' second below, code = .apply line' :: code' ∧ rest = second :: below ∧
              Evaluated (m.stateAt p.root store) env callers (rand.named table'.nameOf j)
                ((rator.named table'.nameOf i).flatten (.apply line' :: code')) second below n ∧
              m.after (n + 1) (m.start p.root store) =
                (Focus.pushResult ⟨env, code', callers, below, later, printed⟩
                  (Builtin.applyConc later first second)).atLine line) ∧
        ((∀ g' ∈ t.nodes, ¬ g'.OperatorOf g) →
          m.after (n + 1) (m.start p.root store) =
            .failed ⟨.missingOperand Builtin.conc.spelling, some line, []⟩
              ⟨⟨env, code⟩ :: callers, rest, later, printed⟩)) ∧
    ∀ (session session' : Session) (fuel : Nat) (fault : Fault),
      m.evaluate fuel p session = some (.error fault, session') →
        fault.cause.code = .missingOperand → ∀ g ∈ t.nodes, fault.line = some g.line →
          ∀ g' ∈ t.nodes, ¬ g'.OperatorOf g := by
  have hp := (Program.of_ofTerm hlowered (.refl table')).2.1
  subst hp
  refine ⟨?_, ?_⟩
  · intro store n env line code callers first rest later printed h
    rcases waits_of_conc h with ⟨g, rator, rand, base, hseat, hk⟩
    have hmem := Term.node_mem_nodes hseat
    refine ⟨_, hmem, rfl, ⟨rator, rand, rfl⟩, ?_, ?_, ?_⟩
    · exact fun u hu hline => Term.eq_of_mem_nodes hlines hu hmem hline
    · intro line' rator' rand' hmem' hoperator
      rcases (Term.app?_eq_some_iff hlines hseat).mpr ⟨hmem', hoperator⟩ with rfl
      rcases after_conc_of_some h hk with
        ⟨_, _, _, i, j, code', second, below, happ, hcode, hrest, hsecond, hnext⟩
      cases happ
      exact ⟨i, j, code', second, below, hcode, hrest, hsecond, hnext⟩
    · intro hnone
      cases g with
      | none => exact after_conc_of_none h hk
      | some app =>
          rcases (Term.app?_eq_some_iff hlines hseat).mp rfl with ⟨happ, hoperator⟩
          exact absurd hoperator (hnone app happ)
  · intro session session' fuel fault h hcode g hg hline g' hg' hoperator
    cases hrefusal : m.refusal? (t.program standardized table') with
    | some cause =>
        simp only [evaluate, hrefusal] at h
        cases h
        cases hline
    | none =>
        rcases after_of_evaluate_error hrefusal h with ⟨s, hafter, _⟩
        rcases seat_of_missingOperand hafter hcode with ⟨line, rator, rand, hline', hseat⟩
        rw [hline', Option.some.injEq] at hline
        have hsame := Term.eq_of_mem_nodes hlines hg (Term.node_mem_nodes hseat) hline.symm
        rw [hsame] at hoperator
        cases (Term.app?_eq_some_iff hlines hseat).mpr ⟨hg', hoperator⟩

/-- In `(fn x. Conc x) ((true -> Conc 'a' | 'c') 'b')` the arm takes `'b'`, which is what the
activation of the whole tree has found for the operand of the application on line 6.  The body
of the function misses an operand, on line 3. -/
theorem conc_operands_run_arm :
    let body : Term := .app 3 (.ident 4 "Conc") (.ident 5 "x")
    let arm : Term := .app 9 (.ident 10 "Conc") (.literal 11 (.str "a"))
    let rator : Term := .cond 7 (.literal 8 (.bool true)) arm (.literal 12 (.str "c"))
    let rand : Term := .literal 13 (.str "b")
    let t : Term := .app 1 (.lambda 2 ["x"] body) (.app 6 rator rand)
    let names : NameTable := ⟨0, ["x", "Conc"]⟩
    let p : Program := t.program true names
    let m : Machine := ⟨names, none, true⟩
    let fault : Fault := ⟨.missingOperand "Conc", some 3, []⟩
    Program.ofTerm t true ⟨0, []⟩ = (.ok p, names) ∧ t.lines.Nodup ∧
      (∃ env code later,
        m.after 5 (m.start p.root .empty) = .next ⟨[⟨env, .apply 9 :: .apply 6 :: code⟩],
          [.builtin .conc, .str "a", .str "b"], later, #[]⟩ ∧
        (∃ i j, Evaluated (m.stateAt p.root .empty) env [] (rand.named names.nameOf j)
          ((rator.named names.nameOf i).flatten (.apply 6 :: code)) (.str "b") [] 5) ∧
        m.after 6 (m.start p.root .empty) = .next ⟨[⟨env, code⟩], [.str "ab"], later, #[]⟩) ∧
      (∃ s, m.after 11 (m.start p.root .empty) = .failed fault s) ∧
      (∃ session', m.evaluate 11 p (.fresh .silent) = some (.error fault, session')) ∧
      ∀ g ∈ t.nodes, ¬ g.OperatorOf body := by
  intro body arm rator rand t names p m fault
  have hlowered : Program.ofTerm t true ⟨0, []⟩ = (.ok p, names) := rfl
  have hlines : t.lines.Nodup := by decide
  have hrun := conc_operands_run t true _ _ p hlowered hlines m
  have harm : arm ∈ t.nodes := List.mem_of_getElem? (i := 8) rfl
  have hbody : body ∈ t.nodes := List.mem_of_getElem? (i := 2) rfl
  have hevaluate : ∃ session', m.evaluate 11 p (.fresh .silent) =
      some (.error fault, session') := ⟨_, rfl⟩
  have hempty : ∀ g ∈ t.nodes, ¬ g.OperatorOf body := by
    rcases hevaluate with ⟨session', h⟩
    exact hrun.2 _ session' 11 fault h rfl body hbody rfl
  refine ⟨hlowered, hlines, ?_, ?_, hevaluate, hempty⟩
  · rcases hrun.1 .empty 5 _ 9 _ [] (.str "a") _ _ _ rfl with ⟨g, _, _, _, hunique, hsome, _⟩
    rcases hunique arm harm rfl with rfl
    rcases hsome 6 rator rand (List.mem_of_getElem? (i := 5) rfl) (.thenArm (.rator rfl)) with
      ⟨i, j, code', second, below, hcode, hrest, hsecond, hnext⟩
    cases hcode
    cases hrest
    exact ⟨_, _, _, rfl, ⟨i, j, hsecond⟩, hnext⟩
  · rcases hrun.1 .empty 10 _ 3 _ [] (.str "ab") _ _ _ rfl with ⟨g, _, _, _, hunique, _, hnone⟩
    rcases hunique body hbody rfl with rfl
    exact ⟨_, hnone hempty⟩

end Machine

end CSEMachine
