import CSEMachine.Proofs.Balance.Runs
import CSEMachine.Proofs.Blocks
import CSEMachine.Proofs.DepthLimit
import CSEMachine.Proofs.Positions

/-!
# What an error blames

A run that fails does so at an instruction, and reports the line of that instruction.
Since every instruction comes from a node of the tree, the line leads to a node, provided
that no two nodes share it; and since every instruction fails under its own codes only,
that node is one that can raise the error.

Main results:

- Theorem `Term.form_mem_sites`: which nodes can fail under a code.
- Theorem `Machine.failed_after`: a run fails because its limit is 0, or at an instruction.
- Theorem `Machine.blame_run`: what the error of an evaluation blames.
-/

namespace CSEMachine

/-! ## Kinds of nodes -/

/-- The kinds of nodes.  A unary node is told by its operator. -/
inductive Form where
  | ident | literal | nil | fixpoint | lambda | app | cond | tuple | binary
  | unary (op : UnaryOp)
deriving DecidableEq

/-- The kind of the outermost node. -/
def Term.form : Term → Form
  | .ident _ _ => .ident
  | .literal _ _ => .literal
  | .nil _ => .nil
  | .fixpoint _ => .fixpoint
  | .lambda _ _ _ => .lambda
  | .app _ _ _ => .app
  | .cond _ _ _ _ => .cond
  | .tuple _ _ => .tuple
  | .binary _ _ _ _ => .binary
  | .unary _ op _ => .unary op

/-- The kinds of nodes that an error with a given code can point at. -/
def ErrorCode.sites : ErrorCode → List Form
  | .undeclared => [.ident]
  | .dissimilarKinds | .incomparable | .notTruthValues | .notATuple | .divisionByZero =>
    [.binary]
  | .arityMismatch | .indexOutOfBounds | .depthExceeded | .notApplicable | .missingOperand =>
    [.app]
  | .integerOverflow => [.binary, .unary .neg, .app]
  | .wrongKind => [.binary, .unary .not, .unary .neg, .cond, .app]
  | .emptyBinder | .repeatedParameter | .notStandardized | .malformed => []

/-- The kinds of nodes that no error points at. -/
def Form.blameless : List Form :=
  [.literal, .lambda, .fixpoint, .nil, .tuple]

theorem ErrorCode.not_blameless_of_mem_sites {code : ErrorCode} {form : Form}
    (h : form ∈ code.sites) : form ∉ Form.blameless := by
  have hall : ∀ form ∈ code.sites, form ∉ Form.blameless := by
    cases code <;> decide
  exact hall form h

theorem BinaryOp.mem_sites {op : BinaryOp} {code : ErrorCode} (h : code ∈ op.failures) :
    .binary ∈ code.sites := by
  have hall : ∀ code ∈ op.failures, .binary ∈ code.sites := by
    cases op <;> decide
  exact hall code h

theorem UnaryOp.mem_sites {op : UnaryOp} {code : ErrorCode} (h : code ∈ op.failures) :
    .unary op ∈ code.sites := by
  have hall : ∀ code ∈ op.failures, .unary op ∈ code.sites := by
    cases op <;> decide
  exact hall code h

/-- A node whose instruction fails under a code is one that the code can point at, unless
the instruction lacked a value. -/
theorem Term.form_mem_sites (t : Term) {name : String → Name} {n : Nat} {code : ErrorCode}
    (h : code ∈ (t.named name n).instr.failures) (hcode : code ≠ .malformed) :
    t.form ∈ code.sites := by
  cases t with
  | ident line x =>
      rcases List.mem_singleton.mp h with rfl
      exact List.mem_singleton_self _
  | literal line v => cases h
  | fixpoint line => cases h
  | lambda line xs body => cases h
  | nil line => exact absurd (List.mem_singleton.mp h) hcode
  | tuple line items => exact absurd (List.mem_singleton.mp h) hcode
  | app line rator rand =>
      have hall : ∀ code ∈ (Instr.apply line).failures, code = .malformed ∨ .app ∈ code.sites := by
        simp [Instr.failures, ErrorCode.sites]
      exact (hall code h).resolve_left hcode
  | cond line c t e =>
      have hall : ∀ code ∈ (Instr.branch line [] []).failures,
          code = .malformed ∨ .cond ∈ code.sites := by
        simp [Instr.failures, ErrorCode.sites]
      exact (hall code h).resolve_left hcode
  | binary line op left right => exact BinaryOp.mem_sites ((List.mem_cons.mp h).resolve_left hcode)
  | unary line op operand => exact UnaryOp.mem_sites ((List.mem_cons.mp h).resolve_left hcode)

/-! ## Failing runs -/

namespace Machine

variable {m : Machine} {store : Store} {n : Nat} {fault : Fault} {s : State}

/-- A run fails because its limit is 0, or at an instruction of a reachable state. -/
theorem failed_after {root : Block} (h : m.after n (m.start root store) = .failed fault s) :
    (m.maxDepth = some 0 ∧ fault = Fault.of (.depthExceeded 0)) ∨
      m.maxDepth ≠ some 0 ∧ ∃ s₀, m.Reachable root store s₀ ∧ m.step s₀ = .failed fault s := by
  cases hlimit : m.limitAbove? [] with
  | some limit =>
      rcases limitAbove?_eq_some.mp hlimit with ⟨hdepth, hle⟩
      rcases Nat.le_zero.mp hle with rfl
      have hstart : m.start root store =
          .failed (Cause.depthExceeded 0) ⟨[], [], store, #[]⟩ := by
        rw [start, hlimit]
      rw [hstart, after_failed] at h
      cases h
      exact Or.inl ⟨hdepth, rfl⟩
  | none =>
      have hdepth : m.maxDepth ≠ some 0 := by
        intro hzero
        have hsome : m.limitAbove? [] = some 0 := limitAbove?_eq_some.mpr ⟨hzero, Nat.le_refl 0⟩
        rw [hlimit] at hsome
        cases hsome
      refine Or.inr ⟨hdepth, ?_⟩
      rcases failed_of_after h with hstart | hstep
      · rw [start, hlimit] at hstart
        cases hstart
      · exact hstep

/-- A step that fails blames a line of the program. -/
theorem line_of_step {p : Program} {s₀ : State} (hs₀ : m.Reachable p.root store s₀)
    (hstep : m.step s₀ = .failed fault s) : ∃ line ∈ p.lines, fault.line = some line := by
  rcases step_failsUnder hstep with ⟨env, i, code, callers, hframes, hline, _⟩
  have hshown := hs₀.shown.1 ⟨env, i :: code⟩ (by simp [hframes]) i List.mem_cons_self
  exact ⟨i.line, hshown.lines i.line_mem_lines, hline⟩

/-- A step that fails blames a node that can raise the error. -/
theorem node_of_step {t : Term} {name : String → Name} {k : Nat} {s₀ : State}
    (hs₀ : m.Reachable (t.named name k).toBlock store s₀)
    (hstep : m.step s₀ = .failed fault s) :
    ∃ p ∈ t.positions, fault.line = some p.node.line ∧
      p.node.form ∈ fault.cause.code.sites := by
  have hroot : (t.named name k).toBlock.Balanced := (t.named name k).balanced_flatten
  have hsteady := (level_of_reachable hroot hs₀).step_steady m (carrying_of_reachable hroot hs₀)
  rw [hstep] at hsteady
  have hcode : fault.cause.code ≠ .malformed := Cause.code_ne_malformed hsteady
  rcases step_failsUnder hstep with ⟨env, i, code, callers, hframes, hline, hfailures⟩
  rcases hs₀.stems.1 ⟨env, i :: code⟩ (by simp [hframes]) i List.mem_cons_self with
    ⟨p, hp, j, rfl⟩
  rw [Term.line_instr_named] at hline
  exact ⟨p, hp, hline, p.node.form_mem_sites hfailures hcode⟩

/-- A refused program is reported without a line, and so is a limit of 0.  Every other error
carries a line of the program.  If the program comes from a tree no two nodes of which share
a line, there is one node on the reported line, and it is of a kind that can raise the
error. -/
theorem blame_run :
    (∀ (m : Machine) (p : Program) (session session' : Session) (fuel : Nat) (fault : Fault),
      m.evaluate fuel p session = some (.error fault, session') →
        (m.refusal? p ≠ none → fault.line = none) ∧
        (m.refusal? p = none → m.maxDepth = some 0 →
          fault.cause = .depthExceeded 0 ∧ fault.line = none) ∧
        (m.refusal? p = none → m.maxDepth ≠ some 0 →
          ∃ line ∈ p.lines, fault.line = some line)) ∧
    ∀ (t : Term) (standardized : Bool) (table table' : NameTable) (p : Program),
      Program.ofTerm t standardized table = (.ok p, table') → t.lines.Nodup →
      ∀ (m : Machine) (session session' : Session) (fuel : Nat) (fault : Fault) (line : Nat),
        m.evaluate fuel p session = some (.error fault, session') → fault.line = some line →
          ∃ q ∈ t.positions, q.node.line = line ∧
            (∀ r ∈ t.positions, r.node.line = line → r = q) ∧
            q.node.form ∈ fault.cause.code.sites ∧ q.node.form ∉ Form.blameless := by
  have hrefused : ∀ (m : Machine) (p : Program) (session session' : Session) (fuel : Nat)
      (fault : Fault), m.evaluate fuel p session = some (.error fault, session') →
        m.refusal? p ≠ none → fault.line = none := by
    intro m p session session' fuel fault h hrefusal
    rcases Option.ne_none_iff_exists'.mp hrefusal with ⟨cause, hcause⟩
    simp only [evaluate, hcause] at h
    cases h
    rfl
  refine ⟨?_, ?_⟩
  · intro m p session session' fuel fault h
    refine ⟨hrefused m p session session' fuel fault h, ?_, ?_⟩
    · intro hrefusal hzero
      rcases after_of_evaluate_error hrefusal h with ⟨s, hafter, _⟩
      rcases failed_after hafter with ⟨_, rfl⟩ | ⟨hlimit, _⟩
      · exact ⟨rfl, rfl⟩
      · exact absurd hzero hlimit
    · intro hrefusal hlimit
      rcases after_of_evaluate_error hrefusal h with ⟨s, hafter, _⟩
      rcases failed_after hafter with ⟨hzero, _⟩ | ⟨_, s₀, hs₀, hstep⟩
      · exact absurd hzero hlimit
      · exact line_of_step hs₀ hstep
  · intro t standardized table table' p hlowered hnodup m session session' fuel fault line h hline
    have hp := (Program.of_ofTerm hlowered (.refl table')).2.1
    have hrefusal : m.refusal? p = none := by
      by_contra hne
      rw [hrefused m p session session' fuel fault h hne] at hline
      cases hline
    rcases after_of_evaluate_error hrefusal h with ⟨s, hafter, _⟩
    rcases failed_after hafter with ⟨_, rfl⟩ | ⟨_, s₀, hs₀, hstep⟩
    · cases hline
    · subst hp
      rcases node_of_step hs₀ hstep with ⟨q, hq, hblamed, hform⟩
      rw [hline, Option.some.injEq] at hblamed
      subst hblamed
      refine ⟨q, hq, rfl, ?_, hform, ErrorCode.not_blameless_of_mem_sites hform⟩
      intro r hr hlines
      exact Term.eq_of_line_eq hnodup hr hq hlines

/-- The program `(fn x. 7 / x) 0` fails at the division, on line 3. -/
theorem blame_run_division :
    let t : Term := .app 1 (.lambda 2 ["x"] (.binary 3 .div (.literal 4 (.int 7)) (.ident 5 "x")))
      (.literal 6 (.int 0))
    let p : Program := ⟨⟨0, [], [.literal 6 (.int 0), .lambda 2 ⟨1, [⟨0⟩], [.ident 5 ⟨0⟩,
      .literal 4 (.int 7), .binary 3 .div]⟩, .apply 1]⟩, true, 0⟩
    let m : Machine := ⟨⟨0, []⟩, none, true⟩
    let fault : Fault := ⟨.divisionByZero, some 3, []⟩
    ∃ session', Program.ofTerm t true ⟨0, []⟩ = (.ok p, ⟨0, ["x"]⟩) ∧ t.lines.Nodup ∧
      m.evaluate 6 p (.fresh .silent) = some (.error fault, session') ∧ 3 ∈ p.lines ∧
      ∃ q ∈ t.positions, q.node.line = 3 ∧ (∀ r ∈ t.positions, r.node.line = 3 → r = q) ∧
        q.node.form ∈ ErrorCode.divisionByZero.sites ∧ q.node.form ∉ Form.blameless := by
  intro t p m fault
  have hlowered : Program.ofTerm t true ⟨0, []⟩ = (.ok p, ⟨0, ["x"]⟩) := rfl
  have hnodup : t.lines.Nodup := by decide
  have hevaluate : m.evaluate 6 p (.fresh .silent) =
      some (.error fault, ⟨⟨#[], #[[], [(⟨0⟩, .int 0)]]⟩, .silent⟩) := rfl
  rcases (blame_run.1 m p _ _ 6 fault hevaluate).2.2 rfl nofun with ⟨line, hmem, hline⟩
  cases hline
  exact ⟨_, hlowered, hnodup, hevaluate, hmem,
    blame_run.2 t true _ _ p hlowered hnodup m _ _ 6 fault 3 hevaluate rfl⟩

end Machine

end CSEMachine
