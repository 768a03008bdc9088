import CSEMachine.Proofs.Direct.Simulation

/-!
# Trees are evaluated as the machine runs their code

The waiting operands of a direct evaluation are on the stack of the machine, and their
applications are next in its code.  Code behind them is *open*, that is, it does not begin
with an application of its own, which `Conc` would take for one of theirs.  Running the
code of a tree and of the applications behind it then does what the evaluation of the tree
does with those operands.

Main results:

- Theorem `Expr.flatten_open`: the code of a tree begins with no application.
- Theorem `evalSimulated`: evaluations are simulated when applications are.
-/

namespace CSEMachine

/-! ## Open code -/

/-- Code that does not begin with an application. -/
def Instr.Open : List Instr → Prop
  | .apply _ :: _ => False
  | _ => True

mutual

/-- The code of a tree begins with an instruction that is no application. -/
theorem Expr.flatten_open : ∀ (e : Expr) (rest : List Instr),
    e.flatten rest ≠ [] ∧ Instr.Open (e.flatten rest)
  | .ident line x, rest => by
      simp [Expr.flatten, Instr.Open]
  | .literal line v, rest => by
      simp [Expr.flatten, Instr.Open]
  | .fixpoint line, rest => by
      simp [Expr.flatten, Instr.Open]
  | .lambda line n xs body, rest => by
      simp [Expr.flatten, Instr.Open]
  | .app line rator rand, rest => by
      rw [Expr.flatten]
      exact Expr.flatten_open rand _
  | .cond line condition thenArm elseArm, rest => by
      rw [Expr.flatten]
      exact Expr.flatten_open condition _
  | .tuple line items, rest => by
      rw [Expr.flatten]
      exact Expr.flattenAll_open items ⟨List.cons_ne_nil _ _, trivial⟩
  | .binary line op left right, rest => by
      rw [Expr.flatten]
      exact Expr.flatten_open right _
  | .unary line op operand, rest => by
      rw [Expr.flatten]
      exact Expr.flatten_open operand _

theorem Expr.flattenAll_open : ∀ (es : List Expr) {rest : List Instr},
    rest ≠ [] ∧ Instr.Open rest →
      Expr.flattenAll es rest ≠ [] ∧ Instr.Open (Expr.flattenAll es rest)
  | [], _, h => h
  | e :: es, rest, _ => by
      rw [Expr.flattenAll]
      exact Expr.flattenAll_open es (Expr.flatten_open e rest)

end

namespace Direct

/-! ## What is simulated -/

section Statements

/-- A machine in `s` is about to run what a direct evaluation is about to do in `w`, with
the same operands waiting, before a continuation that is open. -/
structure Ready (names : NameTable) (view : View) (k : Continuation) (us : List Value)
    (ws : Waiting) (s : Store) (printed : Array String) (w : World) : Prop where
  code : Instr.Open k.code
  waiting : List.Forall₂ (fun u a => view.ValueLinked u a.1) us ws
  agrees : view.Agrees names s printed w

/-- Applying a value to waiting operands is simulated. -/
def ApplySimulated (m : Machine) (fuel : Nat) : Prop :=
  ∀ ⦃view : View⦄ ⦃k : Continuation⦄ ⦃us : List Value⦄ ⦃ws : Waiting⦄ ⦃s : Store⦄
    ⦃printed : Array String⦄ ⦃w : World⦄ ⦃u v : Value⦄,
    Ready m.names view k us ws s printed w → view.ValueLinked u v →
      Simulates m fuel view View.ValueLinked k.resume ((k.waiting us ws).resume u s printed)
        (apply fuel v ws w)

/-- Evaluating a tree is simulated. -/
def EvalSimulated (m : Machine) (fuel : Nat) (t : Term) : Prop :=
  ∀ ⦃view : View⦄ ⦃k : Continuation⦄ ⦃us : List Value⦄ ⦃ws : Waiting⦄ ⦃s : Store⦄
    ⦃printed : Array String⦄ ⦃w : World⦄ ⦃env : Environment⦄ (n : Nat),
    Ready m.names view k us ws s printed w → view.EnvLinked m.names k.env env →
      Simulates m fuel view View.ValueLinked k.resume
        ((k.waiting us ws).enter
          ((t.named m.names.nameOf n).flatten (k.waiting us ws).code) s printed)
        (t.eval (apply fuel) n env ws w)

/-- Evaluating several trees is simulated. -/
def EvalAllSimulated (m : Machine) (fuel : Nat) (ts : List Term) : Prop :=
  ∀ ⦃view : View⦄ ⦃k : Continuation⦄ ⦃s : Store⦄ ⦃printed : Array String⦄ ⦃w : World⦄
    ⦃env : Environment⦄ (n : Nat), k.code ≠ [] ∧ Instr.Open k.code →
      view.Agrees m.names s printed w → view.EnvLinked m.names k.env env →
        Simulates m fuel view
          (fun later us vs => us.length = ts.length ∧ List.Forall₂ later.ValueLinked us vs) k.fill
          (k.enter (Expr.flattenAll (Term.namedAll m.names.nameOf n ts) k.code) s printed)
          (Term.evalAll (apply fuel) ts n env w)

end Statements

variable {m : Machine} {fuel : Nat}

/-! ## Trees -/

namespace EvalSimulated

/-- A tree is evaluated with no operand waiting before code that is open. -/
theorem alone {t : Term} (h : EvalSimulated m fuel t) {view : View} {k : Continuation}
    {s : Store} {printed : Array String} {w : World} {env : Environment} (n : Nat)
    (hcode : k.code ≠ [] ∧ Instr.Open k.code) (hagrees : view.Agrees m.names s printed w)
    (henv : view.EnvLinked m.names k.env env) :
    Simulates m fuel view View.ValueLinked (fun u => k.fill [u])
      (k.enter ((t.named m.names.nameOf n).flatten k.code) s printed)
      (t.eval (apply fuel) n env [] w) := by
  have htarget : (fun u => k.fill [u]) = k.resume := by
    funext u s printed
    exact (k.resume_of_ne_nil hcode.1 u s printed).symm
  rw [htarget]
  exact h n ⟨hcode.2, .nil, hagrees⟩ henv

theorem ident (happly : ApplySimulated m fuel) (line : Nat) {x : String}
    (hx : x ∈ m.names.texts) : EvalSimulated m fuel (.ident line x) := by
  intro view k us ws s printed w env n hready henv
  have hlookup := henv.lookup hready.agrees.scopes hx
  have htext : m.names.text (m.names.nameOf x) = x :=
    (NameTable.Grows.refl m.names).text_nameOf hx
  have hstep : m.step ((k.waiting us ws).enter (.ident line (m.names.nameOf x) ::
      (k.waiting us ws).code) s printed) =
      (((k.waiting us ws).focus s printed).ident m (m.names.nameOf x)).atLine line := rfl
  simp only [Term.named, Expr.flatten, Term.eval]
  simp only [Focus.ident_eq, Continuation.focus, Continuation.waiting, htext] at hstep
  generalize k.env.lookup s (m.names.nameOf x) = found at hlookup hstep
  generalize env.find? x = found' at hlookup
  cases hlookup with
  | some huv => exact .of_succ (.of_push (k := k.waiting us ws) hstep (happly hready huv))
  | none =>
      cases hspelling : Builtin.ofSpelling? x with
      | some b =>
          simp only [hspelling] at hstep
          exact .of_succ (.of_push (k := k.waiting us ws) hstep (happly hready (.builtin b)))
      | none =>
          simp only [hspelling] at hstep
          exact .fail hstep hready.agrees.printed

theorem literal (happly : ApplySimulated m fuel) (line : Nat) (v : Literal) :
    EvalSimulated m fuel (.literal line v) := by
  intro view k us ws s printed w env n hready henv
  simp only [Term.named, Expr.flatten, Term.eval]
  exact .of_succ (.of_push rfl (happly hready (.literal v)))

theorem fixpoint (happly : ApplySimulated m fuel) (line : Nat) :
    EvalSimulated m fuel (.fixpoint line) := by
  intro view k us ws s printed w env n hready henv
  simp only [Term.named, Expr.flatten, Term.eval]
  exact .of_succ (.of_push rfl (happly hready .fixpoint))

theorem lambda (happly : ApplySimulated m fuel) (line : Nat) {xs : List String} {body : Term}
    (hwell : (Term.lambda line xs body).WellBound) (hlists : m.names.Lists (xs ++ body.texts)) :
    EvalSimulated m fuel (.lambda line xs body) := by
  intro view k us ws s printed w env n hready henv
  have hfunction : view.FunctionLinked m.names ⟨Block.ofLambda m.names n xs body, k.env⟩
      ⟨n, xs, body, env⟩ :=
    ⟨rfl, henv, hwell.2.1, hwell.2.2, hlists⟩
  rcases hready.agrees.formFunction hfunction with ⟨later, hgrows, hvalue, hagrees⟩
  simp only [Term.named, Expr.flatten, Term.eval]
  refine .of_succ (.of_push rfl (.of_grows hgrows (happly ?_ hvalue)))
  exact ⟨hready.code, hgrows.values hready.waiting, hagrees⟩

theorem app {rator rand : Term} (hrator : EvalSimulated m fuel rator)
    (hrand : EvalSimulated m fuel rand) (line : Nat) :
    EvalSimulated m fuel (.app line rator rand) := by
  intro view k us ws s printed w env n hready henv
  have hcode := Expr.flatten_open (rator.named m.names.nameOf n)
    (.apply line :: (k.waiting us ws).code)
  simp only [Term.named, Expr.flatten, Term.eval]
  refine (hrand.alone (k := (k.waiting us ws).withCode _) _ hcode hready.agrees henv).andThen ?_
  intro later u v s printed w hgrows huv hagrees
  have hready' : Ready m.names later k (u :: us) ((v, line) :: ws) s printed w :=
    ⟨hready.code, .cons huv (hgrows.values hready.waiting), hagrees⟩
  exact hrator n hready' (hgrows.env henv)

theorem cond {condition thenArm elseArm : Term} (hcondition : EvalSimulated m fuel condition)
    (hthen : EvalSimulated m fuel thenArm) (helse : EvalSimulated m fuel elseArm) (line : Nat) :
    EvalSimulated m fuel (.cond line condition thenArm elseArm) := by
  intro view k us ws s printed w env n hready henv
  simp only [Term.named, Expr.flatten, Term.eval]
  refine (hcondition.alone
    (k := (k.waiting us ws).withCode (.branch line _ _ :: (k.waiting us ws).code)) _
    ⟨List.cons_ne_nil _ _, trivial⟩ hready.agrees henv).andThen ?_
  intro later u v s printed w hgrows huv hagrees
  have hready' : Ready m.names later k us ws s printed w :=
    ⟨hready.code, hgrows.values hready.waiting, hagrees⟩
  have hcite := huv.cite_eq hagrees.tuples
  cases huv with
  | bool b =>
      cases b with
      | true =>
          refine .of_leads (.of_step ?_) (hthen _ hready' (hgrows.env henv))
          rw [Expr.flatten_append (thenArm.named _ _) (k.waiting us ws).code]
          rfl
      | false =>
          refine .of_leads (.of_step ?_) (helse _ hready' (hgrows.env henv))
          rw [Expr.flatten_append (elseArm.named _ _) (k.waiting us ws).code]
          rfl
  | _ =>
      simp only [← hcite]
      exact .fail rfl hagrees.printed

theorem tuple (happly : ApplySimulated m fuel) {items : List Term}
    (hitems : EvalAllSimulated m fuel items) (line : Nat) :
    EvalSimulated m fuel (.tuple line items) := by
  intro view k us ws s printed w env n hready henv
  simp only [Term.named, Expr.flatten, Term.eval]
  refine (hitems (k := (k.waiting us ws).withCode (.tuple line _ :: (k.waiting us ws).code)) _
    ⟨List.cons_ne_nil _ _, trivial⟩ hready.agrees henv).andThen ?_
  rintro later us' vs s printed w hgrows ⟨hlength, huvs⟩ hagrees
  rcases hagrees.formTuple huvs with ⟨hvalue, hagrees⟩
  rw [← Term.length_namedAll m.names.nameOf n items] at hlength
  have hready' : Ready m.names later k us ws _ printed _ :=
    ⟨hready.code, hgrows.values hready.waiting, hagrees⟩
  refine .of_succ (.of_push (k := k.waiting us ws) ?_ (happly hready' hvalue))
  exact congrArg (Transition.atLine line) (Focus.formTuple_append hlength _ _ _ _ _ _)

theorem nil (happly : ApplySimulated m fuel) (line : Nat) :
    EvalSimulated m fuel (.nil line) := by
  intro view k us ws s printed w env n hready henv
  have hnone : List.Forall₂ view.ValueLinked [] [] := .nil
  rcases hready.agrees.formTuple hnone with ⟨hvalue, hagrees⟩
  simp only [Term.named, Expr.flatten, Expr.flattenAll, Term.eval]
  exact .of_succ (.of_push rfl (happly ⟨hready.code, hready.waiting, hagrees⟩ hvalue))

theorem binary (happly : ApplySimulated m fuel) {left right : Term}
    (hleft : EvalSimulated m fuel left) (hright : EvalSimulated m fuel right) (line : Nat)
    (op : BinaryOp) : EvalSimulated m fuel (.binary line op left right) := by
  intro view k us ws s printed w env n hready henv
  have hcode := Expr.flatten_open (left.named m.names.nameOf n)
    (.binary line op :: (k.waiting us ws).code)
  simp only [Term.named, Expr.flatten, Term.eval]
  refine (hright.alone (k := (k.waiting us ws).withCode _) _ hcode hready.agrees henv).andThen ?_
  intro later u v s printed w hgrows huv hagrees
  refine (hleft.alone
    (k := ((k.waiting us ws).withCode (.binary line op :: (k.waiting us ws).code)).onto [u]) _
    ⟨List.cons_ne_nil _ _, trivial⟩ hagrees (hgrows.env henv)).andThen ?_
  intro last u' v' s printed w hgrows' huv' hagrees
  have hright := hgrows'.value huv
  have hwaiting := hgrows'.values (hgrows.values hready.waiting)
  have hagrees' := hagrees.binary op huv' hright
  refine .of_succ (.give_andThen (k := k.waiting us ws) rfl hagrees' ?_ ?_)
  · exact (op.apply_linked hagrees.tuples huv' hright).1.mapError Fault.of
  · exact fun hvalue => happly ⟨hready.code, hwaiting, hagrees'⟩ hvalue

theorem unary (happly : ApplySimulated m fuel) {operand : Term}
    (hoperand : EvalSimulated m fuel operand) (line : Nat) (op : UnaryOp) :
    EvalSimulated m fuel (.unary line op operand) := by
  intro view k us ws s printed w env n hready henv
  simp only [Term.named, Expr.flatten, Term.eval]
  refine (hoperand.alone
    (k := (k.waiting us ws).withCode (.unary line op :: (k.waiting us ws).code)) _
    ⟨List.cons_ne_nil _ _, trivial⟩ hready.agrees henv).andThen ?_
  intro later u v s printed w hgrows huv hagrees
  have hwaiting := hgrows.values hready.waiting
  refine .of_succ (.give_andThen (k := k.waiting us ws) rfl hagrees ?_ ?_)
  · exact (op.apply_linked hagrees.tuples huv).mapError Fault.of
  · exact fun hvalue => happly ⟨hready.code, hwaiting, hagrees⟩ hvalue

end EvalSimulated

namespace EvalAllSimulated

theorem nil (m : Machine) (fuel : Nat) : EvalAllSimulated m fuel [] := by
  intro view k s printed w env n _ hagrees _
  exact .value (b := []) ⟨rfl, .nil⟩ hagrees

theorem cons {t : Term} {ts : List Term} (ht : EvalSimulated m fuel t)
    (hts : EvalAllSimulated m fuel ts) : EvalAllSimulated m fuel (t :: ts) := by
  intro view k s printed w env n hcode hagrees henv
  have hcode' := Expr.flatten_open (t.named m.names.nameOf n) k.code
  simp only [Term.namedAll, Expr.flattenAll, Term.evalAll]
  refine (hts (k := k.withCode _) _ hcode' hagrees henv).andThen ?_
  rintro later us vs s printed w hgrows ⟨hlength, huvs⟩ hagrees
  refine (ht.alone (k := k.onto us) n hcode hagrees (hgrows.env henv)).andThen ?_
  intro last u v s printed w hgrows' huv hagrees
  refine .value (b := u :: us) ⟨?_, ?_⟩ hagrees
  · rw [List.length_cons, List.length_cons, hlength]
  · exact .cons huv (hgrows'.values huvs)

end EvalAllSimulated

mutual

/-- Evaluations are simulated when applications are. -/
theorem evalSimulated (happly : ApplySimulated m fuel) : ∀ t : Term, t.WellBound →
    m.names.Lists t.texts → EvalSimulated m fuel t
  | .ident line x, _, hlists => EvalSimulated.ident happly line (hlists x List.mem_cons_self)
  | .literal line v, _, _ => EvalSimulated.literal happly line v
  | .nil line, _, _ => EvalSimulated.nil happly line
  | .fixpoint line, _, _ => EvalSimulated.fixpoint happly line
  | .lambda line _ _, hwell, hlists => EvalSimulated.lambda happly line hwell hlists
  | .app line rator rand, hwell, hlists =>
      EvalSimulated.app (evalSimulated happly rator hwell.1 hlists.left)
        (evalSimulated happly rand hwell.2 hlists.right) line
  | .cond line c t e, hwell, hlists =>
      EvalSimulated.cond (evalSimulated happly c hwell.1 hlists.left.left)
        (evalSimulated happly t hwell.2.1 hlists.left.right)
        (evalSimulated happly e hwell.2.2 hlists.right) line
  | .tuple line items, hwell, hlists =>
      EvalSimulated.tuple happly (evalAllSimulated happly items hwell hlists) line
  | .binary line op left right, hwell, hlists =>
      EvalSimulated.binary happly (evalSimulated happly left hwell.1 hlists.left)
        (evalSimulated happly right hwell.2 hlists.right) line op
  | .unary line op operand, hwell, hlists =>
      EvalSimulated.unary happly (evalSimulated happly operand hwell hlists) line op

theorem evalAllSimulated (happly : ApplySimulated m fuel) : ∀ ts : List Term,
    Term.AllWellBound ts → m.names.Lists (Term.textsAll ts) → EvalAllSimulated m fuel ts
  | [], _, _ => EvalAllSimulated.nil m fuel
  | t :: ts, hwell, hlists =>
      EvalAllSimulated.cons (evalSimulated happly t hwell.1 hlists.left)
        (evalAllSimulated happly ts hwell.2 hlists.right)

end

end Direct

end CSEMachine
