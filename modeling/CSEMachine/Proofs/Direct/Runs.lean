import CSEMachine.Proofs.Direct.Trees
import CSEMachine.Proofs.Observation

/-!
# Machines agree with direct evaluation

A machine without a limit on its depth takes every application as a direct evaluation
does, when it does so with less fuel.  So running the code of a tree does what evaluating
the tree does, whatever the fuel: the same values, texts and faults, or no end at all.

Main results:

- Theorem `applySimulated`: applications are simulated, whatever the fuel.
- Theorem `Machine.evaluate_eq_direct`: what this means for whole programs.
-/

namespace CSEMachine

namespace Direct

/-! ## One application -/

section Application

variable {m : Machine} {fuel : Nat} {view : View} {k : Continuation} {us : List Value}
  {ws : Waiting} {s : Store} {printed : Array String} {w : World}

/-- A machine activates a closure as its function is called. -/
theorem call_simulated (happly : ApplySimulated m fuel) (hdepth : m.maxDepth = none)
    (hready : Ready m.names view k us ws s printed w) {c d : Closure}
    (hc : view.link.closure c d) {o v : Value} (ho : view.ValueLinked o v) (line : Nat) :
    Simulates m (fuel + 1) view View.ValueLinked k.resume
      ((k.waiting (o :: us) ((v, line) :: ws)).resume (.closure c) s printed)
      (apply (fuel + 1) (.closure d) ((v, line) :: ws) w) := by
  have hstep : m.step ((k.waiting (o :: us) ((v, line) :: ws)).resume (.closure c) s printed) =
    (((k.waiting us ws).focus s printed).call m c o).atLine line := rfl
  rcases hready.agrees.function hc with ⟨fn, hfn, hlinked⟩
  have hbind := hready.agrees.bindOperand hlinked ho
  simp only [apply, hfn]
  simp only [Focus.call_eq] at hstep
  have hstore : ((k.waiting us ws).focus s printed).store = s := rfl
  rw [hstore] at hstep
  generalize c.bindOperand s o = bound at hbind hstep
  generalize w.spread fn.params.length v = spread at hbind
  cases hbind with
  | error cause => exact .fail hstep hready.agrees.printed
  | @ok scope vs hscope =>
      rcases hscope with ⟨hparent, hbindings⟩
      have hlimit : ∀ frames, m.limitAbove? frames = none := by
        intro frames
        rw [Machine.limitAbove?, hdepth]
      rcases hready.agrees.addScope hlinked.env hbindings with ⟨later, hgrows, henv, hagrees⟩
      have hbody := evalSimulated happly fn.body hlinked.wellBound hlinked.lists.right
      simp only [hlimit] at hstep
      have hready' : Ready m.names later
          ((k.waiting us ws).ofCallee m ⟨s.scopes.size, c.env.scopes⟩ s printed) [] []
          (s.addScope scope.bindings).2 printed w :=
        ⟨trivial, .nil, hagrees⟩
      have hrun := hbody (fn.number + 1) hready' henv
      refine .of_step ?_ (.of_grows hgrows (hrun.andThen ?_))
      · simp only [hstep, Scope.close, hparent, hlinked.block]
        rfl
      · intro last r r' s printed w hgrows' hr hagrees
        have hwaiting := hgrows'.values (hgrows.values hready.waiting)
        refine .of_leads ?_ (happly ⟨hready.code, hwaiting, hagrees⟩ hr)
        exact leads_callersBelow m ((k.waiting us ws).focus _ _) _ _ _

/-- A machine unrolls an eta closure by one step. -/
theorem unroll_simulated (happly : ApplySimulated m fuel)
    (hready : Ready m.names view k us ws s printed w) {c d : Closure}
    (hc : view.link.closure c d) {o v : Value} (ho : view.ValueLinked o v) (line : Nat) :
    Simulates m (fuel + 1) view View.ValueLinked k.resume
      ((k.waiting (o :: us) ((v, line) :: ws)).resume (.eta c) s printed)
      (apply (fuel + 1) (.eta d) ((v, line) :: ws) w) := by
  have hready' : Ready m.names view k (.eta c :: o :: us) ((.eta d, line) :: (v, line) :: ws)
      s printed w :=
    ⟨hready.code, .cons (.eta hc) (.cons ho hready.waiting), hready.agrees⟩
  simp only [apply]
  exact .of_step rfl (happly hready' (.closure hc))

/-- A machine takes fixed points of closures only. -/
theorem fix_simulated (happly : ApplySimulated m fuel)
    (hready : Ready m.names view k us ws s printed w) {o v : Value}
    (ho : view.ValueLinked o v) (line : Nat) :
    Simulates m (fuel + 1) view View.ValueLinked k.resume
      ((k.waiting (o :: us) ((v, line) :: ws)).resume .fixpoint s printed)
      (apply (fuel + 1) .fixpoint ((v, line) :: ws) w) := by
  have hcite := ho.cite_eq hready.agrees.tuples
  simp only [apply]
  cases ho with
  | closure hc => exact .of_push (k := k.waiting us ws) rfl (happly hready (.eta hc))
  | _ =>
      simp only [← hcite]
      exact .fail rfl hready.agrees.printed

/-- A machine selects an element of a tuple. -/
theorem select_simulated (happly : ApplySimulated m fuel)
    (hready : Ready m.names view k us ws s printed w) {r r' : Nat} (hcell : view.link.cell r r')
    {o v : Value} (ho : view.ValueLinked o v) (line : Nat) :
    Simulates m (fuel + 1) view View.ValueLinked k.resume
      ((k.waiting (o :: us) ((v, line) :: ws)).resume (.tuple r) s printed)
      (apply (fuel + 1) (.tuple r') ((v, line) :: ws) w) := by
  have hcite := ho.cite_eq hready.agrees.tuples
  simp only [apply]
  cases ho with
  | int index =>
      have hselected := (hready.agrees.tuples.select hcell index).mapError Fault.of
      exact .give_andThen (k := k.waiting us ws) rfl hready.agrees hselected (happly hready)
  | _ =>
      simp only [← hcite]
      exact .fail rfl hready.agrees.printed

/-- `Conc` takes the operand that waits next, if there is one. -/
theorem conc_simulated (happly : ApplySimulated m fuel)
    (hready : Ready m.names view k us ws s printed w) {o v : Value}
    (ho : view.ValueLinked o v) (line : Nat) :
    Simulates m (fuel + 1) view View.ValueLinked k.resume
      ((k.waiting (o :: us) ((v, line) :: ws)).resume (.builtin .conc) s printed)
      (apply (fuel + 1) (.builtin .conc) ((v, line) :: ws) w) := by
  have hstep : m.step ((k.waiting (o :: us) ((v, line) :: ws)).resume (.builtin .conc) s printed) =
    (((k.waiting us ws).focus s printed).conc o).atLine line := rfl
  rcases hready with ⟨hcode, hwaiting, hagrees⟩
  simp only [apply]
  cases hwaiting with
  | nil =>
      have hmissing : ((k.waiting [] []).focus s printed).conc o =
          ((k.waiting [] []).focus s printed).fail (Cause.missingOperand Builtin.conc.spelling) := by
        rcases k with ⟨env, code, callers, stack⟩
        cases code with
        | nil => rfl
        | cons i code =>
            have hi : ∀ line, i ≠ .apply line := by
              rintro line rfl
              exact hcode
            exact Focus.conc_of_ne_apply hi o
      rw [hmissing] at hstep
      exact .fail hstep hagrees.printed
  | @cons second a us ws hsecond hwaiting =>
      have hjoined := Builtin.applyConc_linked hagrees.tuples ho hsecond
      exact .give_andThen (k := k.waiting us ws) hstep hagrees hjoined
        (happly ⟨hcode, hwaiting, hagrees⟩)

/-- A machine applies a built-in as it is. -/
theorem builtin_simulated (happly : ApplySimulated m fuel)
    (hready : Ready m.names view k us ws s printed w) (b : Builtin) {o v : Value}
    (ho : view.ValueLinked o v) (line : Nat) :
    Simulates m (fuel + 1) view View.ValueLinked k.resume
      ((k.waiting (o :: us) ((v, line) :: ws)).resume (.builtin b) s printed)
      (apply (fuel + 1) (.builtin b) ((v, line) :: ws) w) := by
  have hresult := b.apply_linked hready.agrees.tuples ho
  cases b with
  | print =>
      simp only [apply]
      exact .of_push (k := k.waiting us ws) rfl
        (happly ⟨hready.code, hready.waiting, hready.agrees.print ho⟩ .dummy)
  | conc => exact conc_simulated happly hready ho line
  | _ =>
      simp only [apply]
      exact .give_andThen (k := k.waiting us ws) rfl hready.agrees hresult (happly hready)

end Application

/-! ## All applications -/

variable {m : Machine}

/-- A value with no operand waiting stays as it is. -/
theorem apply_nil (fuel : Nat) (v : Value) (w : World) : apply fuel v [] w = .value v w := by
  cases fuel with
  | zero => rfl
  | succ fuel => rfl

/-- Without fuel no application is made. -/
theorem ApplySimulated.zero (m : Machine) : ApplySimulated m 0 := by
  intro view k us ws s printed w u v hready huv
  rcases hready with ⟨hcode, hwaiting, hagrees⟩
  cases hwaiting with
  | nil => exact .value huv hagrees
  | cons _ _ => exact rfl

/-- Applications are simulated when those with less fuel are. -/
theorem ApplySimulated.succ {fuel : Nat} (happly : ApplySimulated m fuel)
    (hdepth : m.maxDepth = none) : ApplySimulated m (fuel + 1) := by
  intro view k us ws s printed w u v hready huv
  rcases hready with ⟨hcode, hwaiting, hagrees⟩
  cases hwaiting with
  | nil =>
      rw [apply_nil]
      exact .value huv hagrees
  | @cons o a us ws ho hwaiting =>
      rcases a with ⟨v, line⟩
      have hready : Ready m.names view k us ws s printed w := ⟨hcode, hwaiting, hagrees⟩
      have hcite := huv.cite_eq hagrees.tuples
      cases huv with
      | closure hc => exact call_simulated happly hdepth hready hc ho line
      | eta hc => exact unroll_simulated happly hready hc ho line
      | fixpoint => exact fix_simulated happly hready ho line
      | tuple hcell => exact select_simulated happly hready hcell ho line
      | builtin b => exact builtin_simulated happly hready b ho line
      | _ =>
          simp only [apply, ← hcite]
          exact .fail rfl hagrees.printed

/-- Applications are simulated, whatever the fuel. -/
theorem applySimulated (hdepth : m.maxDepth = none) (fuel : Nat) : ApplySimulated m fuel := by
  induction fuel with
  | zero => exact ApplySimulated.zero m
  | succ fuel ih => exact ih.succ hdepth

/-! ## Whole programs -/

/-- What an evaluation reports when a direct evaluation has an outcome: the text of the last
`Print` and a value that is the same data in the same world, or the same fault on the same
line.  The printed texts go to the sink in order. -/
def Outcome.Reported (names : NameTable) (session : Session) :
    Outcome Value → Result → Session → Prop
  | .value v w, result, session' => ∃ (view : View) (u : Value),
      result = .ok ⟨w.printed.back?, some u⟩ ∧ u.shown session'.store = v.shown w.store ∧
        view.ValueLinked u v ∧ view.Agrees names session'.store w.printed w ∧
        session'.sink = session.sink.writeAll w.printed.toList
  | .fault e w, result, session' =>
      result = .error e ∧ session'.sink = session.sink.writeAll w.printed.toList
  | .pending, _, _ => False

/-- The state in which the run of a program begins. -/
def entry (root : Block) (store : Store) : State :=
  Continuation.enter ⟨⟨store.scopes.size, []⟩, [], [], []⟩ root.code (store.addScope []).2 #[]

/-- Before a run nothing has been formed, and its root binds nothing. -/
theorem entry_agrees (names : NameTable) (store : Store) :
    ∃ view : View, view.EnvLinked names ⟨store.scopes.size, []⟩ [[]] ∧
      view.Agrees names (store.addScope []).2 #[] .empty := by
  refine ⟨⟨store.tuples.size, [], store.scopes.push []⟩, ?_, ?_⟩
  · exact List.Forall₂.cons ⟨[], by simp, .nil⟩ .nil
  · exact {
      tuples := by
        constructor
        · rintro r r' rfl
          simp [World.empty, Store.empty, Store.items, Store.addScope]
        · rintro r r' rfl
          simp [World.empty, Store.empty, Store.addScope]
      size := rfl
      scopes := rfl
      functions := .nil
      printed := rfl }

/-- The run of the program of a tree does what the evaluation of the tree does. -/
theorem program_simulated (hdepth : m.maxDepth = none) {t : Term} (ht : t.WellBound)
    (hlists : m.names.Lists t.texts) (store : Store) (fuel : Nat) :
    ∃ view : View, Simulates m fuel view View.ValueLinked
      (Continuation.resume ⟨⟨store.scopes.size, []⟩, [], [], []⟩)
      (entry (t.program true m.names).root store) (t.evaluate fuel) := by
  rcases entry_agrees m.names store with ⟨view, henv, hagrees⟩
  have heval := evalSimulated (applySimulated hdepth fuel) t ht hlists
  refine ⟨view, ?_⟩
  exact heval (k := ⟨⟨store.scopes.size, []⟩, [], [], []⟩) 1 ⟨trivial, .nil, hagrees⟩ henv

/-- A run that does what an outcome says ends, and reports that outcome. -/
theorem Simulates.reported {fuel : Nat} {view : View} {start : State} {o : Outcome Value}
    {env : Env} (h : Simulates m fuel view View.ValueLinked
      (Continuation.resume ⟨env, [], [], []⟩) start o) (ho : o ≠ .pending) :
    ∃ n e, m.finish n (.next start) = some e ∧ ∀ session : Session,
      o.Reported m.names session (e.toResult session.sink).1 (e.toResult session.sink).2 := by
  cases o with
  | value v w =>
      rcases h with ⟨later, u, s, printed, ⟨n, hn⟩, _, huv, hagrees⟩
      refine ⟨1 + n, ⟨.ok (some u), s, printed⟩, ?_, ?_⟩
      · rw [Machine.finish_add_of_after hn]
        rfl
      · intro session
        obtain rfl := hagrees.printed
        exact ⟨later, u, rfl, huv.shown_eq hagrees.tuples, huv, hagrees, rfl⟩
  | fault e w =>
      rcases h with ⟨n, s, hn, hprinted⟩
      refine ⟨n, ⟨.error e, s.store, s.printed⟩, ?_, ?_⟩
      · rw [Machine.finish_eq_ending?_after, hn]
        rfl
      · intro session
        rw [hprinted]
        exact ⟨rfl, rfl⟩
  | pending => exact (ho rfl).elim

end Direct

namespace Machine

variable {m : Machine}

/-- A program of a tree is run from its entry, by a machine with its names and without a
limit on its depth. -/
theorem evaluate_eq_finish (hdepth : m.maxDepth = none) (t : Term) (fuel : Nat)
    (session : Session) :
    m.evaluate fuel (t.program true m.names) session =
      (m.finish fuel (.next (Direct.entry (t.program true m.names).root session.store))).map
        fun e => e.toResult session.sink := by
  have hstart : m.start (t.program true m.names).root session.store =
      .next (Direct.entry (t.program true m.names).root session.store) := by
    simp only [start, limitAbove?, hdepth]
    rfl
  rw [evaluate, m.refusal?_program t, hstart]

/-- Every outcome of a tree is reported. -/
theorem evaluate_of_outcome (hdepth : m.maxDepth = none) {t : Term} (ht : t.WellBound)
    (hlists : m.names.Lists t.texts) (session : Session) {fuel : Nat}
    (hfuel : t.evaluate fuel ≠ .pending) :
    ∃ fuel' result session',
      m.evaluate fuel' (t.program true m.names) session = some (result, session') ∧
        (t.evaluate fuel).Reported m.names session result session' := by
  rcases Direct.program_simulated hdepth ht hlists session.store fuel with ⟨view, hsimulated⟩
  rcases hsimulated.reported hfuel with ⟨n, e, hfinish, hreported⟩
  refine ⟨n, _, _, ?_, hreported session⟩
  rw [evaluate_eq_finish hdepth, hfinish]
  rfl

/-- A tree that has no outcome yet has no report yet. -/
theorem evaluate_of_pending (hdepth : m.maxDepth = none) {t : Term} (ht : t.WellBound)
    (hlists : m.names.Lists t.texts) (session : Session) {fuel : Nat}
    (hfuel : t.evaluate fuel = .pending) :
    m.evaluate fuel (t.program true m.names) session = none := by
  rcases Direct.program_simulated hdepth ht hlists session.store fuel with ⟨view, hsimulated⟩
  rw [hfuel] at hsimulated
  rw [evaluate_eq_finish hdepth, Option.map_eq_none_iff]
  exact hsimulated

/-- A machine without a limit on its depth agrees with direct evaluation: what it reports is
the outcome of the tree, and it reports every outcome that there is.  So it runs forever
exactly when the evaluation of the tree does. -/
theorem evaluate_eq_direct {t : Term} {table table' : NameTable} {p : Program}
    (hp : Program.ofTerm t true table = (.ok p, table')) (hnames : table'.Grows m.names)
    (hdepth : m.maxDepth = none) (session : Session) :
    (∀ fuel result session', m.evaluate fuel p session = some (result, session') →
      (t.evaluate fuel).Reported m.names session result session') ∧
    (∀ fuel, t.evaluate fuel ≠ .pending → ∃ fuel' result session',
      m.evaluate fuel' p session = some (result, session') ∧
        (t.evaluate fuel).Reported m.names session result session') ∧
    ((∀ fuel, m.evaluate fuel p session = none) ↔ ∀ fuel, t.evaluate fuel = .pending) := by
  rcases Program.of_ofTerm hp hnames with ⟨ht, rfl, hlists⟩
  refine ⟨?_, fun fuel => evaluate_of_outcome hdepth ht hlists session, ?_⟩
  · intro fuel result session' hevaluate
    have hfuel : t.evaluate fuel ≠ .pending := by
      intro hfuel
      rw [evaluate_of_pending hdepth ht hlists session hfuel] at hevaluate
      cases hevaluate
    rcases evaluate_of_outcome hdepth ht hlists session hfuel with
      ⟨fuel', result', session'', hevaluate', hreported⟩
    cases evaluate_unique hevaluate hevaluate'
    exact hreported
  · constructor
    · intro hnone fuel
      apply Classical.byContradiction
      intro hfuel
      rcases evaluate_of_outcome hdepth ht hlists session hfuel with
        ⟨fuel', result, session', hevaluate, _⟩
      rw [hnone fuel'] at hevaluate
      cases hevaluate
    · intro h fuel
      exact evaluate_of_pending hdepth ht hlists session (h fuel)

/-- In `(fn f. f 'a' 'b') Conc` the operands of `Conc` wait for the value of `f`. -/
theorem evaluate_eq_direct_conc :
    let t : Term := .app 3 (.lambda 1 ["f"] (.app 2 (.app 1 (.ident 1 "f")
      (.literal 1 (.str "a"))) (.literal 2 (.str "b")))) (.ident 3 "Conc")
    let m : Machine := ⟨⟨0, ["f", "Conc"]⟩, none, true⟩
    let p : Program := t.program true m.names
    Program.ofTerm t true ⟨0, []⟩ = (.ok p, m.names) ∧
      (∃ w, t.evaluate 2 = .value (.str "ab") w) ∧
      ∃ fuel session', m.evaluate fuel p (.fresh .silent) =
        some (.ok ⟨none, some (.str "ab")⟩, session') := by
  intro t m p
  have hlowered : Program.ofTerm t true ⟨0, []⟩ = (.ok p, m.names) := rfl
  have hvalue : ∃ w, t.evaluate 2 = .value (.str "ab") w ∧ w.printed = #[] := ⟨_, rfl, rfl⟩
  rcases hvalue with ⟨w, hvalue, hprinted⟩
  have hfuel : t.evaluate 2 ≠ .pending := by
    rw [hvalue]
    nofun
  rcases (evaluate_eq_direct (m := m) hlowered (.refl _) rfl (.fresh .silent)).2.1 2 hfuel with
    ⟨fuel, result, session', hevaluate, hreported⟩
  rw [hvalue] at hreported
  rcases hreported with ⟨view, u, rfl, _, hlinked, _, _⟩
  cases hlinked
  refine ⟨hlowered, ⟨w, hvalue⟩, fuel, session', ?_⟩
  rw [hevaluate, hprinted]
  rfl

end Machine

end CSEMachine
