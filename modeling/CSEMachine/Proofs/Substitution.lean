import CSEMachine.Proofs.Similarity.Runs

/-!
# Substituting constants

A constant may be written in place of every free occurrence of a variable that is bound
to it.  One machine then looks the variable up where the other pushes the constant, and
all else is the same.

Main results:

- Theorem `Term.similar_subst`: where a variable is bound to a constant, a tree is
  similar to the one with the constant in place of the variable.
- Theorem `Machine.observe_subst`: the substitution cannot be observed.
-/

namespace CSEMachine

/-! ## Substitution -/

mutual

/-- The tree with a constant for every occurrence of a text that no inner lambda binds,
each on the line of the occurrence. -/
def Term.subst (x : String) (k : Constant) : Term → Term
  | .ident line y => if y = x then k.term line else .ident line y
  | .literal line v => .literal line v
  | .nil line => .nil line
  | .fixpoint line => .fixpoint line
  | .lambda line ys body => .lambda line ys (if x ∈ ys then body else body.subst x k)
  | .app line rator rand => .app line (rator.subst x k) (rand.subst x k)
  | .cond line c t e => .cond line (c.subst x k) (t.subst x k) (e.subst x k)
  | .tuple line items => .tuple line (Term.substAll x k items)
  | .binary line op left right => .binary line op (left.subst x k) (right.subst x k)
  | .unary line op operand => .unary line op (operand.subst x k)

/-- Several trees with a constant for every free occurrence of a text. -/
def Term.substAll (x : String) (k : Constant) : List Term → List Term
  | [] => []
  | t :: ts => t.subst x k :: Term.substAll x k ts

end

/-- A text that a plain scope does not bind stands for what it does outside. -/
theorem Context.Knows.cons_same {ctx : Context} {x : String} {k : Constant}
    (h : ctx.Knows x k) {ys : List String} (hx : x ∉ ys) :
    Context.Knows (ys.map Variable.same :: ctx) x k := by
  rcases h with ⟨v, hv, hk⟩
  refine ⟨v, ?_, hk⟩
  have hnone : (ys.map Variable.same).find? (fun v => v.left = x) = none :=
    find?_map_same (fun _ => rfl) hx
  simpa [Context.find?, hnone] using hv

mutual

/-- Where a variable is bound to a constant, a tree is similar to the one with the
constant in place of the variable. -/
theorem Term.similar_subst {x : String} {k : Constant} : ∀ (t : Term), t.WellBound →
    ∀ {ctx : Context}, ctx.Plain → ctx.Knows x k → Term.Similar ctx t (t.subst x k)
  | .ident line y, _, _, hctx, hx => by
      rw [Term.subst]
      by_cases heq : y = x
      · subst heq
        rw [if_pos rfl]
        exact .constant line hx
      · rw [if_neg heq]
        exact .ident line (hctx.alike y)
  | .literal line v, _, _, _, _ => .literal line v
  | .nil line, _, _, _, _ => .nil line
  | .fixpoint line, _, _, _, _ => .fixpoint line
  | .lambda line ys body, ⟨hne, hnodup, hbody⟩, ctx, hctx, hx => by
      rw [Term.subst]
      by_cases hmem : x ∈ ys
      · rw [if_pos hmem]
        exact Term.Similar.refl (.lambda line ys body) ⟨hne, hnodup, hbody⟩ hctx
      · rw [if_neg hmem]
        have hinner := Term.similar_subst body hbody (hctx.cons_same ys) (hx.cons_same hmem)
        exact hinner.lambda_same line hnodup
  | .app line rator rand, ⟨hrator, hrand⟩, _, hctx, hx =>
      .app line (Term.similar_subst rator hrator hctx hx) (Term.similar_subst rand hrand hctx hx)
  | .cond line c t e, ⟨hc, ht, he⟩, _, hctx, hx =>
      .cond line (Term.similar_subst c hc hctx hx) (Term.similar_subst t ht hctx hx)
        (Term.similar_subst e he hctx hx)
  | .tuple line items, hitems, _, hctx, hx =>
      .tuple line (Term.allSimilar_substAll items hitems hctx hx)
  | .binary line op left right, ⟨hleft, hright⟩, _, hctx, hx =>
      .binary line op (Term.similar_subst left hleft hctx hx)
        (Term.similar_subst right hright hctx hx)
  | .unary line op operand, hoperand, _, hctx, hx =>
      .unary line op (Term.similar_subst operand hoperand hctx hx)

theorem Term.allSimilar_substAll {x : String} {k : Constant} : ∀ (ts : List Term),
    Term.AllWellBound ts → ∀ {ctx : Context}, ctx.Plain → ctx.Knows x k →
      Term.AllSimilar ctx ts (Term.substAll x k ts)
  | [], _, _, _, _ => .nil
  | t :: ts, ⟨ht, hts⟩, _, hctx, hx =>
      .cons (Term.similar_subst t ht hctx hx) (Term.allSimilar_substAll ts hts hctx hx)

end

/-! ## Applying a lambda to a constant -/

namespace Machine

/-- The code of a lambda of one parameter applied to a constant. -/
def redex (k : Constant) (line line' line'' : Nat) (x : Name) (body : List Instr) : Block :=
  ⟨0, [], [k.instr line'', .lambda line' ⟨1, [x], body⟩, .apply line]⟩

/-- The frames below the body of the lambda: the finished root, unless it is dropped. -/
def redexCallers (m : Machine) (store : Store) : List Frame :=
  if m.dropsCallers then [] else [⟨⟨store.scopes.size, []⟩, []⟩]

/-- What the application leads to, unless the limit forbids the root: the body in the
scope that binds the parameter to the constant. -/
def entered (m : Machine) (k : Constant) (line : Nat) (x : Name) (body : List Instr)
    (store : Store) : Transition :=
  let rooted := (store.addScope []).2
  match m.limitAbove? (m.redexCallers store) with
  | some limit =>
    .failed (Fault.atLine line (Cause.depthExceeded limit))
      ⟨[⟨⟨store.scopes.size, []⟩, []⟩], [], rooted, #[]⟩
  | none =>
    .next ⟨⟨⟨rooted.scopes.size, [store.scopes.size]⟩, body⟩ :: m.redexCallers store, [],
      (rooted.addScope [(x, k.value)]).2, #[]⟩

/-- An instruction that pushes a constant does. -/
theorem perform_constant (m : Machine) (f : Focus) (k : Constant) (line : Nat) :
    (k.instr line).perform m f = f.push k.value := by
  cases k <;> rfl

/-- Three instructions enter the body. -/
theorem after_redex {m : Machine} {store : Store} (hlimit : m.limitAbove? [] = none)
    (k : Constant) (line line' line'' : Nat) (x : Name) (body : List Instr) :
    m.after 3 (m.start (redex k line line' line'' x body) store) =
        m.entered k line x body store ∧
      ∀ n < 3, ∃ s, m.after n (m.start (redex k line line' line'' x body) store) = .next s ∧
        s.printed = #[] := by
  have hstart : m.start (redex k line line' line'' x body) store =
      .next ⟨[⟨⟨store.scopes.size, []⟩, [k.instr line'', .lambda line' ⟨1, [x], body⟩,
        .apply line]⟩], [], (store.addScope []).2, #[]⟩ := by
    simp only [start, hlimit]
    rfl
  have hfirst : ∀ n, m.after (n + 1) (m.start (redex k line line' line'' x body) store) =
      m.after n (.next ⟨[⟨⟨store.scopes.size, []⟩, [.lambda line' ⟨1, [x], body⟩,
        .apply line]⟩], [k.value], (store.addScope []).2, #[]⟩) := by
    intro n
    rw [hstart, after_succ_next, step_cons_cons, perform_constant]
    rfl
  have hsecond : ∀ n, m.after (n + 2) (m.start (redex k line line' line'' x body) store) =
      m.after n (.next ⟨[⟨⟨store.scopes.size, []⟩, [.apply line]⟩],
        [.closure ⟨⟨1, [x], body⟩, ⟨store.scopes.size, []⟩⟩, k.value],
        (store.addScope []).2, #[]⟩) := by
    intro n
    rw [hfirst]
    rfl
  refine ⟨?_, ?_⟩
  · have hbind : Closure.bindOperand ⟨⟨1, [x], body⟩, ⟨store.scopes.size, []⟩⟩
        (store.addScope []).2 k.value = .ok ⟨⟨store.scopes.size, []⟩, [(x, k.value)]⟩ := rfl
    have hcallers : Focus.callersBelow ⟨⟨store.scopes.size, []⟩, [], [], [],
        (store.addScope []).2, #[]⟩ m = m.redexCallers store := by
      simp [Focus.callersBelow_eq, redexCallers]
    rw [hsecond 1, after_succ_next, after_zero, step_cons_cons]
    simp only [Instr.perform_eq, Focus.apply_eq, Focus.applyValue_eq, Focus.call_eq, hbind, hcallers,
      entered]
    cases m.limitAbove? (m.redexCallers store) <;> rfl
  · intro n hn
    have hcases : n = 0 ∨ n = 1 ∨ n = 2 := by omega
    rcases hcases with rfl | rfl | rfl
    · exact ⟨_, hstart, rfl⟩
    · exact ⟨_, hfirst 0, rfl⟩
    · exact ⟨_, hsecond 0, rfl⟩

variable {m m' : Machine}

/-- Similar bodies are entered in correspondence. -/
theorem entered_related (hlimit : m.maxDepth = m'.maxDepth)
    (hdrops : m.dropsCallers = m'.dropsCallers) {x : String} {k : Constant} (line : Nat)
    {b b' : Term} (hb : Term.Similar [[⟨x, x, some k⟩], []] b b')
    (hlists : m.names.Lists b.texts) (hlists' : m'.names.Lists b'.texts) (s s' : Store) :
    Transition.Related (Correspondence.similar m.names m'.names s s').Related
      (m.entered k line (m.names.nameOf x) ((b.named m.names.nameOf 2).flatten []) s)
      (m'.entered k line (m'.names.nameOf x) ((b'.named m'.names.nameOf 2).flatten []) s') := by
  let C := Correspondence.similar m.names m'.names s s'
  have hC : C.Lawful m m' := Correspondence.similar_lawful hlimit hdrops s s'
  have hbegins : C.BeginsWith s s' := ⟨rfl, rfl⟩
  have hempty : C.StoreRelated s s' := hbegins.storeRelated
  have hrooted := hempty.addScope hC (.nil : C.BindingsLinked s.scopes s'.scopes [] [])
  have hroot : C.EnvLinked (s.scopes.push []) (s'.scopes.push []) ⟨s.scopes.size, []⟩
      ⟨s'.scopes.size, []⟩ :=
    List.Forall₂.cons ⟨Shifted.start _ _, by simp, by simp⟩ .nil
  have hvalue : C.ValueLinked (s.scopes.push []) (s'.scopes.push []) k.value k.value := by
    cases k with
    | literal v => exact .literal v
    | fixpoint => exact .fixpoint
  have hbinding : C.BindingsLinked (s.scopes.push []) (s'.scopes.push [])
      [(m.names.nameOf x, k.value)] [(m'.names.nameOf x, k.value)] :=
    .cons ⟨trivial, hvalue⟩ .nil
  have hstore := hrooted.addScope hC hbinding
  have hcallers : List.Forall₂ (C.FrameLinked (s.scopes.push []) (s'.scopes.push []))
      (m.redexCallers s) (m'.redexCallers s') := by
    unfold redexCallers
    rw [hdrops]
    cases m'.dropsCallers with
    | true => exact .nil
    | false => exact .cons ⟨hroot, .nil⟩ .nil
  unfold entered
  rw [Correspondence.limitAbove?_eq hC hcallers.length_eq]
  cases m'.limitAbove? (m'.redexCallers s') with
  | some limit => exact .failed _ ⟨.cons ⟨hroot, .nil⟩ .nil, .nil, hrooted, rfl⟩
  | none =>
      have hmatch : Scopes.Match m.names m'.names
          ((s.scopes.push []).push [(m.names.nameOf x, k.value)])
          ((s'.scopes.push []).push [(m'.names.nameOf x, k.value)]) [[⟨x, x, some k⟩], []]
          [(s.scopes.push []).size, s.scopes.size]
          [(s'.scopes.push []).size, s'.scopes.size] := by
        have hne : s.scopes.size ≠ (s.scopes.push ([] : Bindings)).size := by simp
        have hne' : s'.scopes.size ≠ (s'.scopes.push ([] : Bindings)).size := by simp
        refine .cons ?_ (.cons ?_ .nil)
        · rw [Array.getElem?_push_size, Array.getElem?_push_size]
          refine ⟨.cons ⟨rfl, ?_⟩ .nil, .cons rfl .nil⟩
          rintro k' ⟨⟩
          rfl
        · rw [Array.getElem?_push, if_neg hne, Array.getElem?_push_size,
            Array.getElem?_push, if_neg hne', Array.getElem?_push_size]
          exact ⟨.nil, .nil⟩
      refine .next ⟨.cons ⟨?_, ?_⟩ ?_, .nil, hstore, rfl⟩
      · exact hroot.cons hrooted.scopes_size _ _
      · exact Correspondence.similar_code hmatch (hb.flatten hlists hlists' 2 .nil)
      · exact List.Forall₂.imp (fun _ _ h => hC.frame_push h _ _) hcallers

/-- Of both redexes the same is observed, and they print the same on their way. -/
theorem redex_similar (hlimit : m.maxDepth = m'.maxDepth)
    (hdrops : m.dropsCallers = m'.dropsCallers) {x : String} {k : Constant}
    (line line' line'' : Nat) {b b' : Term} (hb : Term.Similar [[⟨x, x, some k⟩], []] b b')
    (hlists : m.names.Lists b.texts) (hlists' : m'.names.Lists b'.texts) (s s' : Store)
    (n : Nat) :
    let t := m.after n (m.start (redex k line line' line'' (m.names.nameOf x)
      ((b.named m.names.nameOf 2).flatten [])) s)
    let t' := m'.after n (m'.start (redex k line line' line'' (m'.names.nameOf x)
      ((b'.named m'.names.nameOf 2).flatten [])) s')
    t.observation? = t'.observation? ∧ t.printed = t'.printed := by
  intro t t'
  have hC := Correspondence.similar_lawful hlimit hdrops s s'
  have hempty : m.limitAbove? [] = m'.limitAbove? [] :=
    Correspondence.limitAbove?_eq hC rfl
  cases hroot : m'.limitAbove? [] with
  | some limit =>
      rw [hroot] at hempty
      simp only [t, t', start, hempty, hroot, after_failed]
      exact ⟨rfl, rfl⟩
  | none =>
      rw [hroot] at hempty
      rcases after_redex hempty k line line' line'' (m.names.nameOf x)
        ((b.named m.names.nameOf 2).flatten []) with ⟨hthree, hbefore⟩
      rcases after_redex hroot k line line' line'' (m'.names.nameOf x)
        ((b'.named m'.names.nameOf 2).flatten []) with ⟨hthree', hbefore'⟩
      by_cases hn : n < 3
      · rcases hbefore n hn with ⟨u, hu, hprinted⟩
        rcases hbefore' n hn with ⟨u', hu', hprinted'⟩
        have ht : t = .next u := hu
        have ht' : t' = .next u' := hu'
        rw [ht, ht']
        exact ⟨rfl, hprinted.trans hprinted'.symm⟩
      · have hsum : n - 3 + 3 = n := Nat.sub_add_cancel (Nat.le_of_not_lt hn)
        have hrelated := Correspondence.after_related hC
          (entered_related hlimit hdrops line hb hlists hlists' s s') (n - 3)
        rw [← hthree, ← hthree', ← after_add, ← after_add, hsum] at hrelated
        exact ⟨Correspondence.observation?_eq hrelated, Correspondence.printed_eq hrelated⟩

/-- Writing a constant in place of a variable that a lambda applied to the constant binds
cannot be observed: both programs show the same after any number of steps, and have
printed the same, whatever tables their names come from and whatever happened before. -/
theorem observe_subst (x : String) (k : Constant) (line line' line'' : Nat) {b : Term}
    {standardized : Bool} {table₀ table₀' : NameTable} {p₀ : Program}
    (hb : Program.ofTerm b standardized table₀ = (.ok p₀, table₀')) (table table' : NameTable) :
    ∃ p p' table₁ table₁',
      Program.ofTerm (.app line (.lambda line' [x] b) (k.term line'')) true table =
          (.ok p, table₁) ∧
        Program.ofTerm (.app line (.lambda line' [x] (b.subst x k)) (k.term line'')) true table' =
          (.ok p', table₁') ∧
        ∀ (m m' : Machine) (session session' : Session), table₁.Grows m.names →
          table₁'.Grows m'.names → m.maxDepth = m'.maxDepth → m.dropsCallers = m'.dropsCallers →
          ∀ fuel, m.observe fuel p session = m'.observe fuel p' session' ∧
            (m.after fuel (m.start p.root session.store)).printed =
              (m'.after fuel (m'.start p'.root session'.store)).printed := by
  have hwell := Program.wellBound_of_ofTerm hb
  have hplain : Context.Plain [[⟨x, x, some k⟩], []] := by simp [Context.Plain]
  have hknows : Context.Knows [[⟨x, x, some k⟩], []] x k :=
    ⟨⟨x, x, some k⟩, by simp [Context.find?], rfl⟩
  have hsimilar := Term.similar_subst b hwell hplain hknows
  have hconstant : (k.term line'').WellBound := by cases k <;> exact trivial
  have hleft : (Term.app line (.lambda line' [x] b) (k.term line'')).WellBound :=
    ⟨⟨by simp, by simp, hwell⟩, hconstant⟩
  have hright :
      (Term.app line (.lambda line' [x] (b.subst x k)) (k.term line'')).WellBound :=
    ⟨⟨by simp, by simp, hsimilar.wellBound hwell⟩, hconstant⟩
  have hroot : ∀ (T : NameTable) (t : Term),
      ((Term.app line (.lambda line' [x] t) (k.term line'')).program true T).root =
        redex k line line' line'' (T.nameOf x) ((t.named T.nameOf 2).flatten []) := by
    intro T t
    cases k <;> rfl
  have hp := Program.ofTerm_of_wellBound hleft true table (NameTable.Grows.refl _)
  have hp' := Program.ofTerm_of_wellBound hright true table' (NameTable.Grows.refl _)
  refine ⟨_, _, _, _, hp, hp', ?_⟩
  intro m m' session session' hgrows hgrows' hlimit hdrops fuel
  rcases Program.of_ofTerm hp hgrows with ⟨_, heq, hlists⟩
  rcases Program.of_ofTerm hp' hgrows' with ⟨_, heq', hlists'⟩
  rw [heq, heq']
  have hbody : m.names.Lists b.texts := fun y hy => hlists y (by simp [Term.texts, hy])
  have hbody' : m'.names.Lists (b.subst x k).texts := fun y hy =>
    hlists' y (by simp [Term.texts, hy])
  have hsame := redex_similar hlimit hdrops line line' line'' hsimilar hbody hbody'
    session.store session'.store fuel
  rw [observe_of_not_refused (m.refusal?_program _), observe_of_not_refused (m'.refusal?_program _),
    hroot, hroot]
  exact hsame

/-- In `(fn x. (x, fn y. x)) 7` the seven may be written in place of `x`. -/
theorem observe_subst_seven :
    ∃ p p' table table',
      Program.ofTerm (.app 1 (.lambda 1 ["x"] (.tuple 2 [.ident 2 "x",
          .lambda 3 ["y"] (.ident 3 "x")])) (.literal 1 (.int 7))) true ⟨0, []⟩ =
        (.ok p, table) ∧
      Program.ofTerm (.app 1 (.lambda 1 ["x"] (.tuple 2 [.literal 2 (.int 7),
          .lambda 3 ["y"] (.literal 3 (.int 7))])) (.literal 1 (.int 7))) true ⟨0, []⟩ =
        (.ok p', table') ∧
      ∀ fuel, (Machine.mk table none true).observe fuel p (.fresh .silent) =
        (Machine.mk table' none true).observe fuel p' (.fresh .silent) := by
  have hlowered : Program.ofTerm (.tuple 2 [.ident 2 "x", .lambda 3 ["y"] (.ident 3 "x")])
      true ⟨0, []⟩ = (.ok _, _) := rfl
  rcases observe_subst "x" (.literal (.int 7)) 1 1 1 hlowered ⟨0, []⟩ ⟨0, []⟩ with
    ⟨p, p', table, table', hp, hp', hsame⟩
  refine ⟨p, p', table, table', hp, ?_, ?_⟩
  · exact hp'
  · intro fuel
    exact (hsame ⟨table, none, true⟩ ⟨table', none, true⟩ (.fresh .silent) (.fresh .silent)
      (.refl _) (.refl _) rfl rfl fuel).1

end Machine

end CSEMachine
