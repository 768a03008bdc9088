import CSEMachine.Proofs.Correspondence.Values
import CSEMachine.Proofs.Run

/-!
# Corresponding steps

Two machines run side by side.  A correspondence says which names, closures and
instructions of the two stand for each other; closures and instructions may be
compared in the light of the scopes that exist so far.  If it is lawful, that is, if
corresponding instructions push corresponding values or do the same, and
corresponding closures have corresponding code, then corresponding states step to
corresponding states.

A correspondence of a machine with itself that only relates equal things is an
invariant.

Main results:

- Theorem `Correspondence.step_related`: one step preserves a lawful correspondence.
- Theorem `Correspondence.after_related`: so does a whole run.
-/

namespace CSEMachine

/-- Two numbers equally far from where the counting began on either side. -/
def Shifted (b b' r r' : Nat) : Prop :=
  ∃ i, r = b + i ∧ r' = b' + i

theorem Shifted.start (b b' : Nat) : Shifted b b' b b' :=
  ⟨0, rfl, rfl⟩

theorem Shifted.succ {b b' r r' : Nat} (h : Shifted b b' r r') :
    Shifted b b' (r + 1) (r' + 1) := by
  rcases h with ⟨i, rfl, rfl⟩
  exact ⟨i + 1, rfl, rfl⟩

theorem Shifted.iff {b b' r r' q q' : Nat} (h : Shifted b b' r r') (h' : Shifted b b' q q') :
    r = q ↔ r' = q' := by
  rcases h with ⟨i, rfl, rfl⟩
  rcases h' with ⟨j, rfl, rfl⟩
  omega

theorem Shifted.lt_iff {b b' r r' q q' : Nat} (h : Shifted b b' r r')
    (h' : Shifted b b' q q') : r < q ↔ r' < q' := by
  rcases h with ⟨i, rfl, rfl⟩
  rcases h' with ⟨j, rfl, rfl⟩
  omega

/-- What stands for what in two runs.  Tuples and scopes correspond in the order in
which the runs add them to the stores that they begin with. -/
structure Correspondence where
  /-- Numbers of tuples when the runs begin. -/
  tuples : Nat × Nat
  /-- Numbers of scopes when the runs begin. -/
  scopes : Nat × Nat
  name : Name → Name → Prop
  /-- Closures that correspond, given the scopes of both sides. -/
  closure : Array Bindings → Array Bindings → Closure → Closure → Prop
  /-- Instructions that correspond in two environments, given the scopes of both
  sides. -/
  instr : Array Bindings → Array Bindings → Env → Env → Instr → Instr → Prop
  index_eq : ∀ {σ σ' : Array Bindings} {c d : Closure},
    closure σ σ' c d → c.block.index = d.block.index

namespace Correspondence

variable (C : Correspondence)

/-! ## Corresponding states -/

/-- Environments correspond when they consist of corresponding scopes, which exist. -/
def EnvLinked (σ σ' : Array Bindings) (env env' : Env) : Prop :=
  List.Forall₂ (fun s s' => Shifted C.scopes.1 C.scopes.2 s s' ∧ s < σ.size ∧ s' < σ'.size)
    env.scopes env'.scopes

/-- The link between values, given the scopes of both sides. -/
def link (σ σ' : Array Bindings) : Link where
  cell := Shifted C.tuples.1 C.tuples.2
  closure c d := C.EnvLinked σ σ' c.env d.env ∧ C.closure σ σ' c d
  cell_iff h h' := h.iff h'
  index_eq h := C.index_eq h.2

/-- Values correspond, given the scopes of both sides. -/
abbrev ValueLinked (σ σ' : Array Bindings) : Value → Value → Prop :=
  Value.Linked (C.link σ σ')

/-- Bindings correspond when they bind corresponding names to corresponding values in
the same order. -/
def BindingsLinked (σ σ' : Array Bindings) (b b' : Bindings) : Prop :=
  List.Forall₂ (fun p p' => C.name p.1 p'.1 ∧ C.ValueLinked σ σ' p.2 p'.2) b b'

/-- Activations correspond when their environments and what is left of their code
do. -/
def FrameLinked (σ σ' : Array Bindings) (f f' : Frame) : Prop :=
  C.EnvLinked σ σ' f.env f'.env ∧ List.Forall₂ (C.instr σ σ' f.env f'.env) f.code f'.code

/-- Stores correspond when the runs have added as many tuples and scopes and these
correspond. -/
structure StoreRelated (s s' : Store) : Prop where
  tuples : Store.Linked (C.link s.scopes s'.scopes) s s'
  tuples_size : Shifted C.tuples.1 C.tuples.2 s.tuples.size s'.tuples.size
  scopes : ∀ {n n' : Nat}, Shifted C.scopes.1 C.scopes.2 n n' →
    C.BindingsLinked s.scopes s'.scopes (s.bindings n) (s'.bindings n')
  scopes_size : Shifted C.scopes.1 C.scopes.2 s.scopes.size s'.scopes.size

/-- States correspond when all their parts do. -/
structure Related (st st' : State) : Prop where
  frames : List.Forall₂ (C.FrameLinked st.store.scopes st'.store.scopes) st.frames st'.frames
  stack : List.Forall₂ (C.ValueLinked st.store.scopes st'.store.scopes) st.stack st'.stack
  store : C.StoreRelated st.store st'.store
  printed : st.printed = st'.printed

end Correspondence

/-! ## Laws -/

/-- What an instruction pushes that does nothing else. -/
def Instr.pushed? (m : Machine) (env : Env) (store : Store) : Instr → Option (Except Cause Value)
  | .ident _ x =>
    match env.lookup store x with
    | some v => some (.ok v)
    | none =>
      match Builtin.ofSpelling? (m.names.text x) with
      | some b => some (.ok (.builtin b))
      | none => some (.error (.undeclared (m.names.text x)))
  | .literal _ v => some (.ok v.value)
  | .lambda _ b => some (.ok (.closure ⟨b, env⟩))
  | .fixpoint _ => some (.ok .fixpoint)
  | .binary _ _ | .unary _ _ | .tuple _ _ | .branch _ _ _ | .apply _ => none

/-- An instruction that only pushes pushes that value. -/
theorem Instr.perform_of_pushed? {m : Machine} {f : Focus} {i : Instr} {r : Except Cause Value}
    (h : i.pushed? m f.env f.store = some r) :
    i.perform m f = f.pushResult (r.mapError .of) := by
  cases i with
  | ident line x =>
      simp only [pushed?] at h
      simp only [perform_eq, Focus.ident_eq]
      cases hlookup : f.env.lookup f.store x with
      | some v =>
          rw [hlookup] at h
          cases h
          rfl
      | none =>
          rw [hlookup] at h
          cases hspelling : Builtin.ofSpelling? (m.names.text x) with
          | some b =>
              rw [hspelling] at h
              cases h
              rfl
          | none =>
              rw [hspelling] at h
              cases h
              rfl
  | literal line v =>
      cases h
      rfl
  | lambda line b =>
      cases h
      rfl
  | fixpoint line =>
      cases h
      rfl
  | binary line op => cases h
  | unary line op => cases h
  | tuple line arity => cases h
  | branch line t e => cases h
  | apply line => cases h

/-- How two instructions that correspond can act: they push corresponding values, or
they do the same to the values that are on the stack. -/
inductive Correspondence.Paired (C : Correspondence) (m m' : Machine) (σ σ' : Array Bindings)
    (env env' : Env) : Instr → Instr → Prop
  | pushes {i i' : Instr} (hline : i.line = i'.line)
      (hpush : ∀ {s s' : Store}, s.scopes = σ → s'.scopes = σ' → C.StoreRelated s s' →
        ∃ r r', i.pushed? m env s = some r ∧ i'.pushed? m' env' s' = some r' ∧
          ResultsLinked (C.ValueLinked σ σ') r r') :
      Paired C m m' σ σ' env env' i i'
  | binary (line : Nat) (op : BinaryOp) :
      Paired C m m' σ σ' env env' (.binary line op) (.binary line op)
  | unary (line : Nat) (op : UnaryOp) :
      Paired C m m' σ σ' env env' (.unary line op) (.unary line op)
  | tuple (line arity : Nat) :
      Paired C m m' σ σ' env env' (.tuple line arity) (.tuple line arity)
  | branch (line : Nat) {t t' e e' : List Instr}
      (ht : List.Forall₂ (C.instr σ σ' env env') t t')
      (he : List.Forall₂ (C.instr σ σ' env env') e e') :
      Paired C m m' σ σ' env env' (.branch line t e) (.branch line t' e')
  | apply (line : Nat) : Paired C m m' σ σ' env env' (.apply line) (.apply line)

/-- A correspondence is lawful when closures and instructions go on corresponding as
scopes are added, instructions act alike, and activating closures gives
corresponding code. -/
structure Correspondence.Lawful (C : Correspondence) (m m' : Machine) : Prop where
  limit_eq : m.maxDepth = m'.maxDepth
  drops_eq : m.dropsCallers = m'.dropsCallers
  closure_push : ∀ {σ σ' : Array Bindings} {c d : Closure} (b b' : Bindings),
    C.EnvLinked σ σ' c.env d.env → C.closure σ σ' c d → C.closure (σ.push b) (σ'.push b') c d
  instr_push : ∀ {σ σ' : Array Bindings} {env env' : Env} {i i' : Instr} (b b' : Bindings),
    C.EnvLinked σ σ' env env' → C.instr σ σ' env env' i i' →
      C.instr (σ.push b) (σ'.push b') env env' i i'
  paired : ∀ {σ σ' : Array Bindings} {env env' : Env} {i i' : Instr},
    C.EnvLinked σ σ' env env' → C.instr σ σ' env env' i i' → C.Paired m m' σ σ' env env' i i'
  /-- Parameters correspond one to one. -/
  params : ∀ {σ σ' : Array Bindings} {c d : Closure}, C.closure σ σ' c d →
    ∃ N : Name → Name → Prop, (∀ {x x' y y' : Name}, N x x' → N y y' → (x = y ↔ x' = y')) ∧
      (∀ {x x' : Name}, N x x' → C.name x x') ∧ List.Forall₂ N c.block.params d.block.params
  /-- So does the code of an activation, in the scopes that bind the parameters. -/
  code : ∀ {σ σ' : Array Bindings} {c d : Closure} {b b' : Bindings},
    C.EnvLinked σ σ' c.env d.env → C.closure σ σ' c d → C.BindingsLinked σ σ' b b' →
    (c.block.params.Nodup → b.map Prod.fst = c.block.params) →
    (d.block.params.Nodup → b'.map Prod.fst = d.block.params) →
      List.Forall₂ (C.instr (σ.push b) (σ'.push b') ⟨σ.size, c.env.scopes⟩ ⟨σ'.size, d.env.scopes⟩)
        c.block.code d.block.code

namespace Correspondence

variable {C : Correspondence} {m m' : Machine}

/-! ## Adding scopes -/

theorem EnvLinked.push {σ σ' : Array Bindings} {env env' : Env}
    (h : C.EnvLinked σ σ' env env') (b b' : Bindings) :
    C.EnvLinked (σ.push b) (σ'.push b') env env' := by
  refine List.Forall₂.imp ?_ h
  rintro s s' ⟨hshift, hlt, hlt'⟩
  rw [Array.size_push, Array.size_push]
  exact ⟨hshift, Nat.lt_succ_of_lt hlt, Nat.lt_succ_of_lt hlt'⟩

/-- The scope that an activation adds goes with the environment that it is opened in. -/
theorem EnvLinked.cons {σ σ' : Array Bindings} {env env' : Env}
    (h : C.EnvLinked σ σ' env env') (hsize : Shifted C.scopes.1 C.scopes.2 σ.size σ'.size)
    (b b' : Bindings) :
    C.EnvLinked (σ.push b) (σ'.push b') ⟨σ.size, env.scopes⟩ ⟨σ'.size, env'.scopes⟩ := by
  refine List.Forall₂.cons ⟨hsize, ?_, ?_⟩ (h.push b b')
  · rw [Array.size_push]
    exact Nat.lt_succ_self _
  · rw [Array.size_push]
    exact Nat.lt_succ_self _

/-- The scopes of corresponding environments exist. -/
theorem EnvLinked.lt_size {σ σ' : Array Bindings} {env env' : Env}
    (h : C.EnvLinked σ σ' env env') :
    (∀ n ∈ env.scopes, n < σ.size) ∧ ∀ n ∈ env'.scopes, n < σ'.size := by
  unfold EnvLinked at h
  generalize env.scopes = ns at h ⊢
  generalize env'.scopes = ns' at h ⊢
  induction h with
  | nil => exact ⟨nofun, nofun⟩
  | cons hn _ ih =>
      exact ⟨List.forall_mem_cons.mpr ⟨hn.2.1, ih.1⟩, List.forall_mem_cons.mpr ⟨hn.2.2, ih.2⟩⟩

theorem Lawful.value_push (hC : C.Lawful m m') {σ σ' : Array Bindings} {v v' : Value}
    (h : C.ValueLinked σ σ' v v') (b b' : Bindings) :
    C.ValueLinked (σ.push b) (σ'.push b') v v' := by
  have hcell : ∀ {r r' : Nat}, (C.link σ σ').cell r r' →
      (C.link (σ.push b) (σ'.push b')).cell r r' := fun hcell => hcell
  have hclosure : ∀ {c d : Closure}, (C.link σ σ').closure c d →
      (C.link (σ.push b) (σ'.push b')).closure c d := fun hclosure =>
    ⟨hclosure.1.push b b', hC.closure_push b b' hclosure.1 hclosure.2⟩
  exact h.imp hcell hclosure

theorem Lawful.bindings_push (hC : C.Lawful m m') {σ σ' : Array Bindings} {p p' : Bindings}
    (h : C.BindingsLinked σ σ' p p') (b b' : Bindings) :
    C.BindingsLinked (σ.push b) (σ'.push b') p p' :=
  List.Forall₂.imp (fun _ _ h => ⟨h.1, hC.value_push h.2 b b'⟩) h

theorem Lawful.frame_push (hC : C.Lawful m m') {σ σ' : Array Bindings} {f f' : Frame}
    (h : C.FrameLinked σ σ' f f') (b b' : Bindings) :
    C.FrameLinked (σ.push b) (σ'.push b') f f' :=
  ⟨h.1.push b b', List.Forall₂.imp (fun _ _ hi => hC.instr_push b b' h.1 hi) h.2⟩

/-- Adding corresponding scopes keeps stores in correspondence. -/
theorem StoreRelated.addScope (hC : C.Lawful m m') {s s' : Store} (hs : C.StoreRelated s s')
    {b b' : Bindings} (hb : C.BindingsLinked s.scopes s'.scopes b b') :
    C.StoreRelated (s.addScope b).2 (s'.addScope b').2 := by
  refine ⟨⟨?_, hs.tuples.bound⟩, hs.tuples_size, ?_, ?_⟩
  · intro r r' hcell
    exact List.Forall₂.imp (fun _ _ h => hC.value_push h b b') (hs.tuples.items hcell)
  · intro n n' hshift
    have hiff := hshift.iff hs.scopes_size
    by_cases heq : n = s.scopes.size
    · have heq' := hiff.mp heq
      subst heq heq'
      have hself := Store.bindings_addScope_self s b
      have hself' := Store.bindings_addScope_self s' b'
      simp only [Store.addScope] at hself hself' ⊢
      rw [hself, hself']
      exact hC.bindings_push hb b b'
    · rw [Store.bindings_addScope_of_ne heq, Store.bindings_addScope_of_ne (heq ∘ hiff.mpr)]
      exact hC.bindings_push (hs.scopes hshift) b b'
  · simpa [Store.addScope] using hs.scopes_size.succ

/-- Appending corresponding values to corresponding tuples keeps stores in
correspondence. -/
theorem StoreRelated.of_tuples {s s' t t' : Store} (hs : C.StoreRelated s s')
    (hscopes : t.scopes = s.scopes) (hscopes' : t'.scopes = s'.scopes)
    (htuples : Store.Linked (C.link s.scopes s'.scopes) t t')
    (hsize : Shifted C.tuples.1 C.tuples.2 t.tuples.size t'.tuples.size) :
    C.StoreRelated t t' := by
  refine ⟨?_, hsize, ?_, ?_⟩
  · rw [hscopes, hscopes']
    exact htuples
  · intro n n' hshift
    rw [hscopes, hscopes', Store.bindings, Store.bindings, hscopes, hscopes']
    exact hs.scopes hshift
  · rw [hscopes, hscopes']
    exact hs.scopes_size

/-! ## Instructions other than application -/

/-- A state with another stack in place of its own. -/
theorem Related.withStack {frames frames' : List Frame} {stack stack' new new' : List Value}
    {s s' : Store} {printed printed' : Array String}
    (h : C.Related ⟨frames, stack, s, printed⟩ ⟨frames', stack', s', printed'⟩)
    (hnew : List.Forall₂ (C.ValueLinked s.scopes s'.scopes) new new') :
    C.Related ⟨frames, new, s, printed⟩ ⟨frames', new', s', printed'⟩ :=
  ⟨h.frames, hnew, h.store, h.printed⟩

theorem push_related {f f' : Focus} (h : C.Related f.state f'.state) {v v' : Value}
    (hv : C.ValueLinked f.store.scopes f'.store.scopes v v') :
    Transition.Related C.Related (f.push v) (f'.push v') :=
  .next (h.withStack (.cons hv h.stack))

theorem fail_related {f f' : Focus} (h : C.Related f.state f'.state) (fault : Fault) :
    Transition.Related C.Related (f.fail fault) (f'.fail fault) :=
  .failed fault h

theorem pushResult_related {f f' : Focus} (h : C.Related f.state f'.state)
    {r r' : Except Fault Value}
    (hr : ResultsLinked (C.ValueLinked f.store.scopes f'.store.scopes) r r') :
    Transition.Related C.Related (f.pushResult r) (f'.pushResult r') := by
  cases hr with
  | ok hv => exact push_related h hv
  | error fault => exact fail_related h fault

theorem unary_related {f f' : Focus} (h : C.Related f.state f'.state) (op : UnaryOp) :
    Transition.Related C.Related (f.unary op) (f'.unary op) := by
  rcases f with ⟨env, code, callers, stack, s, printed⟩
  rcases f' with ⟨env', code', callers', stack', s', printed'⟩
  have hstack : List.Forall₂ (C.ValueLinked s.scopes s'.scopes) stack stack' := h.stack
  cases hstack with
  | nil => exact fail_related h _
  | cons hv hrest =>
      simp only [Focus.unary_eq]
      refine pushResult_related ?_ ?_
      · exact h.withStack hrest
      · exact (UnaryOp.apply_linked op h.store.tuples hv).mapError _

theorem binary_related {f f' : Focus} (h : C.Related f.state f'.state) (op : BinaryOp) :
    Transition.Related C.Related (f.binary op) (f'.binary op) := by
  rcases f with ⟨env, code, callers, stack, s, printed⟩
  rcases f' with ⟨env', code', callers', stack', s', printed'⟩
  have hstack : List.Forall₂ (C.ValueLinked s.scopes s'.scopes) stack stack' := h.stack
  have hstore : C.StoreRelated s s' := h.store
  cases hstack with
  | nil => exact fail_related h _
  | cons hl hrest =>
      cases hrest with
      | nil => exact fail_related h _
      | cons hr hrest =>
          rename_i left left' right right' rest rest'
          have happly := BinaryOp.apply_linked op hstore.tuples hl hr
          have hscopes := BinaryOp.scopes_apply op left right s
          have hscopes' := BinaryOp.scopes_apply op left' right' s'
          have hsize := BinaryOp.size_apply op left right s
          have hsize' := BinaryOp.size_apply op left' right' s'
          simp only [Focus.binary_eq]
          generalize op.apply left right s = a at happly hscopes hsize ⊢
          generalize op.apply left' right' s' = a' at happly hscopes' hsize' ⊢
          have happlied : C.StoreRelated a.2 a'.2 := by
            refine hstore.of_tuples hscopes hscopes' happly.2 ?_
            rw [hsize, hsize']
            exact hstore.tuples_size
          refine pushResult_related ?_ ?_
          · refine ⟨?_, ?_, happlied, h.printed⟩
            · simpa only [Focus.state, hscopes, hscopes'] using h.frames
            · simpa only [Focus.state, hscopes, hscopes'] using hrest
          · simpa only [hscopes, hscopes'] using happly.1.mapError Fault.of

theorem formTuple_related {f f' : Focus} (h : C.Related f.state f'.state) (arity : Nat) :
    Transition.Related C.Related (f.formTuple arity) (f'.formTuple arity) := by
  rcases f with ⟨env, code, callers, stack, s, printed⟩
  rcases f' with ⟨env', code', callers', stack', s', printed'⟩
  have hitems : List.Forall₂ (C.ValueLinked s.scopes s'.scopes) (stack.take arity)
      (stack'.take arity) := List.forall₂_take arity h.stack
  have hstore : C.StoreRelated s s' := h.store
  simp only [Focus.formTuple_eq, hitems.length_eq]
  by_cases harity : (stack'.take arity).length = arity
  · rw [if_pos harity, if_pos harity]
    have hformed : C.StoreRelated (s.formTuple (stack.take arity).toArray).2
        (s'.formTuple (stack'.take arity).toArray).2 := by
      refine hstore.of_tuples rfl rfl (hstore.tuples.formTuple hstore.tuples_size hitems) ?_
      rw [Store.size_formTuple, Store.size_formTuple]
      exact hstore.tuples_size.succ
    refine .next ⟨h.frames, .cons (.tuple hstore.tuples_size) ?_, hformed, h.printed⟩
    exact List.forall₂_drop arity h.stack
  · rw [if_neg harity, if_neg harity]
    exact fail_related h _

theorem branch_related {f f' : Focus} (h : C.Related f.state f'.state)
    {t t' e e' : List Instr}
    (ht : List.Forall₂ (C.instr f.store.scopes f'.store.scopes f.env f'.env) t t')
    (he : List.Forall₂ (C.instr f.store.scopes f'.store.scopes f.env f'.env) e e') :
    Transition.Related C.Related (f.branch t e) (f'.branch t' e') := by
  rcases f with ⟨env, code, callers, stack, s, printed⟩
  rcases f' with ⟨env', code', callers', stack', s', printed'⟩
  have hstack : List.Forall₂ (C.ValueLinked s.scopes s'.scopes) stack stack' := h.stack
  have hstore : C.StoreRelated s s' := h.store
  cases hstack with
  | nil => exact fail_related h _
  | cons hv hrest =>
      have hcite := Value.Linked.cite_eq hstore.tuples hv
      cases hv with
      | bool b =>
          cases h.frames with
          | cons hframe hcallers =>
              refine .next ⟨.cons ⟨hframe.1, ?_⟩ hcallers, hrest, hstore, h.printed⟩
              cases b with
              | true => exact List.rel_append ht hframe.2
              | false => exact List.rel_append he hframe.2
      | _ =>
          simp only [Focus.branch_eq, hcite]
          refine fail_related ?_ _
          exact h.withStack hrest

/-! ## Binding operands -/

section Binding

variable {N : Name → Name → Prop} {V : Value → Value → Prop}

/-- Binding corresponding names in corresponding lists hits the same entry. -/
theorem insert_linked (hN : ∀ {x x' y y' : Name}, N x x' → N y y' → (x = y ↔ x' = y'))
    {b b' : Bindings} (hb : List.Forall₂ (fun p p' => N p.1 p'.1 ∧ V p.2 p'.2) b b')
    {x x' : Name} (hx : N x x') {v v' : Value} (hv : V v v') :
    List.Forall₂ (fun p p' => N p.1 p'.1 ∧ V p.2 p'.2) (b.insert x v) (b'.insert x' v') := by
  induction hb with
  | nil => exact .cons ⟨hx, hv⟩ .nil
  | @cons p p' rest rest' hp hrest ih =>
      rcases p with ⟨y, w⟩
      rcases p' with ⟨y', w'⟩
      by_cases heq : x = y
      · rw [Bindings.insert, Bindings.insert, if_pos heq, if_pos ((hN hx hp.1).mp heq)]
        exact .cons ⟨hx, hv⟩ hrest
      · rw [Bindings.insert, Bindings.insert, if_neg heq, if_neg (heq ∘ (hN hx hp.1).mpr)]
        exact .cons hp ih

theorem bindEach_linked (hN : ∀ {x x' y y' : Name}, N x x' → N y y' → (x = y ↔ x' = y'))
    {xs xs' : List Name} (hxs : List.Forall₂ N xs xs') {vs vs' : List Value}
    (hvs : List.Forall₂ V vs vs') {sc sc' : Scope}
    (hsc : List.Forall₂ (fun p p' => N p.1 p'.1 ∧ V p.2 p'.2) sc.bindings sc'.bindings) :
    List.Forall₂ (fun p p' => N p.1 p'.1 ∧ V p.2 p'.2) (sc.bindEach xs vs).bindings
      (sc'.bindEach xs' vs').bindings := by
  induction hxs generalizing vs vs' sc sc' with
  | nil => simpa only [Scope.bindEach] using hsc
  | cons hx _ ih =>
      cases hvs with
      | nil => simpa only [Scope.bindEach] using hsc
      | cons hv hvs => exact ih hvs (insert_linked hN hsc hx hv)

end Binding

/-- The scopes that activating corresponding closures opens. -/
structure ScopesLinked (C : Correspondence) (σ σ' : Array Bindings) (c d : Closure)
    (sc sc' : Scope) : Prop where
  parent : sc.parent = c.env
  parent' : sc'.parent = d.env
  bindings : C.BindingsLinked σ σ' sc.bindings sc'.bindings
  names : c.block.params.Nodup → sc.bindings.map Prod.fst = c.block.params
  names' : d.block.params.Nodup → sc'.bindings.map Prod.fst = d.block.params

/-- As many distinct names as values are all bound, in their order. -/
theorem map_fst_bindEach {env : Env} {xs : List Name} {vs : List Value}
    (hlength : vs.length = xs.length) (hxs : xs.Nodup) :
    (env.extend.bindEach xs vs).bindings.map Prod.fst = xs := by
  have hnodup : (env.extend.bindings.map Prod.fst ++ xs).Nodup := hxs
  rw [Scope.bindings_bindEach vs hnodup]
  simp [Env.extend, List.map_fst_zip, hlength]

/-- Corresponding operands are bound by corresponding closures, or refused alike. -/
theorem Lawful.bindOperand (hC : C.Lawful m m') {s s' : Store} (hs : C.StoreRelated s s')
    {c d : Closure} (hc : C.closure s.scopes s'.scopes c d) {v v' : Value}
    (hv : C.ValueLinked s.scopes s'.scopes v v') :
    ResultsLinked (C.ScopesLinked s.scopes s'.scopes c d) (c.bindOperand s v)
      (d.bindOperand s' v') := by
  rcases hC.params hc with ⟨N, hN, hname, hparams⟩
  have hcite := Value.Linked.cite_eq hs.tuples hv
  have hlength := hparams.length_eq
  have hbindings : ∀ {vs vs' : List Value},
      List.Forall₂ (C.ValueLinked s.scopes s'.scopes) vs vs' →
      C.BindingsLinked s.scopes s'.scopes (c.env.extend.bindEach c.block.params vs).bindings
        (d.env.extend.bindEach d.block.params vs').bindings := by
    intro vs vs' hvs
    have hextend : List.Forall₂
        (fun p p' => N p.1 p'.1 ∧ C.ValueLinked s.scopes s'.scopes p.2 p'.2)
        c.env.extend.bindings d.env.extend.bindings := .nil
    exact List.Forall₂.imp (fun _ _ h => ⟨hname h.1, h.2⟩)
      (bindEach_linked hN hparams hvs hextend)
  by_cases hone : c.block.params.length = 1
  · -- a single parameter takes the operand as it is
    rw [Closure.bindOperand_of_length_eq_one hone,
      Closure.bindOperand_of_length_eq_one (hlength ▸ hone)]
    refine .ok ⟨by simp [Env.extend], by simp [Env.extend], hbindings (.cons hv .nil), ?_, ?_⟩
    · exact map_fst_bindEach hone.symm
    · exact map_fst_bindEach (hlength ▸ hone.symm)
  · rw [Closure.bindOperand_of_length_ne_one hone,
      Closure.bindOperand_of_length_ne_one (hlength ▸ hone)]
    cases hv with
    | tuple hcell =>
        have hitems := hs.tuples.items hcell
        have hsize := hitems.length_eq
        simp only [Array.length_toList] at hsize
        simp only [Scope.bindPositional, hsize, hlength]
        split
        · rename_i harity
          refine .ok ⟨by simp [Env.extend], by simp [Env.extend], hbindings hitems, ?_, ?_⟩
          · exact map_fst_bindEach (by rw [Array.length_toList, hsize, harity, hlength])
          · exact map_fst_bindEach (by rw [Array.length_toList, harity])
        · exact .error _
    | _ =>
        simp only [hlength, hcite]
        exact .error _

/-! ## Application -/

theorem callersBelow_linked (hC : C.Lawful m m') {f f' : Focus}
    (h : C.Related f.state f'.state) :
    List.Forall₂ (C.FrameLinked f.store.scopes f'.store.scopes) (f.callersBelow m)
      (f'.callersBelow m') := by
  have hframes : List.Forall₂ (C.FrameLinked f.store.scopes f'.store.scopes)
      (⟨f.env, f.code⟩ :: f.callers) (⟨f'.env, f'.code⟩ :: f'.callers) := h.frames
  have hempty : f.code.isEmpty = f'.code.isEmpty := by
    cases hframes with
    | cons hframe _ =>
        have hlength : f.code.length = f'.code.length := hframe.2.length_eq
        rw [Bool.eq_iff_iff, List.isEmpty_iff_length_eq_zero, List.isEmpty_iff_length_eq_zero,
          hlength]
  rw [Focus.callersBelow_eq, Focus.callersBelow_eq, hC.drops_eq, hempty]
  split
  · cases hframes with
    | cons _ hcallers => exact hcallers
  · exact hframes

theorem limitAbove?_eq (hC : C.Lawful m m') {frames frames' : List Frame}
    (h : frames.length = frames'.length) : m.limitAbove? frames = m'.limitAbove? frames' := by
  rw [Machine.limitAbove?, Machine.limitAbove?, hC.limit_eq, h]

theorem call_related (hC : C.Lawful m m') {f f' : Focus} (h : C.Related f.state f'.state)
    {c d : Closure} (henv : C.EnvLinked f.store.scopes f'.store.scopes c.env d.env)
    (hc : C.closure f.store.scopes f'.store.scopes c d) {v v' : Value}
    (hv : C.ValueLinked f.store.scopes f'.store.scopes v v') :
    Transition.Related C.Related (f.call m c v) (f'.call m' d v') := by
  have hstore : C.StoreRelated f.store f'.store := h.store
  have hbind := hC.bindOperand hstore hc hv
  have hcallers := callersBelow_linked hC h
  rw [Focus.call_eq, Focus.call_eq]
  generalize c.bindOperand f.store v = bound at hbind ⊢
  generalize d.bindOperand f'.store v' = bound' at hbind ⊢
  cases hbind with
  | error cause => exact fail_related h _
  | ok hscopes =>
      rename_i sc sc'
      simp only [limitAbove?_eq hC hcallers.length_eq]
      cases m'.limitAbove? (f'.callersBelow m') with
      | some limit => exact fail_related h _
      | none =>
          have hcode := hC.code henv hc hscopes.bindings hscopes.names hscopes.names'
          have hlinked := henv.cons hstore.scopes_size sc.bindings sc'.bindings
          rw [← hscopes.parent] at hcode hlinked
          rw [← hscopes.parent'] at hcode hlinked
          refine .next ⟨.cons ⟨hlinked, hcode⟩ ?_, ?_, ?_, h.printed⟩
          · exact List.Forall₂.imp (fun _ _ hf => hC.frame_push hf _ _) hcallers
          · exact List.Forall₂.imp (fun _ _ hw => hC.value_push hw _ _) h.stack
          · exact hstore.addScope hC hscopes.bindings

theorem fix_related {f f' : Focus} (h : C.Related f.state f'.state) {v v' : Value}
    (hv : C.ValueLinked f.store.scopes f'.store.scopes v v') :
    Transition.Related C.Related (f.fix v) (f'.fix v') := by
  have hcite := Value.Linked.cite_eq h.store.tuples hv
  cases hv with
  | closure hc => exact push_related h (.eta hc)
  | _ =>
      simp only [Focus.state] at hcite
      simp only [Focus.fix_eq, hcite]
      exact fail_related h _

theorem select_related {f f' : Focus} (h : C.Related f.state f'.state) {r r' : Nat}
    (hcell : (C.link f.store.scopes f'.store.scopes).cell r r') {v v' : Value}
    (hv : C.ValueLinked f.store.scopes f'.store.scopes v v') :
    Transition.Related C.Related (f.select r v) (f'.select r' v') := by
  have hcite := Value.Linked.cite_eq h.store.tuples hv
  cases hv with
  | int n => exact pushResult_related h ((h.store.tuples.select hcell n).mapError _)
  | _ =>
      simp only [Focus.state] at hcite
      simp only [Focus.select_eq, hcite]
      exact fail_related h _

theorem print_related {f f' : Focus} (h : C.Related f.state f'.state) {v v' : Value}
    (hv : C.ValueLinked f.store.scopes f'.store.scopes v v') :
    Transition.Related C.Related (f.print v) (f'.print v') := by
  have htext : v.printed f.store = v'.printed f'.store :=
    Value.Linked.printed_eq h.store.tuples hv
  have hprinted : f.printed = f'.printed := h.printed
  refine .next ⟨h.frames, .cons .dummy h.stack, h.store, ?_⟩
  simp only [htext, hprinted]

/-- Unrolling pushes two applications, which correspond to themselves. -/
theorem unroll_related {f f' : Focus} (h : C.Related f.state f'.state) (line : Nat)
    (happly : C.instr f.store.scopes f'.store.scopes f.env f'.env (.apply line) (.apply line))
    {c d : Closure} (hc : (C.link f.store.scopes f'.store.scopes).closure c d) {v v' : Value}
    (hv : C.ValueLinked f.store.scopes f'.store.scopes v v') :
    Transition.Related C.Related (f.unroll line c v) (f'.unroll line d v') := by
  have hframes : List.Forall₂ (C.FrameLinked f.store.scopes f'.store.scopes)
      (⟨f.env, f.code⟩ :: f.callers) (⟨f'.env, f'.code⟩ :: f'.callers) := h.frames
  cases hframes with
  | cons hframe hcallers =>
      refine .next ⟨.cons ⟨hframe.1, .cons happly (.cons happly hframe.2)⟩ hcallers, ?_,
        h.store, h.printed⟩
      exact .cons (.closure hc) (.cons (.eta hc) (.cons hv h.stack))

/-- What corresponds to an application is one on the same line. -/
theorem Paired.apply_cases {s s' : Store} (hs : C.StoreRelated s s') {env env' : Env}
    {i i' : Instr} (h : C.Paired m m' s.scopes s'.scopes env env' i i') :
    (∃ line, i = .apply line ∧ i' = .apply line) ∨
      (∀ line, i ≠ .apply line) ∧ ∀ line, i' ≠ .apply line := by
  cases h with
  | apply line => exact Or.inl ⟨line, rfl, rfl⟩
  | pushes hline hpush =>
      rcases hpush rfl rfl hs with ⟨r, r', hr, hr', _⟩
      refine Or.inr ⟨?_, ?_⟩
      · rintro line rfl
        simp [Instr.pushed?] at hr
      · rintro line rfl
        simp [Instr.pushed?] at hr'
  | binary line op => exact Or.inr ⟨by simp, by simp⟩
  | unary line op => exact Or.inr ⟨by simp, by simp⟩
  | tuple line arity => exact Or.inr ⟨by simp, by simp⟩
  | branch line ht he => exact Or.inr ⟨by simp, by simp⟩

theorem conc_related (hC : C.Lawful m m') {f f' : Focus} (h : C.Related f.state f'.state)
    {v v' : Value} (hv : C.ValueLinked f.store.scopes f'.store.scopes v v') :
    Transition.Related C.Related (f.conc v) (f'.conc v') := by
  rcases f with ⟨env, code, callers, stack, s, printed⟩
  rcases f' with ⟨env', code', callers', stack', s', printed'⟩
  have hstore : C.StoreRelated s s' := h.store
  have hstack : List.Forall₂ (C.ValueLinked s.scopes s'.scopes) stack stack' := h.stack
  have hframes : List.Forall₂ (C.FrameLinked s.scopes s'.scopes) (⟨env, code⟩ :: callers)
      (⟨env', code'⟩ :: callers') := h.frames
  cases hframes with
  | cons hframe hcallers =>
  have henv : C.EnvLinked s.scopes s'.scopes env env' := hframe.1
  have hcode : List.Forall₂ (C.instr s.scopes s'.scopes env env') code code' := hframe.2
  cases hcode with
  | nil => exact fail_related h _
  | cons hi hrest =>
      rcases Paired.apply_cases hstore (hC.paired henv hi) with ⟨line, rfl, rfl⟩ | ⟨hi, hi'⟩
      · cases hstack with
        | nil =>
            simp only [Focus.conc_eq]
            refine fail_related ?_ _
            exact ⟨.cons ⟨henv, hrest⟩ hcallers, .nil, hstore, h.printed⟩
        | cons hw hstack =>
            simp only [Focus.conc_eq]
            refine pushResult_related ?_ ?_
            · exact ⟨.cons ⟨henv, hrest⟩ hcallers, hstack, hstore, h.printed⟩
            · exact Builtin.applyConc_linked hstore.tuples hv hw
      · rw [Focus.conc_of_ne_apply hi, Focus.conc_of_ne_apply hi']
        exact fail_related h _

theorem applyBuiltin_related (hC : C.Lawful m m') {f f' : Focus}
    (h : C.Related f.state f'.state) (b : Builtin) {v v' : Value}
    (hv : C.ValueLinked f.store.scopes f'.store.scopes v v') :
    Transition.Related C.Related (f.applyBuiltin b v) (f'.applyBuiltin b v') := by
  by_cases hprint : b = .print
  · subst hprint
    exact print_related h hv
  · by_cases hconc : b = .conc
    · subst hconc
      exact conc_related hC h hv
    · rw [Focus.applyBuiltin_of_ne hprint hconc, Focus.applyBuiltin_of_ne hprint hconc]
      exact pushResult_related h (Builtin.apply_linked b h.store.tuples hv)

theorem applyValue_related (hC : C.Lawful m m') {f f' : Focus}
    (h : C.Related f.state f'.state) (line : Nat)
    (happly : C.instr f.store.scopes f'.store.scopes f.env f'.env (.apply line) (.apply line))
    {rator rator' rand rand' : Value}
    (hrator : C.ValueLinked f.store.scopes f'.store.scopes rator rator')
    (hrand : C.ValueLinked f.store.scopes f'.store.scopes rand rand') :
    Transition.Related C.Related (f.applyValue m line rator rand)
      (f'.applyValue m' line rator' rand') := by
  have hcite : rator.cite f.store = rator'.cite f'.store :=
    Value.Linked.cite_eq h.store.tuples hrator
  cases hrator with
  | closure hc => exact call_related hC h hc.1 hc.2 hrand
  | fixpoint => exact fix_related h hrand
  | eta hc => exact unroll_related h line happly hc hrand
  | tuple hcell => exact select_related h hcell hrand
  | builtin b => exact applyBuiltin_related hC h b hrand
  | _ =>
      simp only [Focus.applyValue_eq, hcite]
      exact fail_related h _

theorem apply_related (hC : C.Lawful m m') {f f' : Focus} (h : C.Related f.state f'.state)
    (line : Nat)
    (happly : C.instr f.store.scopes f'.store.scopes f.env f'.env (.apply line) (.apply line)) :
    Transition.Related C.Related (f.apply m line) (f'.apply m' line) := by
  rcases f with ⟨env, code, callers, stack, s, printed⟩
  rcases f' with ⟨env', code', callers', stack', s', printed'⟩
  have hstack : List.Forall₂ (C.ValueLinked s.scopes s'.scopes) stack stack' := h.stack
  cases hstack with
  | nil => exact fail_related h _
  | cons hrator hrest =>
      cases hrest with
      | nil => exact fail_related h _
      | cons hrand hrest =>
          simp only [Focus.apply_eq]
          refine applyValue_related hC ?_ line ?_ ?_ ?_
          · exact h.withStack hrest
          · exact happly
          · exact hrator
          · exact hrand

/-! ## Steps and runs -/

/-- One instruction preserves a lawful correspondence. -/
theorem perform_related (hC : C.Lawful m m') {f f' : Focus} (h : C.Related f.state f'.state)
    {i i' : Instr} (hi : C.instr f.store.scopes f'.store.scopes f.env f'.env i i') :
    Transition.Related C.Related ((i.perform m f).atLine i.line)
      ((i'.perform m' f').atLine i'.line) := by
  have henv : C.EnvLinked f.store.scopes f'.store.scopes f.env f'.env := by
    have hframes : List.Forall₂ (C.FrameLinked f.store.scopes f'.store.scopes)
        (⟨f.env, f.code⟩ :: f.callers) (⟨f'.env, f'.code⟩ :: f'.callers) := h.frames
    cases hframes with
    | cons hframe _ => exact hframe.1
  cases hC.paired henv hi with
  | pushes hline hpush =>
      rcases hpush rfl rfl h.store with ⟨r, r', hr, hr', hrr'⟩
      rw [Instr.perform_of_pushed? hr, Instr.perform_of_pushed? hr', hline]
      exact (pushResult_related h (hrr'.mapError _)).atLine _
  | binary line op => exact (binary_related h op).atLine line
  | unary line op => exact (unary_related h op).atLine line
  | tuple line arity => exact (formTuple_related h arity).atLine line
  | branch line ht he => exact (branch_related h ht he).atLine line
  | apply line => exact (apply_related hC h line hi).atLine line

/-- One step preserves a lawful correspondence. -/
theorem step_related (hC : C.Lawful m m') {st st' : State} (h : C.Related st st') :
    Transition.Related C.Related (m.step st) (m'.step st') := by
  rcases st with ⟨frames, stack, s, printed⟩
  rcases st' with ⟨frames', stack', s', printed'⟩
  have hframes : List.Forall₂ (C.FrameLinked s.scopes s'.scopes) frames frames' := h.frames
  cases hframes with
  | nil => exact .halted h
  | @cons f f' callers callers' hframe hcallers =>
      rcases f with ⟨env, code⟩
      rcases f' with ⟨env', code'⟩
      have hcode : List.Forall₂ (C.instr s.scopes s'.scopes env env') code code' := hframe.2
      cases hcode with
      | nil => exact .next ⟨hcallers, h.stack, h.store, h.printed⟩
      | cons hi hrest =>
          rw [Machine.step_cons_cons, Machine.step_cons_cons]
          refine perform_related hC ?_ hi
          exact ⟨.cons ⟨hframe.1, hrest⟩ hcallers, h.stack, h.store, h.printed⟩

/-- A whole run preserves a lawful correspondence. -/
theorem after_related (hC : C.Lawful m m') {t t' : Transition}
    (h : Transition.Related C.Related t t') (n : Nat) :
    Transition.Related C.Related (m.after n t) (m'.after n t') :=
  Machine.after_related (fun _ _ => step_related hC) h n

end Correspondence

end CSEMachine
