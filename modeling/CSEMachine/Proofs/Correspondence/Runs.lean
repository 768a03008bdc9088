import CSEMachine.Proofs.Correspondence.Steps

/-!
# Corresponding runs

Runs begin in correspondence when their root code corresponds in a root environment.
A correspondence of a machine with itself holds of every reachable state, paired with
itself, and so says something about every value that the state holds.

Main results:

- Theorem `Correspondence.start_related`: how runs begin in correspondence.
- Theorem `Correspondence.related_of_reachable`: the invariant that a correspondence
  of a machine with itself gives.
- Theorem `Correspondence.Related.of_holds`: it holds of every value in such a state.
- Theorem `Correspondence.lookup_linked`: a name that stands for itself alone is looked
  up alike.
-/

namespace CSEMachine

/-- The values that a state holds: on the stack, in the scopes of its frames, in tuples
that it holds, and in the scopes that closures it holds were made in. -/
inductive State.Holds (s : State) : Value → Prop
  | stack {v : Value} (h : v ∈ s.stack) : Holds s v
  | frame {f : Frame} {n : Nat} {x : Name} {v : Value} (hf : f ∈ s.frames)
      (hn : n ∈ f.env.scopes) (hv : (x, v) ∈ s.store.bindings n) : Holds s v
  | item {ref : Nat} {v : Value} (h : Holds s (.tuple ref))
      (hv : v ∈ (s.store.items ref).toList) : Holds s v
  | closure {c : Closure} {n : Nat} {x : Name} {v : Value} (h : Holds s (.closure c))
      (hn : n ∈ c.env.scopes) (hv : (x, v) ∈ s.store.bindings n) : Holds s v
  | eta {c : Closure} {n : Nat} {x : Name} {v : Value} (h : Holds s (.eta c))
      (hn : n ∈ c.env.scopes) (hv : (x, v) ∈ s.store.bindings n) : Holds s v

namespace Correspondence

variable {C : Correspondence} {m m' : Machine}

/-! ## Beginning a run -/

/-- A correspondence begins with two stores when it counts tuples and scopes from
theirs on. -/
structure BeginsWith (C : Correspondence) (s s' : Store) : Prop where
  tuples : C.tuples = (s.tuples.size, s'.tuples.size)
  scopes : C.scopes = (s.scopes.size, s'.scopes.size)

/-- As long as nothing has been added there is nothing to compare. -/
theorem BeginsWith.storeRelated {s s' : Store} (h : C.BeginsWith s s') :
    C.StoreRelated s s' := by
  have htuples : Shifted C.tuples.1 C.tuples.2 s.tuples.size s'.tuples.size := by
    rw [h.tuples]
    exact Shifted.start _ _
  have hscopes : Shifted C.scopes.1 C.scopes.2 s.scopes.size s'.scopes.size := by
    rw [h.scopes]
    exact Shifted.start _ _
  refine ⟨⟨?_, ?_⟩, htuples, ?_, hscopes⟩
  · rintro r r' ⟨i, rfl, rfl⟩
    simp [Store.items, h.tuples]
  · intro r r' hcell
    exact hcell.lt_iff htuples
  · rintro n n' ⟨i, rfl, rfl⟩
    have hnone : s.bindings (C.scopes.1 + i) = [] := by simp [Store.bindings, h.scopes]
    have hnone' : s'.bindings (C.scopes.2 + i) = [] := by simp [Store.bindings, h.scopes]
    rw [hnone, hnone']
    exact .nil

/-- Runs begin in correspondence when their root code corresponds. -/
theorem start_related (hC : C.Lawful m m') {s s' : Store} (h : C.BeginsWith s s')
    {root root' : Block}
    (hroot : List.Forall₂ (C.instr (s.scopes.push []) (s'.scopes.push []) ⟨s.scopes.size, []⟩
      ⟨s'.scopes.size, []⟩) root.code root'.code) :
    Transition.Related C.Related (m.start root s) (m'.start root' s') := by
  have hstore := h.storeRelated
  unfold Machine.start
  rw [limitAbove?_eq hC (rfl : ([] : List Frame).length = ([] : List Frame).length)]
  cases m'.limitAbove? [] with
  | some limit => exact .failed _ ⟨.nil, .nil, hstore, rfl⟩
  | none =>
      have hadded := hstore.addScope hC (.nil : C.BindingsLinked s.scopes s'.scopes [] [])
      refine .next ⟨.cons ⟨?_, hroot⟩ .nil, .nil, hadded, rfl⟩
      refine List.Forall₂.cons ⟨hstore.scopes_size, ?_, ?_⟩ .nil
      · simp
      · simp

/-- A correspondence of a machine with itself holds of every reachable state. -/
theorem related_of_reachable (hC : C.Lawful m m) {store : Store}
    (h : C.BeginsWith store store) {root : Block}
    (hroot : List.Forall₂ (C.instr (store.scopes.push []) (store.scopes.push [])
      ⟨store.scopes.size, []⟩ ⟨store.scopes.size, []⟩) root.code root.code)
    {s : State} (hs : m.Reachable root store s) : C.Related s s := by
  rcases hs with ⟨n, hn⟩
  have hafter := after_related hC (start_related hC h hroot) n
  rw [hn] at hafter
  cases hafter with
  | next hrelated => exact hrelated

/-- The scopes of an environment that stands for itself bind values that do. -/
theorem Related.value_of_binding {s : State} (h : C.Related s s) {env : Env}
    (henv : C.EnvLinked s.store.scopes s.store.scopes env env) {n : Nat}
    (hn : n ∈ env.scopes) {x : Name} {v : Value} (hv : (x, v) ∈ s.store.bindings n) :
    C.ValueLinked s.store.scopes s.store.scopes v v := by
  have hscope := (List.forall₂_same.mp henv n hn).1
  exact (List.forall₂_same.mp (h.store.scopes hscope) (x, v) hv).2

/-- A correspondence of a state with itself holds of every value in it. -/
theorem Related.of_holds {s : State} (h : C.Related s s) {v : Value} (hv : s.Holds v) :
    C.ValueLinked s.store.scopes s.store.scopes v v := by
  induction hv with
  | stack hv => exact List.forall₂_same.mp h.stack _ hv
  | frame hf hn hv =>
      have hframe := List.forall₂_same.mp h.frames _ hf
      exact h.value_of_binding hframe.1 hn hv
  | item _ hv ih =>
      cases ih with
      | tuple hcell => exact List.forall₂_same.mp (h.store.tuples.items hcell) _ hv
  | closure _ hn hv ih =>
      cases ih with
      | closure hc => exact h.value_of_binding hc.1 hn hv
  | eta _ hn hv ih =>
      cases ih with
      | eta hc => exact h.value_of_binding hc.1 hn hv

/-! ## Names that stand for themselves -/

/-- Bindings of the same names are searched alike. -/
theorem find?_linked (hname : ∀ {x x' : Name}, C.name x x' → x = x') {σ σ' : Array Bindings}
    {b b' : Bindings} (h : C.BindingsLinked σ σ' b b') (x : Name) :
    Option.Rel (C.ValueLinked σ σ') (b.find? x) (b'.find? x) := by
  induction h with
  | nil => exact .none
  | @cons p p' rest rest' hp _ ih =>
      rcases p with ⟨y, w⟩
      rcases p' with ⟨y', w'⟩
      obtain rfl : y = y' := hname hp.1
      simp only [Bindings.find?]
      split
      · exact .some hp.2
      · exact ih

/-- A name that stands for itself alone is looked up alike. -/
theorem lookup_linked (hname : ∀ {x x' : Name}, C.name x x' → x = x') {s s' : Store}
    (hs : C.StoreRelated s s') {env env' : Env}
    (henv : C.EnvLinked s.scopes s'.scopes env env') (x : Name) :
    Option.Rel (C.ValueLinked s.scopes s'.scopes) (env.lookup s x) (env'.lookup s' x) := by
  unfold Env.lookup
  unfold EnvLinked at henv
  generalize env.scopes = ns at henv ⊢
  generalize env'.scopes = ns' at henv ⊢
  induction henv with
  | nil => exact .none
  | @cons n n' _ _ hn _ ih =>
      rw [List.findSome?_cons, List.findSome?_cons]
      have hfind := find?_linked hname (hs.scopes hn.1) x
      generalize (s.bindings n).find? x = found at hfind ⊢
      generalize (s'.bindings n').find? x = found' at hfind ⊢
      cases hfind with
      | none => exact ih
      | some hv => exact .some hv

/-- An identifier that stands for itself alone pushes corresponding values. -/
theorem paired_ident (hname : ∀ {x x' : Name}, C.name x x' → x = x')
    (hnames : m.names = m'.names) {σ σ' : Array Bindings} {env env' : Env}
    (henv : C.EnvLinked σ σ' env env') (line : Nat) (x : Name) :
    C.Paired m m' σ σ' env env' (.ident line x) (.ident line x) := by
  refine .pushes rfl ?_
  rintro s s' rfl rfl hs
  have hlookup := lookup_linked hname hs henv x
  simp only [Instr.pushed?, hnames]
  generalize env.lookup s x = found at hlookup ⊢
  generalize env'.lookup s' x = found' at hlookup ⊢
  cases hlookup with
  | some hv => exact ⟨_, _, rfl, rfl, .ok hv⟩
  | none =>
      cases Builtin.ofSpelling? (m'.names.text x) with
      | some b => exact ⟨_, _, rfl, rfl, .ok (.builtin b)⟩
      | none => exact ⟨_, _, rfl, rfl, .error _⟩

theorem paired_literal (σ σ' : Array Bindings) (env env' : Env) (line : Nat) (v : Literal) :
    C.Paired m m' σ σ' env env' (.literal line v) (.literal line v) :=
  .pushes rfl fun _ _ _ => ⟨_, _, rfl, rfl, .ok (.literal v)⟩

theorem paired_fixpoint (σ σ' : Array Bindings) (env env' : Env) (line : Nat) :
    C.Paired m m' σ σ' env env' (.fixpoint line) (.fixpoint line) :=
  .pushes rfl fun _ _ _ => ⟨_, _, rfl, rfl, .ok .fixpoint⟩

/-- A lambda pushes a closure over the environment at hand. -/
theorem paired_lambda {σ σ' : Array Bindings} {env env' : Env}
    (henv : C.EnvLinked σ σ' env env') (line : Nat) {b b' : Block}
    (h : C.closure σ σ' ⟨b, env⟩ ⟨b', env'⟩) :
    C.Paired m m' σ σ' env env' (.lambda line b) (.lambda line b') :=
  .pushes rfl fun _ _ _ => ⟨_, _, rfl, rfl, .ok (.closure ⟨henv, h⟩)⟩

end Correspondence

end CSEMachine
