import CSEMachine.Proofs.Correspondence.Runs
import CSEMachine.Proofs.Frames

/-!
# The tuples that a state holds

A run begins with an empty stack and a scope of its own, and gets at a tuple or at a scope
only by adding it.  So whatever the store held before, the values that a run works with
refer to nothing but what the run itself has added, and that exists.

Main results:

- Theorem `Machine.step_grounded`: a step leads from a state that refers to nothing else
  to another one.
- Theorem `Machine.Reachable.lt_size_of_holds`: a tuple that a reachable state holds is in
  its store.
-/

namespace CSEMachine

/-! ## Values and stores -/

/-- The cells and closures that have been added since the store was `base`, now that there
are `size` tuples. -/
def Store.added (base : Store) (size : Nat) : Link where
  cell r r' := r = r' ∧ base.tuples.size ≤ r ∧ r < size
  closure c d := c = d ∧ ∀ n ∈ c.env.scopes, base.scopes.size ≤ n
  cell_iff := by
    rintro r _ q _ ⟨rfl, _⟩ ⟨rfl, _⟩
    exact Iff.rfl
  index_eq := by
    rintro c _ ⟨rfl, _⟩
    rfl

/-- A value that refers to nothing but what has been added to `base`. -/
def Value.Grounded (base s : Store) (v : Value) : Prop :=
  Value.Linked (base.added s.tuples.size) v v

/-- An environment that consists of scopes that have been added to `base`. -/
def Env.Grounded (base : Store) (env : Env) : Prop :=
  ∀ n ∈ env.scopes, base.scopes.size ≤ n

/-- What has been added to `base` refers to nothing else. -/
structure Store.Grounded (base s : Store) : Prop where
  tuples : base.tuples.size ≤ s.tuples.size
  scopes : base.scopes.size ≤ s.scopes.size
  items : ∀ {ref : Nat}, base.tuples.size ≤ ref → ∀ v ∈ (s.items ref).toList, v.Grounded base s
  bindings : ∀ {n : Nat}, base.scopes.size ≤ n →
    ∀ p ∈ s.bindings n, Value.Grounded base s p.2

/-- A state refers to nothing but what has been added to `base`. -/
structure State.Grounded (base : Store) (s : State) : Prop where
  envs : ∀ env ∈ s.frames.map Frame.env, Env.Grounded base env
  stack : ∀ v ∈ s.stack, v.Grounded base s.store
  store : Store.Grounded base s.store

variable {base s s' : Store} {v : Value}

/-- As long as nothing has been added there is nothing that refers to anything. -/
theorem Store.Grounded.refl (base : Store) : Store.Grounded base base := by
  refine ⟨Nat.le_refl _, Nat.le_refl _, ?_, ?_⟩
  · intro ref hle v hv
    simp [Store.items, hle] at hv
  · intro n hle p hp
    simp [Store.bindings, hle] at hp

/-- A value stays grounded as tuples are added. -/
theorem Value.Grounded.mono (h : v.Grounded base s) (hsize : s.tuples.size ≤ s'.tuples.size) :
    v.Grounded base s' :=
  have hcell : ∀ {r r' : Nat}, (base.added s.tuples.size).cell r r' →
      (base.added s'.tuples.size).cell r r' := by
    rintro r r' ⟨heq, hle, hlt⟩
    exact ⟨heq, hle, Nat.lt_of_lt_of_le hlt hsize⟩
  Value.Linked.imp hcell id h

theorem Value.grounded_tuple {ref : Nat} :
    (Value.tuple ref).Grounded base s ↔ base.tuples.size ≤ ref ∧ ref < s.tuples.size := by
  constructor
  · intro h
    cases h with
    | tuple h => exact h.2
  · exact fun h => .tuple ⟨rfl, h⟩

theorem Value.grounded_closure {c : Closure} :
    (Value.closure c).Grounded base s ↔ c.env.Grounded base := by
  constructor
  · intro h
    cases h with
    | closure h => exact h.2
  · exact fun h => .closure ⟨rfl, h⟩

theorem Value.grounded_eta {c : Closure} :
    (Value.eta c).Grounded base s ↔ c.env.Grounded base := by
  constructor
  · intro h
    cases h with
    | eta h => exact h.2
  · exact fun h => .eta ⟨rfl, h⟩

namespace Store.Grounded

/-- A grounded store corresponds to itself. -/
theorem linked (h : Store.Grounded base s) : Store.Linked (base.added s.tuples.size) s s := by
  constructor
  · rintro r _ ⟨rfl, hle, _⟩
    exact List.forall₂_same.mpr (h.items hle)
  · rintro r _ ⟨rfl, _⟩
    exact Iff.rfl

/-- Forming a tuple of grounded values keeps a store grounded. -/
theorem formTuple (h : Store.Grounded base s) {items : List Value}
    (hitems : ∀ v ∈ items, v.Grounded base s) :
    Store.Grounded base (s.formTuple items.toArray).2 := by
  have hsize : s.tuples.size ≤ (s.formTuple items.toArray).2.tuples.size := by
    rw [size_formTuple]
    exact Nat.le_succ _
  refine ⟨Nat.le_trans h.tuples hsize, h.scopes, ?_, ?_⟩
  · intro ref hle v hv
    refine Value.Grounded.mono ?_ hsize
    by_cases heq : ref = s.tuples.size
    · subst heq
      have hself := items_formTuple_self s items.toArray
      simp only [Store.formTuple] at hself hv
      rw [hself] at hv
      exact hitems v hv
    · rw [items_formTuple_of_ne heq] at hv
      exact h.items hle v hv
  · intro n hle p hp
    exact (h.bindings hle p hp).mono hsize

/-- Augmenting a tuple by a grounded value keeps a store grounded. -/
theorem augment (h : Store.Grounded base s) (ref : Nat) (hv : v.Grounded base s) :
    Store.Grounded base (s.augment ref v) := by
  by_cases hlt : ref < s.tuples.size
  · have hsize : s.tuples.size ≤ (s.augment ref v).tuples.size :=
      Nat.le_of_eq (size_augment s ref v).symm
    refine ⟨Nat.le_trans h.tuples hsize, h.scopes, ?_, ?_⟩
    · intro other hle w hw
      refine Value.Grounded.mono ?_ hsize
      rw [items_augment hlt] at hw
      split at hw
      · rename_i heq
        subst heq
        rw [Array.toList_push, List.mem_append, List.mem_singleton] at hw
        rcases hw with hw | rfl
        · exact h.items hle w hw
        · exact hv
      · exact h.items hle w hw
    · intro n hle p hp
      exact (h.bindings hle p hp).mono hsize
  · rw [augment_of_not_lt hlt]
    exact h

/-- Adding a scope that binds grounded values keeps a store grounded. -/
theorem addScope (h : Store.Grounded base s) {b : Bindings}
    (hb : ∀ p ∈ b, Value.Grounded base s p.2) : Store.Grounded base (s.addScope b).2 := by
  refine ⟨h.tuples, ?_, h.items, ?_⟩
  · simp only [Store.addScope, Array.size_push]
    exact Nat.le_succ_of_le h.scopes
  · intro n hle p hp
    by_cases heq : n = s.scopes.size
    · subst heq
      have hself := bindings_addScope_self s b
      simp only [Store.addScope] at hself hp
      rw [hself] at hp
      exact hb p hp
    · rw [bindings_addScope_of_ne heq] at hp
      exact h.bindings hle p hp

end Store.Grounded

/-! ## Names and scopes -/

/-- A name that is found is bound. -/
theorem Bindings.mem_of_find? {x : Name} {b : Bindings} (h : b.find? x = some v) :
    (x, v) ∈ b := by
  induction b with
  | nil => cases h
  | cons entry rest ih =>
      rcases entry with ⟨y, w⟩
      rw [find?] at h
      split at h
      · rename_i heq
        cases h
        rw [heq]
        exact List.mem_cons_self
      · exact List.mem_cons_of_mem _ (ih h)

/-- What a grounded environment binds a name to is grounded. -/
theorem Env.Grounded.lookup {env : Env} (henv : env.Grounded base) (h : Store.Grounded base s)
    {x : Name} (hv : env.lookup s x = some v) : v.Grounded base s := by
  rcases List.exists_of_findSome?_eq_some hv with ⟨n, hn, hfind⟩
  exact h.bindings (henv n hn) _ (Bindings.mem_of_find? hfind)

/-- Binding names to grounded values. -/
theorem Closure.grounded_bindEach (c : Closure) {vs : List Value}
    (hvs : ∀ v ∈ vs, v.Grounded base s) :
    ∀ p ∈ (c.env.extend.bindEach c.block.params vs).bindings, Value.Grounded base s p.2 := by
  have hbindings : List.Forall₂ (fun p p' => p.1 = p'.1 ∧ Value.Grounded base s p.2)
      (c.env.extend.bindEach c.block.params vs).bindings
      (c.env.extend.bindEach c.block.params vs).bindings := by
    refine Correspondence.bindEach_linked (V := fun v _ => v.Grounded base s) ?_ ?_ ?_ .nil
    · rintro x _ y _ rfl rfl
      exact Iff.rfl
    · exact List.forall₂_same.mpr fun _ _ => rfl
    · exact List.forall₂_same.mpr hvs
  exact fun p hp => (List.forall₂_same.mp hbindings p hp).2

/-- The scope of an activation binds grounded values. -/
theorem Closure.grounded_bindOperand {c : Closure} {operand : Value} {scope : Scope}
    (h : Store.Grounded base s) (hoperand : operand.Grounded base s)
    (hbind : c.bindOperand s operand = .ok scope) :
    scope.parent = c.env ∧ ∀ p ∈ scope.bindings, Value.Grounded base s p.2 := by
  by_cases hone : c.block.params.length = 1
  · rw [bindOperand_of_length_eq_one hone] at hbind
    cases hbind
    refine ⟨Scope.parent_bindEach _ _ _, c.grounded_bindEach ?_⟩
    rintro v hv
    rw [List.mem_singleton.mp hv]
    exact hoperand
  · rw [bindOperand_of_length_ne_one hone] at hbind
    split at hbind
    · rename_i ref
      unfold Scope.bindPositional at hbind
      split at hbind
      · cases hbind
        exact ⟨Scope.parent_bindEach _ _ _,
          c.grounded_bindEach (h.items (Value.grounded_tuple.mp hoperand).1)⟩
      · cases hbind
    · cases hbind

/-! ## Instructions -/

/-- A transition that goes on in a grounded state, if it goes on. -/
def Transition.Grounded (base : Store) (t : Transition) : Prop :=
  ∀ s, t = .next s → State.Grounded base s

namespace Focus

variable {f : Focus}

theorem fail_grounded (base : Store) (f : Focus) (fault : Fault) :
    (f.fail fault).Grounded base := by
  rintro s ⟨⟩

theorem push_grounded (h : f.state.Grounded base) (hv : v.Grounded base f.store) :
    (f.push v).Grounded base := by
  rintro s ⟨⟩
  exact ⟨h.envs, List.forall_mem_cons.mpr ⟨hv, h.stack⟩, h.store⟩

theorem pushResult_grounded (h : f.state.Grounded base) {r : Except Fault Value}
    (hr : ResultsLinked (Value.Linked (base.added f.store.tuples.size)) r r) :
    (f.pushResult r).Grounded base := by
  cases hr with
  | ok hv => exact push_grounded h hv
  | error fault => exact fail_grounded base f fault

theorem ident_grounded (h : f.state.Grounded base) (m : Machine) (x : Name) :
    (f.ident m x).Grounded base := by
  have henv := (List.forall_mem_cons.mp h.envs).1
  rw [ident_eq]
  split
  · rename_i v hv
    exact push_grounded h (henv.lookup h.store hv)
  · split
    · exact push_grounded h (.builtin _)
    · exact fail_grounded base f _

theorem unary_grounded (h : f.state.Grounded base) (op : UnaryOp) :
    (f.unary op).Grounded base := by
  rcases f with ⟨env, code, callers, stack, store, printed⟩
  cases stack with
  | nil => exact fail_grounded base _ _
  | cons operand rest =>
      rcases List.forall_mem_cons.mp h.stack with ⟨hoperand, hrest⟩
      exact pushResult_grounded (f := ⟨env, code, callers, rest, store, printed⟩)
        ⟨h.envs, hrest, h.store⟩ ((UnaryOp.apply_linked op h.store.linked hoperand).mapError _)

theorem binary_grounded (h : f.state.Grounded base) (op : BinaryOp) :
    (f.binary op).Grounded base := by
  rcases f with ⟨env, code, callers, stack, store, printed⟩
  match stack with
  | [] => exact fail_grounded base _ _
  | [_] => exact fail_grounded base _ _
  | left :: right :: rest =>
      rcases List.forall_mem_cons.mp h.stack with ⟨hleft, hstack⟩
      rcases List.forall_mem_cons.mp hstack with ⟨hright, hrest⟩
      by_cases haug : op = .aug
      · subst haug
        cases left with
        | tuple ref =>
            have hsize : store.tuples.size ≤ (store.augment ref right).tuples.size :=
              Nat.le_of_eq (Store.size_augment store ref right).symm
            exact push_grounded (f := ⟨env, code, callers, rest, store.augment ref right, printed⟩)
              ⟨h.envs, fun v hv => (hrest v hv).mono hsize, h.store.augment ref hright⟩
              (Value.Grounded.mono hleft hsize)
        | _ => rintro s ⟨⟩
      · have hresult := BinaryOp.result_linked op h.store.linked hleft hright
        simp only [binary_eq, BinaryOp.store_of_ne_aug haug, BinaryOp.result_of_ne_aug haug]
        exact pushResult_grounded (f := ⟨env, code, callers, rest, store, printed⟩)
          ⟨h.envs, hrest, h.store⟩ (hresult.mapError _)

theorem formTuple_grounded (h : f.state.Grounded base) (arity : Nat) :
    (f.formTuple arity).Grounded base := by
  rcases f with ⟨env, code, callers, stack, store, printed⟩
  rw [formTuple_eq]
  split
  · rintro s ⟨⟩
    have hitems : ∀ v ∈ stack.take arity, v.Grounded base store :=
      fun v hv => h.stack v (List.mem_of_mem_take hv)
    have hsize : store.tuples.size ≤
        (store.formTuple (stack.take arity).toArray).2.tuples.size := by
      rw [Store.size_formTuple]
      exact Nat.le_succ _
    refine ⟨h.envs, List.forall_mem_cons.mpr ⟨?_, ?_⟩, h.store.formTuple hitems⟩
    · refine Value.grounded_tuple.mpr ⟨h.store.tuples, ?_⟩
      simp only [Store.size_formTuple]
      exact Nat.lt_succ_self _
    · exact fun v hv => (h.stack v (List.mem_of_mem_drop hv)).mono hsize
  · exact fail_grounded base _ _

theorem branch_grounded (h : f.state.Grounded base) (thenArm elseArm : List Instr) :
    (f.branch thenArm elseArm).Grounded base := by
  rcases f with ⟨env, code, callers, stack, store, printed⟩
  cases stack with
  | nil => exact fail_grounded base _ _
  | cons v rest =>
      cases v with
      | bool b =>
          rintro s ⟨⟩
          exact ⟨h.envs, (List.forall_mem_cons.mp h.stack).2, h.store⟩
      | _ => rintro s ⟨⟩

/-! ## Application -/

theorem call_grounded (h : f.state.Grounded base) (m : Machine) {c : Closure} {operand : Value}
    (hc : c.env.Grounded base) (hoperand : operand.Grounded base f.store) :
    (f.call m c operand).Grounded base := by
  rw [call_eq]
  split
  · exact fail_grounded base f _
  · rename_i scope hbind
    rcases Closure.grounded_bindOperand h.store hoperand hbind with ⟨hparent, hbindings⟩
    split
    · exact fail_grounded base f _
    · rintro s ⟨⟩
      refine ⟨?_, h.stack, h.store.addScope hbindings⟩
      refine List.forall_mem_cons.mpr ⟨?_, ?_⟩
      · have houter : (scope.close f.store).1.outer = c.env.scopes := congrArg Env.scopes hparent
        refine List.forall_mem_cons.mpr ⟨h.store.scopes, ?_⟩
        simp only [houter]
        exact hc
      · rw [callersBelow_eq]
        split
        · exact (List.forall_mem_cons.mp h.envs).2
        · exact h.envs

theorem conc_grounded (h : f.state.Grounded base) {first : Value}
    (hfirst : first.Grounded base f.store) : (f.conc first).Grounded base := by
  rw [conc_eq]
  split
  · rename_i env line code callers second rest store printed
    rcases List.forall_mem_cons.mp h.stack with ⟨hsecond, hrest⟩
    exact pushResult_grounded (f := ⟨env, code, callers, rest, store, printed⟩)
      ⟨h.envs, hrest, h.store⟩ (Builtin.applyConc_linked h.store.linked hfirst hsecond)
  · exact fail_grounded base _ _
  · exact fail_grounded base _ _

theorem applyBuiltin_grounded (h : f.state.Grounded base) (b : Builtin) {operand : Value}
    (hoperand : operand.Grounded base f.store) : (f.applyBuiltin b operand).Grounded base := by
  by_cases hprint : b = .print
  · subst hprint
    rintro s ⟨⟩
    exact ⟨h.envs, List.forall_mem_cons.mpr ⟨.dummy, h.stack⟩, h.store⟩
  · by_cases hconc : b = .conc
    · subst hconc
      exact conc_grounded h hoperand
    · rw [applyBuiltin_of_ne hprint hconc]
      exact pushResult_grounded h (Builtin.apply_linked b h.store.linked hoperand)

theorem applyValue_grounded (h : f.state.Grounded base) (m : Machine) (line : Nat)
    {operator operand : Value} (hoperator : operator.Grounded base f.store)
    (hoperand : operand.Grounded base f.store) :
    (f.applyValue m line operator operand).Grounded base := by
  cases operator with
  | closure c => exact call_grounded h m (Value.grounded_closure.mp hoperator) hoperand
  | fixpoint =>
      cases operand with
      | closure c => exact push_grounded h (Value.grounded_eta.mpr (Value.grounded_closure.mp hoperand))
      | _ => exact fail_grounded base f _
  | eta c =>
      have henv := Value.grounded_eta.mp hoperator
      rintro s ⟨⟩
      refine ⟨h.envs, ?_, h.store⟩
      exact List.forall_mem_cons.mpr ⟨Value.grounded_closure.mpr henv,
        List.forall_mem_cons.mpr ⟨hoperator, List.forall_mem_cons.mpr ⟨hoperand, h.stack⟩⟩⟩
  | tuple ref =>
      cases operand with
      | int index =>
          have hcell : (base.added f.store.tuples.size).cell ref ref :=
            ⟨rfl, Value.grounded_tuple.mp hoperator⟩
          exact pushResult_grounded h ((h.store.linked.select hcell index).mapError _)
      | _ => exact fail_grounded base f _
  | builtin b => exact applyBuiltin_grounded h b hoperand
  | _ => exact fail_grounded base f _

end Focus

/-! ## Steps and runs -/

/-- An instruction leads from a grounded state to a grounded state. -/
theorem Instr.perform_grounded {f : Focus} (h : f.state.Grounded base) (m : Machine) (i : Instr) :
    (i.perform m f).Grounded base := by
  cases i with
  | ident line x => exact Focus.ident_grounded h m x
  | literal line v => exact Focus.push_grounded h (.literal v)
  | lambda line b =>
      exact Focus.push_grounded h (Value.grounded_closure.mpr (List.forall_mem_cons.mp h.envs).1)
  | fixpoint line => exact Focus.push_grounded h .fixpoint
  | binary line op => exact Focus.binary_grounded h op
  | unary line op => exact Focus.unary_grounded h op
  | tuple line arity => exact Focus.formTuple_grounded h arity
  | branch line t e => exact Focus.branch_grounded h t e
  | apply line =>
      rcases f with ⟨env, code, callers, stack, store, printed⟩
      match stack with
      | [] => exact Focus.fail_grounded base _ _
      | [_] => exact Focus.fail_grounded base _ _
      | operator :: operand :: rest =>
          rcases List.forall_mem_cons.mp h.stack with ⟨hoperator, hstack⟩
          rcases List.forall_mem_cons.mp hstack with ⟨hoperand, hrest⟩
          exact Focus.applyValue_grounded (f := ⟨env, code, callers, rest, store, printed⟩)
            ⟨h.envs, hrest, h.store⟩ m line hoperator hoperand

namespace Machine

variable {m : Machine} {root : Block}

/-- A step leads from a grounded state to a grounded state. -/
theorem step_grounded {s s' : State} (h : s.Grounded base) (hstep : m.step s = .next s') :
    s'.Grounded base := by
  rcases s with ⟨frames, stack, store, printed⟩
  match frames with
  | [] => cases hstep
  | ⟨env, []⟩ :: callers =>
      cases hstep
      exact ⟨(List.forall_mem_cons.mp h.envs).2, h.stack, h.store⟩
  | ⟨env, i :: code⟩ :: callers =>
      exact Instr.perform_grounded (f := ⟨env, code, callers, stack, store, printed⟩)
        ⟨h.envs, h.stack, h.store⟩ m i s' (Transition.eq_next_of_atLine hstep)

/-- Every reachable state refers to nothing but what its run has added to the store. -/
theorem Reachable.grounded {s : State} (h : m.Reachable root base s) : s.Grounded base := by
  refine h.invariant ?_ fun s₀ s₁ hgrounded hstep => step_grounded hgrounded hstep
  intro s₀ hstart
  unfold start at hstart
  split at hstart
  · cases hstart
  · cases hstart
    refine ⟨?_, by simp, (Store.Grounded.refl base).addScope (by simp)⟩
    refine List.forall_mem_cons.mpr ⟨?_, by simp⟩
    exact List.forall_mem_cons.mpr ⟨Nat.le_refl _, by simp⟩

end Machine

/-- What a grounded state holds is grounded. -/
theorem State.Grounded.of_holds {s : State} (h : s.Grounded base) {v : Value} (hv : s.Holds v) :
    v.Grounded base s.store := by
  induction hv with
  | stack hv => exact h.stack _ hv
  | @frame f n x v hf hn hv =>
      exact h.store.bindings (h.envs _ (List.mem_map_of_mem hf) n hn) _ hv
  | item _ hv ih => exact h.store.items (Value.grounded_tuple.mp ih).1 _ hv
  | closure _ hn hv ih => exact h.store.bindings (Value.grounded_closure.mp ih _ hn) _ hv
  | eta _ hn hv ih => exact h.store.bindings (Value.grounded_eta.mp ih _ hn) _ hv

/-- A tuple that a reachable state holds is in its store. -/
theorem Machine.Reachable.lt_size_of_holds {m : Machine} {root : Block} {s : State} {ref : Nat}
    (h : m.Reachable root base s) (href : s.Holds (.tuple ref)) : ref < s.store.tuples.size :=
  (Value.grounded_tuple.mp (h.grounded.of_holds href)).2

end CSEMachine
