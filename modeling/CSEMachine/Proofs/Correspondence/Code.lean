import CSEMachine.Proofs.Correspondence.Runs

/-!
# Invariants of code

A run performs no other instructions than those of its root, those in the arms of its
branches, and those of the blocks of its closures.  What is closed under going from an
instruction to the code inside it therefore holds of all that is left to run and of every
closure, if it holds of the root.

Main results:

- Theorem `Correspondence.holding_lawful`: every machine respects such a property.
- Theorem `Machine.Reachable.holding`: it holds of the frames and the closures of every
  reachable state.
- Theorem `Machine.Reachable.env_ne`: closures of one run share no environment with closures
  of a later one.
-/

namespace CSEMachine

/-- A property of instructions, and one of blocks, that the code inside an instruction or a
block has as well. -/
structure Instr.Inherited (P : Instr → Prop) (Q : Block → Prop) : Prop where
  lambda : ∀ {line : Nat} {b : Block}, P (.lambda line b) → Q b
  branch : ∀ {line : Nat} {thenArm elseArm : List Instr}, P (.branch line thenArm elseArm) →
    (∀ i ∈ thenArm, P i) ∧ ∀ i ∈ elseArm, P i
  code : ∀ {b : Block}, Q b → ∀ i ∈ b.code, P i

namespace Correspondence

variable {P : Instr → Prop} {Q : Block → Prop}

/-- The correspondence of a run with itself in which all code has a property. -/
def holding (P : Instr → Prop) (Q : Block → Prop) (store : Store) : Correspondence where
  tuples := (store.tuples.size, store.tuples.size)
  scopes := (store.scopes.size, store.scopes.size)
  name := Eq
  closure _ _ c d := c.block = d.block ∧ Q c.block
  instr _ _ _ _ i j := i = j ∧ P i
  index_eq h := by rw [h.1]

theorem holding_code {store : Store} {code : List Instr} (h : ∀ i ∈ code, P i)
    (σ σ' : Array Bindings) (env env' : Env) :
    List.Forall₂ ((holding P Q store).instr σ σ' env env') code code := by
  rw [List.forall₂_same]
  exact fun i hi => ⟨rfl, h i hi⟩

/-- Every machine respects an inherited property. -/
theorem holding_lawful (h : Instr.Inherited P Q) (m : Machine) (store : Store) :
    (holding P Q store).Lawful m m where
  limit_eq := rfl
  drops_eq := rfl
  closure_push _ _ _ hc := hc
  instr_push _ _ _ hi := hi
  paired := by
    rintro σ σ' env env' i i' henv ⟨rfl, hi⟩
    cases i with
    | ident line x => exact paired_ident (fun hx => hx) rfl henv line x
    | literal line v => exact paired_literal σ σ' env env' line v
    | fixpoint line => exact paired_fixpoint σ σ' env env' line
    | lambda line b => exact paired_lambda henv line ⟨rfl, h.lambda hi⟩
    | binary line op => exact .binary line op
    | unary line op => exact .unary line op
    | tuple line arity => exact .tuple line arity
    | apply line => exact .apply line
    | branch line t e =>
        rcases h.branch hi with ⟨ht, he⟩
        exact .branch line (holding_code ht _ _ _ _) (holding_code he _ _ _ _)
  params := by
    rintro σ σ' c d ⟨hblock, _⟩
    refine ⟨Eq, ?_, fun hx => hx, ?_⟩
    · rintro x x' y y' rfl rfl
      exact Iff.rfl
    · rw [hblock, List.forall₂_eq_eq_eq]
  code := by
    rintro σ σ' c d b b' _ ⟨hblock, hc⟩ _ _ _
    rw [← hblock]
    exact holding_code (h.code hc) _ _ _ _

end Correspondence

/-- An inherited property of the root holds of all that is left to run, and of the block of
every closure that is held. -/
theorem Machine.Reachable.holding {P : Instr → Prop} {Q : Block → Prop}
    (h : Instr.Inherited P Q) {m : Machine} {root : Block} {store : Store} {s : State}
    (hroot : ∀ i ∈ root.code, P i) (hs : m.Reachable root store s) :
    (∀ frame ∈ s.frames, ∀ i ∈ frame.code, P i) ∧
      ∀ c, s.Holds (.closure c) ∨ s.Holds (.eta c) → Q c.block := by
  have hrelated := Correspondence.related_of_reachable
    (Correspondence.holding_lawful h m store) ⟨rfl, rfl⟩
    (Correspondence.holding_code hroot _ _ _ _) hs
  constructor
  · intro frame hframe i hi
    have hcode := (List.forall₂_same.mp hrelated.frames frame hframe).2
    exact (List.forall₂_same.mp hcode i hi).2
  · rintro c (hc | hc)
    · cases hrelated.of_holds hc with
      | closure hlinked => exact hlinked.2.2
    · cases hrelated.of_holds hc with
      | eta hlinked => exact hlinked.2.2

/-! ## Environments of different runs -/

/-- The scopes of a closure that is held are among those that the run has added. -/
theorem Machine.Reachable.scope_added {m : Machine} {root : Block} {store : Store} {s : State}
    (hs : m.Reachable root store s) {c : Closure}
    (hc : s.Holds (.closure c) ∨ s.Holds (.eta c)) :
    ∀ n ∈ c.env.scopes, store.scopes.size ≤ n ∧ n < s.store.scopes.size := by
  -- every piece of code has the property that says nothing
  have hinherited : Instr.Inherited (fun _ => True) (fun _ => True) :=
    ⟨fun _ => trivial, fun _ => ⟨fun _ _ => trivial, fun _ _ => trivial⟩, fun _ _ _ => trivial⟩
  have hrelated := Correspondence.related_of_reachable
    (Correspondence.holding_lawful hinherited m store) ⟨rfl, rfl⟩
    (Correspondence.holding_code (fun _ _ => trivial) _ _ _ _) hs
  have henv : (Correspondence.holding (fun _ => True) (fun _ => True) store).EnvLinked
      s.store.scopes s.store.scopes c.env c.env := by
    rcases hc with hc | hc
    · cases hrelated.of_holds hc with
      | closure hlinked => exact hlinked.1
    · cases hrelated.of_holds hc with
      | eta hlinked => exact hlinked.1
  intro n hn
  rcases List.forall₂_same.mp henv n hn with ⟨⟨i, hi, -⟩, hlt, -⟩
  exact ⟨hi ▸ Nat.le_add_right _ i, hlt⟩

/-- Closures of one run share no environment with closures of a later one. -/
theorem Machine.Reachable.env_ne {m m' : Machine} {root root' : Block} {store store' : Store}
    {s s' : State} (hs : m.Reachable root store s) (hs' : m'.Reachable root' store' s')
    (hlater : s.store.scopes.size ≤ store'.scopes.size) {c d : Closure}
    (hc : s.Holds (.closure c) ∨ s.Holds (.eta c))
    (hd : s'.Holds (.closure d) ∨ s'.Holds (.eta d)) : c.env ≠ d.env := by
  intro heq
  have hold := (hs.scope_added hc c.env.scope List.mem_cons_self).2
  have hnew := (hs'.scope_added hd d.env.scope List.mem_cons_self).1
  rw [heq] at hold
  exact absurd (Nat.lt_of_lt_of_le hold hlater) (Nat.not_lt_of_le hnew)

end CSEMachine
