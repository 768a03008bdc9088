import CSEMachine.Value

/-!
# Environments

An environment is a chain of closed scopes that ends in a root.  A scope takes
bindings while it is open; once closed it belongs to the store and is never bound
again, so an environment gives the same value for a name for good.

Main results:

- Theorem `Scope.lookup_close`: a closed scope answers for the names that it binds
  and leaves all others to the environment it was opened in.
- Theorem `Scope.depth_close`: closing a scope goes one level deeper.
-/

namespace CSEMachine

/-- A child scope of an environment, still open for bindings. -/
structure Scope where
  parent : Env
  bindings : Bindings := []
deriving DecidableEq

namespace Env

/-- A fresh root: one scope that binds nothing. -/
def root (store : Store) : Env × Store :=
  let (scope, store) := store.addScope []
  (⟨scope, []⟩, store)

/-- The scopes of the chain from the inside out. -/
def scopes (env : Env) : List Nat :=
  env.scope :: env.outer

/-- Number of scopes between this one and the root. -/
def depth (env : Env) : Nat :=
  env.outer.length

/-- Whether this is a root. -/
def isRoot (env : Env) : Bool :=
  env.outer.isEmpty

/-- The value bound to a name by the innermost scope that binds it. -/
def lookup (env : Env) (store : Store) (x : Name) : Option Value :=
  env.scopes.findSome? fun scope => (store.bindings scope).find? x

/-- Opens a child scope. -/
def extend (env : Env) : Scope :=
  ⟨env, []⟩

/-- Adding a scope to the store changes no older environment. -/
theorem lookup_addScope {env : Env} {store : Store} {b : Bindings} (x : Name)
    (h : ∀ s ∈ env.scopes, s < store.scopes.size) :
    env.lookup (store.addScope b).2 x = env.lookup store x := by
  unfold lookup
  generalize env.scopes = scopes at h
  induction scopes with
  | nil => rfl
  | cons s rest ih =>
    have hs := Store.bindings_addScope_of_lt (b := b) (h s (by simp))
    simp only [List.findSome?_cons, hs, ih fun s' hs' => h s' (by simp [hs'])]

end Env

namespace Scope

/-- Binds one name. -/
def bind (scope : Scope) (x : Name) (v : Value) : Scope :=
  { scope with bindings := scope.bindings.insert x v }

/-- Binds names to values pairwise, from the first on. -/
def bindEach (scope : Scope) : List Name → List Value → Scope
  | x :: xs, v :: vs => (scope.bind x v).bindEach xs vs
  | _, _ => scope

/-- Binds names to the elements that a tuple has now, the first name to the first
element.  There must be as many names as elements. -/
def bindPositional (scope : Scope) (xs : List Name) (items : Array Value) :
    Except Cause Scope :=
  if items.size = xs.length then .ok (scope.bindEach xs items.toList)
  else .error (.arityMismatch xs.length items.size)

/-- Closes a scope, which becomes the innermost one of an environment. -/
def close (scope : Scope) (store : Store) : Env × Store :=
  let (number, store) := store.addScope scope.bindings
  (⟨number, scope.parent.scopes⟩, store)

/-! ## Laws -/

@[simp]
theorem parent_bindEach (scope : Scope) (xs : List Name) (vs : List Value) :
    (scope.bindEach xs vs).parent = scope.parent := by
  induction xs generalizing scope vs with
  | nil => rfl
  | cons x xs ih => cases vs <;> simp [bindEach, bind, ih]

/-- Binding distinct new names adds an entry for each of them. -/
theorem bindings_bindEach {scope : Scope} {xs : List Name} (vs : List Value)
    (h : (scope.bindings.map Prod.fst ++ xs).Nodup) :
    (scope.bindEach xs vs).bindings = scope.bindings ++ xs.zip vs := by
  induction xs generalizing scope vs with
  | nil => simp [bindEach]
  | cons x xs ih =>
    cases vs with
    | nil => simp [bindEach]
    | cons v vs =>
      have hx : x ∉ scope.bindings.map Prod.fst := by
        intro hmem
        exact (List.nodup_append.1 h).2.2 x hmem x (by simp) rfl
      have hbind : (scope.bind x v).bindings = scope.bindings ++ [(x, v)] :=
        Bindings.insert_of_not_mem hx
      have hrest : ((scope.bind x v).bindings.map Prod.fst ++ xs).Nodup := by
        rw [hbind]
        simpa using h
      rw [bindEach, ih vs hrest, hbind]
      simp

/-- Closing a scope goes one level deeper. -/
@[simp]
theorem depth_close (scope : Scope) (store : Store) :
    (scope.close store).1.depth = scope.parent.depth + 1 :=
  rfl

/-- A closed scope answers for the names that it binds and leaves all others to the
environment it was opened in. -/
theorem lookup_close {scope : Scope} {store : Store} (x : Name)
    (h : ∀ s ∈ scope.parent.scopes, s < store.scopes.size) :
    (scope.close store).1.lookup (scope.close store).2 x =
      (scope.bindings.find? x <|> scope.parent.lookup store x) := by
  have hself := Store.bindings_addScope_self store scope.bindings
  have hparent := Env.lookup_addScope (b := scope.bindings) x h
  simp only [Env.lookup, Env.scopes, close, List.findSome?_cons] at hself hparent ⊢
  rw [hself, hparent]
  cases scope.bindings.find? x <;> rfl

end Scope

end CSEMachine
