import CSEMachine.Environment
import Mathlib.Data.List.Forall2

/-!
# Environments as nested maps

A scope can be read as the record of the bindings that were made in it, and an environment
as the records of its scopes.  A name then has the value that was bound to it last in the
nearest scope that binds it.  As scopes are never bound again once they are in the store,
an environment can be read in the same way in every later store.

Main results:

- Theorem `Store.Keeps.lookup`: environments keep their meaning.
- Theorem `Bindings.Records.bindEach`: binding names to values pairwise records them in turn.
- Theorem `Env.Nests.lookup_eq`: an environment answers as its nested maps do.
- Theorem `Env.Nests.close`: closing a scope adds its record.
-/

namespace CSEMachine

/-! ## Stores that keep their scopes -/

/-- A later store has all scopes of an earlier one, with the same bindings. -/
structure Store.Keeps (store later : Store) : Prop where
  size_le : store.scopes.size ≤ later.scopes.size
  bindings : ∀ i < store.scopes.size, later.bindings i = store.bindings i

namespace Store.Keeps

variable {store later last : Store}

theorem refl (store : Store) : store.Keeps store :=
  ⟨Nat.le_refl _, fun _ _ => rfl⟩

theorem trans (h : store.Keeps later) (h' : later.Keeps last) : store.Keeps last where
  size_le := Nat.le_trans h.size_le h'.size_le
  bindings i hi := (h'.bindings i (Nat.lt_of_lt_of_le hi h.size_le)).trans (h.bindings i hi)

theorem of_scopes_eq (h : later.scopes = store.scopes) : store.Keeps later where
  size_le := Nat.le_of_eq (congrArg Array.size h).symm
  bindings i _ := by simp only [Store.bindings, h]

theorem of_scopes_push {b : Bindings} (h : later.scopes = store.scopes.push b) :
    store.Keeps later where
  size_le := by simp [h]
  bindings i hi := by simp [Store.bindings, h, Array.getElem?_push, Nat.ne_of_lt hi]

/-- Environments keep their meaning. -/
theorem lookup (h : store.Keeps later) {env : Env}
    (henv : ∀ i ∈ env.scopes, i < store.scopes.size) (x : Name) :
    env.lookup later x = env.lookup store x := by
  unfold Env.lookup
  generalize env.scopes = scopes at henv
  induction scopes with
  | nil => rfl
  | cons i rest ih =>
      have hi := h.bindings i (henv i List.mem_cons_self)
      have hrest := ih fun j hj => henv j (List.mem_cons_of_mem i hj)
      simp only [List.findSome?_cons, hi, hrest]

end Store.Keeps

/-! ## Nested maps -/

/-- The bindings of a scope in the order in which they were made, the latest first. -/
abbrev Record := List (Name × Value)

/-- The value that was bound to a name last. -/
def Record.latest? (x : Name) (record : Record) : Option Value :=
  (record.find? fun entry => entry.1 = x).map Prod.snd

/-- The records of the scopes from the innermost one to the root, which binds nothing and
has none. -/
abbrev Nest := List Record

/-- The value bound to a name last in the nearest scope that binds it. -/
def Nest.find? (x : Name) (nest : Nest) : Option Value :=
  nest.findSome? (Record.latest? x)

namespace Record

/-- A name just bound has its new value, every other name the one it had. -/
theorem latest?_cons (x y : Name) (v : Value) (record : Record) :
    latest? x ((y, v) :: record) = if x = y then some v else latest? x record := by
  by_cases h : y = x
  · simp [latest?, h]
  · simp [latest?, h, Ne.symm h]

/-- Later bindings come before earlier ones. -/
theorem latest?_append (x : Name) (record earlier : Record) :
    latest? x (record ++ earlier) = (latest? x record <|> latest? x earlier) := by
  induction record with
  | nil => rfl
  | cons entry record ih =>
      obtain ⟨y, v⟩ := entry
      rw [List.cons_append, latest?_cons, latest?_cons, ih]
      split
      · rfl
      · rfl

/-- Of names bound to values pairwise the last one of a kind has the value at its place. -/
theorem latest?_zip {xs : List Name} {vs : List Value} (hlength : vs.length = xs.length)
    {i : Nat} {x : Name} (hx : xs[i]? = some x) (hlast : x ∉ xs.drop (i + 1))
    (earlier : Record) : latest? x ((xs.zip vs).reverse ++ earlier) = vs[i]? := by
  induction xs generalizing vs i earlier with
  | nil => simp at hx
  | cons y xs ih =>
      cases vs with
      | nil => simp at hlength
      | cons v vs =>
          rw [List.zip_cons_cons, List.reverse_cons, List.append_assoc]
          cases i with
          | succ i => exact ih (by simpa using hlength) (by simpa using hx) hlast _
          | zero =>
              obtain rfl : y = x := by simpa using hx
              -- none of the later names is this one
              have hnone : latest? y (xs.zip vs).reverse = none := by
                rw [latest?, Option.map_eq_none_iff, List.find?_eq_none]
                intro entry hentry heq
                have hmem := (List.of_mem_zip (List.mem_reverse.mp hentry)).1
                rw [decide_eq_true_eq] at heq
                exact hlast (heq ▸ hmem)
              rw [latest?_append, hnone, List.singleton_append, latest?_cons, if_pos rfl]
              rfl

end Record

/-! ## Scopes -/

/-- The bindings of a scope are those of a record, of each name the latest. -/
def Bindings.Records (b : Bindings) (record : Record) : Prop :=
  ∀ x, b.find? x = record.latest? x

namespace Bindings.Records

variable {b : Bindings} {record : Record}

theorem nil : Records [] [] :=
  fun _ => rfl

/-- A binding is recorded before the earlier ones. -/
theorem insert (h : b.Records record) (x : Name) (v : Value) :
    (b.insert x v).Records ((x, v) :: record) := by
  intro y
  rw [find?_insert, Record.latest?_cons, h y]

/-- Binding names to values pairwise records them in turn. -/
theorem bindEach {scope : Scope} (h : scope.bindings.Records record) (xs : List Name)
    (vs : List Value) :
    (scope.bindEach xs vs).bindings.Records ((xs.zip vs).reverse ++ record) := by
  induction xs generalizing scope vs record with
  | nil => exact h
  | cons x xs ih =>
      cases vs with
      | nil => exact h
      | cons v vs =>
          rw [List.zip_cons_cons, List.reverse_cons, List.append_assoc]
          have hbound : (scope.bind x v).bindings.Records ((x, v) :: record) := h.insert x v
          exact ih hbound vs

end Bindings.Records

/-! ## Environments -/

/-- The scopes of an environment are in the store and have the bindings of nested maps; that
of the root binds nothing. -/
def Env.Nests (store : Store) (env : Env) (nest : Nest) : Prop :=
  List.Forall₂ (fun i record => i < store.scopes.size ∧ (store.bindings i).Records record)
    env.scopes (nest ++ [[]])

namespace Env.Nests

variable {store later : Store} {env : Env} {nest : Nest}

/-- A new root binds nothing. -/
theorem root (store : Store) : (Env.root store).1.Nests (Env.root store).2 [] := by
  have hself := Store.bindings_addScope_self store []
  refine List.Forall₂.cons ⟨?_, ?_⟩ .nil
  · simp [Env.root, Store.addScope]
  · simp only [Env.root, Store.addScope] at hself ⊢
    rw [hself]
    exact .nil

/-- An environment is read in the same way in a later store. -/
theorem keeps (h : env.Nests store nest) (hkeeps : store.Keeps later) : env.Nests later nest := by
  refine List.Forall₂.imp ?_ h
  rintro i record ⟨hi, hrecord⟩
  rw [hkeeps.bindings i hi]
  exact ⟨Nat.lt_of_lt_of_le hi hkeeps.size_le, hrecord⟩

/-- There is one record for every scope above the root. -/
theorem depth_eq (h : env.Nests store nest) : env.depth = nest.length := by
  have hlength := List.Forall₂.length_eq h
  simp only [Env.scopes, List.length_cons, List.length_append, List.length_nil] at hlength
  rw [Env.depth]
  omega

/-- An environment answers as its nested maps do. -/
theorem lookup_eq (h : env.Nests store nest) (x : Name) :
    env.lookup store x = nest.find? x := by
  unfold Env.lookup
  unfold Env.Nests at h
  generalize env.scopes = scopes at h
  induction nest generalizing scopes with
  | nil =>
      cases h with
      | cons hroot hnil =>
          cases hnil
          rw [List.findSome?_cons, hroot.2 x]
          rfl
  | cons record nest ih =>
      cases h with
      | cons hscope hrest =>
          rw [List.findSome?_cons, hscope.2 x, ih _ hrest, Nest.find?, Nest.find?,
            List.findSome?_cons]

/-- Closing a scope adds its record. -/
theorem close {scope : Scope} {record : Record} (h : scope.parent.Nests store nest)
    (hrecord : scope.bindings.Records record) :
    (scope.close store).1.Nests (scope.close store).2 (record :: nest) := by
  have hself := Store.bindings_addScope_self store scope.bindings
  have hkeeps : store.Keeps (scope.close store).2 := .of_scopes_push rfl
  refine List.Forall₂.cons ⟨?_, ?_⟩ (h.keeps hkeeps)
  · simp [Scope.close, Store.addScope]
  · simp only [Scope.close, Store.addScope] at hself ⊢
    rw [hself]
    exact hrecord

end Env.Nests

end CSEMachine
