import CSEMachine.Control
import CSEMachine.Fault

/-!
# Values and the store

Values are flat: a tuple is the number of a cell in a store, an environment the
numbers of the scopes that it sees.  The store keeps the elements of every tuple
and the bindings of every scope.  Scopes never change once they are in the store,
tuples only grow, and nothing is ever removed, so a number stands for the same
tuple or scope for good.

Main results:

- Theorem `Store.items_formTuple_of_lt`: forming a tuple leaves the older ones as
  they were.
- Theorem `Store.items_augment`: augmenting a tuple adds one element at its end,
  and leaves all other tuples as they were.
-/

namespace CSEMachine

/-- The scopes an expression sees: the innermost one, and those around it from the
inside out. -/
structure Env where
  scope : Nat
  outer : List Nat
deriving DecidableEq

/-- A block together with the environment that it was met in. -/
structure Closure where
  block : Block
  env : Env
deriving DecidableEq

/-- What expressions evaluate to. -/
inductive Value where
  | int (value : Int64)
  | str (value : String)
  | bool (value : Bool)
  | dummy
  /-- The tuple in cell `ref` of the store. -/
  | tuple (ref : Nat)
  | closure (closure : Closure)
  /-- A closure under the fixed-point operator, one step of which is unrolled when
  it is applied. -/
  | eta (closure : Closure)
  | builtin (builtin : Builtin)
  | fixpoint
deriving DecidableEq

/-- The value of a constant. -/
def Literal.value : Literal → Value
  | int n => .int n
  | str s => .str s
  | bool b => .bool b
  | dummy => .dummy

/-- The kinds of values. -/
inductive Kind where
  | integer | string | truthValue | dummy | tuple
  | function | recursiveFunction | builtinFunction | fixpointOperator
deriving DecidableEq

/-- The name of a kind. -/
def Kind.name : Kind → String
  | integer => "integer"
  | string => "string"
  | truthValue => "truthvalue"
  | dummy => "dummy"
  | tuple => "tuple"
  | function => "function"
  | recursiveFunction => "recursive function"
  | builtinFunction => "built-in function"
  | fixpointOperator => "fixed-point operator"

/-- The kind of a value.  A closure under the fixed-point operator is of a kind of
its own. -/
def Value.kind : Value → Kind
  | int _ => .integer
  | str _ => .string
  | bool _ => .truthValue
  | dummy => .dummy
  | tuple _ => .tuple
  | closure _ => .function
  | eta _ => .recursiveFunction
  | builtin _ => .builtinFunction
  | fixpoint => .fixpointOperator

/-! ## Bindings -/

/-- The values bound to names, each name once. -/
abbrev Bindings := List (Name × Value)

namespace Bindings

/-- The value bound to a name. -/
def find? (x : Name) : Bindings → Option Value
  | [] => none
  | (y, v) :: rest => if x = y then some v else find? x rest

/-- Binds a name, in place of what it was bound to before. -/
def insert (x : Name) (v : Value) : Bindings → Bindings
  | [] => [(x, v)]
  | (y, w) :: rest => if x = y then (x, v) :: rest else (y, w) :: insert x v rest

/-- The name just bound has its new value, every other name the one it had. -/
@[simp]
theorem find?_insert (x y : Name) (v : Value) (b : Bindings) :
    find? y (insert x v b) = if y = x then some v else find? y b := by
  induction b with
  | nil => simp [insert, find?]
  | cons entry rest ih =>
    obtain ⟨z, w⟩ := entry
    by_cases hxz : x = z
    · subst hxz
      by_cases hyx : y = x <;> simp [insert, find?, hyx]
    · by_cases hyz : y = z
      · subst hyz
        simp [insert, find?, hxz, Ne.symm hxz]
      · simp [insert, find?, hxz, hyz, ih]

/-- A name is found unless it is bound nowhere. -/
theorem find?_eq_none_iff {x : Name} {b : Bindings} :
    find? x b = none ↔ x ∉ b.map Prod.fst := by
  induction b with
  | nil => simp [find?]
  | cons entry rest ih =>
    obtain ⟨y, w⟩ := entry
    by_cases h : x = y
    · simp [find?, h]
    · simp [find?, h, ih]

/-- Binding a name for the first time adds an entry at the end. -/
theorem insert_of_not_mem {x : Name} {v : Value} {b : Bindings} (h : x ∉ b.map Prod.fst) :
    insert x v b = b ++ [(x, v)] := by
  induction b with
  | nil => rfl
  | cons entry rest ih =>
    obtain ⟨y, w⟩ := entry
    simp only [List.map_cons, List.mem_cons, not_or] at h
    simp [insert, h.1, ih h.2]

end Bindings

/-! ## The store -/

/-- The cells of tuples and scopes. -/
structure Store where
  tuples : Array (Array Value)
  scopes : Array Bindings
deriving DecidableEq

namespace Store

/-- A store without cells. -/
def empty : Store :=
  ⟨#[], #[]⟩

/-- The elements of a tuple. -/
def items (store : Store) (ref : Nat) : Array Value :=
  store.tuples[ref]?.getD #[]

/-- Number of elements of a tuple. -/
def order (store : Store) (ref : Nat) : Nat :=
  (store.items ref).size

/-- The element of a tuple at a position counted from 1, if there is one. -/
def select? (store : Store) (ref : Nat) (index : Int64) : Option Value :=
  if 1 ≤ index then (store.items ref)[index.toInt.toNat - 1]? else none

/-- Selects an element of a tuple by its position, counted from 1. -/
def select (store : Store) (ref : Nat) (index : Int64) : Except Cause Value :=
  match store.select? ref index with
  | some v => .ok v
  | none => .error (.indexOutOfBounds index (store.order ref))

/-- Forms a new tuple. -/
def formTuple (store : Store) (items : Array Value) : Nat × Store :=
  match store with
  | ⟨tuples, scopes⟩ => (tuples.size, ⟨tuples.push items, scopes⟩)

/-- Appends a value to a tuple in place; everything that holds the tuple sees it. -/
def augment (store : Store) (ref : Nat) (v : Value) : Store :=
  match store with
  | ⟨tuples, scopes⟩ => ⟨tuples.modify ref (·.push v), scopes⟩

/-- The bindings of a scope. -/
def bindings (store : Store) (scope : Nat) : Bindings :=
  store.scopes[scope]?.getD []

/-- Adds a scope. -/
def addScope (store : Store) (bindings : Bindings) : Nat × Store :=
  match store with
  | ⟨tuples, scopes⟩ => (scopes.size, ⟨tuples, scopes.push bindings⟩)

/-! ## Laws of the store -/

/-- A new tuple has the elements it was formed of. -/
@[simp]
theorem items_formTuple_self (store : Store) (items : Array Value) :
    (store.formTuple items).2.items (store.formTuple items).1 = items := by
  simp [formTuple, Store.items]

/-- Forming a tuple leaves the older ones as they were. -/
theorem items_formTuple_of_lt {store : Store} {items : Array Value} {ref : Nat}
    (h : ref < store.tuples.size) :
    (store.formTuple items).2.items ref = store.items ref := by
  simp [formTuple, Store.items, Array.getElem?_push, Nat.ne_of_lt h]

/-- Augmenting a tuple adds one element at its end, and leaves all other tuples as
they were. -/
theorem items_augment {store : Store} {ref : Nat} {v : Value} (h : ref < store.tuples.size)
    (other : Nat) :
    (store.augment ref v).items other =
      if other = ref then (store.items ref).push v else store.items other := by
  by_cases heq : other = ref
  · subst heq
    simp [augment, Store.items, h, Array.getElem_modify_self]
  · simp [augment, Store.items, Array.getElem?_modify, heq, Ne.symm heq]

/-- Forming a tuple leaves all other tuples as they were. -/
theorem items_formTuple_of_ne {store : Store} {items : Array Value} {ref : Nat}
    (h : ref ≠ store.tuples.size) :
    (store.formTuple items).2.items ref = store.items ref := by
  simp [formTuple, Store.items, Array.getElem?_push, h]

/-- Augmenting a tuple that does not exist changes nothing. -/
theorem augment_of_not_lt {store : Store} {ref : Nat} {v : Value}
    (h : ¬ ref < store.tuples.size) : store.augment ref v = store := by
  obtain ⟨tuples, scopes⟩ := store
  have hmodify : tuples.modify ref (·.push v) = tuples := by
    apply Array.ext_getElem?
    intro i
    rw [Array.getElem?_modify]
    by_cases hi : ref = i
    · subst hi
      simp only [Nat.not_lt] at h
      simp [h]
    · simp [hi]
  simp [augment, hmodify]

@[simp]
theorem size_formTuple (store : Store) (items : Array Value) :
    (store.formTuple items).2.tuples.size = store.tuples.size + 1 := by
  simp [formTuple]

@[simp]
theorem size_augment (store : Store) (ref : Nat) (v : Value) :
    (store.augment ref v).tuples.size = store.tuples.size := by
  simp [augment]

/-- Augmenting changes no scope. -/
@[simp]
theorem bindings_augment (store : Store) (ref : Nat) (v : Value) (scope : Nat) :
    (store.augment ref v).bindings scope = store.bindings scope :=
  rfl

/-- Forming a tuple changes no scope. -/
@[simp]
theorem bindings_formTuple (store : Store) (items : Array Value) (scope : Nat) :
    (store.formTuple items).2.bindings scope = store.bindings scope :=
  rfl

/-- A new scope has the bindings it was added with. -/
@[simp]
theorem bindings_addScope_self (store : Store) (b : Bindings) :
    (store.addScope b).2.bindings (store.addScope b).1 = b := by
  simp [addScope, Store.bindings]

/-- Adding a scope leaves the older ones as they were. -/
theorem bindings_addScope_of_lt {store : Store} {b : Bindings} {scope : Nat}
    (h : scope < store.scopes.size) :
    (store.addScope b).2.bindings scope = store.bindings scope := by
  simp [addScope, Store.bindings, Array.getElem?_push, Nat.ne_of_lt h]

/-- Adding a scope changes no other number. -/
theorem bindings_addScope_of_ne {store : Store} {b : Bindings} {scope : Nat}
    (h : scope ≠ store.scopes.size) :
    (store.addScope b).2.bindings scope = store.bindings scope := by
  simp [addScope, Store.bindings, Array.getElem?_push, h]

end Store

end CSEMachine
