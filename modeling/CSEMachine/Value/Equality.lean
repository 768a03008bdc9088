import CSEMachine.Value

/-!
# Equality of values

Data is compared by structure, functions by identity: two closures are equal when
they share one block and one environment.  Blocks that are alike need not be the same
one, and neither need the closures over them.

Two tuples are equal if they are the same one, or if they have equally many elements
and these are equal in turn.  The elements are compared in order, up to the first
difference.  With tuples that contain themselves this may go on for ever, and it does
as soon as two tuples are to be compared that are under comparison already.  Every
comparison of tuples opens one more of the finitely many pairs in the store, so one
that does not end is found out.

Main results:

- Theorem `Store.countUnopened_lt`: opening a pair leaves fewer pairs.
- Theorem `Value.compareWithin_tuple`: tuples that are not the same are compared by
  their elements.
- Theorem `Value.compare?_self`: comparing a value with itself ends, whatever it
  contains, and finds it equal.
-/

namespace CSEMachine

/-! ## Leaves -/

/-- What is compared of a value that is no tuple: data as it is, and of a function no
more than which block and which environment it is made of. -/
inductive Leaf where
  | int (value : Int64)
  | str (value : String)
  | bool (value : Bool)
  | dummy
  | closure (block : BlockId) (env : Env)
  | eta (block : BlockId) (env : Env)
  | builtin (builtin : Builtin)
  | fixpoint
deriving DecidableEq

/-- What is compared of a value, unless it is a tuple. -/
def Value.leaf? : Value → Option Leaf
  | int n => some (.int n)
  | str s => some (.str s)
  | bool b => some (.bool b)
  | dummy => some .dummy
  | tuple _ => none
  | closure c => some (.closure c.block.id c.env)
  | eta c => some (.eta c.block.id c.env)
  | builtin b => some (.builtin b)
  | fixpoint => some .fixpoint

@[simp]
theorem Value.leaf?_tuple (ref : Nat) : (Value.tuple ref).leaf? = none :=
  rfl

/-! ## Pairs under comparison -/

/-- A pair of tuples under comparison. -/
abbrev TuplePair := Nat × Nat

/-- All pairs of tuples in a store. -/
def Store.pairs (store : Store) : List TuplePair :=
  (List.range store.tuples.size).flatMap fun a =>
    (List.range store.tuples.size).map fun b => (a, b)

/-- Number of pairs that are not under comparison. -/
def Store.countUnopened (store : Store) (opened : List TuplePair) : Nat :=
  store.pairs.countP fun p => decide (p ∉ opened)

/-- Opening a pair leaves fewer pairs. -/
theorem Store.countUnopened_lt {store : Store} {opened : List TuplePair} {a b : Nat}
    (ha : a < store.tuples.size) (hb : b < store.tuples.size) (hnew : (a, b) ∉ opened) :
    store.countUnopened ((a, b) :: opened) < store.countUnopened opened := by
  unfold Store.countUnopened
  rw [List.countP_eq_length_filter, List.countP_eq_length_filter]
  have hsub : (store.pairs.filter fun p => decide (p ∉ (a, b) :: opened)) =
      ((store.pairs.filter fun p => decide (p ∉ opened)).filter
        fun p => decide (p ≠ (a, b))) := by
    rw [List.filter_filter]
    congr 1
    funext p
    simp [not_or]
  have hmem : (a, b) ∈ store.pairs := by
    simp [Store.pairs, ha, hb]
  rw [hsub, List.length_filter_lt_length_iff_exists]
  exact ⟨(a, b), by simp [hmem, hnew], by simp⟩

/-! ## Comparing -/

/-- Compares values one after the other, up to the first difference. -/
def compareAll (compare : Value → Value → Option Bool) : List Value → List Value → Option Bool
  | [], [] => some true
  | v :: vs, w :: ws => do
    if ← compare v w then compareAll compare vs ws else some false
  | _, _ => some false

/-- Compares two values inside the pairs of `opened`, unless that never ends. -/
def Value.compareWithin (store : Store) (opened : List TuplePair) (v w : Value) :
    Option Bool :=
  match v, w with
  | .tuple a, .tuple b =>
    if a = b then some true
    else if hopen : (a, b) ∈ opened then none
    else if hlt : a < store.tuples.size ∧ b < store.tuples.size then
      if store.tuples[a].size = store.tuples[b].size then
        compareAll (fun x y => x.compareWithin store ((a, b) :: opened) y)
          store.tuples[a].toList store.tuples[b].toList
      else some false
    else some (decide (store.order a = store.order b))
  | v, w => some (decide (v.leaf? = w.leaf?))
termination_by store.countUnopened opened
decreasing_by exact Store.countUnopened_lt hlt.1 hlt.2 hopen

/-- Compares two values, unless that never ends. -/
def Value.compare? (store : Store) (v w : Value) : Option Bool :=
  v.compareWithin store [] w

/-- Whether comparing two values ends, and finds them equal. -/
def Value.equal (store : Store) (v w : Value) : Bool :=
  decide (v.compare? store w = some true)

namespace Value

/-- Tuples that are not the same are compared by their elements. -/
theorem compareWithin_tuple (store : Store) (opened : List TuplePair) (a b : Nat) :
    (tuple a).compareWithin store opened (.tuple b) =
      if a = b then some true
      else if (a, b) ∈ opened then none
      else if store.order a = store.order b then
        compareAll (compareWithin store ((a, b) :: opened)) (store.items a).toList
          (store.items b).toList
      else some false := by
  rw [compareWithin]
  by_cases hlt : a < store.tuples.size ∧ b < store.tuples.size
  · simp [hlt, Store.order, Store.items]
  · by_cases horder : store.order a = store.order b
    · -- one of the two is not in the store, so neither of them has elements
      have hempty : store.order b = 0 := by
        rcases Decidable.not_and_iff_or_not.mp hlt with hnot | hnot
        · rw [← horder]
          simp [Store.order, Store.items, hnot]
        · simp [Store.order, Store.items, hnot]
      have hitems := Array.eq_empty_of_size_eq_zero hempty
      have hitems' := Array.eq_empty_of_size_eq_zero (horder.trans hempty)
      simp [hlt, horder, hitems, hitems', compareAll]
    · simp [hlt, horder]

/-- Comparing a value with itself ends, whatever it contains, and finds it equal. -/
@[simp]
theorem compare?_self (store : Store) (v : Value) : v.compare? store v = some true := by
  cases v <;> simp [compare?, compareWithin]

/-- A tuple equals itself, whatever it contains. -/
theorem equal_tuple_self (store : Store) (ref : Nat) :
    (tuple ref).equal store (.tuple ref) = true := by
  simp [equal]

end Value

end CSEMachine
