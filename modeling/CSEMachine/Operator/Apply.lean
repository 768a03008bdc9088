import CSEMachine.Arithmetic
import CSEMachine.Operator
import CSEMachine.Value.Text

/-!
# Applying operators

Arithmetic and orderings take two integers, logical operators two truth values.
Equality is defined between two integers, two strings or two truth values.  `aug`
is the one operator that changes the store: it appends to the tuple on its left and
gives back that same tuple.

Main results:

- Theorem `BinaryOp.store_of_ne_aug`: every operator but `aug` leaves the store as
  it was.
- Theorem `BinaryOp.store_of_error`: so does an operator that fails.
-/

namespace CSEMachine

namespace BinaryOp

/-- Takes two integers. -/
def onIntegers (store : Store) (left right : Value)
    (f : Int64 → Int64 → Except Cause Value) : Except Cause Value :=
  match left, right with
  | .int a, .int b => f a b
  | _, _ => .error (.wrongKind "two integers" (left.citePair store right))

/-- Takes two integers to an integer. -/
def arithmetic (store : Store) (left right : Value)
    (f : Int64 → Int64 → Except Cause Int64) : Except Cause Value :=
  onIntegers store left right fun a b => (f a b).map .int

/-- Takes two integers to a truth value. -/
def ordering (store : Store) (left right : Value) (f : Int64 → Int64 → Bool) :
    Except Cause Value :=
  onIntegers store left right fun a b => .ok (.bool (f a b))

/-- Takes two truth values to a truth value. -/
def logical (op : BinaryOp) (store : Store) (left right : Value) (f : Bool → Bool → Bool) :
    Except Cause Value :=
  match left, right with
  | .bool a, .bool b => .ok (.bool (f a b))
  | _, _ => .error (.notTruthValues op (left.cite store) (right.cite store))

/-- Compares two operands for the sake of `op`.  Kinds that differ never compare, and
of the kinds that agree only integers, strings and truth values do. -/
def equality (op : BinaryOp) (store : Store) (left right : Value) : Except Cause Bool :=
  match left, right with
  | .int a, .int b => .ok (a == b)
  | .str a, .str b => .ok (a == b)
  | .bool a, .bool b => .ok (a == b)
  | _, _ =>
    if left.kind = right.kind then
      .error (.incomparable op (left.cite store) (right.cite store))
    else .error (.dissimilarKinds (left.cite store) (right.cite store))

/-- What an operator gives for two operands, its effect on the store aside. -/
def result (op : BinaryOp) (store : Store) (left right : Value) : Except Cause Value :=
  match op with
  | .add => arithmetic store left right Arithmetic.add
  | .sub => arithmetic store left right Arithmetic.sub
  | .mul => arithmetic store left right Arithmetic.mul
  | .div => arithmetic store left right Arithmetic.div
  | .pow => arithmetic store left right Arithmetic.pow
  | .lt => ordering store left right fun a b => a < b
  | .le => ordering store left right fun a b => a ≤ b
  | .gt => ordering store left right fun a b => b < a
  | .ge => ordering store left right fun a b => b ≤ a
  | .eq => (op.equality store left right).map .bool
  | .ne => (op.equality store left right).map fun same => .bool !same
  | .or => op.logical store left right (· || ·)
  | .and => op.logical store left right (· && ·)
  | .aug =>
    match left with
    | .tuple _ => .ok left
    | _ => .error (.notATuple (left.cite store))

/-- Applies an operator to two operands. -/
def apply (op : BinaryOp) (left right : Value) (store : Store) :
    Except Cause Value × Store :=
  match op, left with
  | .aug, .tuple ref => (.ok (.tuple ref), store.augment ref right)
  | _, _ => (op.result store left right, store)

/-- Every operator but `aug` leaves the store as it was. -/
theorem store_of_ne_aug {op : BinaryOp} (h : op ≠ .aug) (left right : Value) (store : Store) :
    (op.apply left right store).2 = store := by
  unfold apply
  split
  · exact absurd rfl h
  · rfl

/-- Every operator but `aug` gives its result. -/
theorem result_of_ne_aug {op : BinaryOp} (h : op ≠ .aug) (left right : Value) (store : Store) :
    (op.apply left right store).1 = op.result store left right := by
  unfold apply
  split
  · exact absurd rfl h
  · rfl

/-- An operator that fails leaves the store as it was. -/
theorem store_of_error {op : BinaryOp} {left right : Value} {store : Store} {cause : Cause}
    (h : (op.apply left right store).1 = .error cause) :
    (op.apply left right store).2 = store := by
  unfold apply at h ⊢
  split at h
  · cases h
  · rfl

/-- No operator changes a scope. -/
theorem scopes_apply (op : BinaryOp) (left right : Value) (store : Store) :
    (op.apply left right store).2.scopes = store.scopes := by
  unfold apply
  split <;> rfl

/-- No operator adds a tuple. -/
theorem size_apply (op : BinaryOp) (left right : Value) (store : Store) :
    (op.apply left right store).2.tuples.size = store.tuples.size := by
  unfold apply
  split <;> simp

end BinaryOp

namespace UnaryOp

/-- Applies an operator to an operand. -/
def apply (op : UnaryOp) (store : Store) (operand : Value) : Except Cause Value :=
  match op, operand with
  | .not, .bool b => .ok (.bool !b)
  | .neg, .int n => (Arithmetic.neg n).map .int
  | .not, _ => .error (.wrongKind "a truthvalue" (operand.cite store))
  | .neg, _ => .error (.wrongKind "an integer" (operand.cite store))

end UnaryOp

end CSEMachine
