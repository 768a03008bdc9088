import CSEMachine.Control
import CSEMachine.Resolved

/-!
# Flattening

The code of a tree runs operands before operators: the right operand before the
left one, the last item of a tuple before the first, the operand of an
application before its operator, the condition before the branch on it.

Main results:

- Theorem `Expr.flatten_append`: flattening in front of code is flattening
  followed by that code.
-/

namespace CSEMachine

mutual

/-- The code of an expression, to run before `rest`. -/
def Expr.flatten : Expr → List Instr → List Instr
  | .ident line x, rest => .ident line x :: rest
  | .literal line v, rest => .literal line v :: rest
  | .fixpoint line, rest => .fixpoint line :: rest
  | .lambda line index params body, rest =>
    .lambda line ⟨index, params, body.flatten []⟩ :: rest
  | .app line rator rand, rest => rand.flatten (rator.flatten (.apply line :: rest))
  | .cond line condition thenArm elseArm, rest =>
    condition.flatten (.branch line (thenArm.flatten []) (elseArm.flatten []) :: rest)
  | .tuple line items, rest => Expr.flattenAll items (.tuple line items.length :: rest)
  | .binary line op left right, rest => right.flatten (left.flatten (.binary line op :: rest))
  | .unary line op operand, rest => operand.flatten (.unary line op :: rest)

/-- The code of several expressions, the last one first, to run before `rest`. -/
def Expr.flattenAll : List Expr → List Instr → List Instr
  | [], rest => rest
  | e :: es, rest => Expr.flattenAll es (e.flatten rest)

end

mutual

/-- Flattening in front of code is flattening followed by that code. -/
theorem Expr.flatten_append : ∀ (e : Expr) (rest : List Instr),
    e.flatten rest = e.flatten [] ++ rest
  | .ident _ _, rest => by simp [Expr.flatten]
  | .literal _ _, rest => by simp [Expr.flatten]
  | .fixpoint _, rest => by simp [Expr.flatten]
  | .lambda _ _ _ _, rest => by simp [Expr.flatten]
  | .app line r d, rest => by
    simp only [Expr.flatten]
    rw [Expr.flatten_append d, Expr.flatten_append r, Expr.flatten_append d (r.flatten _),
      Expr.flatten_append r [_]]
    simp
  | .cond _ c _ _, rest => by
    simp only [Expr.flatten]
    rw [Expr.flatten_append c, Expr.flatten_append c [_]]
    simp
  | .tuple _ es, rest => by
    simp only [Expr.flatten]
    rw [Expr.flattenAll_append es, Expr.flattenAll_append es [_]]
    simp
  | .binary _ _ l r, rest => by
    simp only [Expr.flatten]
    rw [Expr.flatten_append r, Expr.flatten_append l, Expr.flatten_append r (l.flatten _),
      Expr.flatten_append l [_]]
    simp
  | .unary _ _ a, rest => by
    simp only [Expr.flatten]
    rw [Expr.flatten_append a, Expr.flatten_append a [_]]
    simp

/-- Flattening several expressions in front of code is flattening them followed by
that code. -/
theorem Expr.flattenAll_append : ∀ (es : List Expr) (rest : List Instr),
    Expr.flattenAll es rest = Expr.flattenAll es [] ++ rest
  | [], rest => by simp [Expr.flattenAll]
  | e :: es, rest => by
    simp only [Expr.flattenAll]
    rw [Expr.flattenAll_append es, Expr.flatten_append e, Expr.flattenAll_append es (e.flatten [])]
    simp

end

/-- The block of a whole tree. -/
def Expr.toBlock (e : Expr) : Block :=
  ⟨0, [], e.flatten []⟩

/-- The program of a tree, and the table of names as it is afterwards, also when a
binder is refused. -/
def Program.ofTerm (t : Term) (standardized : Bool) (table : NameTable) :
    Except BinderError Program × NameTable :=
  match t.resolveIn table with
  | (.ok e, table) => (.ok ⟨e.toBlock, standardized, table.id⟩, table)
  | (.error error, table) => (.error error, table)

end CSEMachine
