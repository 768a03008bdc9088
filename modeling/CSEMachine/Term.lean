import CSEMachine.Operator

/-!
# Standardized terms

Standardization leaves a tree over a small vocabulary: leaves, abstraction,
application, conditionals, tuple formation and operators.  Every node carries
the source line it is blamed on.
-/

namespace CSEMachine

/-- Constants written in a program. -/
inductive Literal where
  | int (value : Int64)
  | str (value : String)
  | bool (value : Bool)
  | dummy
deriving DecidableEq

/-- A standardized tree. -/
inductive Term where
  | ident (line : Nat) (name : String)
  | literal (line : Nat) (value : Literal)
  /-- The empty tuple. -/
  | nil (line : Nat)
  /-- The fixed-point operator `Y*`. -/
  | fixpoint (line : Nat)
  /-- A function of one operand, or of a tuple whose elements its several
  parameters name. -/
  | lambda (line : Nat) (params : List String) (body : Term)
  /-- Application of `rator` to `rand`. -/
  | app (line : Nat) (rator rand : Term)
  | cond (line : Nat) (condition thenArm elseArm : Term)
  | tuple (line : Nat) (items : List Term)
  | binary (line : Nat) (op : BinaryOp) (left right : Term)
  | unary (line : Nat) (op : UnaryOp) (operand : Term)

namespace Term

/-- The line of the outermost node. -/
def line : Term → Nat
  | ident l _ | literal l _ | nil l | fixpoint l | lambda l _ _ | app l _ _ | cond l _ _ _
  | tuple l _ | binary l _ _ _ | unary l _ _ => l

/-- The same tree with its outermost node on another line. -/
def atLine (l : Nat) : Term → Term
  | ident _ x => ident l x
  | literal _ v => literal l v
  | nil _ => nil l
  | fixpoint _ => fixpoint l
  | lambda _ xs b => lambda l xs b
  | app _ r d => app l r d
  | cond _ c t e => cond l c t e
  | tuple _ ts => tuple l ts
  | binary _ op a b => binary l op a b
  | unary _ op a => unary l op a

@[simp]
theorem line_atLine (l : Nat) (t : Term) : (t.atLine l).line = l := by
  cases t <;> rfl

end Term

end CSEMachine
