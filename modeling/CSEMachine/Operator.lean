/-!
# Operators

The operators of a standardized tree.  Each has one keyword, the spelling it is
written with; the four orderings may also be read in their symbolic spelling.

Main results:

- Theorems `BinaryOp.ofSymbol?_keyword` and `UnaryOp.ofSymbol?_keyword`: reading
  a keyword gives back its operator.
-/

namespace CSEMachine

/-- Operators on two operands. -/
inductive BinaryOp where
  | add | sub | mul | div | pow
  | lt | le | gt | ge
  | eq | ne
  | or | and
  /-- Appends its right operand to the tuple on its left. -/
  | aug
deriving DecidableEq

/-- Operators on one operand. -/
inductive UnaryOp where
  | not | neg
deriving DecidableEq

/-! ## Binary operators -/

/-- The spelling an operator is written with. -/
def BinaryOp.keyword : BinaryOp → String
  | .add => "+"
  | .sub => "-"
  | .mul => "*"
  | .div => "/"
  | .pow => "**"
  | .lt => "ls"
  | .le => "le"
  | .gt => "gr"
  | .ge => "ge"
  | .eq => "eq"
  | .ne => "ne"
  | .or => "or"
  | .and => "&"
  | .aug => "aug"

instance : ToString BinaryOp := ⟨BinaryOp.keyword⟩

/-- Reads a node label: a keyword, or an ordering in its symbolic spelling. -/
def BinaryOp.ofSymbol? : String → Option BinaryOp
  | "+" => some .add
  | "-" => some .sub
  | "*" => some .mul
  | "/" => some .div
  | "**" => some .pow
  | "ls" | "<" => some .lt
  | "le" | "<=" => some .le
  | "gr" | ">" => some .gt
  | "ge" | ">=" => some .ge
  | "eq" => some .eq
  | "ne" => some .ne
  | "or" => some .or
  | "&" => some .and
  | "aug" => some .aug
  | _ => none

@[simp]
theorem BinaryOp.ofSymbol?_keyword (op : BinaryOp) : ofSymbol? op.keyword = some op := by
  cases op <;> rfl

/-! ## Unary operators -/

/-- The spelling an operator is written with. -/
def UnaryOp.keyword : UnaryOp → String
  | .not => "not"
  | .neg => "neg"

instance : ToString UnaryOp := ⟨UnaryOp.keyword⟩

/-- Reads a node label. -/
def UnaryOp.ofSymbol? : String → Option UnaryOp
  | "not" => some .not
  | "neg" => some .neg
  | _ => none

@[simp]
theorem UnaryOp.ofSymbol?_keyword (op : UnaryOp) : ofSymbol? op.keyword = some op := by
  cases op <;> rfl

end CSEMachine
