import CSEMachine.NameTable
import CSEMachine.Term

/-!
# Control structures

A tree is flattened into sequences of instructions, its control structures: one
for the whole tree and one for every lambda in it.  An instruction list is kept
in the order in which it runs.  Reversed, it is the stack that the machine pops
from the end, which reads as prefix notation of the tree; that order is the
`written` one.

Control structures are made once and then shared, by the closures over them, and two
of them that are alike in everything need not be the same one.  So each has an
identity.

Main results:

- Theorem `Instr.eqv_iff` and its companions: equality of instructions and of
  blocks is decided structurally.
-/

namespace CSEMachine

/-- The identity of a block: the number that it is shown under, and a serial number
that tells it from the other blocks made under that number.  Within one tree the
numbers alone are enough, and closures of two runs have environments of their own, so
a number stands for the first block made under it. -/
structure BlockId where
  index : Nat
  serial : Nat
deriving DecidableEq

namespace BlockId

/-- The first block under a number. -/
instance : Coe Nat BlockId :=
  ⟨fun index => ⟨index, 0⟩⟩

instance (index : Nat) : OfNat BlockId index :=
  ⟨⟨index, 0⟩⟩

@[simp]
theorem ofNat_eq (index : Nat) : (OfNat.ofNat index : BlockId) = ⟨OfNat.ofNat index, 0⟩ :=
  rfl

end BlockId

mutual

/-- One instruction, with the line of the node it comes from. -/
inductive Instr where
  /-- Pushes the value of a name. -/
  | ident (line : Nat) (name : Name)
  | literal (line : Nat) (value : Literal)
  /-- Pushes a closure of a block over the current environment. -/
  | lambda (line : Nat) (block : Block)
  | binary (line : Nat) (op : BinaryOp)
  | unary (line : Nat) (op : UnaryOp)
  /-- Forms a tuple of the topmost `arity` values, the topmost one first. -/
  | tuple (line : Nat) (arity : Nat)
  /-- Goes on with one of two arms, as the topmost truth value says. -/
  | branch (line : Nat) (thenArm elseArm : List Instr)
  /-- Applies the topmost value to the one below it. -/
  | apply (line : Nat)
  /-- Pushes the fixed-point operator. -/
  | fixpoint (line : Nat)

/-- The control structure of a lambda, or, with index 0 and no parameters, of a
whole tree. -/
structure Block where
  id : BlockId
  params : List Name
  code : List Instr

end

/-- The number that a block is shown under. -/
def Block.index (b : Block) : Nat :=
  b.id.index

@[simp]
theorem Block.index_mk (id : BlockId) (params : List Name) (code : List Instr) :
    Block.index ⟨id, params, code⟩ = id.index :=
  rfl

/-- A flattened tree.  Its names mean something only to the table that gave them,
whose identity it records. -/
structure Program where
  root : Block
  standardized : Bool
  tableId : Nat

/-! ## Views -/

/-- The line of an instruction. -/
def Instr.line : Instr → Nat
  | .ident l _ | .literal l _ | .lambda l _ | .binary l _ | .unary l _ | .tuple l _
  | .branch l _ _ | .apply l | .fixpoint l => l

/-- Code in the order it is written in, prefix notation. -/
def Instr.written (code : List Instr) : List Instr :=
  code.reverse

mutual

/-- The lines of an instruction: its own, then those of the arms it holds. -/
def Instr.lines : Instr → List Nat
  | .branch l t e => l :: (Instr.codeLines t [] ++ Instr.codeLines e [])
  | .ident l _ | .literal l _ | .lambda l _ | .binary l _ | .unary l _ | .tuple l _
  | .apply l | .fixpoint l => [l]

/-- The lines of code in written order, followed by `rest`. -/
def Instr.codeLines : List Instr → List Nat → List Nat
  | [], rest => rest
  | i :: code, rest => Instr.codeLines code (i.lines ++ rest)

end

mutual

/-- The blocks inside an instruction, outermost first. -/
def Instr.blocks : Instr → List Block
  | .lambda _ b => b :: b.inner
  | .branch _ t e => Instr.codeBlocks t [] ++ Instr.codeBlocks e []
  | .ident _ _ | .literal _ _ | .binary _ _ | .unary _ _ | .tuple _ _ | .apply _
  | .fixpoint _ => []

/-- The blocks inside a block. -/
def Block.inner : Block → List Block
  | ⟨_, _, code⟩ => Instr.codeBlocks code []

/-- The blocks inside code in written order, followed by `rest`. -/
def Instr.codeBlocks : List Instr → List Block → List Block
  | [], rest => rest
  | i :: code, rest => Instr.codeBlocks code (i.blocks ++ rest)

end

/-- Every block of a program in the order of their numbers. -/
def Program.blocks (program : Program) : List Block :=
  (program.root :: program.root.inner).mergeSort fun b c => b.index ≤ c.index

/-! ## Decidable equality -/

mutual

/-- Structural comparison of instructions. -/
def Instr.eqv : Instr → Instr → Bool
  | .ident l x, .ident l' x' => l == l' && x == x'
  | .literal l v, .literal l' v' => l == l' && v == v'
  | .lambda l b, .lambda l' b' => l == l' && b.eqv b'
  | .binary l op, .binary l' op' => l == l' && op == op'
  | .unary l op, .unary l' op' => l == l' && op == op'
  | .tuple l n, .tuple l' n' => l == l' && n == n'
  | .branch l t e, .branch l' t' e' => l == l' && Instr.codeEqv t t' && Instr.codeEqv e e'
  | .apply l, .apply l' => l == l'
  | .fixpoint l, .fixpoint l' => l == l'
  | _, _ => false

/-- Structural comparison of blocks. -/
def Block.eqv : Block → Block → Bool
  | ⟨k, xs, code⟩, ⟨k', xs', code'⟩ => k == k' && xs == xs' && Instr.codeEqv code code'

/-- Structural comparison of code. -/
def Instr.codeEqv : List Instr → List Instr → Bool
  | [], [] => true
  | i :: code, i' :: code' => i.eqv i' && Instr.codeEqv code code'
  | _, _ => false

end

mutual

theorem Instr.eqv_iff : ∀ i j : Instr, i.eqv j = true ↔ i = j
  | .ident _ _, j => by cases j <;> simp [Instr.eqv]
  | .literal _ _, j => by cases j <;> simp [Instr.eqv]
  | .lambda _ b, j => by cases j <;> simp [Instr.eqv, Block.eqv_iff b]
  | .binary _ _, j => by cases j <;> simp [Instr.eqv]
  | .unary _ _, j => by cases j <;> simp [Instr.eqv]
  | .tuple _ _, j => by cases j <;> simp [Instr.eqv]
  | .branch _ t e, j => by
    cases j <;> simp [Instr.eqv, Instr.codeEqv_iff t, Instr.codeEqv_iff e, and_assoc]
  | .apply _, j => by cases j <;> simp [Instr.eqv]
  | .fixpoint _, j => by cases j <;> simp [Instr.eqv]

theorem Block.eqv_iff : ∀ b c : Block, b.eqv c = true ↔ b = c
  | ⟨_, _, code⟩, c => by cases c; simp [Block.eqv, Instr.codeEqv_iff code, and_assoc]

theorem Instr.codeEqv_iff : ∀ code code' : List Instr,
    Instr.codeEqv code code' = true ↔ code = code'
  | [], code' => by cases code' <;> simp [Instr.codeEqv]
  | i :: code, code' => by
    cases code' <;> simp [Instr.codeEqv, Instr.eqv_iff i, Instr.codeEqv_iff code]

end

instance : DecidableEq Instr := fun i j => decidable_of_iff _ (Instr.eqv_iff i j)

instance : DecidableEq Block := fun b c => decidable_of_iff _ (Block.eqv_iff b c)

deriving instance DecidableEq for Program

end CSEMachine
