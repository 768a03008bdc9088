import CSEMachine.Control

/-!
# Written control structures

The written form of a control structure: one word per instruction, in prefix
order.  A nested block appears as `lambda` with its number, a branch with both
of its arms.
-/

namespace CSEMachine

/-- The written form of a constant. -/
def Literal.render : Literal → String
  | .int n => toString n
  | .str s => s!"'{s}'"
  | .bool b => toString b
  | .dummy => "dummy"

mutual

/-- The written form of an instruction. -/
def Instr.render (table : NameTable) : Instr → String
  | .ident _ x => table.text x
  | .literal _ v => v.render
  | .lambda _ b => s!"lambda<{b.index}>"
  | .binary _ op => op.keyword
  | .unary _ op => op.keyword
  | .tuple _ n => s!"tau<{n}>"
  | .branch _ t e =>
    let thenText := " ".intercalate (Instr.words table t [])
    let elseText := " ".intercalate (Instr.words table e [])
    s!"beta<{thenText} | {elseText}>"
  | .apply _ => "gamma"
  | .fixpoint _ => "Y*"

/-- The words of code in prefix order, followed by `rest`. -/
def Instr.words (table : NameTable) : List Instr → List String → List String
  | [], rest => rest
  | i :: code, rest => Instr.words table code (i.render table :: rest)

end

/-- The written form of the code of a block. -/
def Block.render (table : NameTable) (b : Block) : String :=
  " ".intercalate (Instr.words table b.code [])

end CSEMachine
