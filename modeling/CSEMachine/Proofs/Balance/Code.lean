import CSEMachine.Control.Flatten
import Mathlib.Algebra.Order.Ring.Int

/-!
# Balanced code

Written out, code is in prefix notation.  It is balanced when it is exactly one
complete expression, and the code inside it, in arms and in the blocks of lambdas, is
balanced as well.  In the order in which it runs, balanced code leaves one more value
than there was and never needs a value that was there before.

Main results:

- Theorem `Expr.balanced_flatten`: the code of an expression is balanced.
- Theorem `Instr.Balanced.height_written`: balanced code adds one value.
- Theorem `Instr.add_effects_of_height`: the number of values changes by the summed
  effects of the instructions.
-/

namespace CSEMachine

namespace Instr

/-- Number of expressions that follow an instruction in prefix notation. -/
def operands : Instr → Nat
  | .ident _ _ | .literal _ _ | .lambda _ _ | .fixpoint _ => 0
  | .unary _ _ | .branch _ _ _ => 1
  | .binary _ _ | .apply _ => 2
  | .tuple _ arity => arity

/-- What an instruction adds to the number of values, its arms included. -/
def effect : Instr → Int
  | .ident _ _ | .literal _ _ | .lambda _ _ | .fixpoint _ => 1
  | .unary _ _ | .branch _ _ _ => 0
  | .binary _ _ | .apply _ => -1
  | .tuple _ arity => 1 - arity

theorem effect_eq (i : Instr) : i.effect = 1 - i.operands := by
  cases i <;> simp [effect, operands]

/-- The code inside an instruction: both arms of a branch, the body of a lambda. -/
def carried : Instr → List (List Instr)
  | .branch _ thenArm elseArm => [thenArm, elseArm]
  | .lambda _ block => [block.code]
  | .ident _ _ | .literal _ _ | .fixpoint _ | .unary _ _ | .binary _ _ | .apply _
  | .tuple _ _ => []

/-- Instructions in written order are balanced when they are one complete prefix
expression and all code inside them is balanced. -/
inductive Balanced : List Instr → Prop
  | node (i : Instr) (parts : List (List Instr)) (hlength : parts.length = i.operands)
      (hparts : ∀ part ∈ parts, Balanced part)
      (hcarried : ∀ code ∈ i.carried, Balanced (written code)) :
      Balanced (i :: parts.flatten)

end Instr

/-- A block is balanced when its code, as written, is. -/
def Block.Balanced (b : Block) : Prop :=
  Instr.Balanced (Instr.written b.code)

/-! ## The number of values -/

namespace Instr

/-- The number of values after running code with `h` values at hand, if these are
enough for every instruction. -/
def height : List Instr → Nat → Option Nat
  | [], h => some h
  | i :: code, h => if i.operands ≤ h then height code (h - i.operands + 1) else none

/-- Parts that add one value each add as many values as they are. -/
theorem height_parts {parts : List (List Instr)}
    (hparts : ∀ part ∈ parts, ∀ rest h, height (written part ++ rest) h = height rest (h + 1))
    (rest : List Instr) (h : Nat) :
    height (written parts.flatten ++ rest) h = height rest (h + parts.length) := by
  induction parts generalizing rest h with
  | nil => rfl
  | cons part parts ih =>
      have hrest : ∀ p ∈ parts, ∀ rest h,
          height (written p ++ rest) h = height rest (h + 1) := fun p hp =>
        hparts p (List.mem_cons_of_mem _ hp)
      have hsplit : written (part :: parts).flatten ++ rest =
          written parts.flatten ++ (written part ++ rest) := by
        simp [written]
      rw [hsplit, ih hrest, hparts part List.mem_cons_self, List.length_cons, Nat.add_assoc]

/-- Balanced code adds one value to those at hand. -/
theorem Balanced.height_written {code : List Instr} (hcode : Balanced code)
    (rest : List Instr) (h : Nat) : height (written code ++ rest) h = height rest (h + 1) := by
  induction hcode generalizing rest h with
  | node i parts hlength _ _ ih _ =>
      have hsplit : written (i :: parts.flatten) ++ rest =
          written parts.flatten ++ (i :: rest) := by
        simp [written]
      rw [hsplit, height_parts ih, hlength, height, if_pos (Nat.le_add_left _ _),
        Nat.add_sub_cancel]

/-- The code inside balanced code is balanced. -/
theorem Balanced.of_carried {code : List Instr} (hcode : Balanced code) {i : Instr}
    (hi : i ∈ code) {inner : List Instr} (hinner : inner ∈ i.carried) :
    Balanced (written inner) := by
  induction hcode with
  | node j parts _ _ hcarried ih _ =>
      rcases List.mem_cons.mp hi with rfl | hi
      · exact hcarried inner hinner
      · rcases List.mem_flatten.mp hi with ⟨part, hpart, hi⟩
        exact ih part hpart hi

/-- The number of values changes by the summed effects of the instructions. -/
theorem add_effects_of_height {code : List Instr} {h k : Nat} (hk : height code h = some k) :
    (h : Int) + (code.map effect).sum = k := by
  induction code generalizing h with
  | nil =>
      cases hk
      simp
  | cons i code ih =>
      rw [height] at hk
      split at hk
      · rename_i hle
        have hrest := ih hk
        rw [List.map_cons, List.sum_cons, effect_eq]
        omega
      · cases hk

end Instr

/-! ## The code of expressions -/

/-- Written out, the code of several expressions is that of each in turn. -/
theorem Expr.written_flattenAll (es : List Expr) (rest : List Instr) :
    Instr.written (Expr.flattenAll es rest) =
      Instr.written rest ++ (es.map fun e => Instr.written (e.flatten [])).flatten := by
  induction es generalizing rest with
  | nil => simp [Expr.flattenAll]
  | cons e es ih =>
      rw [Expr.flattenAll, ih, Expr.flatten_append e rest]
      simp [Instr.written]

mutual

/-- The code of an expression is balanced. -/
theorem Expr.balanced_flatten : ∀ e : Expr, Instr.Balanced (Instr.written (e.flatten []))
  | .ident line x => .node (.ident line x) [] rfl (by simp) (by simp [Instr.carried])
  | .literal line v => .node (.literal line v) [] rfl (by simp) (by simp [Instr.carried])
  | .fixpoint line => .node (.fixpoint line) [] rfl (by simp) (by simp [Instr.carried])
  | .lambda line index params body => by
      have hbody := Expr.balanced_flatten body
      exact .node (.lambda line ⟨index, params, body.flatten []⟩) [] rfl (by simp)
        (by simpa [Instr.carried] using hbody)
  | .app line rator rand => by
      have hrator := Expr.balanced_flatten rator
      have hrand := Expr.balanced_flatten rand
      have hwritten : Instr.written ((Expr.app line rator rand).flatten []) =
          .apply line ::
            [Instr.written (rator.flatten []), Instr.written (rand.flatten [])].flatten := by
        rw [Expr.flatten, Expr.flatten_append rand, Expr.flatten_append rator]
        simp [Instr.written]
      rw [hwritten]
      exact .node (.apply line) _ rfl (by simp [hrator, hrand]) (by simp [Instr.carried])
  | .cond line condition thenArm elseArm => by
      have hcondition := Expr.balanced_flatten condition
      have hthen := Expr.balanced_flatten thenArm
      have helse := Expr.balanced_flatten elseArm
      have hwritten : Instr.written ((Expr.cond line condition thenArm elseArm).flatten []) =
          .branch line (thenArm.flatten []) (elseArm.flatten []) ::
            [Instr.written (condition.flatten [])].flatten := by
        rw [Expr.flatten, Expr.flatten_append condition]
        simp [Instr.written]
      rw [hwritten]
      exact .node (.branch line _ _) _ rfl (by simp [hcondition])
        (by simp [Instr.carried, hthen, helse])
  | .tuple line items => by
      have hitems := Expr.balanced_flattenAll items
      have hwritten : Instr.written ((Expr.tuple line items).flatten []) =
          .tuple line items.length ::
            (items.map fun e => Instr.written (e.flatten [])).flatten := by
        rw [Expr.flatten, Expr.written_flattenAll]
        simp [Instr.written]
      rw [hwritten]
      exact .node (.tuple line items.length) _ (by simp [Instr.operands])
        (by simpa using hitems) (by simp [Instr.carried])
  | .binary line op left right => by
      have hleft := Expr.balanced_flatten left
      have hright := Expr.balanced_flatten right
      have hwritten : Instr.written ((Expr.binary line op left right).flatten []) =
          .binary line op ::
            [Instr.written (left.flatten []), Instr.written (right.flatten [])].flatten := by
        rw [Expr.flatten, Expr.flatten_append right, Expr.flatten_append left]
        simp [Instr.written]
      rw [hwritten]
      exact .node (.binary line op) _ rfl (by simp [hleft, hright]) (by simp [Instr.carried])
  | .unary line op operand => by
      have hoperand := Expr.balanced_flatten operand
      have hwritten : Instr.written ((Expr.unary line op operand).flatten []) =
          .unary line op :: [Instr.written (operand.flatten [])].flatten := by
        rw [Expr.flatten, Expr.flatten_append operand]
        simp [Instr.written]
      rw [hwritten]
      exact .node (.unary line op) _ rfl (by simp [hoperand]) (by simp [Instr.carried])

/-- So is the code of each of several expressions. -/
theorem Expr.balanced_flattenAll : ∀ es : List Expr,
    ∀ e ∈ es, Instr.Balanced (Instr.written (e.flatten []))
  | [] => by simp
  | e :: es => by
      have he := Expr.balanced_flatten e
      have hes := Expr.balanced_flattenAll es
      simpa using ⟨he, hes⟩

end

/-- The root of a program that a tree gives is balanced. -/
theorem Program.balanced_root_of_ofTerm {t : Term} {standardized : Bool}
    {table table' : NameTable} {p : Program}
    (h : Program.ofTerm t standardized table = (.ok p, table')) : p.root.Balanced := by
  unfold Program.ofTerm at h
  split at h
  · rename_i e _ _
    cases h
    exact e.balanced_flatten
  · cases h

end CSEMachine
