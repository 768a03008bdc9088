import CSEMachine.Proofs.Direct.Evaluator

/-!
# Evaluation after other evaluations

When a tree is evaluated after others, its tuples and functions lie behind those that are
there already, and the numbers of its lambdas may start later.  Its values are shifted by so
much.  Texts of values are not the same then, as they show numbers of lambdas, but whether an
operator or a built-in function fails does not depend on them.

Main results:

- Theorem `BinaryOp.apply_shifted` and its companions: shifted operands give shifted results.
- Theorem `Direct.World.Shifted.formTuple`: tuples are formed alike.
- Theorem `Direct.World.Shifted.formFunction`: so are functions.
-/

namespace CSEMachine

namespace Direct

/-! ## Shifts -/

/-- By how much the numbers of tuples, of functions and of lambdas are larger in one of two
evaluations. -/
structure Shift where
  tuples : Nat
  functions : Nat
  lambdas : Nat

end Direct

open Direct

/-! ## Shifted values -/

/-- The closure that points to the shifted function. -/
def Closure.shifted (d : Shift) (c : Closure) : Closure :=
  ⟨⟨⟨d.lambdas + c.block.index, c.block.id.serial⟩, c.block.params, c.block.code⟩,
    ⟨d.functions + c.env.scope, c.env.outer⟩⟩

/-- The value that has the larger numbers. -/
def Value.shifted (d : Shift) : Value → Value
  | .tuple ref => .tuple (d.tuples + ref)
  | .closure c => .closure (c.shifted d)
  | .eta c => .eta (c.shifted d)
  | .int n => .int n
  | .str s => .str s
  | .bool b => .bool b
  | .dummy => .dummy
  | .builtin b => .builtin b
  | .fixpoint => .fixpoint

@[simp]
theorem Value.shifted_tuple (d : Shift) (ref : Nat) :
    (Value.tuple ref).shifted d = .tuple (d.tuples + ref) :=
  rfl

@[simp]
theorem Value.kind_shifted (d : Shift) (v : Value) : (v.shifted d).kind = v.kind := by
  cases v <;> rfl

@[simp]
theorem Literal.value_shifted (d : Shift) (v : Literal) : v.value.shifted d = v.value := by
  cases v <;> rfl

/-! ## Shifted results -/

/-- Results of which one is shifted, or both are errors. -/
inductive ShiftedResults {ε α : Type} (shift : α → α) : Except ε α → Except ε α → Prop
  | ok {a a' : α} (h : a' = shift a) : ShiftedResults shift (.ok a) (.ok a')
  | error (e e' : ε) : ShiftedResults shift (.error e) (.error e')

namespace ShiftedResults

variable {ε α : Type} {shift : α → α} {x y : Except ε α}

theorem mapError {δ : Type} (h : ShiftedResults shift x y) (f : ε → δ) :
    ShiftedResults shift (x.mapError f) (y.mapError f) := by
  cases h with
  | ok h => exact .ok h
  | error e e' => exact .error _ _

/-- The same result on both sides. -/
theorem same (x : Except ε α) : ShiftedResults id x x := by
  cases x with
  | ok a => exact .ok rfl
  | error e => exact .error e e

/-- Values that shifting does not change are made of results on both sides. -/
theorem map {β : Type} {x y : Except ε β} (h : ShiftedResults id x y) {f : β → α}
    (hf : ∀ b, shift (f b) = f b) : ShiftedResults shift (x.map f) (y.map f) := by
  cases h with
  | ok h =>
      cases h
      exact .ok (hf _).symm
  | error e e' => exact .error e e'

end ShiftedResults

/-! ## Worlds -/

namespace Direct

/-- The environment of shifted values. -/
def Environment.shifted (d : Shift) (env : Environment) : Environment :=
  env.map fun scope => scope.map fun entry => (entry.1, entry.2.shifted d)

/-- The function that has the larger numbers. -/
def Function.shifted (d : Shift) (fn : Function) : Function :=
  { fn with number := d.lambdas + fn.number, env := fn.env.shifted d }

/-- The shifted operands that wait for a value. -/
def Waiting.shifted (d : Shift) (ws : Waiting) : Waiting :=
  ws.map fun w => (w.1.shifted d, w.2)

/-- A world that has the shifted tuples and functions of another one.  What it has before
them is not compared, nor are the printed texts. -/
structure World.Shifted (d : Shift) (w w' : World) : Prop where
  size_tuples : w'.store.tuples.size = d.tuples + w.store.tuples.size
  items : ∀ ref, w'.store.items (d.tuples + ref) = (w.store.items ref).map (Value.shifted d)
  size_functions : w'.functions.size = d.functions + w.functions.size
  functions : ∀ cell : Nat,
    w'.functions[d.functions + cell]? = w.functions[cell]?.map (Function.shifted d)

/-- Outcomes of which one is shifted.  Faults may differ in their texts. -/
inductive Outcome.Shifted (d : Shift) {α : Type} (shift : α → α) :
    Outcome α → Outcome α → Prop
  | value {a a' : α} {w w' : World} (h : a' = shift a) (hw : w.Shifted d w') :
      Shifted d shift (.value a w) (.value a' w')
  | fault (e e' : Fault) (w w' : World) : Shifted d shift (.fault e w) (.fault e' w')
  | pending : Shifted d shift .pending .pending

end Direct

/-! ## Operators -/

namespace BinaryOp

variable {d : Shift}

theorem onIntegers_shifted (s s' : Store) (left right : Value)
    {f : Int64 → Int64 → Except Cause Value}
    (hf : ∀ a b, ShiftedResults (Value.shifted d) (f a b) (f a b)) :
    ShiftedResults (Value.shifted d) (onIntegers s left right f)
      (onIntegers s' (left.shifted d) (right.shifted d) f) := by
  cases left with
  | int a =>
      cases right with
      | int b => exact hf a b
      | _ => exact .error _ _
  | _ => exact .error _ _

theorem logical_shifted (op : BinaryOp) (s s' : Store) (left right : Value)
    (f : Bool → Bool → Bool) :
    ShiftedResults (Value.shifted d) (op.logical s left right f)
      (op.logical s' (left.shifted d) (right.shifted d) f) := by
  cases left with
  | bool a =>
      cases right with
      | bool b => exact .ok rfl
      | _ => exact .error _ _
  | _ => exact .error _ _

theorem equality_shifted (op : BinaryOp) (s s' : Store) (left right : Value) :
    ShiftedResults id (op.equality s left right)
      (op.equality s' (left.shifted d) (right.shifted d)) := by
  cases left with
  | int a => cases right <;> first | exact .ok rfl | exact .error _ _
  | str a => cases right <;> first | exact .ok rfl | exact .error _ _
  | bool a => cases right <;> first | exact .ok rfl | exact .error _ _
  | _ => cases right <;> exact .error _ _

/-- Shifted operands give a shifted result. -/
theorem result_shifted (op : BinaryOp) (s s' : Store) (left right : Value) :
    ShiftedResults (Value.shifted d) (op.result s left right)
      (op.result s' (left.shifted d) (right.shifted d)) := by
  cases op with
  | add | sub | mul | div | pow =>
      exact onIntegers_shifted s s' left right fun a b => .map (.same _) fun _ => rfl
  | lt | le | gt | ge =>
      exact onIntegers_shifted s s' left right fun a b => .ok rfl
  | eq => exact (equality_shifted .eq s s' left right).map fun _ => rfl
  | ne => exact (equality_shifted .ne s s' left right).map fun _ => rfl
  | or => exact logical_shifted .or s s' left right _
  | and => exact logical_shifted .and s s' left right _
  | aug =>
      cases left with
      | tuple ref => exact .ok rfl
      | _ => exact .error _ _

/-- So do operators with an effect. -/
theorem apply_shifted (op : BinaryOp) (s s' : Store) (left right : Value) :
    ShiftedResults (Value.shifted d) (op.apply left right s).1
      (op.apply (left.shifted d) (right.shifted d) s').1 := by
  by_cases hop : op = .aug
  · subst hop
    cases left with
    | tuple ref => exact .ok rfl
    | _ => exact .error _ _
  · rw [result_of_ne_aug hop, result_of_ne_aug hop]
    exact result_shifted op s s' left right

end BinaryOp

/-- A shifted operand gives a shifted result. -/
theorem UnaryOp.apply_shifted {d : Shift} (op : UnaryOp) (s s' : Store) (v : Value) :
    ShiftedResults (Value.shifted d) (op.apply s v) (op.apply s' (v.shifted d)) := by
  cases op with
  | not =>
      cases v with
      | bool b => exact .ok rfl
      | _ => exact .error _ _
  | neg =>
      cases v with
      | int n => exact .map (.same _) fun _ => rfl
      | _ => exact .error _ _

/-! ## Environments -/

namespace Direct

variable {d : Shift}

@[simp]
theorem Environment.shifted_cons (d : Shift) (scope : List (String × Value))
    (env : Environment) :
    Environment.shifted d (scope :: env) =
      (scope.map fun entry => (entry.1, entry.2.shifted d)) :: env.shifted d :=
  rfl

/-- A variable has the shifted value. -/
theorem Environment.find?_shifted (d : Shift) (env : Environment) (x : String) :
    (env.shifted d).find? x = (env.find? x).map (Value.shifted d) := by
  have hlookup : ∀ scope : List (String × Value),
      (scope.map fun entry => (entry.1, entry.2.shifted d)).lookup x =
        (scope.lookup x).map (Value.shifted d) := by
    intro scope
    induction scope with
    | nil => rfl
    | cons entry scope ih =>
        obtain ⟨y, v⟩ := entry
        simp only [List.map_cons, List.lookup_cons, ih]
        split <;> rfl
  induction env with
  | nil => rfl
  | cons scope env ih =>
      simp only [find?, shifted_cons, List.findSome?_cons, hlookup] at ih ⊢
      cases scope.lookup x with
      | some v => rfl
      | none => exact ih

/-- Parameters are bound to the shifted operands. -/
theorem map_zip_shifted (d : Shift) (xs : List String) (vs : List Value) :
    (xs.zip vs).map (fun entry => (entry.1, entry.2.shifted d)) =
      xs.zip (vs.map (Value.shifted d)) := by
  rw [List.zip_map_right]
  rfl

/-! ## Changes of worlds -/

namespace World.Shifted

variable {w w' : World}

theorem order_eq (h : w.Shifted d w') (ref : Nat) :
    w'.store.order (d.tuples + ref) = w.store.order ref := by
  rw [Store.order, Store.order, h.items, Array.size_map]

/-- Selecting from a shifted tuple gives the shifted element, or fails. -/
theorem select (h : w.Shifted d w') (ref : Nat) (index : Int64) :
    ShiftedResults (Value.shifted d) (w.store.select ref index)
      (w'.store.select (d.tuples + ref) index) := by
  have hselected : w'.store.select? (d.tuples + ref) index =
      (w.store.select? ref index).map (Value.shifted d) := by
    unfold Store.select?
    rw [h.items, Array.getElem?_map]
    split
    · rfl
    · rfl
  rw [Store.select, Store.select, hselected]
  cases w.store.select? ref index with
  | some v => exact .ok rfl
  | none => exact .error _ _

/-- Tuples are formed alike. -/
theorem formTuple (h : w.Shifted d w') (items : List Value) :
    (w'.formTuple (items.map (Value.shifted d))).1 = (w.formTuple items).1.shifted d ∧
      (w.formTuple items).2.Shifted d (w'.formTuple (items.map (Value.shifted d))).2 := by
  refine ⟨congrArg Value.tuple h.size_tuples, ?_⟩
  refine ⟨?_, fun ref => ?_, h.size_functions, h.functions⟩
  · simp only [World.formTuple, Store.size_formTuple, h.size_tuples, Nat.add_assoc]
  · simp only [World.formTuple]
    by_cases heq : ref = w.store.tuples.size
    · have hself := Store.items_formTuple_self w.store items.toArray
      have hself' := Store.items_formTuple_self w'.store (items.map (Value.shifted d)).toArray
      rw [heq, ← h.size_tuples]
      refine hself'.trans ?_
      rw [← List.map_toArray]
      exact congrArg _ hself.symm
    · rw [Store.items_formTuple_of_ne heq, Store.items_formTuple_of_ne, h.items]
      have hsize := h.size_tuples
      omega

/-- Functions are formed alike. -/
theorem formFunction (h : w.Shifted d w') (fn : Function) :
    (w'.formFunction (fn.shifted d)).1 = (w.formFunction fn).1.shifted d ∧
      (w.formFunction fn).2.Shifted d (w'.formFunction (fn.shifted d)).2 := by
  have hsize := h.size_functions
  refine ⟨?_, h.size_tuples, h.items, ?_, fun cell => ?_⟩
  · simp only [World.formFunction, hsize]
    rfl
  · simp only [World.formFunction, Array.size_push, hsize, Nat.add_assoc]
  · simp only [World.formFunction, Array.getElem?_push, h.functions, hsize, Nat.add_left_cancel_iff]
    split
    · rfl
    · rfl

/-- A shifted closure points to the shifted function. -/
theorem function?_eq (h : w.Shifted d w') (c : Closure) :
    w'.function? (c.shifted d) = (w.function? c).map (Function.shifted d) :=
  h.functions c.env.scope

/-- Printing changes no tuple and no function. -/
theorem print (h : w.Shifted d w') (v v' : Value) : (w.print v).Shifted d (w'.print v') :=
  ⟨h.size_tuples, h.items, h.size_functions, h.functions⟩

/-- The operands for parameters are shifted, or refused. -/
theorem spread (h : w.Shifted d w') (arity : Nat) (v : Value) :
    ShiftedResults (List.map (Value.shifted d)) (w.spread arity v)
      (w'.spread arity (v.shifted d)) := by
  unfold World.spread
  by_cases hone : arity = 1
  · rw [if_pos hone, if_pos hone]
    exact .ok rfl
  · rw [if_neg hone, if_neg hone]
    cases v with
    | tuple ref =>
        simp only [Value.shifted_tuple, h.order_eq]
        split
        · exact .ok (by rw [h.items, Array.toList_map])
        · exact .error _ _
    | _ => exact .error _ _

/-- Operators change tuples alike. -/
theorem binary (h : w.Shifted d w') (op : BinaryOp) (left right : Value) :
    World.Shifted d { w with store := (op.apply left right w.store).2 }
      { w' with store := (op.apply (left.shifted d) (right.shifted d) w'.store).2 } := by
  by_cases hop : op = .aug
  · subst hop
    cases left with
    | tuple ref =>
        refine ⟨?_, fun other => ?_, h.size_functions, h.functions⟩
        · simp only [BinaryOp.size_apply, h.size_tuples]
        · have hself := h.items ref
          by_cases hlt : ref < w.store.tuples.size
          · have hlt' : d.tuples + ref < w'.store.tuples.size := by
              rw [h.size_tuples]
              omega
            simp only [BinaryOp.apply, Value.shifted_tuple, Store.items_augment hlt,
              Store.items_augment hlt', Nat.add_left_cancel_iff]
            split
            · rw [hself, Array.map_push]
            · exact h.items other
          · have hlt' : ¬ d.tuples + ref < w'.store.tuples.size := by
              rw [h.size_tuples]
              omega
            simp only [BinaryOp.apply, Value.shifted_tuple, Store.augment_of_not_lt hlt,
              Store.augment_of_not_lt hlt']
            exact h.items other
    | _ => exact ⟨h.size_tuples, h.items, h.size_functions, h.functions⟩
  · simp only [BinaryOp.store_of_ne_aug hop]
    exact ⟨h.size_tuples, h.items, h.size_functions, h.functions⟩

end World.Shifted

end Direct

/-! ## Built-in functions -/

namespace Builtin

variable {d : Shift} {w w' : World}

theorem onString_shifted (b : Builtin) (s s' : Store) (v : Value) (f : String → String) :
    ShiftedResults (Value.shifted d) (b.onString s v f) (b.onString s' (v.shifted d) f) := by
  cases v with
  | str t => exact .ok rfl
  | _ => exact .error _ _

theorem onInteger_shifted (b : Builtin) (s s' : Store) (v : Value)
    {f : Int64 → Except Fault Value} (hf : ∀ n, ShiftedResults (Value.shifted d) (f n) (f n)) :
    ShiftedResults (Value.shifted d) (b.onInteger s v f) (b.onInteger s' (v.shifted d) f) := by
  cases v with
  | int n => exact hf n
  | _ => exact .error _ _

theorem onTuple_shifted (h : w.Shifted d w') (b : Builtin) (v : Value)
    {f : Nat → Except Fault Value} (hf : ∀ n, ShiftedResults (Value.shifted d) (f n) (f n)) :
    ShiftedResults (Value.shifted d) (b.onTuple w.store v f)
      (b.onTuple w'.store (v.shifted d) f) := by
  cases v with
  | tuple ref =>
      simp only [onTuple, Value.shifted_tuple, h.order_eq]
      exact hf _
  | _ => exact .error _ _

theorem integer_shifted (result : Except Cause Int64) :
    ShiftedResults (Value.shifted d) (integer result) (integer result) :=
  (ShiftedResults.map (.same result) (f := Value.int) fun _ => rfl).mapError Fault.of

/-- `Conc` joins strings only. -/
theorem applyConc_shifted (s s' : Store) (first second : Value) :
    ShiftedResults (Value.shifted d) (applyConc s first second)
      (applyConc s' (first.shifted d) (second.shifted d)) := by
  cases first with
  | str t =>
      cases second with
      | str u => exact .ok rfl
      | _ => exact .error _ _
  | _ => exact .error _ _

/-- A built-in function gives a shifted result for a shifted operand. -/
theorem apply_shifted (h : w.Shifted d w') (b : Builtin) (v : Value) :
    ShiftedResults (Value.shifted d) (b.apply w.store v) (b.apply w'.store (v.shifted d)) := by
  cases b with
  | isInteger | isString | isTuple | isDummy | isTruthValue | isFunction =>
      simp only [apply, Value.kind_shifted]
      exact .ok rfl
  | stem | stern => exact onString_shifted _ _ _ v _
  | conc => exact .error _ _
  | print => exact .ok rfl
  | itoS => exact onInteger_shifted .itoS _ _ v fun n => .ok rfl
  | order =>
      exact onTuple_shifted h .order v fun n => integer_shifted (Arithmetic.checked "Order" n)
  | null => exact onTuple_shifted h .null v fun n => .ok (a := .bool (n = 0)) rfl
  | neg => exact onInteger_shifted .neg _ _ v fun n => integer_shifted _

end Builtin

end CSEMachine
