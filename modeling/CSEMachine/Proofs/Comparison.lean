import CSEMachine.Operator.Apply
import CSEMachine.Proofs.Equality

/-!
# Comparing operands

Two operators compare their operands, `eq` and, with the opposite answer, `ne`.  They answer
for two integers, two strings and two truth values, and there as equality of values does.  All
other operands they refuse: two of one kind as incomparable, even if they are the same value,
and two of different kinds as dissimilar.  So whether there is an answer is a matter of kinds,
and which one it is depends on no tuple.

Main results:

- Theorem `Value.comparable_iff`: the operands with an answer are those of one kind, if that
  is one of three.
- Theorems `BinaryOp.equality_of_comparable`, `BinaryOp.equality_of_kind_eq` and
  `BinaryOp.equality_of_kind_ne`: what comparing comes to.
- Theorem `BinaryOp.equality_swap`: comparing the operands the other way round.
- Theorem `BinaryOp.comparisons_agree`: `eq` and `ne` agree with equality of values and with
  each other.
-/

namespace CSEMachine

/-! ## Comparable values -/

/-- Two integers, two strings or two truth values. -/
inductive Value.Comparable : Value → Value → Prop where
  | integers (a b : Int64) : Comparable (.int a) (.int b)
  | strings (a b : String) : Comparable (.str a) (.str b)
  | truthValues (a b : Bool) : Comparable (.bool a) (.bool b)

/-- The kinds whose values are comparable with each other. -/
def Kind.comparable : List Kind :=
  [.integer, .string, .truthValue]

namespace Value

variable {v w : Value}

/-- Whether values are comparable is a matter of their kinds. -/
theorem comparable_iff : v.Comparable w ↔ v.kind = w.kind ∧ v.kind ∈ Kind.comparable := by
  constructor
  · intro h
    cases h <;> exact ⟨rfl, by simp [kind, Kind.comparable]⟩
  · rintro ⟨hkind, hmem⟩
    cases v with
    | int a =>
        cases w with
        | int b => exact .integers a b
        | _ => cases hkind
    | str a =>
        cases w with
        | str b => exact .strings a b
        | _ => cases hkind
    | bool a =>
        cases w with
        | bool b => exact .truthValues a b
        | _ => cases hkind
    -- of the other kinds, even a value and itself are not comparable
    | _ => simp [kind, Kind.comparable] at hmem

instance (v w : Value) : Decidable (v.Comparable w) :=
  decidable_of_iff _ comparable_iff.symm

namespace Comparable

theorem kind_eq (h : v.Comparable w) : v.kind = w.kind :=
  (comparable_iff.mp h).1

theorem symm (h : v.Comparable w) : w.Comparable v := by
  rcases comparable_iff.mp h with ⟨hkind, hmem⟩
  exact comparable_iff.mpr ⟨hkind.symm, hkind ▸ hmem⟩

/-- Comparable values are atoms. -/
theorem ref?_eq_none (h : v.Comparable w) : v.ref? = none := by
  cases h <;> rfl

/-- Of comparable values everything is compared. -/
theorem leaf?_eq_iff (h : v.Comparable w) : v.leaf? = w.leaf? ↔ v = w := by
  cases h <;> simp [leaf?]

/-- Comparable values are equal only if they are the same, whatever is in the store. -/
theorem equal_eq (h : v.Comparable w) (store : Store) : v.equal store w = decide (v = w) := by
  rw [equal_atom store ⟨v, h.ref?_eq_none⟩]
  exact decide_eq_decide.mpr h.leaf?_eq_iff

/-- They are compared at once. -/
theorem compareTo_eq (h : v.Comparable w) (shortcut : Bool) (store : Store) (depth : Nat) :
    v.compareTo shortcut store (depth + 1) w = some (v.equal store w) := by
  have hatom : ∀ r, v ≠ .tuple r := Atom.ne_tuple ⟨v, h.ref?_eq_none⟩
  rw [compareTo_of_not_tuples fun r _ hv _ => hatom r hv]
  exact congrArg some (equal_atom store ⟨v, h.ref?_eq_none⟩ w).symm

theorem equal_comm (h : v.Comparable w) (store : Store) :
    w.equal store v = v.equal store w := by
  rw [h.equal_eq, h.symm.equal_eq]
  exact decide_eq_decide.mpr eq_comm

end Comparable

end Value

/-! ## Refusals -/

/-- The code that an operation fails under. -/
def failure? {α : Type} : Except Cause α → Option ErrorCode
  | .ok _ => none
  | .error cause => some cause.code

/-- A cause that cites two operands one by one, with their texts exchanged. -/
def Cause.exchanged : Cause → Cause
  | .dissimilarKinds left right => .dissimilarKinds right left
  | .incomparable op left right => .incomparable op right left
  | .notTruthValues op left right => .notTruthValues op right left
  | cause => cause

/-- A cause with its texts exchanged is filed under the same code. -/
theorem Cause.code_exchanged (cause : Cause) : cause.exchanged.code = cause.code := by
  cases cause <;> rfl

theorem failure?_exchanged {α : Type} (result : Except Cause α) :
    failure? (result.mapError Cause.exchanged) = failure? result := by
  cases result with
  | ok a => rfl
  | error cause => exact congrArg some cause.code_exchanged

namespace BinaryOp

variable {op : BinaryOp} {store : Store} {v w : Value} {f : Bool → Bool}

/-! ## Comparing -/

/-- Comparable operands are compared as values. -/
theorem equality_of_comparable (op : BinaryOp) (store : Store) (h : v.Comparable w) :
    op.equality store v w = .ok (v.equal store w) := by
  rw [h.equal_eq]
  cases h <;> simp [equality, beq_eq_decide]

/-- Other operands of one kind are incomparable. -/
theorem equality_of_kind_eq (op : BinaryOp) (store : Store) (hkind : v.kind = w.kind)
    (h : ¬ v.Comparable w) :
    op.equality store v w = .error (.incomparable op (v.cite store) (w.cite store)) := by
  unfold equality
  split
  · exact absurd (.integers _ _) h
  · exact absurd (.strings _ _) h
  · exact absurd (.truthValues _ _) h
  · rw [if_pos hkind]

/-- Operands of different kinds are dissimilar. -/
theorem equality_of_kind_ne (op : BinaryOp) (store : Store) (hkind : v.kind ≠ w.kind) :
    op.equality store v w = .error (.dissimilarKinds (v.cite store) (w.cite store)) := by
  unfold equality
  split
  · exact absurd rfl hkind
  · exact absurd rfl hkind
  · exact absurd rfl hkind
  · rw [if_neg hkind]

/-- The other way round, operands are compared alike, and cited the other way round. -/
theorem equality_swap (op : BinaryOp) (store : Store) (v w : Value) :
    op.equality store w v = (op.equality store v w).mapError Cause.exchanged := by
  by_cases hkind : v.kind = w.kind
  · by_cases h : v.Comparable w
    · rw [equality_of_comparable op store h, equality_of_comparable op store h.symm,
        h.equal_comm]
      rfl
    · have h' : ¬ w.Comparable v := fun hswap => h hswap.symm
      rw [equality_of_kind_eq op store hkind h, equality_of_kind_eq op store hkind.symm h']
      rfl
  · rw [equality_of_kind_ne op store hkind, equality_of_kind_ne op store (Ne.symm hkind)]
    rfl

/-! ## The operators -/

/-- An operator compares its operands, and answers `f` of whether they are equal. -/
def Answers (op : BinaryOp) (f : Bool → Bool) : Prop :=
  ∀ (v w : Value) (store : Store),
    op.apply v w store = ((op.equality store v w).map fun same => .bool (f same), store)

theorem eq_answers : eq.Answers id :=
  fun _ _ _ => rfl

theorem ne_answers : ne.Answers not :=
  fun _ _ _ => rfl

/-- What an operator that compares does with two operands.  It succeeds for two integers, two
strings or two truth values, and then gives `answer`.  Two operands of one other kind it refuses
as incomparable, two of different kinds as dissimilar, and cites both.  The operands the other
way round get the same answer, or the same refusal with the texts exchanged.  The store stays
as it was. -/
structure Compares (op : BinaryOp) (answer : Bool) (store : Store) (v w : Value) : Prop where
  succeeds_iff : failure? (op.apply v w store).1 = none ↔ v.Comparable w
  incomparable_iff : failure? (op.apply v w store).1 = some .incomparable ↔
    v.kind = w.kind ∧ ¬ v.Comparable w
  dissimilar_iff : failure? (op.apply v w store).1 = some .dissimilarKinds ↔ v.kind ≠ w.kind
  answer_eq : v.Comparable w → (op.apply v w store).1 = .ok (.bool answer)
  refusal_eq : ¬ v.Comparable w → (op.apply v w store).1 =
    .error (if v.kind = w.kind then .incomparable op (v.cite store) (w.cite store)
      else .dissimilarKinds (v.cite store) (w.cite store))
  swap_eq : (op.apply w v store).1 = (op.apply v w store).1.mapError Cause.exchanged
  swap_failure : failure? (op.apply w v store).1 = failure? (op.apply v w store).1
  store_eq : (op.apply v w store).2 = store

namespace Answers

theorem apply_comparable (h : op.Answers f) (hvalues : v.Comparable w) (store : Store) :
    (op.apply v w store).1 = .ok (.bool (f (v.equal store w))) := by
  rw [h, equality_of_comparable op store hvalues]
  rfl

theorem apply_refused (h : op.Answers f) (hvalues : ¬ v.Comparable w) (store : Store) :
    (op.apply v w store).1 =
      .error (if v.kind = w.kind then .incomparable op (v.cite store) (w.cite store)
        else .dissimilarKinds (v.cite store) (w.cite store)) := by
  rw [h]
  by_cases hkind : v.kind = w.kind
  · rw [equality_of_kind_eq op store hkind hvalues, if_pos hkind]
    rfl
  · rw [equality_of_kind_ne op store hkind, if_neg hkind]
    rfl

/-- The code of a refusal does not depend on the operator. -/
theorem failure?_apply (h : op.Answers f) (v w : Value) (store : Store) :
    failure? (op.apply v w store).1 =
      if v.Comparable w then none
      else if v.kind = w.kind then some .incomparable else some .dissimilarKinds := by
  by_cases hvalues : v.Comparable w
  · rw [h.apply_comparable hvalues, if_pos hvalues]
    rfl
  · rw [h.apply_refused hvalues, if_neg hvalues]
    by_cases hkind : v.kind = w.kind <;> simp [hkind, failure?, Cause.code]

theorem apply_swap (h : op.Answers f) (v w : Value) (store : Store) :
    (op.apply w v store).1 = (op.apply v w store).1.mapError Cause.exchanged := by
  rw [h, h, equality_swap]
  cases op.equality store v w <;> rfl

theorem compares (h : op.Answers f) (store : Store) (v w : Value) :
    Compares op (f (v.equal store w)) store v w where
  succeeds_iff := by
    rw [h.failure?_apply]
    split_ifs with hvalues <;> simp [hvalues]
  incomparable_iff := by
    rw [h.failure?_apply]
    split_ifs with hvalues hkind
    · simp [hvalues]
    · simp [hvalues, hkind]
    · simp [hkind]
  dissimilar_iff := by
    rw [h.failure?_apply]
    split_ifs with hvalues hkind
    -- comparable operands are of one kind, so that they are not dissimilar
    · simp [hvalues.kind_eq]
    · simp [hkind]
    · simp [hkind]
  answer_eq hvalues := h.apply_comparable hvalues store
  refusal_eq hvalues := h.apply_refused hvalues store
  swap_eq := h.apply_swap v w store
  swap_failure := by rw [h.apply_swap v w store, failure?_exchanged]
  store_eq := by rw [h]

end Answers

/-- `eq` finds two operands equal exactly if they are comparable and the same. -/
theorem apply_eq_true_iff :
    (eq.apply v w store).1 = .ok (.bool true) ↔ v.Comparable w ∧ v = w := by
  by_cases h : v.Comparable w
  · rw [eq_answers.apply_comparable h, id, h.equal_eq]
    simp [h]
  · rw [eq_answers.apply_refused h]
    simp [h]

/-- On the values that it answers for, `eq` is an equivalence. -/
theorem equivalence_eq (store : Store) :
    Equivalence fun v w : { v : Value // v.Comparable v } =>
      (eq.apply v.1 w.1 store).1 = .ok (.bool true) where
  refl v := apply_eq_true_iff.mpr ⟨v.2, rfl⟩
  symm h := by
    rcases apply_eq_true_iff.mp h with ⟨hvalues, hsame⟩
    exact apply_eq_true_iff.mpr ⟨hvalues.symm, hsame.symm⟩
  trans h h' := by
    rcases apply_eq_true_iff.mp h with ⟨-, hsame⟩
    rcases apply_eq_true_iff.mp h' with ⟨hvalues, hsame'⟩
    exact apply_eq_true_iff.mpr ⟨hsame ▸ hvalues, hsame.trans hsame'⟩

/-- `eq` and `ne` agree with equality of values and with each other.

Whatever the store and the operands are, the two operators answer for the same operands, `eq`
as equality of values does and `ne` the opposite, and refuse all others alike.  Equality of
operands that they answer for is being the same, and is found at once, with and without a look
at whether tuples are the same.  On the values that it answers for, `eq` is an equivalence. -/
theorem comparisons_agree (store : Store) :
    (∀ v w : Value,
      Compares eq (v.equal store w) store v w ∧
      Compares ne (!v.equal store w) store v w ∧
      failure? (ne.apply v w store).1 = failure? (eq.apply v w store).1 ∧
      (v.Comparable w → (v.equal store w = true ↔ v = w) ∧
        ∀ shortcut depth,
          v.compareTo shortcut store (depth + 1) w = some (v.equal store w))) ∧
    Equivalence fun v w : { v : Value // v.Comparable v } =>
      (eq.apply v.1 w.1 store).1 = .ok (.bool true) := by
  refine ⟨fun v w => ⟨eq_answers.compares store v w, ne_answers.compares store v w, ?_, ?_⟩,
    equivalence_eq store⟩
  · rw [ne_answers.failure?_apply, eq_answers.failure?_apply]
  · intro h
    refine ⟨?_, fun shortcut depth => h.compareTo_eq shortcut store depth⟩
    rw [h.equal_eq, decide_eq_true_iff]

end BinaryOp

/-- A tuple that holds itself. -/
def Store.ring : Store :=
  ⟨#[#[.tuple 0]], #[]⟩

/-- Strings are answered for, but not the tuple that holds itself, not even with itself. -/
theorem BinaryOp.comparisons_agree_ring :
    (Value.str "a").Comparable (.str "b") ∧
      (eq.apply (.str "a") (.str "b") Store.ring).1 = .ok (.bool false) ∧
      (ne.apply (.str "a") (.str "b") Store.ring).1 = .ok (.bool true) ∧
      (eq.apply (.tuple 0) (.tuple 0) Store.ring).1 =
        .error (.incomparable .eq "((...))" "((...))") ∧
      (ne.apply (.str "a") (.tuple 0) Store.ring).1 =
        .error (.dissimilarKinds "'a'" "((...))") ∧
      (ne.apply (.tuple 0) (.str "a") Store.ring).1 =
        .error (.dissimilarKinds "((...))" "'a'") := by
  have hagree := (comparisons_agree Store.ring).1
  have hstrings : (Value.str "a").Comparable (.str "b") := .strings "a" "b"
  have htuple : (Value.tuple 0).cite Store.ring = "((...))" := by
    simp [Value.cite, Value.display, Value.displayWithin, Store.ring]
  have hstring : (Value.str "a").cite Store.ring = "'a'" := by decide
  rcases hagree (.str "a") (.str "b") with ⟨heq, hne, -, hsame⟩
  have hdiffer : (Value.str "a").equal Store.ring (.str "b") = false := by
    rw [← Bool.not_eq_true, (hsame hstrings).1]
    decide
  have hring := (hagree (.tuple 0) (.tuple 0)).1.refusal_eq (by decide)
  have hapart := (hagree (.str "a") (.tuple 0)).2.1
  have hrefused := hapart.refusal_eq (by decide)
  rw [htuple, if_pos rfl] at hring
  rw [hstring, htuple, if_neg (by decide)] at hrefused
  refine ⟨hstrings, ?_, ?_, hring, hrefused, ?_⟩
  · rw [heq.answer_eq hstrings, hdiffer]
  · rw [hne.answer_eq hstrings, hdiffer]
    rfl
  · rw [hapart.swap_eq, hrefused]
    rfl

end CSEMachine
