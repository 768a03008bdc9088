import CSEMachine.Proofs.Focus

/-!
# The codes of failures

Every operation and every instruction can fail only under a few codes, which are listed
here.  An operator can fail because its operands are of the wrong kinds, out of the range
of integers, or not to be compared; what the application of a value can fail under depends
on the value that is applied.  Most instructions can also find that values are missing,
which is the one code that says nothing about the program.

Main results:

- Theorems `BinaryOp.apply_failsUnder`, `UnaryOp.apply_failsUnder` and
  `Builtin.apply_failsUnder`: the codes of operators and built-ins.
- Theorem `Focus.applyValue_failsUnder`: the codes of applications.
- Theorem `Instr.perform_failsUnder`: the codes of instructions.
-/

namespace CSEMachine

/-! ## Tables -/

/-- The codes that an operator can fail under. -/
def BinaryOp.failures : BinaryOp → List ErrorCode
  | .add | .sub | .mul => [.wrongKind, .integerOverflow]
  | .div | .pow => [.wrongKind, .divisionByZero, .integerOverflow]
  | .lt | .le | .gt | .ge => [.wrongKind]
  | .eq | .ne => [.incomparable, .dissimilarKinds]
  | .or | .and => [.notTruthValues]
  | .aug => [.notATuple]

/-- The codes that an operator can fail under. -/
def UnaryOp.failures : UnaryOp → List ErrorCode
  | .not => [.wrongKind]
  | .neg => [.wrongKind, .integerOverflow]

/-- The codes that a built-in can fail under. -/
def Builtin.failures : Builtin → List ErrorCode
  | .isInteger | .isString | .isTuple | .isDummy | .isTruthValue | .isFunction | .print => []
  | .stem | .stern | .itoS | .null => [.wrongKind]
  | .conc => [.wrongKind, .missingOperand]
  | .order | .neg => [.wrongKind, .integerOverflow]

/-- The codes that the application of a value can fail under. -/
def Value.failures : Value → List ErrorCode
  | .closure _ => [.wrongKind, .arityMismatch, .depthExceeded]
  | .fixpoint => [.wrongKind]
  | .eta _ => []
  | .tuple _ => [.wrongKind, .indexOutOfBounds]
  | .builtin b => .malformed :: b.failures
  | .int _ | .str _ | .bool _ | .dummy => [.notApplicable]

/-- The codes that an instruction can fail under. -/
def Instr.failures : Instr → List ErrorCode
  | .ident _ _ => [.undeclared]
  | .literal _ _ | .lambda _ _ | .fixpoint _ => []
  | .binary _ op => .malformed :: op.failures
  | .unary _ op => .malformed :: op.failures
  | .tuple _ _ => [.malformed]
  | .branch _ _ _ => [.malformed, .wrongKind]
  | .apply _ => [.malformed, .wrongKind, .integerOverflow, .indexOutOfBounds, .arityMismatch,
      .depthExceeded, .notApplicable, .missingOperand]

/-- Whatever is applied, it fails under the codes of an application. -/
theorem Value.failures_subset_apply (v : Value) (line : Nat) :
    v.failures ⊆ (Instr.apply line).failures := by
  cases v with
  | builtin b => cases b <;> simp [Value.failures, Builtin.failures, Instr.failures]
  | _ => simp [Value.failures, Instr.failures]

/-! ## Results -/

/-- A result that is a failure under one of the given codes, if it is a failure. -/
def FailsUnder {α : Type} (codes : List ErrorCode) (r : Except Fault α) : Prop :=
  ∀ fault, r = .error fault → fault.cause.code ∈ codes

namespace FailsUnder

variable {α β : Type} {codes codes' : List ErrorCode}

theorem ok (a : α) : FailsUnder codes (.ok a) := by
  rintro fault ⟨⟩

theorem error {fault : Fault} (code : ErrorCode) (h : code ∈ codes)
    (hcode : fault.cause.code = code) : FailsUnder codes (.error fault : Except Fault α) := by
  rintro _ ⟨⟩
  exact hcode ▸ h

theorem mono {r : Except Fault α} (h : FailsUnder codes r) (hsub : codes ⊆ codes') :
    FailsUnder codes' r :=
  fun fault hfault => hsub (h fault hfault)

/-- Mapping the value changes no failure. -/
theorem map {r : Except Cause α} (h : FailsUnder codes (r.mapError Fault.of)) (f : α → β) :
    FailsUnder codes ((r.map f).mapError Fault.of) := by
  cases r with
  | ok a => exact ok (f a)
  | error cause => exact error cause.code (h _ rfl) rfl

end FailsUnder

/-! ## Arithmetic -/

namespace Arithmetic

theorem checked_failsUnder {codes : List ErrorCode} (h : .integerOverflow ∈ codes)
    (operation : String) (result : Int) :
    FailsUnder codes ((checked operation result).mapError Fault.of) := by
  unfold checked
  split
  · exact .ok _
  · exact .error .integerOverflow h rfl

theorem div_failsUnder (a b : Int64) :
    FailsUnder BinaryOp.div.failures ((div a b).mapError Fault.of) := by
  unfold div
  split
  · exact .error .divisionByZero (by decide) rfl
  · exact checked_failsUnder (by decide) _ _

theorem pow_failsUnder (base exponent : Int64) :
    FailsUnder BinaryOp.pow.failures ((pow base exponent).mapError Fault.of) := by
  unfold pow
  split
  · exact checked_failsUnder (by decide) _ _
  · split
    · exact .error .divisionByZero (by decide) rfl
    · split
      · exact checked_failsUnder (by decide) _ _
      · exact .ok _

end Arithmetic

/-! ## Operators -/

namespace BinaryOp

variable {codes : List ErrorCode} {store : Store} {left right : Value}

theorem onIntegers_failsUnder {f : Int64 → Int64 → Except Cause Value}
    (h : .wrongKind ∈ codes) (hf : ∀ a b, FailsUnder codes ((f a b).mapError Fault.of)) :
    FailsUnder codes ((onIntegers store left right f).mapError Fault.of) := by
  unfold onIntegers
  split
  · exact hf _ _
  · exact .error .wrongKind h rfl

theorem arithmetic_failsUnder {f : Int64 → Int64 → Except Cause Int64}
    (h : .wrongKind ∈ codes) (hf : ∀ a b, FailsUnder codes ((f a b).mapError Fault.of)) :
    FailsUnder codes ((arithmetic store left right f).mapError Fault.of) :=
  onIntegers_failsUnder h fun a b => (hf a b).map Value.int

theorem logical_failsUnder (op : BinaryOp) (f : Bool → Bool → Bool)
    (h : .notTruthValues ∈ codes) :
    FailsUnder codes ((op.logical store left right f).mapError Fault.of) := by
  unfold logical
  split
  · exact .ok _
  · exact .error .notTruthValues h rfl

theorem equality_failsUnder (op : BinaryOp) :
    FailsUnder BinaryOp.eq.failures ((op.equality store left right).mapError Fault.of) := by
  unfold equality
  split
  · exact .ok _
  · exact .ok _
  · exact .ok _
  · split
    · exact .error .incomparable (by decide) rfl
    · exact .error .dissimilarKinds (by decide) rfl

theorem result_failsUnder (op : BinaryOp) (store : Store) (left right : Value) :
    FailsUnder op.failures ((op.result store left right).mapError Fault.of) := by
  cases op with
  | add | sub | mul =>
      exact arithmetic_failsUnder (by decide) fun a b =>
        Arithmetic.checked_failsUnder (by decide) _ _
  | div => exact arithmetic_failsUnder (by decide) Arithmetic.div_failsUnder
  | pow => exact arithmetic_failsUnder (by decide) Arithmetic.pow_failsUnder
  | lt | le | gt | ge => exact onIntegers_failsUnder (by decide) fun a b => .ok _
  | eq => exact (equality_failsUnder .eq).map Value.bool
  | ne => exact (equality_failsUnder .ne).map fun same => Value.bool !same
  | or => exact logical_failsUnder .or _ (by decide)
  | and => exact logical_failsUnder .and _ (by decide)
  | aug =>
      simp only [result]
      split
      · exact .ok _
      · exact .error .notATuple (by decide) rfl

theorem apply_failsUnder (op : BinaryOp) (store : Store) (left right : Value) :
    FailsUnder op.failures ((op.apply left right store).1.mapError Fault.of) := by
  unfold apply
  split
  · exact .ok _
  · exact result_failsUnder op store left right

end BinaryOp

theorem UnaryOp.apply_failsUnder (op : UnaryOp) (store : Store) (operand : Value) :
    FailsUnder op.failures ((op.apply store operand).mapError Fault.of) := by
  unfold UnaryOp.apply
  split
  · exact .ok _
  · exact (Arithmetic.checked_failsUnder (by decide) _ _).map Value.int
  · exact .error .wrongKind (by decide) rfl
  · exact .error .wrongKind (by decide) rfl

/-! ## Built-ins -/

namespace Builtin

variable {codes : List ErrorCode} {store : Store} {operand : Value}

/-- Joining strings misses none, since both are at hand. -/
theorem applyConc_failsUnder (h : .wrongKind ∈ codes) (store : Store) (first second : Value) :
    FailsUnder codes (applyConc store first second) := by
  unfold applyConc
  split
  · exact .ok _
  · exact .error .wrongKind h rfl

theorem onString_failsUnder (b : Builtin) (f : String → String) (h : .wrongKind ∈ codes) :
    FailsUnder codes (b.onString store operand f) := by
  unfold onString
  split
  · exact .ok _
  · exact .error .wrongKind h rfl

theorem onInteger_failsUnder (b : Builtin) {f : Int64 → Except Fault Value}
    (h : .wrongKind ∈ codes) (hf : ∀ n, FailsUnder codes (f n)) :
    FailsUnder codes (b.onInteger store operand f) := by
  unfold onInteger
  split
  · exact hf _
  · exact .error .wrongKind h rfl

theorem onTuple_failsUnder (b : Builtin) {f : Nat → Except Fault Value}
    (h : .wrongKind ∈ codes) (hf : ∀ n, FailsUnder codes (f n)) :
    FailsUnder codes (b.onTuple store operand f) := by
  unfold onTuple
  split
  · exact hf _
  · exact .error .wrongKind h rfl

/-- An integer is given unless it is out of range. -/
theorem integer_failsUnder (operation : String) (result : Int)
    (h : .integerOverflow ∈ codes) :
    FailsUnder codes (integer (Arithmetic.checked operation result)) :=
  (Arithmetic.checked_failsUnder h _ _).map Value.int

theorem apply_failsUnder (b : Builtin) (store : Store) (operand : Value) :
    FailsUnder b.failures (b.apply store operand) := by
  cases b with
  | isInteger | isString | isTuple | isDummy | isTruthValue | isFunction | print => exact .ok _
  | stem => exact onString_failsUnder .stem stemText (by decide)
  | stern => exact onString_failsUnder .stern sternText (by decide)
  | conc => exact .error .missingOperand (by decide) rfl
  | itoS => exact onInteger_failsUnder .itoS (by decide) fun n => .ok _
  | order =>
      exact onTuple_failsUnder .order (by decide) fun n => integer_failsUnder _ _ (by decide)
  | null => exact onTuple_failsUnder .null (by decide) fun n => .ok (Value.bool (n = 0))
  | neg =>
      exact onInteger_failsUnder .neg (by decide) fun n => integer_failsUnder _ _ (by decide)

end Builtin

/-! ## Selecting and binding -/

theorem Store.select_failsUnder (store : Store) (ref : Nat) (index : Int64) :
    FailsUnder (Value.tuple ref).failures ((store.select ref index).mapError Fault.of) := by
  unfold Store.select
  split
  · exact .ok _
  · exact .error .indexOutOfBounds (by simp [Value.failures]) rfl

/-- Binding an operand fails for its kind or its number of elements. -/
theorem Closure.bindOperand_failsUnder (c : Closure) (store : Store) (operand : Value) :
    FailsUnder [.wrongKind, .arityMismatch] ((c.bindOperand store operand).mapError Fault.of) := by
  unfold Closure.bindOperand
  split
  · exact .ok _
  · unfold Scope.bindPositional
    split
    · exact .ok _
    · exact .error .arityMismatch (by decide) rfl
  · exact .error .wrongKind (by decide) rfl

/-! ## Instructions -/

/-- A step that fails under no other codes than the given ones. -/
def Transition.FailsUnder (codes : List ErrorCode) (t : Transition) : Prop :=
  ∀ fault s, t = .failed fault s → fault.cause.code ∈ codes

namespace Focus

variable {codes : List ErrorCode} {f : Focus}

theorem push_failsUnder (v : Value) : (f.push v).FailsUnder codes := by
  rintro fault s ⟨⟩

theorem fail_failsUnder {fault : Fault} (code : ErrorCode) (h : code ∈ codes)
    (hcode : fault.cause.code = code) : (f.fail fault).FailsUnder codes := by
  rintro _ s ⟨⟩
  exact hcode ▸ h

theorem pushResult_failsUnder {r : Except Fault Value} (hr : CSEMachine.FailsUnder codes r) :
    (f.pushResult r).FailsUnder codes := by
  cases r with
  | ok v => exact push_failsUnder v
  | error fault => exact fail_failsUnder fault.cause.code (hr fault rfl) rfl

theorem ident_failsUnder (m : Machine) (x : Name) :
    (f.ident m x).FailsUnder [.undeclared] := by
  rw [ident_eq]
  split
  · exact push_failsUnder _
  · split
    · exact push_failsUnder _
    · exact fail_failsUnder .undeclared List.mem_cons_self rfl

theorem unary_failsUnder (op : UnaryOp) :
    (f.unary op).FailsUnder (.malformed :: op.failures) := by
  rw [unary_eq]
  split
  · exact pushResult_failsUnder
      ((UnaryOp.apply_failsUnder _ _ _).mono (List.subset_cons_self _ _))
  · exact fail_failsUnder .malformed List.mem_cons_self rfl

theorem binary_failsUnder (op : BinaryOp) :
    (f.binary op).FailsUnder (.malformed :: op.failures) := by
  rw [binary_eq]
  split
  · exact pushResult_failsUnder
      ((BinaryOp.apply_failsUnder _ _ _ _).mono (List.subset_cons_self _ _))
  · exact fail_failsUnder .malformed List.mem_cons_self rfl

theorem formTuple_failsUnder (arity : Nat) : (f.formTuple arity).FailsUnder [.malformed] := by
  rw [formTuple_eq]
  split
  · rintro fault s ⟨⟩
  · exact fail_failsUnder .malformed List.mem_cons_self rfl

theorem branch_failsUnder (thenArm elseArm : List Instr) :
    (f.branch thenArm elseArm).FailsUnder [.malformed, .wrongKind] := by
  rw [branch_eq]
  split
  · rintro fault s ⟨⟩
  · exact fail_failsUnder .wrongKind (by decide) rfl
  · exact fail_failsUnder .malformed List.mem_cons_self rfl

theorem call_failsUnder (m : Machine) (c : Closure) (operand : Value) :
    (f.call m c operand).FailsUnder (Value.closure c).failures := by
  have hbound := c.bindOperand_failsUnder f.store operand
  rw [call_eq]
  split
  · rename_i cause hbind
    rw [hbind] at hbound
    have hcode : cause.code ∈ [.wrongKind, .arityMismatch] := hbound _ rfl
    exact fail_failsUnder cause.code (List.mem_append_left [ErrorCode.depthExceeded] hcode) rfl
  · split
    · exact fail_failsUnder .depthExceeded (by simp [Value.failures]) rfl
    · rintro fault s ⟨⟩

theorem conc_failsUnder (first : Value) :
    (f.conc first).FailsUnder (.malformed :: Builtin.conc.failures) := by
  rw [conc_eq]
  split
  · exact pushResult_failsUnder (Builtin.applyConc_failsUnder (by decide) _ _ _)
  · exact fail_failsUnder .malformed List.mem_cons_self rfl
  · exact fail_failsUnder .missingOperand (by decide) rfl

theorem applyBuiltin_failsUnder (b : Builtin) (operand : Value) :
    (f.applyBuiltin b operand).FailsUnder (.malformed :: b.failures) := by
  by_cases hprint : b = .print
  · subst hprint
    rintro fault s ⟨⟩
  · by_cases hconc : b = .conc
    · subst hconc
      exact conc_failsUnder operand
    · rw [applyBuiltin_of_ne hprint hconc]
      exact pushResult_failsUnder
        ((Builtin.apply_failsUnder b _ _).mono (List.subset_cons_self _ _))

/-- What an application can fail under is a matter of the value that is applied. -/
theorem applyValue_failsUnder (m : Machine) (line : Nat) (operator operand : Value) :
    (f.applyValue m line operator operand).FailsUnder operator.failures := by
  cases operator with
  | closure c => exact call_failsUnder m c operand
  | fixpoint =>
      simp only [applyValue_eq, fix_eq]
      split
      · exact push_failsUnder _
      · exact fail_failsUnder .wrongKind List.mem_cons_self rfl
  | eta c => rintro fault s ⟨⟩
  | tuple ref =>
      simp only [applyValue_eq, select_eq]
      split
      · exact pushResult_failsUnder (Store.select_failsUnder _ _ _)
      · exact fail_failsUnder .wrongKind List.mem_cons_self rfl
  | builtin b => exact applyBuiltin_failsUnder b operand
  | _ => exact fail_failsUnder .notApplicable List.mem_cons_self rfl

theorem apply_failsUnder (m : Machine) (line : Nat) :
    (f.apply m line).FailsUnder (Instr.apply line).failures := by
  rw [apply_eq]
  split
  · intro fault s h
    exact Value.failures_subset_apply _ line (applyValue_failsUnder m line _ _ fault s h)
  · exact fail_failsUnder .malformed List.mem_cons_self rfl

end Focus

/-- Every instruction fails under its own codes only. -/
theorem Instr.perform_failsUnder (m : Machine) (f : Focus) (i : Instr) :
    (i.perform m f).FailsUnder i.failures := by
  cases i with
  | ident line x => exact Focus.ident_failsUnder m x
  | literal line v => exact Focus.push_failsUnder _
  | lambda line b => exact Focus.push_failsUnder _
  | fixpoint line => exact Focus.push_failsUnder _
  | binary line op => exact Focus.binary_failsUnder op
  | unary line op => exact Focus.unary_failsUnder op
  | tuple line arity => exact Focus.formTuple_failsUnder arity
  | branch line t e => exact Focus.branch_failsUnder t e
  | apply line => exact Focus.apply_failsUnder m line

/-- Blaming a line changes nothing else of a failure. -/
theorem Transition.exists_of_atLine_eq_failed {t : Transition} {line : Nat} {fault : Fault}
    {s : State} (h : t.atLine line = .failed fault s) :
    ∃ fault₀, t = .failed fault₀ s ∧ fault = fault₀.atLine line := by
  cases t with
  | next s₀ => cases h
  | halted s₀ => cases h
  | failed fault₀ s₀ =>
      cases h
      exact ⟨fault₀, rfl, rfl⟩

theorem Transition.FailsUnder.atLine {codes : List ErrorCode} {t : Transition}
    (h : t.FailsUnder codes) (line : Nat) : (t.atLine line).FailsUnder codes := by
  intro fault s hfailed
  rcases exists_of_atLine_eq_failed hfailed with ⟨fault₀, hfault₀, rfl⟩
  exact h fault₀ s hfault₀

/-- A step that fails was at an instruction, whose line it blames and under one of whose
codes it fails. -/
theorem Machine.step_failsUnder {m : Machine} {s s' : State} {fault : Fault}
    (h : m.step s = .failed fault s') :
    ∃ env i code callers, s.frames = ⟨env, i :: code⟩ :: callers ∧
      fault.line = some i.line ∧ fault.cause.code ∈ i.failures := by
  rcases s with ⟨frames, stack, store, printed⟩
  match frames with
  | [] => cases h
  | ⟨env, []⟩ :: callers => cases h
  | ⟨env, i :: code⟩ :: callers =>
      have hperform := i.perform_failsUnder m ⟨env, code, callers, stack, store, printed⟩
      rcases Transition.exists_of_atLine_eq_failed h with ⟨fault₀, hfault₀, rfl⟩
      exact ⟨env, i, code, callers, rfl, rfl, hperform fault₀ _ hfault₀⟩

end CSEMachine
