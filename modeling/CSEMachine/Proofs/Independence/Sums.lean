import CSEMachine.Proofs.Direct.Runs
import CSEMachine.Proofs.Independence.Evaluations

/-!
# Sums in either order

The operands of an operator are evaluated from right to left, the left one in the world that
the right one leaves behind.  The trees of both are closed, so nothing of that world can be
reached from the left one: a sum is what its operands come to on their own, in either order.

Main results:

- Theorem `Direct.int?_evaluate_sum`: a sum comes to the sum of what its operands come to.
- Theorem `Machine.evaluatesTo_sum_iff`: so does its program when those of its operands are run.
- Theorem `Machine.sum_in_either_order`: what this means for whole programs.
-/

namespace CSEMachine

namespace Direct

/-- The integer that an evaluation comes to, if it comes to one. -/
def Outcome.int? : Outcome Value → Option Int64
  | .value (.int n) _ => some n
  | _ => none

theorem Outcome.int?_eq_some_iff {o : Outcome Value} {n : Int64} :
    o.int? = some n ↔ ∃ w, o = .value (.int n) w := by
  unfold int?
  split
  · simp
  · rename_i hint
    constructor
    · nofun
    · rintro ⟨w, rfl⟩
      exact absurd rfl (hint n w)

/-- What comes after an evaluation can come to an integer only if that has a value. -/
theorem Outcome.int?_andThen {α : Type} {o : Outcome α} {f : α → World → Outcome Value}
    {n : Int64} :
    (o.andThen f).int? = some n ↔ ∃ a w, o = .value a w ∧ (f a w).int? = some n := by
  cases o with
  | value a w => simp [andThen]
  | fault e w => simp [andThen, int?]
  | pending => simp [andThen, int?]

/-- Shifted outcomes come to the same integer. -/
theorem Outcome.Shifted.int?_eq {d : Shift} {o o' : Outcome Value}
    (h : o.Shifted d (Value.shifted d) o') : o'.int? = o.int? := by
  cases h with
  | value h hw =>
      subst h
      rename_i v _ _
      cases v <;> rfl
  | fault e e' w w' => rfl
  | pending => rfl

/-- In a world that has something already a tree comes to the same integer as on its own. -/
theorem int?_eval (t : Term) (fuel n : Nat) (w : World) :
    (t.eval (apply fuel) (n + 1) [[]] [] w).int? = (t.evaluate fuel).int? := by
  have hempty : World.Shifted ⟨w.store.tuples.size, w.functions.size, n⟩ .empty w := by
    refine ⟨rfl, fun ref => ?_, rfl, fun cell => ?_⟩
    · simp [World.empty, Store.empty, Store.items]
    · simp [World.empty]
  exact (evalShifted (applyShifted _ fuel) t 1 [[]] [] hempty).int?_eq

/-- Two values have an integer for their sum if they are integers of which it is the sum. -/
theorem add_eq_ok_iff {left right : Value} {s : Store} {n : Int64} :
    (BinaryOp.add.apply left right s).1 = .ok (.int n) ↔
      ∃ x y, left = .int x ∧ right = .int y ∧ x.toInt + y.toInt = n.toInt := by
  rw [BinaryOp.result_of_ne_aug (by decide)]
  constructor
  · intro h
    cases left with
    | int x =>
        cases right with
        | int y =>
            refine ⟨x, y, rfl, rfl, ?_⟩
            simp only [BinaryOp.result, BinaryOp.arithmetic, BinaryOp.onIntegers] at h
            cases hsum : Arithmetic.add x y with
            | ok k =>
                rw [hsum] at h
                cases h
                exact (Arithmetic.checked_eq_ok_iff.mp hsum).symm
            | error e =>
                rw [hsum] at h
                cases h
        | _ => cases h
    | _ => cases h
  · rintro ⟨x, y, rfl, rfl, hsum⟩
    have hadd : Arithmetic.add x y = .ok n := Arithmetic.checked_eq_ok_iff.mpr hsum.symm
    simp only [BinaryOp.result, BinaryOp.arithmetic, BinaryOp.onIntegers, hadd]
    rfl

/-- A result that is given is what the evaluation comes to when no operand waits for it. -/
theorem int?_give (w : World) (line fuel : Nat) {result : Except Cause Value} {n : Int64} :
    ((w.give line (result.mapError .of)).andThen fun v w => apply fuel v [] w).int? = some n ↔
      result = .ok (.int n) := by
  cases result with
  | ok v =>
      have hgiven : ((w.give line (Except.mapError Fault.of (.ok v))).andThen
          fun v w => apply fuel v [] w) = .value v w := apply_nil fuel v w
      rw [hgiven, Outcome.int?_eq_some_iff]
      simp
  | error e =>
      constructor
      · nofun
      · nofun

/-- A sum comes to the sum of what its operands come to on their own. -/
theorem int?_evaluate_sum (a b : Term) (line fuel : Nat) {n : Int64} :
    ((Term.binary line .add a b).evaluate fuel).int? = some n ↔
      ∃ x y, (a.evaluate fuel).int? = some x ∧ (b.evaluate fuel).int? = some y ∧
        x.toInt + y.toInt = n.toInt := by
  have hright := int?_eval b fuel a.lambdas .empty
  rw [Nat.add_comm] at hright
  have hleft := int?_eval a fuel 0
  rw [← hright, Term.evaluate, Term.eval]
  constructor
  · intro h
    rcases Outcome.int?_andThen.mp h with ⟨v, w, hb, h⟩
    rcases Outcome.int?_andThen.mp h with ⟨u, w', ha, h⟩
    rcases add_eq_ok_iff.mp ((int?_give _ line fuel).mp h) with ⟨x, y, rfl, rfl, hsum⟩
    refine ⟨x, y, ?_, ?_, hsum⟩
    · rw [← hleft w, ha]
      rfl
    · rw [hb]
      rfl
  · rintro ⟨x, y, hx, hy, hsum⟩
    rcases Outcome.int?_eq_some_iff.mp hy with ⟨w, hb⟩
    rw [← hleft w] at hx
    rcases Outcome.int?_eq_some_iff.mp hx with ⟨w', ha⟩
    refine Outcome.int?_andThen.mpr ⟨_, w, hb, Outcome.int?_andThen.mpr ⟨_, w', ha, ?_⟩⟩
    exact (int?_give _ line fuel).mpr (add_eq_ok_iff.mpr ⟨x, y, rfl, rfl, hsum⟩)

end Direct

namespace Machine

/-- In a session a machine evaluates a program to an integer. -/
def EvaluatesTo (m : Machine) (p : Program) (session : Session) (n : Int64) : Prop :=
  ∃ fuel e session',
    m.evaluate fuel p session = some (.ok e, session') ∧ e.value = some (.int n)

section Trees

variable {m : Machine} {t : Term} {table named : NameTable} {p : Program}

/-- A machine evaluates the program of a tree to the integer that the tree comes to. -/
theorem evaluatesTo_of_int? (hp : Program.ofTerm t true table = (.ok p, named))
    (hnames : named.Grows m.names) (hdepth : m.maxDepth = none) (session : Session) {fuel : Nat}
    {n : Int64} (hn : (t.evaluate fuel).int? = some n) : m.EvaluatesTo p session n := by
  rcases Program.of_ofTerm hp hnames with ⟨ht, rfl, hlists⟩
  rcases Direct.Outcome.int?_eq_some_iff.mp hn with ⟨w, hvalue⟩
  have hfuel : t.evaluate fuel ≠ .pending := by
    rw [hvalue]
    nofun
  rcases evaluate_of_outcome hdepth ht hlists session hfuel with
    ⟨fuel', result, session', hevaluate, hreported⟩
  rw [hvalue] at hreported
  rcases hreported with ⟨view, u, rfl, -, hlinked, -, -⟩
  cases hlinked
  exact ⟨fuel', _, session', hevaluate, rfl⟩

/-- It evaluates it to nothing else: from some fuel on the tree comes to that integer. -/
theorem int?_of_evaluatesTo (hp : Program.ofTerm t true table = (.ok p, named))
    (hnames : named.Grows m.names) (hdepth : m.maxDepth = none) {session : Session} {n : Int64}
    (hn : m.EvaluatesTo p session n) :
    ∃ least, ∀ fuel, least ≤ fuel → (t.evaluate fuel).int? = some n := by
  rcases Program.of_ofTerm hp hnames with ⟨ht, rfl, hlists⟩
  rcases hn with ⟨least, e, session', hevaluate, hvalue⟩
  refine ⟨least, fun fuel hle => ?_⟩
  have hfuel : t.evaluate fuel ≠ .pending := by
    intro hpending
    have hnone := evaluate_of_pending hdepth ht hlists session hpending
    rw [evaluate_eq_finish hdepth, Option.map_eq_none_iff] at hnone
    rw [evaluate_eq_finish hdepth, finish_eq_none_of_le hnone hle] at hevaluate
    cases hevaluate
  rcases evaluate_of_outcome hdepth ht hlists session hfuel with
    ⟨fuel', result, session'', hevaluate', hreported⟩
  cases evaluate_unique hevaluate hevaluate'
  generalize t.evaluate fuel = o at hreported ⊢
  cases o with
  | value v w =>
      rcases hreported with ⟨view, u, hresult, -, hlinked, -, -⟩
      cases hresult
      cases hvalue
      cases hlinked
      rfl
  | fault fault w => cases hreported.1
  | pending => exact hreported.elim

end Trees

/-! ## Sums -/

section Sums

variable {m m₁ m₂ : Machine} {a b : Term} {line : Nat}
  {table table₁ table₂ named named₁ named₂ : NameTable} {p q r : Program}

/-- A machine evaluates a sum to the sum of what machines evaluate its operands to. -/
theorem evaluatesTo_sum_iff
    (hp : Program.ofTerm (.binary line .add a b) true table = (.ok p, named))
    (hnames : named.Grows m.names) (hdepth : m.maxDepth = none)
    (hq : Program.ofTerm a true table₁ = (.ok q, named₁)) (hnames₁ : named₁.Grows m₁.names)
    (hdepth₁ : m₁.maxDepth = none)
    (hr : Program.ofTerm b true table₂ = (.ok r, named₂)) (hnames₂ : named₂.Grows m₂.names)
    (hdepth₂ : m₂.maxDepth = none) (session s₁ s₂ : Session) (n : Int64) :
    m.EvaluatesTo p session n ↔
      ∃ x y, m₁.EvaluatesTo q s₁ x ∧ m₂.EvaluatesTo r s₂ y ∧ x.toInt + y.toInt = n.toInt := by
  constructor
  · intro h
    rcases int?_of_evaluatesTo hp hnames hdepth h with ⟨least, hleast⟩
    rcases (Direct.int?_evaluate_sum a b line least).mp (hleast least (Nat.le_refl least)) with
      ⟨x, y, hx, hy, hsum⟩
    refine ⟨x, y, ?_, ?_, hsum⟩
    · exact evaluatesTo_of_int? hq hnames₁ hdepth₁ s₁ hx
    · exact evaluatesTo_of_int? hr hnames₂ hdepth₂ s₂ hy
  · rintro ⟨x, y, hx, hy, hsum⟩
    rcases int?_of_evaluatesTo hq hnames₁ hdepth₁ hx with ⟨least₁, hx⟩
    rcases int?_of_evaluatesTo hr hnames₂ hdepth₂ hy with ⟨least₂, hy⟩
    have hboth : ((Term.binary line .add a b).evaluate (max least₁ least₂)).int? = some n := by
      rw [Direct.int?_evaluate_sum]
      exact ⟨x, y, hx _ (Nat.le_max_left _ _), hy _ (Nat.le_max_right _ _), hsum⟩
    exact evaluatesTo_of_int? hp hnames hdepth session hboth

/-- The order of the operands of a sum does not matter.  With the operands exchanged it is a
program, too, and machines without a limit on their depth evaluate both programs to the same
integers, those that are the sum of what the operands are evaluated to as programs of their
own.  So an operand is not influenced by the tuples that the other one forms, the texts that
it prints and the lambdas that are numbered before its own, nor by the names in tables or by
what sessions have been used for.  It does not even matter whether tuples are augmented, since
no operand gets hold of a tuple of the other one. -/
theorem sum_in_either_order
    (hp : Program.ofTerm (.binary line .add a b) true table = (.ok p, named))
    (hnames : named.Grows m.names) (hdepth : m.maxDepth = none) (session : Session)
    (line' : Nat) (table₁ table₂ : NameTable) :
    (∃ q named₁, Program.ofTerm (.binary line' .add b a) true table₁ = (.ok q, named₁) ∧
      ∀ m₁ : Machine, named₁.Grows m₁.names → m₁.maxDepth = none → ∀ (s₁ : Session) (n : Int64),
        m.EvaluatesTo p session n ↔ m₁.EvaluatesTo q s₁ n) ∧
    ∃ q r named₁ named₂, Program.ofTerm a true table₁ = (.ok q, named₁) ∧
      Program.ofTerm b true table₂ = (.ok r, named₂) ∧
      ∀ m₁ m₂ : Machine, named₁.Grows m₁.names → m₁.maxDepth = none →
        named₂.Grows m₂.names → m₂.maxDepth = none → ∀ (s₁ s₂ : Session) (n : Int64),
          m.EvaluatesTo p session n ↔
            ∃ x y, m₁.EvaluatesTo q s₁ x ∧ m₂.EvaluatesTo r s₂ y ∧ x.toInt + y.toInt = n.toInt := by
  have hwell := Program.wellBound_of_ofTerm hp
  rcases Program.exists_ofTerm hwell.1 true table₁ with ⟨q, named₁, hq⟩
  rcases Program.exists_ofTerm hwell.2 true table₂ with ⟨r, named₂, hr⟩
  have hwell' : (Term.binary line' .add b a).WellBound := ⟨hwell.2, hwell.1⟩
  rcases Program.exists_ofTerm hwell' true table₁ with ⟨p', named', hp'⟩
  refine ⟨⟨p', named', hp', ?_⟩, q, r, named₁, named₂, hq, hr, ?_⟩
  · intro m' hnames' hdepth' s' n
    -- both are sums of what machines with the names of the operands evaluate these to
    let m₁ : Machine := ⟨named₁, none, true⟩
    let m₂ : Machine := ⟨named₂, none, true⟩
    have hq₁ : named₁.Grows m₁.names := .refl named₁
    have hr₂ : named₂.Grows m₂.names := .refl named₂
    have hsum := evaluatesTo_sum_iff hp hnames hdepth hq hq₁ rfl hr hr₂ rfl session s' s' n
    have hsum' := evaluatesTo_sum_iff hp' hnames' hdepth' hr hr₂ rfl hq hq₁ rfl s' s' s' n
    rw [hsum, hsum']
    constructor
    · rintro ⟨x, y, hx, hy, hn⟩
      exact ⟨y, x, hy, hx, by omega⟩
    · rintro ⟨y, x, hy, hx, hn⟩
      exact ⟨x, y, hx, hy, by omega⟩
  · intro m₁ m₂ hnames₁ hdepth₁ hnames₂ hdepth₂ s₁ s₂ n
    exact evaluatesTo_sum_iff hp hnames hdepth hq hnames₁ hdepth₁ hr hnames₂ hdepth₂ session s₁ s₂ n

/-- A function that prints its operand and a tuple that is selected from. -/
theorem sum_in_either_order_five :
    let a : Term := .app 1 (.lambda 1 ["x"] (.cond 1 (.app 1 (.ident 1 "Isdummy")
      (.app 1 (.ident 1 "Print") (.ident 1 "x"))) (.ident 1 "x") (.nil 1))) (.literal 1 (.int 3))
    let b : Term := .app 2 (.tuple 2 [.literal 2 (.int 1), .literal 2 (.int 2)])
      (.literal 2 (.int 2))
    let names : NameTable := ⟨0, ["x", "Isdummy", "Print"]⟩
    let m : Machine := ⟨names, none, true⟩
    let p : Program := (Term.binary 3 .add a b).program true names
    let q : Program := (Term.binary 3 .add b a).program true names
    m.EvaluatesTo p (.fresh .silent) 5 ∧ m.EvaluatesTo q (.fresh .silent) 5 := by
  intro a b names m p q
  have hp : Program.ofTerm (.binary 3 .add a b) true ⟨0, []⟩ = (.ok p, names) := rfl
  have hq : Program.ofTerm (.binary 3 .add b a) true ⟨0, []⟩ = (.ok q, names) := rfl
  have hevaluates : m.EvaluatesTo p (.fresh .silent) 5 := ⟨30, _, _, rfl, rfl⟩
  refine ⟨hevaluates, ?_⟩
  rcases (sum_in_either_order hp (.refl names) (m := m) rfl (.fresh .silent) 3 ⟨0, []⟩ ⟨0, []⟩).1
    with ⟨q', named, hq', hsame⟩
  rw [hq] at hq'
  cases hq'
  exact (hsame m (.refl names) rfl (.fresh .silent) 5).mp hevaluates

end Sums

end Machine

end CSEMachine
