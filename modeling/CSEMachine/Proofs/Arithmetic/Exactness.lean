import CSEMachine.Builtin.Apply
import CSEMachine.Operator.Apply
import CSEMachine.Proofs.Arithmetic.Powers
import Mathlib.Algebra.Order.Field.Power
import Mathlib.Data.Rat.Floor

/-!
# Exact arithmetic

The result that an operation has on the rational numbers, rounded toward zero, is given exactly
where it is a word, and refused everywhere else.  Two operations have no result for some
operands: division by zero, and a negative power of zero.

Main results:

- Theorem `Arithmetic.truncate_div`: integer division rounds the quotient toward zero.
- Theorem `Arithmetic.pow_of_neg`: so do powers with a negative exponent.
- Theorem `Arithmetic.Operation.run_eq`: every operation is exact or refuses.
- Theorem `Arithmetic.exact_or_refused`: so are the operators and the built-in for negation.
-/

namespace CSEMachine
namespace Arithmetic

/-! ## Rounding toward zero -/

/-- Rounds toward zero. -/
def truncate (q : ℚ) : Int :=
  if 0 ≤ q then ⌊q⌋ else ⌈q⌉

@[simp]
theorem truncate_intCast (n : Int) : truncate n = n := by
  simp [truncate]

/-- Opposite numbers are rounded to opposite integers. -/
theorem truncate_neg (q : ℚ) : truncate (-q) = -truncate q := by
  rcases lt_trichotomy q 0 with h | rfl | h
  · rw [truncate, truncate, if_pos (by linarith), if_neg (not_le.mpr h), Int.floor_neg]
  · simp [truncate]
  · rw [truncate, truncate, if_neg (by linarith), if_pos h.le, Int.ceil_neg]

/-- What lies between -1 and 1 is rounded to 0. -/
theorem truncate_eq_zero {q : ℚ} (h : |q| < 1) : truncate q = 0 := by
  have hbounds := abs_lt.mp h
  rw [truncate]
  split
  · rename_i hnonneg
    exact Int.floor_eq_zero_iff.mpr ⟨hnonneg, hbounds.2⟩
  · rename_i hneg
    exact Int.ceil_eq_zero_iff.mpr ⟨hbounds.1, (not_le.mp hneg).le⟩

theorem truncate_natCast_div (m n : Nat) : truncate ((m : ℚ) / n) = (m : Int).tdiv n := by
  rw [truncate, if_pos (by positivity), Rat.floor_natCast_div_natCast,
    Int.tdiv_eq_ediv_of_nonneg (Int.natCast_nonneg m)]

/-- The quotient of integers, rounded toward zero. -/
theorem truncate_div (a b : Int) : truncate ((a : ℚ) / b) = a.tdiv b := by
  obtain ⟨m, rfl | rfl⟩ := a.eq_nat_or_neg <;> obtain ⟨n, rfl | rfl⟩ := b.eq_nat_or_neg <;>
    simp [neg_div, div_neg, truncate_neg, truncate_natCast_div]

/-- A power with an exponent that is not negative is an integer. -/
theorem truncate_zpow_of_nonneg {a b : Int} (hb : 0 ≤ b) :
    truncate ((a : ℚ) ^ b) = a ^ b.toNat := by
  lift b to Nat using hb
  rw [zpow_natCast, ← Int.cast_pow, truncate_intCast, Int.toNat_natCast]

/-- The powers of 1 and -1 are given by the parity of the exponent. -/
theorem truncate_zpow_of_mul_self {a : Int} (ha : a * a = 1) (b : Int) :
    truncate ((a : ℚ) ^ b) = a ^ (b % 2).toNat := by
  have hsquare : (a : ℚ) ^ (2 : Int) = 1 := by
    rw [zpow_two]
    exact_mod_cast ha
  have hne : (a : ℚ) ≠ 0 := by
    intro hzero
    rw [hzero, zero_zpow 2 two_ne_zero] at hsquare
    exact zero_ne_one hsquare
  have hpow : (a : ℚ) ^ b = ((a ^ (b % 2).toNat : Int) : ℚ) :=
    calc (a : ℚ) ^ b = (a : ℚ) ^ (2 * (b / 2) + b % 2) := by rw [Int.mul_ediv_add_emod]
      _ = (a : ℚ) ^ (b % 2) := by rw [zpow_add₀ hne, zpow_mul, hsquare, one_zpow, one_mul]
      _ = ((a ^ (b % 2).toNat : Int) : ℚ) := by
        rw [Int.cast_pow, ← zpow_natCast, Int.toNat_of_nonneg (Int.emod_nonneg b two_ne_zero)]
  rw [hpow, truncate_intCast]

/-- A negative power of an integer is less than 1, those of 1 and -1 apart. -/
theorem truncate_zpow_eq_zero {a b : Int} (ha : 2 ≤ |a|) (hb : b < 0) :
    truncate ((a : ℚ) ^ b) = 0 := by
  have hbase : (1 : ℚ) < |(a : ℚ)| := by
    exact_mod_cast Int.lt_of_add_one_le ha
  refine truncate_eq_zero ?_
  rw [abs_zpow]
  exact zpow_lt_one_of_neg₀ hbase hb

/-- A power with a negative exponent is rounded toward zero. -/
theorem pow_of_neg {base exponent : Int64} (h : exponent < 0) (hbase : base ≠ 0) :
    pow base exponent =
      checked "exponentiation" (truncate ((base.toInt : ℚ) ^ exponent.toInt)) := by
  have hneg : exponent.toInt < 0 := Int64.lt_iff_toInt_lt.mp h
  rw [pow, if_neg (Int64.not_le.mpr h), if_neg hbase]
  by_cases hone : base = 1 ∨ base = -1
  · rw [if_pos hone]
    congr 1
    have hunit : base.toInt * base.toInt = 1 := by
      rcases hone with rfl | rfl <;> rfl
    exact (truncate_zpow_of_mul_self hunit exponent.toInt).symm
  · rw [if_neg hone]
    rw [not_or] at hone
    rw [truncate_zpow_eq_zero (two_le_abs_toInt hbase hone.1 hone.2) hneg]
    rfl

/-! ## The operations -/

/-- The operations on two integers. -/
inductive Operation where
  | add | sub | mul | div | pow

namespace Operation

/-- The operator of an operation. -/
def op : Operation → BinaryOp
  | add => .add
  | sub => .sub
  | mul => .mul
  | div => .div
  | pow => .pow

/-- The name by which an operation is refused. -/
def name : Operation → String
  | add => "addition"
  | sub => "subtraction"
  | mul => "multiplication"
  | div => "division"
  | pow => "exponentiation"

/-- The result of an operation on the rational numbers. -/
def onRationals (a b : Int) : Operation → ℚ
  | add => a + b
  | sub => a - b
  | mul => a * b
  | div => a / b
  | pow => a ^ b

/-- An operation has no result: a quotient by zero, or a negative power of zero. -/
def Undefined (a b : Int) : Operation → Prop
  | div => b = 0
  | pow => a = 0 ∧ b < 0
  | _ => False

instance (a b : Int) : (o : Operation) → Decidable (o.Undefined a b)
  | add | sub | mul => inferInstanceAs (Decidable False)
  | div => inferInstanceAs (Decidable (b = 0))
  | pow => inferInstanceAs (Decidable (a = 0 ∧ b < 0))

/-- An operation on words. -/
def run : Operation → Int64 → Int64 → Except Cause Int64
  | add => Arithmetic.add
  | sub => Arithmetic.sub
  | mul => Arithmetic.mul
  | div => Arithmetic.div
  | pow => Arithmetic.pow

variable {o : Operation} {a b : Int64}

/-- Without a result, there is none. -/
theorem run_of_undefined (h : o.Undefined a.toInt b.toInt) :
    o.run a b = .error .divisionByZero := by
  cases o with
  | div =>
      have hb : b = 0 := Int64.toInt_inj.mp h
      rw [run, Arithmetic.div, if_pos hb]
  | pow =>
      have ha : a = 0 := Int64.toInt_inj.mp h.1
      have hb : b < 0 := Int64.lt_iff_toInt_lt.mpr h.2
      rw [run, Arithmetic.pow, if_neg (Int64.not_le.mpr hb), if_pos ha]
  | add => exact h.elim
  | sub => exact h.elim
  | mul => exact h.elim

/-- With a result, it is given if it is a word, and refused if not. -/
theorem run_eq (h : ¬ o.Undefined a.toInt b.toInt) :
    o.run a b = checked o.name (truncate (o.onRationals a.toInt b.toInt)) := by
  cases o with
  | add => rw [run, Arithmetic.add, name, onRationals, ← Int.cast_add, truncate_intCast]
  | sub => rw [run, Arithmetic.sub, name, onRationals, ← Int.cast_sub, truncate_intCast]
  | mul => rw [run, Arithmetic.mul, name, onRationals, ← Int.cast_mul, truncate_intCast]
  | div =>
      have hb : b ≠ 0 := fun hzero => h (congrArg Int64.toInt hzero)
      rw [run, Arithmetic.div, if_neg hb, name, onRationals, truncate_div]
  | pow =>
      rw [run, name, onRationals]
      by_cases hb : b < 0
      · refine pow_of_neg hb fun hzero => h ⟨congrArg Int64.toInt hzero, ?_⟩
        exact Int64.lt_iff_toInt_lt.mp hb
      · have hnonneg : 0 ≤ b := Int64.not_lt.mp hb
        rw [pow_of_nonneg hnonneg,
          truncate_zpow_of_nonneg (Int64.le_iff_toInt_le.mp hnonneg)]

/-- The operator of an operation does what the operation does. -/
theorem apply_op (o : Operation) (a b : Int64) (store : Store) :
    o.op.apply (.int a) (.int b) store = ((o.run a b).map .int, store) := by
  cases o <;> rfl

end Operation

/-! ## Exact results -/

/-- What an operation gives is the value of a mathematical result, or the refusal of one that
does not fit. -/
structure Exactly (operation : String) (r : Int) (result : Except Cause Value) : Prop where
  of_fits : Fits r → ∃ n : Int64, n.toInt = r ∧ result = .ok (.int n)
  of_not_fits : ¬ Fits r → result = .error (.integerOverflow operation)

/-- A checked result is exact. -/
theorem exactly_checked (operation : String) (r : Int) :
    Exactly operation r ((checked operation r).map .int) where
  of_fits h := by
    rcases checked_of_fits h operation with ⟨n, hn, hchecked⟩
    exact ⟨n, hn, by rw [hchecked]; rfl⟩
  of_not_fits h := by
    rw [checked_of_not_fits h]
    rfl

/-- A checked result is no quotient by zero. -/
theorem checked_ne_divisionByZero (operation : String) (r : Int) :
    (checked operation r).map Value.int ≠ .error .divisionByZero := by
  unfold checked
  split <;> simp [Except.map]

/-- Integer operators are exact or refuse.

Each of the five operations on two integers leaves the store as it was.  It fails as a division
by zero exactly where it has no result on the rational numbers, and otherwise gives that result,
rounded toward zero, or refuses it under the name of the operation if it is no word.  Negation
does the same as an operator and as a built-in.  Powers are those found by repeated squaring,
for exponents of 32 bits and past these. -/
theorem exact_or_refused (store : Store) :
    (∀ (o : Operation) (a b : Int64),
      (o.op.apply (.int a) (.int b) store).2 = store ∧
      ((o.op.apply (.int a) (.int b) store).1 = .error .divisionByZero ↔
        o.Undefined a.toInt b.toInt) ∧
      (¬ o.Undefined a.toInt b.toInt →
        Exactly o.name (truncate (o.onRationals a.toInt b.toInt))
          (o.op.apply (.int a) (.int b) store).1)) ∧
    (∀ a : Int64,
      Exactly "negation" (-a.toInt) (UnaryOp.neg.apply store (.int a)) ∧
      Builtin.neg.apply store (.int a) = (UnaryOp.neg.apply store (.int a)).mapError .of) ∧
    ∀ base exponent : Int64, pow base exponent = powByRegimes base exponent := by
  refine ⟨fun o a b => ?_, fun a => ⟨exactly_checked "negation" _, rfl⟩, pow_eq_powByRegimes⟩
  rw [Operation.apply_op]
  refine ⟨rfl, ⟨fun herror => ?_, fun hundefined => ?_⟩, fun hdefined => ?_⟩
  · by_contra hdefined
    rw [Operation.run_eq hdefined] at herror
    exact checked_ne_divisionByZero _ _ herror
  · rw [Operation.run_of_undefined hundefined]
    rfl
  · rw [Operation.run_eq hdefined]
    exact exactly_checked _ _

/-- The smallest word is a power, its opposite is not, and there are powers past 32 bits. -/
theorem exact_or_refused_powers :
    (BinaryOp.pow.apply (.int (-2)) (.int 63) Store.empty).1 = .ok (.int Int64.minValue) ∧
      (BinaryOp.pow.apply (.int 2) (.int 63) Store.empty).1 =
        .error (.integerOverflow "exponentiation") ∧
      (BinaryOp.pow.apply (.int (-1)) (.int 4294967297) Store.empty).1 = .ok (.int (-1)) := by
  have hexact := fun a b h => ((exact_or_refused Store.empty).1 .pow a b).2.2 h
  refine ⟨?_, ?_, ?_⟩
  · have hpower : truncate (Operation.pow.onRationals (-2) 63) = -2 ^ 63 :=
      truncate_zpow_of_nonneg (by decide)
    rcases (hexact (-2) 63 (by decide)).of_fits (hpower ▸ by decide) with ⟨n, hn, happly⟩
    rw [Int64.toInt_inj.mp (hn.trans hpower : n.toInt = Int64.minValue.toInt)] at happly
    exact happly
  · have hpower : truncate (Operation.pow.onRationals 2 63) = 2 ^ 63 :=
      truncate_zpow_of_nonneg (by decide)
    exact (hexact 2 63 (by decide)).of_not_fits (hpower ▸ by decide)
  · have hpower : truncate (Operation.pow.onRationals (-1) 4294967297) = -1 :=
      truncate_zpow_of_mul_self rfl 4294967297
    rcases (hexact (-1) 4294967297 (by decide)).of_fits (hpower ▸ by decide) with
      ⟨n, hn, happly⟩
    rw [Int64.toInt_inj.mp (hn.trans hpower : n.toInt = (-1 : Int64).toInt)] at happly
    exact happly

end Arithmetic
end CSEMachine
