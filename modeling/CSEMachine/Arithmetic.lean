import CSEMachine.Fault

/-!
# Checked arithmetic

Integers are signed 64-bit words.  An operation is carried out on the
mathematical integers and its result is taken back to a word only if it fits, so
nothing ever wraps.

Main results:

- Theorem `Arithmetic.checked_eq_ok_iff`: a result is a word exactly when that
  word is the mathematical result.
-/

namespace CSEMachine
namespace Arithmetic

/-- The word for a mathematical result, refused when there is none. -/
def checked (operation : String) (result : Int) : Except Cause Int64 :=
  if Int64.minValue.toInt ≤ result ∧ result ≤ Int64.maxValue.toInt then
    .ok (Int64.ofInt result)
  else .error (.integerOverflow operation)

/-- A result is a word exactly when that word is the mathematical result. -/
theorem checked_eq_ok_iff {operation : String} {result : Int} {n : Int64} :
    checked operation result = .ok n ↔ n.toInt = result := by
  unfold checked
  split
  · rename_i h
    constructor
    · intro heq
      obtain rfl : Int64.ofInt result = n := by simpa using heq
      exact Int64.toInt_ofInt_of_le h.1 (Int.lt_of_le_sub_one h.2)
    · rintro rfl
      simp
  · rename_i h
    constructor
    · intro heq
      cases heq
    · rintro rfl
      exact absurd ⟨n.le_toInt, Int.le_sub_one_of_lt n.toInt_lt⟩ h

/-! ## Operations -/

/-- Sum. -/
def add (a b : Int64) : Except Cause Int64 :=
  checked "addition" (a.toInt + b.toInt)

/-- Difference. -/
def sub (a b : Int64) : Except Cause Int64 :=
  checked "subtraction" (a.toInt - b.toInt)

/-- Product. -/
def mul (a b : Int64) : Except Cause Int64 :=
  checked "multiplication" (a.toInt * b.toInt)

/-- Quotient, truncated toward zero. -/
def div (a b : Int64) : Except Cause Int64 :=
  if b = 0 then .error .divisionByZero else checked "division" (a.toInt.tdiv b.toInt)

/-- Negation. -/
def neg (a : Int64) : Except Cause Int64 :=
  checked "negation" (-a.toInt)

/-- A small exponent that decides the same power.  From 64 on only the parity
counts: the powers of -1, 0 and 1 repeat, and every other base is out of range. -/
def shortExponent (n : Nat) : Nat :=
  if n < 64 then n else 64 + n % 2

/-- Power.  A negative exponent gives the real power truncated toward zero, which
is 0 unless the base is 1 or -1, and does not exist for base 0. -/
def pow (base exponent : Int64) : Except Cause Int64 :=
  if 0 ≤ exponent then
    checked "exponentiation" (base.toInt.pow (shortExponent exponent.toInt.toNat))
  else if base = 0 then .error .divisionByZero
  else if base = 1 ∨ base = -1 then
    checked "exponentiation" (base.toInt.pow (exponent.toInt % 2).toNat)
  else .ok 0

end Arithmetic
end CSEMachine
