import CSEMachine.Arithmetic
import Mathlib.Algebra.Order.Ring.Abs
import Mathlib.Tactic.Linarith
import Mathlib.Tactic.Ring

/-!
# Powers of words

The power of a word is decided by a small exponent.  It can also be computed by squaring the
base again and again, where every product has to be a word, up to the largest exponent of 32
bits, past which only the bases -1, 0 and 1 have powers that are words.  Both are right: when
the power is a word, so is every product on the way to it.

Main results:

- Theorem `Arithmetic.checked_pow_shortExponent`: the small exponent decides the power.
- Theorem `Arithmetic.repeatedSquaring_eq_some_iff`: repeated squaring gives the power whenever
  it is a word.
- Theorem `Arithmetic.pow_eq_powByRegimes`: both ways to compute powers agree.
-/

namespace CSEMachine
namespace Arithmetic

/-! ## Integers that are words -/

/-- An integer that is the value of a word. -/
def Fits (r : Int) : Prop :=
  -2 ^ 63 ≤ r ∧ r < 2 ^ 63

instance (r : Int) : Decidable (Fits r) :=
  inferInstanceAs (Decidable (_ ∧ _))

theorem fits_toInt (n : Int64) : Fits n.toInt :=
  ⟨n.le_toInt, n.toInt_lt⟩

/-- What fits has a word. -/
theorem checked_of_fits {r : Int} (h : Fits r) (operation : String) :
    ∃ n : Int64, n.toInt = r ∧ checked operation r = .ok n := by
  have hchecked : checked operation r = .ok (Int64.ofInt r) := by
    rw [checked, if_pos]
    exact ⟨h.1, Int.le_sub_one_of_lt h.2⟩
  exact ⟨Int64.ofInt r, checked_eq_ok_iff.mp hchecked, hchecked⟩

/-- What does not fit is refused. -/
theorem checked_of_not_fits {r : Int} (h : ¬ Fits r) (operation : String) :
    checked operation r = .error (.integerOverflow operation) := by
  rw [checked, if_neg]
  rintro ⟨hmin, hmax⟩
  exact h ⟨hmin, Int.lt_of_le_sub_one hmax⟩

/-- What is larger than every word does not fit. -/
theorem not_fits_of_lt_abs {r : Int} (h : 2 ^ 63 < |r|) : ¬ Fits r := by
  rintro ⟨hmin, hmax⟩
  exact absurd (abs_le.mpr ⟨hmin, Int.le_of_lt hmax⟩) (Int.not_le.mpr h)

/-- No positive multiple of what does not fit fits. -/
theorem not_fits_mul {r k : Int} (h : ¬ Fits r) (hk : 1 ≤ k) : ¬ Fits (r * k) := by
  rintro ⟨hmin, hmax⟩
  rcases not_and_or.mp h with hlow | hhigh
  · exact absurd hmin (by nlinarith)
  · exact absurd hmax (by nlinarith)

/-- A square that does not fit is larger than every word, as 2 ^ 63 is no square. -/
theorem lt_mul_self_of_not_fits {b : Int} (h : ¬ Fits (b * b)) : 2 ^ 63 < b * b := by
  have hnonneg := mul_self_nonneg b
  have hle : 2 ^ 63 ≤ b * b := by
    by_contra hlt
    exact h ⟨by linarith, Int.not_le.mp hlt⟩
  rcases Int.lt_or_le |b| 3037000500 with hsmall | hlarge
  · nlinarith [abs_nonneg b, abs_mul_abs_self b]
  · nlinarith [abs_nonneg b, abs_mul_abs_self b]

/-- With a base whose square does not fit, no larger power fits. -/
theorem not_fits_mul_pow {a b : Int} {n : Nat} (ha : a ≠ 0) (h : ¬ Fits (b * b)) (hn : 2 ≤ n) :
    ¬ Fits (a * b ^ n) := by
  have hsquare := lt_mul_self_of_not_fits h
  have hbase : 1 ≤ |b| := by
    refine Int.one_le_abs ?_
    rintro rfl
    simp at hsquare
  refine not_fits_of_lt_abs ?_
  calc (2 : Int) ^ 63 < b * b := hsquare
    _ = |b| ^ 2 := by rw [sq_abs, sq]
    _ ≤ |b| ^ n := pow_le_pow_right₀ hbase hn
    _ ≤ |a| * |b| ^ n := le_mul_of_one_le_left (by positivity) (Int.one_le_abs ha)
    _ = |a * b ^ n| := by rw [abs_mul, abs_pow]

/-! ## The small exponent -/

/-- From exponent 64 on, a power other than those of -1, 0 and 1 does not fit. -/
theorem not_fits_pow {a : Int} {n : Nat} (ha : 2 ≤ |a|) (hn : 64 ≤ n) : ¬ Fits (a ^ n) := by
  refine not_fits_of_lt_abs ?_
  calc (2 : Int) ^ 63 < 2 ^ 64 := by norm_num
    _ ≤ |a| ^ 64 := pow_le_pow_left₀ (by norm_num) ha 64
    _ ≤ |a| ^ n := pow_le_pow_right₀ (by linarith) hn
    _ = |a ^ n| := (abs_pow a n).symm

/-- The bases whose powers repeat. -/
theorem eq_of_abs_lt_two {a : Int} (h : |a| < 2) : a = 0 ∨ a = 1 ∨ a = -1 := by
  have hbounds := abs_lt.mp h
  omega

/-- All other words. -/
theorem two_le_abs_toInt {n : Int64} (hzero : n ≠ 0) (hone : n ≠ 1) (hminus : n ≠ -1) :
    2 ≤ |n.toInt| := by
  by_contra hsmall
  rcases eq_of_abs_lt_two (Int.not_le.mp hsmall) with h | h | h
  · exact hzero (Int64.toInt_inj.mp h)
  · exact hone (Int64.toInt_inj.mp h)
  · exact hminus (Int64.toInt_inj.mp h)

/-- The small exponent decides the power. -/
theorem checked_pow_shortExponent (operation : String) (a : Int) (n : Nat) :
    checked operation (a ^ shortExponent n) = checked operation (a ^ n) := by
  unfold shortExponent
  split
  · rfl
  · rename_i hn
    rcases Int.lt_or_le |a| 2 with hsmall | hlarge
    · rcases eq_of_abs_lt_two hsmall with rfl | rfl | rfl
      · rw [zero_pow (by omega), zero_pow (by omega)]
      · rw [one_pow, one_pow]
      · have hparity : (64 + n % 2) % 2 = n % 2 := by omega
        rw [neg_one_pow_eq_pow_mod_two, hparity, ← neg_one_pow_eq_pow_mod_two]
    · rw [checked_of_not_fits (not_fits_pow hlarge (Nat.le_add_right 64 _)),
        checked_of_not_fits (not_fits_pow hlarge (Nat.not_lt.mp hn))]

/-- A power with an exponent that is not negative is exact or refused. -/
theorem pow_of_nonneg {base exponent : Int64} (h : 0 ≤ exponent) :
    pow base exponent =
      checked "exponentiation" (base.toInt ^ exponent.toInt.toNat) := by
  rw [pow, if_pos h]
  exact checked_pow_shortExponent _ _ _

/-! ## Repeated squaring -/

/-- The product of two words, if it is a word. -/
def product (a b : Int64) : Option Int64 :=
  (mul a b).toOption

theorem product_eq_some_iff {a b r : Int64} :
    product a b = some r ↔ r.toInt = a.toInt * b.toInt := by
  have hword : checked "multiplication" (a.toInt * b.toInt) = .ok r ↔
      r.toInt = a.toInt * b.toInt := checked_eq_ok_iff
  rw [← hword, product, mul]
  cases checked "multiplication" (a.toInt * b.toInt) <;> simp [Except.toOption]

/-- Multiplies `acc` by a power of `base`, taking the binary digits of the exponent from the
lowest on.  Every product has to be a word. -/
def repeatedSquaring (acc base : Int64) (n : Nat) : Option Int64 :=
  if n = 0 then some acc
  else if n = 1 then product acc base
  else do
    let acc ← (if n % 2 = 1 then product acc base else some acc)
    let base ← product base base
    repeatedSquaring acc base (n / 2)
termination_by n

/-- A power by the lowest digit of the exponent and the rest of it. -/
theorem mul_pow_digit (a b : Int) (n : Nat) :
    a * b ^ (n % 2) * (b * b) ^ (n / 2) = a * b ^ n := by
  calc a * b ^ (n % 2) * (b * b) ^ (n / 2) = a * b ^ (n % 2 + 2 * (n / 2)) := by ring
    _ = a * b ^ n := by rw [Nat.mod_add_div]

/-- The factor for the lowest digit. -/
theorem digit_eq_some_iff {acc base r : Int64} {n : Nat} :
    (if n % 2 = 1 then product acc base else some acc) = some r ↔
      r.toInt = acc.toInt * base.toInt ^ (n % 2) := by
  rcases Nat.mod_two_eq_zero_or_one n with heven | hodd
  · simp [heven, Int64.toInt_inj, eq_comm]
  · simp [hodd, product_eq_some_iff]

/-- A factor of 0 comes from a base of 0 only. -/
theorem ne_zero_of_step {a b : Int} (h : a ≠ 0 ∨ b = 0) (n : Nat) :
    a * b ^ n ≠ 0 ∨ b * b = 0 := by
  by_cases hb : b = 0
  · exact Or.inr (by rw [hb, Int.zero_mul])
  · exact Or.inl (Int.mul_ne_zero (h.resolve_right hb) (pow_ne_zero n hb))

/-- When the power is a word, so are the two products of a step. -/
theorem fits_of_fits_pow {a b : Int} {n : Nat} (hn : 2 ≤ n) (h : a ≠ 0 ∨ b = 0) (ha : Fits a)
    (hpow : Fits (a * b ^ n)) : Fits (a * b ^ (n % 2)) ∧ Fits (b * b) := by
  by_cases hb : b = 0
  · subst hb
    rcases Nat.mod_two_eq_zero_or_one n with heven | hodd
    · simpa [heven, Fits] using ha
    · simp [hodd, Fits]
  · constructor
    · by_contra hfirst
      rw [← mul_pow_digit] at hpow
      exact not_fits_mul hfirst (Int.add_one_le_of_lt (pow_pos (mul_self_pos.mpr hb) _)) hpow
    · by_contra hsquare
      exact not_fits_mul_pow (h.resolve_right hb) hsquare hn hpow

/-- Repeated squaring gives the power whenever it is a word. -/
theorem repeatedSquaring_eq_some_iff {acc base r : Int64} {n : Nat}
    (h : acc.toInt ≠ 0 ∨ base.toInt = 0) :
    repeatedSquaring acc base n = some r ↔ r.toInt = acc.toInt * base.toInt ^ n := by
  induction n using Nat.strongRecOn generalizing acc base with
  | ind n ih =>
      rw [repeatedSquaring]
      by_cases hzero : n = 0
      · simp [hzero, Int64.toInt_inj, eq_comm]
      · by_cases hone : n = 1
        · simp [hone, product_eq_some_iff]
        · rw [if_neg hzero, if_neg hone]
          -- the product of what is still to be multiplied stays the same
          have hstep : ∀ acc' base' : Int64, acc'.toInt = acc.toInt * base.toInt ^ (n % 2) →
              base'.toInt = base.toInt * base.toInt →
              (repeatedSquaring acc' base' (n / 2) = some r ↔
                r.toInt = acc.toInt * base.toInt ^ n) := by
            intro acc' base' hacc hbase
            have hinv := ne_zero_of_step h (n % 2)
            rw [← hacc, ← hbase] at hinv
            rw [ih (n / 2) (Nat.div_lt_self (by omega) Nat.one_lt_two) hinv, hacc, hbase,
              mul_pow_digit]
          constructor
          · intro hrun
            rcases Option.bind_eq_some_iff.mp hrun with ⟨acc', hacc, hrun⟩
            rcases Option.bind_eq_some_iff.mp hrun with ⟨base', hbase, hrun⟩
            exact (hstep acc' base' (digit_eq_some_iff.mp hacc)
              (product_eq_some_iff.mp hbase)).mp hrun
          · intro hr
            have hfits := fits_of_fits_pow (by omega) h (fits_toInt acc) (hr ▸ fits_toInt r)
            rcases checked_of_fits hfits.1 "" with ⟨acc', hacc, -⟩
            rcases checked_of_fits hfits.2 "" with ⟨base', hbase, -⟩
            refine Option.bind_eq_some_iff.mpr ⟨acc', digit_eq_some_iff.mpr hacc, ?_⟩
            refine Option.bind_eq_some_iff.mpr ⟨base', product_eq_some_iff.mpr hbase, ?_⟩
            exact (hstep acc' base' hacc hbase).mpr hr

/-! ## Two ways to compute powers -/

/-- Power by repeated squaring, for exponents of 32 bits.  With a negative exponent, and past
32 bits, the base decides. -/
def powByRegimes (base exponent : Int64) : Except Cause Int64 :=
  if exponent < 0 then
    if base = 0 then .error .divisionByZero
    else if base = 1 then .ok 1
    else if base = -1 then .ok (if exponent % 2 = 0 then 1 else -1)
    else .ok 0
  else if exponent.toInt < 2 ^ 32 then
    match repeatedSquaring 1 base exponent.toInt.toNat with
    | some power => .ok power
    | none => .error (.integerOverflow "exponentiation")
  else if base = 0 ∨ base = 1 then .ok base
  else if base = -1 then .ok (if exponent % 2 = 0 then 1 else -1)
  else .error (.integerOverflow "exponentiation")

/-- Checking a power is squaring repeatedly. -/
theorem checked_pow_eq (base : Int64) (n : Nat) :
    checked "exponentiation" (base.toInt ^ n) =
      match repeatedSquaring 1 base n with
      | some power => .ok power
      | none => .error (.integerOverflow "exponentiation") := by
  have hspec : ∀ r, repeatedSquaring 1 base n = some r ↔ r.toInt = base.toInt ^ n := by
    intro r
    rw [repeatedSquaring_eq_some_iff (Or.inl (by decide))]
    simp
  cases hrun : repeatedSquaring 1 base n with
  | some power => exact checked_eq_ok_iff.mpr ((hspec power).mp hrun)
  | none =>
      refine checked_of_not_fits (fun hfits => ?_) _
      rcases checked_of_fits hfits "" with ⟨r, hr, -⟩
      rw [(hspec r).mpr hr] at hrun
      cases hrun

/-- A word is even exactly if its value is. -/
theorem mod_two_eq_zero_iff (n : Int64) : n % 2 = 0 ↔ n.toInt % 2 = 0 := by
  have hmod : (n % 2).toInt = n.toInt.tmod 2 := Int64.toInt_mod n 2
  rw [← Int64.toInt_inj, hmod, ← Int.dvd_iff_emod_eq_zero]
  exact (Int.dvd_iff_tmod_eq_zero).symm

/-- The powers of -1 alternate. -/
theorem checked_neg_one_pow {exponent : Int64} {n : Nat} (operation : String)
    (h : (n : Int) % 2 = exponent.toInt % 2) :
    checked operation ((-1) ^ n) = .ok (if exponent % 2 = 0 then 1 else -1) := by
  simp only [mod_two_eq_zero_iff, ← h]
  rcases Nat.even_or_odd n with heven | hodd
  · rw [heven.neg_one_pow, if_pos (by exact_mod_cast Nat.even_iff.mp heven)]
    rfl
  · have hone : (n : Int) % 2 = 1 := by exact_mod_cast Nat.odd_iff.mp hodd
    rw [hodd.neg_one_pow, hone, if_neg one_ne_zero]
    rfl

/-- Both ways to compute powers agree. -/
theorem pow_eq_powByRegimes (base exponent : Int64) :
    pow base exponent = powByRegimes base exponent := by
  rw [powByRegimes]
  split
  · rename_i hneg
    rw [pow, if_neg (Int64.not_le.mpr hneg)]
    by_cases hzero : base = 0
    · rw [if_pos hzero, if_pos hzero]
    · rw [if_neg hzero, if_neg hzero]
      by_cases hone : base = 1
      · rw [if_pos (Or.inl hone), if_pos hone, hone]
        exact congrArg (checked "exponentiation") (one_pow _)
      · rw [if_neg hone]
        by_cases hminus : base = -1
        · rw [if_pos (Or.inr hminus), if_pos hminus, hminus]
          exact checked_neg_one_pow _ (by omega)
        · rw [if_neg hminus, if_neg (by simp [hone, hminus])]
  · rename_i hnonneg
    rw [pow_of_nonneg (Int64.not_lt.mp hnonneg)]
    split
    · exact checked_pow_eq base _
    · rename_i hlarge
      have hn : 64 ≤ exponent.toInt.toNat := by omega
      by_cases hone : base = 0 ∨ base = 1
      · rw [if_pos hone]
        rcases hone with rfl | rfl
        · exact congrArg (checked "exponentiation") (zero_pow (by omega))
        · exact congrArg (checked "exponentiation") (one_pow _)
      · rw [if_neg hone]
        by_cases hminus : base = -1
        · rw [if_pos hminus, hminus]
          exact checked_neg_one_pow _ (by omega)
        · rw [if_neg hminus]
          rw [not_or] at hone
          exact checked_of_not_fits
            (not_fits_pow (two_le_abs_toInt hone.1 hone.2 hminus) hn) _

end Arithmetic
end CSEMachine
