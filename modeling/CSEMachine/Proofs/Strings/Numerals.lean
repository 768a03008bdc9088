import CSEMachine.Proofs.Unescaping
import Mathlib

/-!
# Numerals of integers

The numeral of an integer has its decimal digits, with a minus in front of them if it is
negative, and nothing superfluous.  It is what `ItoS` gives for the integer and what `Print`
records for it.

Main results:

- Theorem `Text.isNumeral_toString`: the text of an integer is a numeral.
- Theorem `Text.toInt?_toString`: it is read back as that integer.
- Theorem `Value.printed_int`: it is what is printed.
-/

namespace CSEMachine

namespace Text

/-! ## Numerals -/

/-- At least one decimal digit, and nothing else. -/
def IsDigits (ds : List Char) : Prop :=
  ds ≠ [] ∧ ∀ d ∈ ds, d.isDigit = true

/-- Decimal digits, with an optional minus in front.  Zero is a single digit without a minus,
and no other number begins with a zero. -/
def IsNumeral (cs : List Char) : Prop :=
  ∃ ds, IsDigits ds ∧
    (cs = ds ∧ (ds.head? = some '0' → ds = ['0']) ∨ cs = '-' :: ds ∧ ds.head? ≠ some '0')

variable {n : Nat}

/-- The digits of a number are digits. -/
theorem isDigits_toDigits (n : Nat) : IsDigits (Nat.toDigits 10 n) :=
  ⟨Nat.toDigits_ne_nil, fun _ hd => Nat.isDigit_of_mem_toDigits (by omega) (by omega) hd⟩

/-- One digit is zero only for zero. -/
theorem digitChar_ne_zero (hpos : 0 < n) (hlt : n < 10) : n.digitChar ≠ '0' := by
  intro heq
  have hcode := congrArg Char.toNat heq
  rw [Nat.toNat_digitChar_of_lt_ten hlt] at hcode
  have hzero : '0'.toNat = 48 := rfl
  omega

/-- The digits of a positive number do not begin with a zero. -/
theorem head?_toDigits_ne (hpos : 0 < n) : (Nat.toDigits 10 n).head? ≠ some '0' := by
  induction n using Nat.strongRecOn with
  | ind n ih =>
      by_cases hlt : n < 10
      · rw [Nat.toDigits_of_lt_base hlt, List.head?_cons, ne_eq, Option.some.injEq]
        exact digitChar_ne_zero hpos hlt
      · -- the last digit is not the first one
        rw [Nat.toDigits_of_base_le (by omega) (by omega),
          List.head?_append_of_ne_nil _ Nat.toDigits_ne_nil]
        exact ih (n / 10) (by omega) (by omega)

/-- The text of an integer is a numeral. -/
theorem isNumeral_toString (n : Int64) : IsNumeral (toString n).toList := by
  have htext : toString n = n.toInt.repr := rfl
  rw [htext, Int.repr_eq_if]
  split
  · rename_i hnonneg
    refine ⟨_, isDigits_toDigits n.toInt.toNat, .inl ⟨?_, ?_⟩⟩
    · rw [Nat.repr_eq_ofList_toDigits, String.toList_ofList]
    · intro hhead
      by_cases hpos : 0 < n.toInt.toNat
      · exact absurd hhead (head?_toDigits_ne hpos)
      · rw [Nat.eq_zero_of_not_pos hpos]
        rfl
  · rename_i hneg
    refine ⟨_, isDigits_toDigits (-n.toInt).toNat, .inr ⟨?_, ?_⟩⟩
    · rw [Nat.repr_eq_ofList_toDigits, String.toList_append, String.toList_ofList,
        String.toList_ofList]
      exact List.singleton_append
    · exact head?_toDigits_ne (by omega)

/-- The text of an integer is read back as that integer. -/
theorem toInt?_toString (n : Int64) : (toString n).toInt? = some n.toInt :=
  Int.toInt?_repr n.toInt

/-- The text of an integer has no backslash. -/
theorem notMem_toString (n : Int64) : '\\' ∉ (toString n).toList := by
  intro hmem
  rcases isNumeral_toString n with ⟨ds, ⟨-, hdigits⟩, ⟨hcs, -⟩ | ⟨hcs, -⟩⟩
  · rw [hcs] at hmem
    exact absurd (hdigits _ hmem) (by decide)
  · rw [hcs] at hmem
    rcases List.mem_cons.mp hmem with heq | hmem
    · exact absurd heq (by decide)
    · exact absurd (hdigits _ hmem) (by decide)

/-- Without a backslash there is no escape. -/
theorem escapeAt?_of_notMem {cs : List Char} (h : '\\' ∉ cs) (i : Nat) :
    escapeAt? cs i = none := by
  unfold escapeAt?
  split
  · rename_i hslash _
    exact absurd (List.mem_of_getElem? hslash) h
  · rename_i hslash _
    exact absurd (List.mem_of_getElem? hslash) h
  · rfl

end Text

/-- The text of an integer is what is printed. -/
theorem Value.printed_int (store : Store) (n : Int64) :
    (Value.int n).printed store = toString n := by
  have hdisplay : (Value.int n).display store = toString n := by
    simp only [display, displayWithin]
  rw [printed, hdisplay]
  apply String.toList_injective
  rw [Text.toList_unescape]
  exact Text.unescapeChars_of_no_escapes (Text.escapeAt?_of_notMem (Text.notMem_toString n))

end CSEMachine
