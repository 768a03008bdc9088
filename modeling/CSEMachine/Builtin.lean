/-!
# Built-in functions

An identifier that no enclosing scope binds, but that spells a built-in
function, denotes that function.

Main results:

- Theorem `Builtin.ofSpelling?_eq_some_iff`: reading a text gives a built-in
  exactly when the text is one of its spellings.
- Theorem `Builtin.spellings_nodup`: no two built-ins share a spelling.
-/

namespace CSEMachine

/-- The built-in functions. -/
inductive Builtin where
  | isInteger | isString | isTuple | isDummy | isTruthValue | isFunction
  /-- The first character of a string. -/
  | stem
  /-- A string without its first character. -/
  | stern
  /-- Two strings joined. -/
  | conc
  | print
  /-- The decimal numeral of an integer. -/
  | itoS
  /-- The number of elements of a tuple. -/
  | order
  /-- Whether a tuple is empty. -/
  | null
  | neg
deriving DecidableEq

namespace Builtin

/-- Every built-in, in the order of declaration. -/
def all : List Builtin :=
  [.isInteger, .isString, .isTuple, .isDummy, .isTruthValue, .isFunction, .stem, .stern,
    .conc, .print, .itoS, .order, .null, .neg]

theorem mem_all (b : Builtin) : b ∈ all := by
  cases b <;> decide

/-- The canonical spelling, the one a built-in is shown with. -/
def spelling : Builtin → String
  | .isInteger => "Isinteger"
  | .isString => "Isstring"
  | .isTuple => "Istuple"
  | .isDummy => "Isdummy"
  | .isTruthValue => "Istruthvalue"
  | .isFunction => "Isfunction"
  | .stem => "Stem"
  | .stern => "Stern"
  | .conc => "Conc"
  | .print => "Print"
  | .itoS => "ItoS"
  | .order => "Order"
  | .null => "Null"
  | .neg => "neg"

/-- A second accepted spelling, for the two built-ins that have one. -/
def alias? : Builtin → Option String
  | .conc => some "conc"
  | .print => some "print"
  | _ => none

/-- All accepted spellings, the canonical one first. -/
def spellings (b : Builtin) : List String :=
  b.spelling :: b.alias?.toList

instance : ToString Builtin := ⟨spelling⟩

/-- The built-in that a text spells. -/
def ofSpelling? (text : String) : Option Builtin :=
  all.find? fun b => decide (text ∈ b.spellings)

/-- All spellings of all built-ins, in the order of declaration. -/
def allSpellings : List String :=
  all.flatMap spellings

/-- No two built-ins share a spelling, and none is spelled the same way twice. -/
theorem spellings_nodup : allSpellings.Nodup := by
  decide

/-- A spelling belongs to one built-in only. -/
theorem eq_of_mem_spellings {b c : Builtin} {text : String}
    (hb : text ∈ b.spellings) (hc : text ∈ c.spellings) : b = c := by
  have hunique : ∀ b ∈ all, ∀ c ∈ all, ∀ text ∈ b.spellings, text ∈ c.spellings → b = c := by
    decide
  exact hunique b (mem_all b) c (mem_all c) text hb hc

/-- Reading a text gives a built-in exactly when the text is one of its spellings. -/
theorem ofSpelling?_eq_some_iff {text : String} {b : Builtin} :
    ofSpelling? text = some b ↔ text ∈ b.spellings := by
  constructor
  · intro h
    simpa using List.find?_some h
  · intro h
    obtain ⟨c, hc⟩ : ∃ c, ofSpelling? text = some c := by
      rw [← Option.isSome_iff_exists]
      simp only [ofSpelling?, List.find?_isSome, decide_eq_true_eq]
      exact ⟨b, mem_all b, h⟩
    rw [hc]
    have : text ∈ c.spellings := by simpa using List.find?_some hc
    rw [eq_of_mem_spellings this h]

/-- Number of operands a built-in consumes.  `Conc` is applied to its operands
one after the other but consumes both, and the second application with them, at
the first. -/
def arity : Builtin → Nat
  | .conc => 2
  | _ => 1

end Builtin

end CSEMachine
