import CSEMachine.Builtin

/-!
# Names

Identifiers are replaced by small numbers, their *names*, before a program runs.
A table lists the distinct texts named so far, and the name of a text is its
position, so one list serves both directions.

Main results:

- Theorem `NameTable.text_intern`: the name given for a text stands for it.
- Theorem `NameTable.intern_of_mem`: a text already listed leaves the table as it was.
-/

namespace CSEMachine

/-- The position of a text in a name table. -/
structure Name where
  raw : Nat
deriving DecidableEq

/-- The name every table gives the empty text. -/
def Name.empty : Name := ⟨0⟩

/-- The texts named so far, in the order in which they were first met.  Names mean
something only to the table that gave them; `id` tells tables apart. -/
structure NameTable where
  id : Nat
  texts : List String

/-- A table refused a text because all names are in use. -/
structure NameTable.Full where
  count : Nat
deriving DecidableEq

namespace NameTable

/-- Names are 32-bit numbers. -/
def capacity : Nat := 4294967296

/-- Explains the refusal. -/
def Full.message (full : Full) : String :=
  s!"interner exceeded capacity: {full.count} strings, max is {capacity - 1}"

/-- A table that lists the empty text and every spelling of every built-in. -/
def new (id : Nat) : NameTable :=
  ⟨id, "" :: Builtin.allSpellings⟩

/-- Number of texts listed. -/
def size (table : NameTable) : Nat :=
  table.texts.length

/-- The name of a text that is listed. -/
def find? (table : NameTable) (text : String) : Option Name :=
  (table.texts.idxOf? text).map Name.mk

/-- The text a name stands for, empty for a number the table never gave. -/
def text (table : NameTable) (name : Name) : String :=
  table.texts[name.raw]?.getD ""

/-- Lists a text at the end. -/
def append (table : NameTable) (text : String) : Name × NameTable :=
  (⟨table.size⟩, { table with texts := table.texts ++ [text] })

/-- The name of a text, listing the text first if it is new. -/
def intern (table : NameTable) (text : String) : Name × NameTable :=
  match table.find? text with
  | some name => (name, table)
  | none => table.append text

/-- Like `intern`, but refuses a new text when all names are in use. -/
def intern? (table : NameTable) (text : String) : Except Full (Name × NameTable) :=
  match table.find? text with
  | some name => .ok (name, table)
  | none => if table.size < capacity then .ok (table.append text) else .error ⟨table.size⟩

/-! ## Laws of the table -/

theorem find?_eq_none_iff {table : NameTable} {text : String} :
    table.find? text = none ↔ text ∉ table.texts := by
  simp [find?]

/-- A name found for a text stands for it. -/
theorem text_of_find? {table : NameTable} {text : String} {name : Name}
    (h : table.find? text = some name) : table.text name = text := by
  simp only [find?, Option.map_eq_some_iff] at h
  obtain ⟨i, hi, rfl⟩ := h
  obtain ⟨hlt, heq, -⟩ := List.idxOf?_eq_some_iff.1 hi
  simp [NameTable.text, heq, hlt]

/-- The name given for a text stands for it. -/
theorem text_intern (table : NameTable) (text : String) :
    (table.intern text).2.text (table.intern text).1 = text := by
  unfold intern
  split
  · rename_i h
    exact text_of_find? h
  · simp [append, size, NameTable.text]

/-- A text already listed leaves the table as it was. -/
theorem intern_of_mem {table : NameTable} {text : String} (h : text ∈ table.texts) :
    (table.intern text).2 = table := by
  unfold intern
  split
  · rfl
  · rename_i hnone
    exact absurd h (find?_eq_none_iff.1 hnone)

end NameTable

end CSEMachine
