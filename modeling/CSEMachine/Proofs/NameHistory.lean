import CSEMachine.Proofs.Lowering.Refusal
import Mathlib.Data.Fintype.EquivFin
import Mathlib.Logic.Relation

/-!
# Tables of names over time

Between a new table and a later one lie calls: texts are named one by one, or all those of a
tree that is lowered, and a text is refused when no name is left for it.  Whatever the calls
were, the names of a table and its texts correspond, and they do so for good.

A table can be searched without reading through its texts, with an index beside them that maps
each text back to its number.  Such a table answers every call alike, and text and index stay
each other's inverse.

Main results:

- Theorem `NameTable.History.sound`: the invariant of a table is kept by every call.
- Theorem `IndexedNames.Holds.name`: naming a text keeps an indexed table in step with its list.
- Theorem `NameTable.reliable_of_history`: what can be relied on after any calls.
-/

namespace CSEMachine

namespace NameTable

/-! ## Calls -/

/-- A table can name a text that it lists, and any other as long as a name is left. -/
def Admits (table : NameTable) (text : String) : Prop :=
  text ∈ table.texts ∨ table.size < capacity

/-- One call.  A text is named, by the call that refuses it when no name is left or by the one
that does not come back then; or it is refused; or a tree is lowered, which comes back if there
are names for all texts that it comes to. -/
inductive Step (table : NameTable) : NameTable → Prop
  | named {text : String} (h : table.Admits text) : Step table (table.intern text).2
  | accepted {text : String} {name : Name} {later : NameTable}
      (h : table.intern? text = .ok (name, later)) : Step table later
  | refused {text : String} {full : Full} (h : table.intern? text = .error full) :
      Step table table
  | lowered (t : Term) (standardized : Bool)
      (h : (Program.ofTerm t standardized table).2.size ≤ capacity) :
      Step table (Program.ofTerm t standardized table).2

/-- Calls, one after the other. -/
def History : NameTable → NameTable → Prop :=
  Relation.ReflTransGen Step

/-! ## What a call does -/

variable {table later : NameTable} {text : String}

/-- A new text is listed at the end. -/
theorem intern_of_not_mem (h : text ∉ table.texts) : table.intern text = table.append text := by
  rw [intern, find?_eq_none_iff.mpr h]

/-- An admitted text gets its name from either call. -/
theorem intern?_of_admits (h : table.Admits text) :
    table.intern? text = .ok (table.intern text) := by
  unfold intern? intern
  cases hfind : table.find? text with
  | some name => rfl
  | none => exact if_pos (h.resolve_left (find?_eq_none_iff.mp hfind))

/-- A text that is not admitted is refused. -/
theorem intern?_of_not_admits (h : ¬ table.Admits text) :
    table.intern? text = .error ⟨table.size⟩ := by
  rw [Admits, not_or] at h
  rw [intern?, find?_eq_none_iff.mpr h.1]
  exact if_neg h.2

theorem nodup_intern (h : table.texts.Nodup) (text : String) :
    (table.intern text).2.texts.Nodup := by
  by_cases hmem : text ∈ table.texts
  · rw [intern_of_mem hmem]
    exact h
  · rw [intern_of_not_mem hmem]
    exact List.nodup_append.mpr ⟨h, List.nodup_singleton text, by
      rintro x hx y hy rfl
      exact hmem (List.mem_singleton.mp hy ▸ hx)⟩

theorem nodup_internAll (h : table.texts.Nodup) (texts : List String) :
    (table.internAll texts).texts.Nodup := by
  induction texts generalizing table with
  | nil => exact h
  | cons text texts ih => exact ih (nodup_intern h text)

/-- Texts that are new and distinct are listed as they are. -/
theorem internAll_of_nodup {texts : List String} (h : (table.texts ++ texts).Nodup) :
    table.internAll texts = ⟨table.id, table.texts ++ texts⟩ := by
  induction texts generalizing table with
  | nil => rw [List.append_nil, internAll, List.foldl_nil]
  | cons text texts ih =>
      have hnew : text ∉ table.texts := fun hmem =>
        (List.nodup_append.mp h).2.2 text hmem text List.mem_cons_self rfl
      have hcons : table.internAll (text :: texts) = (table.append text).2.internAll texts := by
        rw [internAll, List.foldl_cons, intern_of_not_mem hnew]
        rfl
      rw [List.append_cons] at h ⊢
      rw [hcons, ih h]
      rfl

/-- Naming an admitted text leaves no name beyond the last one. -/
theorem size_intern_le (hsize : table.size ≤ capacity) (h : table.Admits text) :
    (table.intern text).2.size ≤ capacity := by
  by_cases hmem : text ∈ table.texts
  · rw [intern_of_mem hmem]
    exact hsize
  · rw [intern_of_not_mem hmem]
    have hlt := h.resolve_left hmem
    simp only [append, size, List.length_append, List.length_singleton] at hlt ⊢
    omega

/-- A text was admitted if there is no name beyond the last one after it has been named. -/
theorem admits_of_size_le (h : (table.intern text).2.size ≤ capacity) : table.Admits text := by
  by_cases hmem : text ∈ table.texts
  · exact Or.inl hmem
  · rw [intern_of_not_mem hmem] at h
    simp only [append, size, List.length_append, List.length_singleton] at h
    exact Or.inr h

theorem Grows.size_le (h : table.Grows later) : table.size ≤ later.size :=
  h.texts.length_le

/-- Lowering a tree names texts, whatever becomes of the tree. -/
theorem exists_internAll_ofTerm (t : Term) (standardized : Bool) (table : NameTable) :
    ∃ texts, (Program.ofTerm t standardized table).2 = table.internAll texts := by
  rcases Walk.run_visits t.nodes table 1 with ⟨_, k, hrun⟩ | ⟨_, _, _, _, e, _, _, _, k, hrun⟩
  · rcases Program.ofTerm_of_visits_ok standardized hrun with ⟨p, hp⟩
    exact ⟨_, by rw [hp]⟩
  · exact ⟨_, by rw [Program.ofTerm_of_visits_error standardized hrun]⟩

/-- What a call leads to is what naming texts leads to, with names for all of them. -/
theorem Step.exists_internAll (h : table.Step later) (hsize : table.size ≤ capacity) :
    ∃ texts, later = table.internAll texts ∧ later.size ≤ capacity := by
  cases h with
  | named h => exact ⟨[_], rfl, size_intern_le hsize h⟩
  | @accepted text name _ h =>
      by_cases hadmits : table.Admits text
      · rw [intern?_of_admits hadmits, Except.ok.injEq] at h
        have hlater : (table.intern text).2 = later := congrArg Prod.snd h
        exact ⟨[text], hlater.symm, hlater ▸ size_intern_le hsize hadmits⟩
      · rw [intern?_of_not_admits hadmits] at h
        cases h
  | refused h => exact ⟨[], rfl, hsize⟩
  | lowered t standardized h =>
      rcases exists_internAll_ofTerm t standardized table with ⟨texts, htexts⟩
      exact ⟨texts, htexts, h⟩

/-! ## The invariant -/

/-- The invariant of a table: it lists no text twice, those of a new table come first, and no
number is beyond the names. -/
structure Sound (table : NameTable) : Prop where
  nodup : table.texts.Nodup
  begins : "" :: Builtin.allSpellings <+: table.texts
  size_le : table.size ≤ capacity

theorem sound_new (id : Nat) : (new id).Sound where
  nodup := by
    refine List.nodup_cons.mpr ⟨?_, Builtin.spellings_nodup⟩
    decide
  begins := List.prefix_rfl
  size_le := by
    have hsize : (new id).size = 17 := rfl
    rw [hsize]
    decide

/-- A call keeps the invariant. -/
theorem Step.sound (hstep : table.Step later) (h : table.Sound) : later.Sound := by
  rcases hstep.exists_internAll h.size_le with ⟨texts, rfl, hsize⟩
  exact ⟨nodup_internAll h.nodup texts,
    h.begins.trans (table.grows_internAll texts).texts, hsize⟩

/-- So do any calls. -/
theorem History.sound (hhistory : table.History later) (h : table.Sound) : later.Sound := by
  induction hhistory with
  | refl => exact h
  | tail _ hstep ih => exact hstep.sound ih

/-- A table that keeps the invariant only grows. -/
theorem History.grows_of_sound (hhistory : table.History later) (h : table.Sound) :
    table.Grows later := by
  induction hhistory with
  | refl => exact .refl table
  | tail hbefore hstep ih =>
      rcases hstep.exists_internAll (History.sound hbefore h).size_le with ⟨texts, rfl, _⟩
      exact ih.trans (grows_internAll _ texts)

/-- Where no text is listed twice, the name of a text is the number it is listed under. -/
theorem find?_eq_some_iff (h : table.texts.Nodup) {n : Nat} :
    table.find? text = some ⟨n⟩ ↔ table.texts[n]? = some text := by
  simp only [find?, Option.map_eq_some_iff, Name.mk.injEq, exists_eq_right,
    List.idxOf?_eq_some_iff, List.getElem?_eq_some_iff]
  constructor
  · rintro ⟨hlt, htext, _⟩
    exact ⟨hlt, htext⟩
  · rintro ⟨hlt, htext⟩
    refine ⟨hlt, htext, fun j hj heq => ?_⟩
    exact hj.ne ((h.getElem_inj_iff).mp (heq.trans htext.symm))

/-- A text that has been added has the next number, and all others are found as before. -/
theorem find?_append (h : text ∉ table.texts) (other : String) :
    (table.append text).2.find? other =
      if text = other then some ⟨table.size⟩ else table.find? other := by
  simp only [find?, append, List.idxOf?, List.findIdx?_append]
  by_cases heq : text = other
  · subst heq
    have hnone := List.idxOf?_eq_none_iff.mpr h
    rw [List.idxOf?] at hnone
    simp [hnone, size]
  · simp [heq]

/-! ## What can be relied on -/

/-- What can be relied on at any time. -/
structure Reliable (table : NameTable) : Prop extends table.Sound where
  /-- Names and texts are each other's inverse. -/
  find?_iff : ∀ text n, table.find? text = some ⟨n⟩ ↔ table.texts[n]? = some text
  /-- The text of a name is named by it again. -/
  named_again : ∀ n < table.size, table.intern (table.text ⟨n⟩) = (⟨n⟩, table)
  /-- Other numbers stand for the empty text. -/
  text_of_le : ∀ n, table.size ≤ n → table.text ⟨n⟩ = ""
  /-- Naming a known text changes nothing. -/
  known : ∀ text ∈ table.texts, (table.intern text).2 = table
  /-- Naming a new one adds it at the end, under the next number. -/
  added : ∀ text, text ∉ table.texts →
    table.intern text = (⟨table.size⟩, ⟨table.id, table.texts ++ [text]⟩)
  /-- As long as there is a name, the call that may refuse a text does what the other does. -/
  admitted : ∀ text, table.Admits text → table.intern? text = .ok (table.intern text)
  /-- A text is refused exactly if it is new and all names are in use. -/
  refused_iff : ∀ text, table.intern? text = .error ⟨capacity⟩ ↔
    text ∉ table.texts ∧ table.size = capacity
  /-- Every name keeps its text for good. -/
  kept : ∀ later, table.History later → ∀ n < table.size, later.text ⟨n⟩ = table.text ⟨n⟩
  /-- The name of a text stands for it for good, and for no other text. -/
  names : ∀ text, table.Admits text → ∀ later, (table.intern text).2.History later →
    later.text (table.intern text).1 = text ∧
      ∀ other, (later.intern other).1 = (table.intern text).1 ↔ other = text

namespace Sound

theorem named_again (h : table.Sound) {n : Nat} (hn : n < table.size) :
    table.intern (table.text ⟨n⟩) = (⟨n⟩, table) := by
  have htext : table.texts[n]? = some (table.text ⟨n⟩) := by
    rw [NameTable.text, List.getElem?_eq_getElem hn, Option.getD_some]
  rw [intern, (find?_eq_some_iff h.nodup).mpr htext]

theorem refused_iff (h : table.Sound) :
    table.intern? text = .error ⟨capacity⟩ ↔ text ∉ table.texts ∧ table.size = capacity := by
  by_cases hadmits : table.Admits text
  · rw [intern?_of_admits hadmits]
    refine ⟨nofun, ?_⟩
    rintro ⟨hnew, hfull⟩
    exact absurd (hadmits.resolve_left hnew) hfull.not_lt
  · rw [intern?_of_not_admits hadmits]
    rw [Admits, not_or, Nat.not_lt] at hadmits
    have hfull : table.size = capacity := h.size_le.antisymm hadmits.2
    rw [hfull]
    exact ⟨fun _ => ⟨hadmits.1, rfl⟩, fun _ => rfl⟩

theorem kept (h : table.Sound) (hlater : table.History later) {n : Nat} (hn : n < table.size) :
    later.text ⟨n⟩ = table.text ⟨n⟩ := by
  rcases (hlater.grows_of_sound h).texts with ⟨new, hnew⟩
  rw [NameTable.text, NameTable.text, ← hnew, List.getElem?_append_left hn]

/-- At any later time a text is named alike, and no other text is. -/
theorem names (h : table.Sound) (hadmits : table.Admits text)
    (hlater : (table.intern text).2.History later) :
    later.text (table.intern text).1 = text ∧
      ∀ other, (later.intern other).1 = (table.intern text).1 ↔ other = text := by
  have hgrows := hlater.grows_of_sound (Step.sound (.named hadmits) h)
  have hmem := table.mem_intern text
  rw [intern_fst]
  refine ⟨hgrows.text_nameOf hmem, fun other => ?_⟩
  -- the table after the second call is the one in which both names can be read
  have hname := later.grows_intern other
  rw [intern_fst, ← (hgrows.trans hname).nameOf_eq hmem]
  exact nameOf_inj (later.mem_intern other)

theorem reliable (h : table.Sound) : table.Reliable where
  toSound := h
  find?_iff _ _ := find?_eq_some_iff h.nodup
  named_again _ := h.named_again
  text_of_le n hn := by
    rw [NameTable.text, List.getElem?_eq_none hn, Option.getD_none]
  known _ := intern_of_mem
  added _ := intern_of_not_mem
  admitted _ := intern?_of_admits
  refused_iff _ := h.refused_iff
  kept _ hlater _ := h.kept hlater
  names _ hadmits _ := h.names hadmits

end Sound

end NameTable

/-! ## An index beside the texts -/

/-- A table as it is searched: the texts in the order of their names, and a map from each text
back to its number. -/
structure IndexedNames where
  id : Nat
  index : Std.HashMap String Nat
  texts : Array String

namespace IndexedNames

/-- Names a text: by the index if the text is known, otherwise by the next number, under which
it is then entered in both places, unless all names are in use. -/
def name (names : IndexedNames) (text : String) :
    Except NameTable.Full Name × IndexedNames :=
  match names.index[text]? with
  | some n => (.ok ⟨n⟩, names)
  | none =>
    if names.texts.size < NameTable.capacity then
      (.ok ⟨names.texts.size⟩,
        ⟨names.id, names.index.insert text names.texts.size, names.texts.push text⟩)
    else (.error ⟨names.texts.size⟩, names)

/-- Names several texts. -/
def nameAll (names : IndexedNames) (texts : List String) : IndexedNames :=
  texts.foldl (fun names text => (names.name text).2) names

/-- A new table: the empty text is entered under 0, and then every spelling of every built-in
is named. -/
def new (id : Nat) : IndexedNames :=
  nameAll ⟨id, (∅ : Std.HashMap String Nat).insert "" 0, #[""]⟩ Builtin.allSpellings

/-- One call: a text is named, or refused. -/
def Step (names later : IndexedNames) : Prop :=
  ∃ text, later = (names.name text).2

/-- Calls, one after the other. -/
def History : IndexedNames → IndexedNames → Prop :=
  Relation.ReflTransGen Step

/-- Index and texts are each other's inverse. -/
def Inverse (names : IndexedNames) : Prop :=
  ∀ (text : String) (n : Nat), names.index[text]? = some n ↔ names.texts[n]? = some text

/-- An indexed table holds what a list of names holds. -/
structure Holds (names : IndexedNames) (table : NameTable) : Prop where
  id : names.id = table.id
  texts : names.texts.toList = table.texts
  index : ∀ text, (names.index[text]?).map Name.mk = table.find? text

namespace Holds

variable {names : IndexedNames} {table : NameTable}

theorem size_eq (h : names.Holds table) : names.texts.size = table.size := by
  rw [NameTable.size, ← h.texts, Array.length_toList]

/-- The index of a table that lists no text twice is the inverse of its texts. -/
theorem inverse (h : names.Holds table) (hnodup : table.texts.Nodup) : names.Inverse := by
  intro text n
  have hindex := h.index text
  have hfind : table.find? text = some ⟨n⟩ ↔ table.texts[n]? = some text :=
    NameTable.find?_eq_some_iff hnodup
  rw [← hindex, ← h.texts] at hfind
  simpa using hfind

/-- Naming a text keeps an indexed table in step with its list: the answer is the same, and
both hold the same afterwards. -/
theorem name (h : names.Holds table) (text : String) :
    (names.name text).1 = (table.intern? text).map Prod.fst ∧
      (table.Admits text → (names.name text).2.Holds (table.intern text).2) ∧
      (¬ table.Admits text → (names.name text).2 = names) := by
  have hindex := h.index text
  have hsize := h.size_eq
  cases hfound : names.index[text]? with
  | some n =>
      rw [hfound] at hindex
      have hmem : text ∈ table.texts := by
        by_contra hnew
        rw [NameTable.find?_eq_none_iff.mpr hnew] at hindex
        cases hindex
      have hname : names.name text = (.ok ⟨n⟩, names) := by
        rw [IndexedNames.name, hfound]
      have hintern? : table.intern? text = .ok (⟨n⟩, table) := by
        rw [NameTable.intern?, ← hindex, Option.map_some]
      rw [hname, hintern?, NameTable.intern_of_mem hmem]
      exact ⟨rfl, fun _ => h, fun _ => rfl⟩
  | none =>
      rw [hfound] at hindex
      have hnew : text ∉ table.texts := NameTable.find?_eq_none_iff.mp hindex.symm
      by_cases hlt : table.size < NameTable.capacity
      · have hname : names.name text = (.ok ⟨table.size⟩,
            ⟨names.id, names.index.insert text table.size, names.texts.push text⟩) := by
          rw [IndexedNames.name, hfound, hsize]
          exact if_pos hlt
        have hadmits : table.Admits text := Or.inr hlt
        rw [hname, NameTable.intern?_of_admits hadmits, NameTable.intern_of_not_mem hnew]
        refine ⟨rfl, fun _ => ⟨h.id, ?_, ?_⟩, fun hrefused => absurd hadmits hrefused⟩
        · rw [Array.toList_push, h.texts]
          rfl
        · intro other
          rw [NameTable.find?_append hnew, ← h.index other, Std.HashMap.getElem?_insert]
          by_cases heq : text = other
          · simp [heq]
          · simp [heq]
      · have hname : names.name text = (.error ⟨table.size⟩, names) := by
          rw [IndexedNames.name, hfound, hsize]
          exact if_neg hlt
        have hrefused : ¬ table.Admits text := not_or.mpr ⟨hnew, hlt⟩
        rw [hname, NameTable.intern?_of_not_admits hrefused]
        exact ⟨rfl, fun hadmits => absurd hadmits hrefused, fun _ => rfl⟩

/-- As long as there are names, naming several texts keeps them in step. -/
theorem nameAll (h : names.Holds table) {texts : List String}
    (hsize : (table.internAll texts).size ≤ NameTable.capacity) :
    (names.nameAll texts).Holds (table.internAll texts) := by
  induction texts generalizing names table with
  | nil => exact h
  | cons text texts ih =>
      have hgrows := (table.intern text).2.grows_internAll texts
      exact ih ((h.name text).2.1 (NameTable.admits_of_size_le (hgrows.size_le.trans hsize))) hsize

end Holds

/-- A new indexed table holds what a new list of names holds. -/
theorem holds_new (id : Nat) : (new id).Holds (NameTable.new id) := by
  have hempty : (⟨id, (∅ : Std.HashMap String Nat).insert "" 0, #[""]⟩ : IndexedNames).Holds
      ⟨id, [""]⟩ := by
    refine ⟨rfl, rfl, fun text => ?_⟩
    have hnew : "" ∉ (⟨id, []⟩ : NameTable).texts := List.not_mem_nil
    have hfind := NameTable.find?_append hnew text
    rw [Std.HashMap.getElem?_insert]
    refine Eq.trans ?_ hfind.symm
    by_cases heq : "" = text
    · simp [heq, NameTable.size]
    · simp [heq, NameTable.find?]
  have hnew : (⟨id, [""]⟩ : NameTable).internAll Builtin.allSpellings = NameTable.new id :=
    NameTable.internAll_of_nodup (NameTable.sound_new id).nodup
  have hsize := (NameTable.sound_new id).size_le
  rw [← hnew] at hsize ⊢
  exact hempty.nameAll hsize

theorem history_nameAll (names : IndexedNames) (texts : List String) :
    names.History (names.nameAll texts) := by
  induction texts generalizing names with
  | nil => exact .refl
  | cons text texts ih => exact .head ⟨text, rfl⟩ (ih _)

/-- Whatever calls a list of names has answered, there are calls after which an indexed table
holds the same. -/
theorem exists_holds {id : Nat} {table : NameTable}
    (h : (NameTable.new id).History table) :
    ∃ names, (new id).History names ∧ names.Holds table := by
  induction h with
  | refl => exact ⟨new id, .refl, holds_new id⟩
  | tail hbefore hstep ih =>
      rcases ih with ⟨names, hnames, hholds⟩
      have hsound := NameTable.History.sound hbefore (NameTable.sound_new id)
      rcases hstep.exists_internAll hsound.size_le with ⟨texts, rfl, hsize⟩
      exact ⟨_, hnames.trans (names.history_nameAll texts), hholds.nameAll hsize⟩

/-- And the other way round. -/
theorem History.exists_holds {id : Nat} {names : IndexedNames} (h : (new id).History names) :
    ∃ table, (NameTable.new id).History table ∧ names.Holds table := by
  induction h with
  | refl => exact ⟨.new id, .refl, holds_new id⟩
  | tail _ hstep ih =>
      rcases ih with ⟨table, htable, hholds⟩
      rcases hstep with ⟨text, rfl⟩
      by_cases hadmits : table.Admits text
      · exact ⟨_, htable.tail (.named hadmits), (hholds.name text).2.1 hadmits⟩
      · rw [(hholds.name text).2.2 hadmits]
        exact ⟨table, htable, hholds⟩

end IndexedNames

/-! ## After any calls -/

namespace NameTable

/-- Names come into use up to the last one. -/
theorem exists_history_size_eq {table : NameTable} {n : Nat} (hn : table.size ≤ n)
    (hle : n ≤ capacity) : ∃ later, table.History later ∧ later.size = n := by
  induction n, hn using Nat.le_induction with
  | base => exact ⟨table, .refl, rfl⟩
  | succ n _ ih =>
      rcases ih (Nat.le_of_succ_le hle) with ⟨later, hlater, hsize⟩
      rcases Infinite.exists_notMem_finset later.texts.toFinset with ⟨text, htext⟩
      rw [List.mem_toFinset] at htext
      have hadmits : later.Admits text := Or.inr (hsize ▸ hle)
      refine ⟨_, hlater.tail (.named hadmits), ?_⟩
      rw [intern_of_not_mem htext, append, size, List.length_append, List.length_singleton]
      exact congrArg (· + 1) hsize

/-- Whatever a new table has been asked, its names can be relied on.  The same calls lead an
indexed table to hold the same; whatever that one has been asked, its index and its texts are
each other's inverse, it answers as a list of names does, and it is left as it was by a text
that it refuses. -/
theorem reliable_of_history (id : Nat) :
    (∀ table, (new id).History table →
      table.Reliable ∧ ∃ names, (IndexedNames.new id).History names ∧ names.Holds table) ∧
    ∀ names, (IndexedNames.new id).History names →
      names.Inverse ∧ ∃ table, (new id).History table ∧ names.Holds table ∧
        ∀ text, (names.name text).1 = (table.intern? text).map Prod.fst ∧
          (¬ table.Admits text → (names.name text).2 = names) := by
  constructor
  · intro table h
    exact ⟨(h.sound (sound_new id)).reliable, IndexedNames.exists_holds h⟩
  · intro names h
    rcases h.exists_holds with ⟨table, htable, hholds⟩
    refine ⟨hholds.inverse (htable.sound (sound_new id)).nodup, table, htable, hholds, ?_⟩
    intro text
    exact ⟨(hholds.name text).1, (hholds.name text).2.2⟩

/-- Lowering `fn y. print x` gives the two texts that are new the names 17 and 18.  They keep
them until all names are in use, and a further text is refused. -/
theorem reliable_of_history_lowered :
    let t : Term := .lambda 1 ["y"] (.app 2 (.ident 3 "print") (.ident 4 "x"))
    let table := (Program.ofTerm t true (new 0)).2
    (new 0).History table ∧ table.texts.drop 17 = ["y", "x"] ∧
      ∃ later text, table.History later ∧ later.text ⟨17⟩ = "y" ∧
        later.intern? text = .error ⟨capacity⟩ := by
  intro t table
  have htable : table = ⟨0, (new 0).texts ++ ["y", "x"]⟩ := rfl
  have hsize : table.size = 19 := by rw [htable]; rfl
  have hhistory : (new 0).History table := by
    refine .tail .refl (.lowered t true ?_)
    rw [hsize]
    decide
  have hreliable := ((reliable_of_history 0).1 table hhistory).1
  rcases exists_history_size_eq (by rw [hsize]; decide) (le_refl capacity) with
    ⟨later, hlater, hfull⟩
  rcases Infinite.exists_notMem_finset later.texts.toFinset with ⟨text, htext⟩
  rw [List.mem_toFinset] at htext
  have hlast := ((reliable_of_history 0).1 later (hhistory.trans hlater)).1
  refine ⟨hhistory, by rw [htable]; rfl, later, text, hlater, ?_, ?_⟩
  · rw [hreliable.kept later hlater 17 (by rw [hsize]; decide), htable]
    rfl
  · exact (hlast.refused_iff text).mpr ⟨htext, hfull⟩

end NameTable

end CSEMachine
