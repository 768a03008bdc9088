import CSEMachine.Proofs.Unfolding

/-!
# Writing values that hold themselves

A value is written into a text piece by piece, with a list of the tuples that are being written
at the moment.  A tuple enters the list before its first element and leaves it after its last;
one that is in the list already is marked.  Since every nested tuple enters one more of the
tuples in the store, writing ends, and since each one leaves again, a tuple is marked exactly
where it stands inside itself, however often it stands elsewhere.

Main results:

- Theorem `Value.write_of_lt`: writing ends, and leaves the list of open tuples as it was.
- Theorem `Value.marks_layout`: on every path a tuple is open at most once, and marked exactly
  where it is open.
- Theorem `Value.exists_mark_iff`: something is marked exactly if there is a cycle.
- Theorem `Value.display_augment`: augmenting a tuple elsewhere changes no text.
- Theorem `Value.display_marks_cycles`: these together.
-/

namespace CSEMachine

/-! ## Writing piece by piece -/

/-- What is kept while a value is written: the tuples that are open, the one opened last at the
front, and the text so far. -/
structure Writer where
  opened : List Nat
  text : String

namespace Writer

/-- Adds a piece of text. -/
def put (w : Writer) (piece : String) : Writer :=
  { w with text := w.text ++ piece }

/-- Opens a tuple. -/
def enter (w : Writer) (ref : Nat) : Writer :=
  { w with opened := ref :: w.opened }

/-- Closes the tuple opened last. -/
def leave (w : Writer) : Writer :=
  { w with opened := w.opened.tail }

@[simp]
theorem put_put (w : Writer) (piece next : String) :
    (w.put piece).put next = w.put (piece ++ next) := by
  simp [put, String.append_assoc]

@[simp]
theorem leave_put_enter (w : Writer) (ref : Nat) (piece : String) :
    ((w.enter ref).put piece).leave = w.put piece :=
  rfl

end Writer

/-- Writes values one after the other, with a comma before each but the first. -/
def writeItems (write : Value → Writer → Option Writer) : List Value → Writer → Option Writer
  | [], w => some w
  | [v], w => write v w
  | v :: v' :: vs, w => do
    let w ← write v w
    writeItems write (v' :: vs) (w.put ", ")

/-- Writes a value, unless more than `depth` levels are needed for it. -/
def Value.write (store : Store) : Nat → Value → Writer → Option Writer
  | 0, _, _ => none
  | depth + 1, v, w => v.elim (fun a => some (w.put a.text)) fun ref =>
    if ref ∈ w.opened then some (w.put "(...)")
    else if (store.items ref).isEmpty then some (w.put "nil")
    else do
      let w ← writeItems (write store depth) (store.items ref).toList ((w.enter ref).put "(")
      some (w.leave.put ")")

/-- If each of several values is written by a text of its own, so are all of them. -/
theorem writeItems_eq {write : Value → Writer → Option Writer} {vs : List Value}
    {text : Value → String} {w : Writer}
    (h : ∀ v ∈ vs, ∀ w' : Writer, w'.opened = w.opened → write v w' = some (w'.put (text v))) :
    writeItems write vs w = some (w.put (", ".intercalate (vs.map text))) := by
  induction vs generalizing w with
  | nil => simp [writeItems, Writer.put]
  | cons v vs ih =>
      have hfirst := h v List.mem_cons_self w rfl
      cases vs with
      | nil => simpa [writeItems] using hfirst
      | cons v' vs =>
          have hrest := ih (w := (w.put (text v)).put ", ") fun x hx w' hw' =>
            h x (List.mem_cons_of_mem v hx) w' hw'
          simp only [writeItems, hfirst, Option.bind_eq_bind, Option.bind_some]
          rw [hrest]
          simp [String.append_assoc]

namespace Value

variable {store : Store} {v : Value}

/-- Writing ends after no more levels than there are closed tuples, and leaves the list of open
tuples as it was. -/
theorem write_of_lt {depth : Nat} {w : Writer} (h : store.countClosed w.opened < depth) :
    v.write store depth w = some (w.put (v.displayWithin store w.opened)) := by
  induction depth generalizing v w with
  | zero => cases h
  | succ depth ih =>
      rcases v.atom_or_tuple with ⟨a, rfl⟩ | ⟨ref, rfl⟩
      · rw [write, elim_atom, displayWithin_atom]
      · rw [write, elim_tuple, displayWithin_tuple]
        by_cases hopen : ref ∈ w.opened
        · rw [if_pos hopen, if_pos hopen]
        · rw [if_neg hopen, if_neg hopen]
          by_cases hempty : (store.items ref).toList = []
          · rw [if_pos hempty, if_pos]
            simpa using hempty
          · have hclosed := Store.countClosed_lt (Store.lt_size_of_items_ne_nil hempty) hopen
            have hitems : writeItems (write store depth) (store.items ref).toList
                ((w.enter ref).put "(") = some (((w.enter ref).put "(").put (", ".intercalate
                  ((store.items ref).toList.map (displayWithin store (ref :: w.opened))))) := by
              refine writeItems_eq fun item _ w' hw' => ?_
              have hopened : w'.opened = ref :: w.opened := hw'
              rw [← hopened] at hclosed ⊢
              exact ih (Nat.lt_of_lt_of_le hclosed (Nat.le_of_lt_succ h))
            rw [if_neg hempty, if_neg (by simpa using hempty), hitems]
            simp [String.append_assoc]

/-- With no tuple open, there are as many levels as tuples. -/
theorem write_of_size_lt {depth : Nat} (h : store.tuples.size < depth) (text : String) :
    v.write store depth ⟨[], text⟩ = some ⟨[], text ++ v.display store⟩ := by
  have hclosed : store.countClosed [] = store.tuples.size := by
    simp [Store.countClosed]
  exact write_of_lt (hclosed.symm ▸ h)

end Value

/-! ## Layouts -/

/-- What is written for a value: an atom, the mark of a tuple, or a tuple by its elements. -/
inductive Layout where
  | atom (atom : Atom)
  | mark (ref : Nat)
  | tuple (ref : Nat) (items : List Layout)

namespace Layout

/-- The value that a layout stands for. -/
def value : Layout → Value
  | .atom a => a.1
  | .mark ref => .tuple ref
  | .tuple ref _ => .tuple ref

/-- The text of a layout. -/
def text : Layout → String
  | .atom a => a.text
  | .mark _ => "(...)"
  | .tuple _ items => tupleText (items.map text)

/-- `At opened l path l'` says that, with the tuples of `opened` around `l`, those of `path`
are around a part `l'` of it. -/
inductive At : List Nat → Layout → List Nat → Layout → Prop
  | here (opened : List Nat) (l : Layout) : At opened l opened l
  | item {opened path : List Nat} {ref : Nat} {items : List Layout} {l l' : Layout} :
      l ∈ items → At (ref :: opened) l path l' → At opened (.tuple ref items) path l'

/-- No tuple is open twice, and a tuple is marked where it is open, and written by all its
elements where it is not. -/
structure Marks (store : Store) (l : Layout) : Prop where
  nodup : ∀ {path : List Nat} {l' : Layout}, At [] l path l' → path.Nodup
  mem_of_mark : ∀ {path : List Nat} {ref : Nat}, At [] l path (.mark ref) → ref ∈ path
  not_mem_of_tuple : ∀ {path : List Nat} {ref : Nat} {items : List Layout},
    At [] l path (.tuple ref items) → ref ∉ path
  items_of_tuple : ∀ {path : List Nat} {ref : Nat} {items : List Layout},
    At [] l path (.tuple ref items) → items.map value = (store.items ref).toList

end Layout

/-- The layout of a value inside the tuples of `opened`. -/
def Value.layoutWithin (store : Store) (opened : List Nat) (v : Value) : Layout :=
  v.elim .atom fun ref =>
    if hopen : ref ∈ opened then .mark ref
    else if hlt : ref < store.tuples.size then
      .tuple ref (store.tuples[ref].toList.map fun item =>
        item.layoutWithin store (ref :: opened))
    else .tuple ref []
termination_by store.countClosed opened
decreasing_by exact Store.countClosed_lt hlt hopen

/-- The layout of a value. -/
def Value.layout (store : Store) (v : Value) : Layout :=
  v.layoutWithin store []

namespace Value

variable {store : Store} {v : Value} {opened path : List Nat} {ref : Nat} {l : Layout}

theorem layoutWithin_atom (store : Store) (opened : List Nat) (a : Atom) :
    a.1.layoutWithin store opened = .atom a := by
  rw [layoutWithin, elim_atom]

/-- A tuple is laid out by its elements, unless it is open. -/
theorem layoutWithin_tuple (store : Store) (opened : List Nat) (ref : Nat) :
    (Value.tuple ref).layoutWithin store opened =
      if ref ∈ opened then .mark ref
      else .tuple ref ((store.items ref).toList.map (layoutWithin store (ref :: opened))) := by
  rw [layoutWithin, elim_tuple]
  by_cases hlt : ref < store.tuples.size <;> simp [Store.items, hlt]

/-- A mark stands for a tuple that is open. -/
theorem layoutWithin_eq_mark :
    v.layoutWithin store opened = .mark ref ↔ v = .tuple ref ∧ ref ∈ opened := by
  rcases v.atom_or_tuple with ⟨a, rfl⟩ | ⟨ref', rfl⟩
  · simp [layoutWithin_atom, a.ne_tuple]
  · rw [layoutWithin_tuple]
    split <;> grind

/-- A tuple is laid out in full where it is closed. -/
theorem layoutWithin_eq_tuple {items : List Layout} :
    v.layoutWithin store opened = .tuple ref items ↔ v = .tuple ref ∧ ref ∉ opened ∧
      items = (store.items ref).toList.map (layoutWithin store (ref :: opened)) := by
  rcases v.atom_or_tuple with ⟨a, rfl⟩ | ⟨ref', rfl⟩
  · simp [layoutWithin_atom, a.ne_tuple]
  · rw [layoutWithin_tuple]
    split <;> grind

/-- A layout stands for the value it was made of. -/
theorem value_layoutWithin (store : Store) (opened : List Nat) (v : Value) :
    (v.layoutWithin store opened).value = v := by
  rcases v.atom_or_tuple with ⟨a, rfl⟩ | ⟨ref, rfl⟩
  · rw [layoutWithin_atom, Layout.value]
  · rw [layoutWithin_tuple]
    split <;> rfl

/-- A value is written as it is laid out. -/
theorem text_layoutWithin (store : Store) (opened : List Nat) (v : Value) :
    (v.layoutWithin store opened).text = v.displayWithin store opened := by
  induction opened, v using within_induction store with
  | atom opened a => rw [layoutWithin_atom, displayWithin_atom, Layout.text]
  | opened opened ref hopen =>
      rw [layoutWithin_tuple, displayWithin_eq_tupleText, if_pos hopen, if_pos hopen, Layout.text]
  | closed opened ref hopen ih =>
      rw [layoutWithin_tuple, displayWithin_eq_tupleText, if_neg hopen, if_neg hopen, Layout.text,
        List.map_map]
      exact congrArg tupleText (List.map_congr_left ih)

/-- What stands in a layout is the layout of a value that is come to through tuples, each of
which was closed when it was opened. -/
theorem exists_of_at (h : Layout.At opened (v.layoutWithin store opened) path l) :
    ∃ w : Value, w.layoutWithin store path = l ∧ (opened.Nodup → path.Nodup) ∧
      (Below store opened v → Below store path w) ∧ (v.Acyclic store → w.Acyclic store) := by
  generalize hl : v.layoutWithin store opened = whole at h
  induction h generalizing v with
  | here opened l => exact ⟨v, hl, id, id, id⟩
  | item hmem _ ih =>
      rcases layoutWithin_eq_tuple.mp hl with ⟨rfl, hopen, rfl⟩
      rcases List.mem_map.mp hmem with ⟨item, hitem, hinner⟩
      rcases ih hinner with ⟨w, hw, hnodup, hbelow, hacyclic⟩
      exact ⟨w, hw, fun h => hnodup (List.nodup_cons.mpr ⟨hopen, h⟩),
        fun h => hbelow (h.item hitem), fun h => hacyclic (h.item hitem)⟩

/-- On every path a tuple is open at most once, and marked exactly where it is open. -/
theorem marks_layout (store : Store) (v : Value) : (v.layout store).Marks store where
  nodup h := by
    rcases exists_of_at h with ⟨w, -, hnodup, -⟩
    exact hnodup List.nodup_nil
  mem_of_mark h := by
    rcases exists_of_at h with ⟨w, hw, -⟩
    exact (layoutWithin_eq_mark.mp hw).2
  not_mem_of_tuple h := by
    rcases exists_of_at h with ⟨w, hw, -⟩
    exact (layoutWithin_eq_tuple.mp hw).2.1
  items_of_tuple h := by
    rcases exists_of_at h with ⟨w, hw, -⟩
    rcases layoutWithin_eq_tuple.mp hw with ⟨-, -, rfl⟩
    rw [List.map_map]
    exact (List.map_congr_left fun item _ => value_layoutWithin store _ item).trans
      (List.map_id _)

/-! ## Cycles -/

/-- Where nothing is marked, a value unfolds. -/
theorem exists_unfolds_of_not_mark
    (h : ∀ path ref, ¬ Layout.At opened (v.layoutWithin store opened) path (.mark ref)) :
    ∃ t, v.Unfolds store t := by
  induction opened, v using within_induction store with
  | atom opened a => exact ⟨.leaf a.leaf, 0, unfoldTo_atom store 0 a⟩
  | opened opened ref hopen =>
      rw [layoutWithin_tuple, if_pos hopen] at h
      exact absurd (.here opened _) (h opened ref)
  | closed opened ref hopen ih =>
      rw [layoutWithin_tuple, if_neg hopen] at h
      refine exists_unfolds_tuple fun item hitem => ih item hitem fun path inner hmark => ?_
      exact h path inner (.item (List.mem_map_of_mem hitem) hmark)

/-- Something is marked exactly if there is a cycle. -/
theorem exists_mark_iff :
    (∃ path ref, Layout.At [] (v.layout store) path (.mark ref)) ↔ ¬ v.Acyclic store := by
  constructor
  · rintro ⟨path, ref, hmark⟩ hacyclic
    rcases exists_of_at hmark with ⟨w, hw, -, hbelow, hinner⟩
    rcases layoutWithin_eq_mark.mp hw with ⟨rfl, hopen⟩
    exact (hbelow (.nil store v)).not_mem (hinner hacyclic) hopen
  · intro hcyclic
    by_contra hnone
    simp only [not_exists] at hnone
    exact hcyclic (acyclic_iff_unfolds.mpr (exists_unfolds_of_not_mark hnone))

/-! ## Tuples elsewhere -/

/-- The link under which the tuples that can be come to from a value stand for themselves. -/
def reached (store : Store) (v : Value) : Link where
  cell r r' := r = r' ∧ v.Reaches store r
  closure c d := c = d
  cell_iff := by
    rintro r _ q _ ⟨rfl, -⟩ ⟨rfl, -⟩
    rfl
  index_eq := by
    rintro c _ rfl
    rfl

/-- A value stands for itself if the tuple it may be does. -/
theorem linked_reached {w : Value} (h : ∀ ref, w = .tuple ref → v.Reaches store ref) :
    Linked (v.reached store) w w := by
  cases w with
  | int n => exact .int n
  | str s => exact .str s
  | bool b => exact .bool b
  | dummy => exact .dummy
  | tuple ref => exact .tuple ⟨rfl, h ref rfl⟩
  | closure c => exact .closure rfl
  | eta c => exact .eta rfl
  | builtin b => exact .builtin b
  | fixpoint => exact .fixpoint

/-- Augmenting a tuple that cannot be come to leaves those that can as they were. -/
theorem storeLinked_reached (h : ¬ v.Reaches store ref) (item : Value) :
    Store.Linked (v.reached store) (store.augment ref item) store where
  items := by
    rintro r _ ⟨rfl, hreached⟩
    have hitems : (store.augment ref item).items r = store.items r := by
      by_cases hlt : ref < store.tuples.size
      · have hne : r ≠ ref := by
          rintro rfl
          exact h hreached
        rw [Store.items_augment hlt, if_neg hne]
      · rw [Store.augment_of_not_lt hlt]
    rw [hitems, List.forall₂_same]
    rintro w hw
    refine linked_reached fun inner hinner => ?_
    subst hinner
    rcases hreached with ⟨first, rfl, hfirst⟩
    exact ⟨first, rfl, .tail hfirst hw⟩
  bound := by
    rintro r _ ⟨rfl, -⟩
    rw [Store.size_augment]

/-- Augmenting a tuple elsewhere changes no text. -/
theorem display_augment (h : ¬ v.Reaches store ref) (item : Value) :
    v.display (store.augment ref item) = v.display store := by
  refine Linked.display_eq (storeLinked_reached h item) (linked_reached ?_)
  rintro inner rfl
  exact .self store inner

/-- Every value is written, for all sharing and all cycles among tuples.

Writing it ends, after no more levels than there are tuples, with no tuple left open.  In its
layout, which has the text that is written, no tuple stands inside itself: it is marked where
it is open, and otherwise written by all its elements.  Something is marked exactly if there is
a cycle.  Without one, the text is that of the unfolded tree, so that values which unfold alike
have the same text.  And augmenting a tuple elsewhere does not change it. -/
theorem display_marks_cycles (store : Store) (v : Value) :
    (∀ depth, store.tuples.size < depth → ∀ text,
      v.write store depth ⟨[], text⟩ = some ⟨[], text ++ v.display store⟩) ∧
    (v.layout store).value = v ∧ (v.layout store).text = v.display store ∧
    (v.layout store).Marks store ∧
    ((∃ path ref, Layout.At [] (v.layout store) path (.mark ref)) ↔ ¬ v.Acyclic store) ∧
    (v.Acyclic store → ∃ t, v.Unfolds store t ∧ v.display store = t.text ∧
      ∀ (store' : Store) (v' : Value), v'.Unfolds store' t →
        v'.display store' = v.display store) ∧
    ∀ (ref : Nat) (item : Value), ¬ v.Reaches store ref →
      v.display (store.augment ref item) = v.display store := by
  refine ⟨fun depth h text => write_of_size_lt h text, value_layoutWithin store [] v,
    text_layoutWithin store [] v, marks_layout store v, exists_mark_iff, ?_,
    fun ref item h => display_augment h item⟩
  intro hacyclic
  rcases acyclic_iff_unfolds.mp hacyclic with ⟨t, ht⟩
  refine ⟨t, ht, display_eq_text ht, fun store' v' hv' => ?_⟩
  rw [display_eq_text hv', display_eq_text ht]

end Value

/-- A tuple that holds another one twice, which holds the first in turn, and an empty tuple
elsewhere. -/
def Store.knot : Store :=
  ⟨#[#[.str "a", .tuple 1, .tuple 1], #[.tuple 0], #[]], #[]⟩

/-- The tuple held twice is written twice, and the mark stands in it each time. -/
theorem Value.display_marks_cycles_knot :
    (Value.tuple 0).write Store.knot 4 ⟨[], "> "⟩ = some ⟨[], "> (a, ((...)), ((...)))"⟩ ∧
      (∃ path ref, Layout.At [] ((Value.tuple 0).layout Store.knot) path (.mark ref)) ∧
      (Value.tuple 0).display (Store.knot.augment 2 .dummy) = "(a, ((...)), ((...)))" := by
  have htext : (Value.tuple 0).display Store.knot = "(a, ((...)), ((...)))" := by
    simp [display, displayWithin, Store.knot]
  have hreaches : ¬ (Value.tuple 0).Reaches Store.knot 2 := by
    rintro ⟨_, ⟨⟩, hpath⟩
    have hsmall : ∀ ref, Relation.ReflTransGen Store.knot.Contains 0 ref → ref < 2 := by
      intro ref hpath
      induction hpath with
      | refl => decide
      | tail _ hcontains ih =>
          rename_i outer inner
          rcases Nat.le_one_iff_eq_zero_or_eq_one.mp (Nat.le_of_lt_succ ih) with rfl | rfl
          · simp_all [Store.Contains, Store.items, Store.knot]
          · simp_all [Store.Contains, Store.items, Store.knot]
    exact absurd (hsmall 2 hpath) (Nat.lt_irrefl 2)
  have hcycle : ¬ (Value.tuple 0).Acyclic Store.knot := by
    intro hacyclic
    have hdown : Store.knot.Contains 0 1 := by
      simp [Store.Contains, Store.items, Store.knot]
    have hup : Store.knot.Contains 1 0 := by
      simp [Store.Contains, Store.items, Store.knot]
    exact hacyclic 0 (.self Store.knot 0) (.tail (.single hdown) hup)
  rcases display_marks_cycles Store.knot (.tuple 0) with ⟨hwrite, -, -, -, hmark, -, haugment⟩
  refine ⟨?_, hmark.mpr hcycle, ?_⟩
  · rw [hwrite 4 (by decide), htext]
    rfl
  · rw [haugment 2 .dummy hreaches, htext]

end CSEMachine
