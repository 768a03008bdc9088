import CSEMachine.Proofs.Correspondence.Values
import CSEMachine.Value.Equality
import Mathlib.Logic.Relation

/-!
# Unfolded values

A value is an atom or a tuple, and a tuple holds values in turn.  From a value one comes to the
tuples in it, to those in these, and so on; environments of closures are not entered.  As long
as no tuple is come to from itself, the value can be unfolded into a finite tree, in which a
tuple that is held in several places stands in each of them.  The leaves of the tree are what is
compared of atoms: a function is a leaf by the identity of its block and by its environment.

Main results:

- Theorem `Value.within_induction`: induction on values inside open tuples.
- Theorem `Value.unfolds_unique`: a value unfolds to one tree only.
- Theorem `Value.acyclic_iff_unfolds`: the values that unfold are those without a cycle.
- Theorem `Value.display_eq_text`: such a value is written as its tree is.
-/

namespace CSEMachine

/-! ## Atoms and tuples -/

/-- The number of a tuple. -/
def Value.ref? : Value → Option Nat
  | .tuple ref => some ref
  | _ => none

/-- A value that is no tuple. -/
abbrev Atom := { v : Value // v.ref? = none }

/-- Tells tuples and atoms apart. -/
def Value.elim {α : Type} (onAtom : Atom → α) (onTuple : Nat → α) (v : Value) : α :=
  match h : v.ref? with
  | none => onAtom ⟨v, h⟩
  | some ref => onTuple ref

@[simp]
theorem Value.elim_tuple {α : Type} (onAtom : Atom → α) (onTuple : Nat → α) (ref : Nat) :
    (Value.tuple ref).elim onAtom onTuple = onTuple ref :=
  rfl

@[simp]
theorem Value.elim_atom {α : Type} (onAtom : Atom → α) (onTuple : Nat → α) (a : Atom) :
    a.1.elim onAtom onTuple = onAtom a := by
  unfold Value.elim
  split
  · rfl
  · rename_i ref h
    rw [a.2] at h
    cases h

/-- Every value is an atom or a tuple. -/
theorem Value.atom_or_tuple (v : Value) : (∃ a : Atom, a.1 = v) ∨ ∃ ref, v = .tuple ref := by
  cases v with
  | tuple ref => exact Or.inr ⟨ref, rfl⟩
  | _ => exact Or.inl ⟨⟨_, rfl⟩, rfl⟩

/-- No atom is a tuple. -/
theorem Atom.ne_tuple (a : Atom) (ref : Nat) : a.1 ≠ .tuple ref := by
  intro h
  have ha := a.2
  rw [h] at ha
  cases ha

/-- Of every atom something is compared. -/
theorem Atom.isSome_leaf? (a : Atom) : a.1.leaf?.isSome = true := by
  rcases a with ⟨_ | _ | _ | _ | ref | _ | _ | _ | _, h⟩
  case tuple => cases h
  all_goals rfl

/-- What is compared of an atom. -/
def Atom.leaf (a : Atom) : Leaf :=
  a.1.leaf?.get a.isSome_leaf?

theorem Atom.leaf?_eq (a : Atom) : a.1.leaf? = some a.leaf :=
  (Option.some_get _).symm

/-- The text of a leaf. -/
def Leaf.text : Leaf → String
  | int n => toString n
  | str s => s
  | bool b => toString b
  | dummy => "dummy"
  | closure block _ => s!"[lambda closure: {block.index}]"
  | eta block _ => s!"[eta closure: {block.index}]"
  | builtin b => b.spelling
  | fixpoint => "Y*"

/-- The text of an atom. -/
def Atom.text (a : Atom) : String :=
  a.leaf.text

/-- The text of a tuple whose elements have the given texts. -/
def tupleText : List String → String
  | [] => "nil"
  | text :: texts => "(" ++ ", ".intercalate (text :: texts) ++ ")"

/-- An atom is written alike wherever it stands. -/
theorem Value.displayWithin_atom (store : Store) (opened : List Nat) (a : Atom) :
    a.1.displayWithin store opened = a.text := by
  rcases a with ⟨_ | _ | _ | _ | ref | _ | _ | _ | _, h⟩
  case tuple => cases h
  all_goals simp only [displayWithin]
  all_goals rfl

/-- A tuple is written by its elements, unless it is open. -/
theorem Value.displayWithin_eq_tupleText (store : Store) (opened : List Nat) (ref : Nat) :
    (Value.tuple ref).displayWithin store opened =
      if ref ∈ opened then "(...)"
      else tupleText ((store.items ref).toList.map (displayWithin store (ref :: opened))) := by
  rw [displayWithin_tuple]
  split
  · rfl
  · cases (store.items ref).toList with
    | nil => rfl
    | cons v vs => rfl

/-! ## What can be come to -/

/-- A tuple holds another when that one is among its elements. -/
def Store.Contains (store : Store) (outer inner : Nat) : Prop :=
  Value.tuple inner ∈ (store.items outer).toList

/-- A tuple can be come to from a value through elements: it is the value, or an element of the
value, or of an element, and so on. -/
def Value.Reaches (store : Store) (v : Value) (ref : Nat) : Prop :=
  ∃ first, v = .tuple first ∧ Relation.ReflTransGen store.Contains first ref

/-- No tuple that can be come to from a value can be come to from itself. -/
def Value.Acyclic (store : Store) (v : Value) : Prop :=
  ∀ ref, v.Reaches store ref → ¬ Relation.TransGen store.Contains ref ref

namespace Value

variable {store : Store} {v w : Value} {ref : Nat}

theorem Reaches.self (store : Store) (ref : Nat) : (Value.tuple ref).Reaches store ref :=
  ⟨ref, rfl, .refl⟩

/-- What can be come to from an element can be come to from the tuple. -/
theorem Reaches.of_item {inner : Nat} (h : w.Reaches store inner)
    (hitem : w ∈ (store.items ref).toList) : (Value.tuple ref).Reaches store inner := by
  rcases h with ⟨first, rfl, hreaches⟩
  exact ⟨ref, rfl, .head hitem hreaches⟩

theorem Acyclic.item (h : (Value.tuple ref).Acyclic store)
    (hitem : w ∈ (store.items ref).toList) : w.Acyclic store :=
  fun inner hinner => h inner (hinner.of_item hitem)

/-- Every tuple of `opened` leads to a value. -/
def Below (store : Store) (opened : List Nat) (v : Value) : Prop :=
  ∀ ref, v = .tuple ref → ∀ outer ∈ opened, Relation.TransGen store.Contains outer ref

theorem Below.nil (store : Store) (v : Value) : Below store [] v :=
  fun _ _ _ h => absurd h List.not_mem_nil

/-- What leads to a tuple, and the tuple itself, lead to its elements. -/
theorem Below.item {opened : List Nat} (h : Below store opened (.tuple ref))
    (hitem : w ∈ (store.items ref).toList) : Below store (ref :: opened) w := by
  rintro inner rfl outer houter
  rcases List.mem_cons.mp houter with rfl | houter
  · exact .single hitem
  · exact .tail (h ref rfl outer houter) hitem

/-- Without a cycle, nothing that leads to a tuple is that tuple. -/
theorem Below.not_mem {opened : List Nat} (h : Below store opened (.tuple ref))
    (hacyclic : (Value.tuple ref).Acyclic store) : ref ∉ opened :=
  fun hmem => hacyclic ref (.self store ref) (h ref rfl ref hmem)

end Value

/-- Induction on a value inside open tuples, which goes on with the elements of a tuple that is
not open.  It ends because every tuple with an element is in the store, and is opened once. -/
theorem Value.within_induction (store : Store) {motive : List Nat → Value → Prop}
    (atom : ∀ opened (a : Atom), motive opened a.1)
    (opened : ∀ opened ref, ref ∈ opened → motive opened (.tuple ref))
    (closed : ∀ opened ref, ref ∉ opened →
      (∀ item ∈ (store.items ref).toList, motive (ref :: opened) item) →
        motive opened (.tuple ref))
    (tuples : List Nat) (v : Value) : motive tuples v := by
  induction hn : store.countClosed tuples using Nat.strongRecOn generalizing tuples v with
  | ind n ih =>
      subst hn
      rcases v.atom_or_tuple with ⟨a, rfl⟩ | ⟨ref, rfl⟩
      · exact atom tuples a
      · by_cases hopen : ref ∈ tuples
        · exact opened tuples ref hopen
        · refine closed tuples ref hopen fun item hitem => ?_
          have hlt := Store.lt_size_of_items_ne_nil (List.ne_nil_of_mem hitem)
          exact ih _ (Store.countClosed_lt hlt hopen) (ref :: tuples) item rfl

/-! ## Trees -/

/-- A value without sharing. -/
inductive Unfolded where
  | leaf (leaf : Leaf)
  | tuple (items : List Unfolded)

/-- The text of a tree: that of a leaf, or that of a tuple by its elements. -/
def Unfolded.text : Unfolded → String
  | .leaf l => l.text
  | .tuple items => tupleText (items.map text)

/-- Unfolds a value through at most `depth` levels of tuples. -/
def Value.unfoldTo (store : Store) : Nat → Value → Option Unfolded
  | 0, v => v.elim (fun a => some (.leaf a.leaf)) fun _ => none
  | depth + 1, v => v.elim (fun a => some (.leaf a.leaf)) fun ref =>
    ((store.items ref).toList.mapM (unfoldTo store depth)).map .tuple

/-- A value unfolds to a tree. -/
def Value.Unfolds (store : Store) (v : Value) (t : Unfolded) : Prop :=
  ∃ depth, v.unfoldTo store depth = some t

/-- Mapping gives a list exactly if it gives every element of it. -/
theorem mapM_eq_some_iff {α β : Type} {f : α → Option β} {xs : List α} {ys : List β} :
    xs.mapM f = some ys ↔ List.Forall₂ (fun x y => f x = some y) xs ys := by
  induction xs generalizing ys with
  | nil => cases ys <;> simp
  | cons x xs ih =>
      cases ys with
      | nil => simp [List.mapM_cons, Option.bind_eq_some_iff]
      | cons y ys =>
          rw [List.forall₂_cons, ← ih]
          simp [List.mapM_cons, Option.bind_eq_some_iff]

namespace Value

variable {store : Store} {v w : Value} {t u : Unfolded} {depth ref : Nat}

theorem unfoldTo_atom (store : Store) (depth : Nat) (a : Atom) :
    a.1.unfoldTo store depth = some (.leaf a.leaf) := by
  cases depth <;> exact elim_atom _ _ a

/-- A tuple unfolds by its elements. -/
theorem unfoldTo_tuple_eq_some :
    (Value.tuple ref).unfoldTo store depth = some t ↔
      ∃ d ts, depth = d + 1 ∧ t = .tuple ts ∧
        List.Forall₂ (fun x y => x.unfoldTo store d = some y) (store.items ref).toList ts := by
  cases depth with
  | zero => simp [unfoldTo]
  | succ d =>
      simp only [unfoldTo, elim_tuple, Option.map_eq_some_iff, mapM_eq_some_iff]
      constructor
      · rintro ⟨ts, hts, rfl⟩
        exact ⟨d, ts, rfl, rfl, hts⟩
      · rintro ⟨_, ts, ⟨⟩, rfl, hts⟩
        exact ⟨ts, hts, rfl⟩

/-- More levels change nothing. -/
theorem unfoldTo_mono (h : v.unfoldTo store depth = some t) {more : Nat} (hle : depth ≤ more) :
    v.unfoldTo store more = some t := by
  induction depth generalizing more v t with
  | zero =>
      rcases v.atom_or_tuple with ⟨a, rfl⟩ | ⟨ref, rfl⟩
      · rw [unfoldTo_atom] at h ⊢
        exact h
      · cases h
  | succ depth ih =>
      rcases v.atom_or_tuple with ⟨a, rfl⟩ | ⟨ref, rfl⟩
      · rw [unfoldTo_atom] at h ⊢
        exact h
      · rcases unfoldTo_tuple_eq_some.mp h with ⟨_, ts, ⟨⟩, rfl, hts⟩
        rcases Nat.exists_eq_add_one.mpr (Nat.lt_of_lt_of_le (Nat.succ_pos depth) hle) with
          ⟨more, rfl⟩
        refine unfoldTo_tuple_eq_some.mpr ⟨more, ts, rfl, rfl, hts.imp ?_⟩
        intro x y hxy
        exact ih hxy (Nat.le_of_succ_le_succ hle)

/-- A value unfolds to one tree only. -/
theorem unfolds_unique (h : v.Unfolds store t) (h' : v.Unfolds store u) : t = u := by
  rcases h with ⟨d, hd⟩
  rcases h' with ⟨d', hd'⟩
  have hmax := unfoldTo_mono hd (Nat.le_max_left d d')
  rw [unfoldTo_mono hd' (Nat.le_max_right d d')] at hmax
  exact (Option.some.inj hmax).symm

/-- Values that all unfold do so through a common number of levels. -/
theorem exists_unfoldTo_all {items : List Value}
    (h : ∀ item ∈ items, ∃ t, item.Unfolds store t) :
    ∃ d ts, List.Forall₂ (fun x y => x.unfoldTo store d = some y) items ts := by
  induction items with
  | nil => exact ⟨0, [], .nil⟩
  | cons item items ih =>
      rcases h item List.mem_cons_self with ⟨t, d, ht⟩
      rcases ih fun x hx => h x (List.mem_cons_of_mem item hx) with ⟨d', ts, hts⟩
      refine ⟨max d d', t :: ts, .cons (unfoldTo_mono ht (Nat.le_max_left d d')) (hts.imp ?_)⟩
      intro x y hxy
      exact unfoldTo_mono hxy (Nat.le_max_right d d')

/-- A tuple unfolds if its elements do. -/
theorem exists_unfolds_tuple (h : ∀ item ∈ (store.items ref).toList, ∃ t, item.Unfolds store t) :
    ∃ t, (Value.tuple ref).Unfolds store t := by
  rcases exists_unfoldTo_all h with ⟨d, ts, hts⟩
  exact ⟨.tuple ts, d + 1, unfoldTo_tuple_eq_some.mpr ⟨d, ts, rfl, rfl, hts⟩⟩

/-- Without a cycle, a value below open tuples unfolds. -/
theorem exists_unfolds_below {opened : List Nat} (hbelow : Below store opened v)
    (hacyclic : v.Acyclic store) : ∃ t, v.Unfolds store t := by
  induction opened, v using within_induction store with
  | atom opened a => exact ⟨.leaf a.leaf, 0, unfoldTo_atom store 0 a⟩
  | opened opened ref hopen => exact absurd hopen (hbelow.not_mem hacyclic)
  | closed opened ref _ ih =>
      exact exists_unfolds_tuple fun item hitem =>
        ih item hitem (hbelow.item hitem) (hacyclic.item hitem)

/-- An element of a tuple that unfolds does so through fewer levels. -/
theorem exists_unfoldTo_item (h : (Value.tuple ref).unfoldTo store depth = some t)
    (hitem : w ∈ (store.items ref).toList) : ∃ d < depth, ∃ u, w.unfoldTo store d = some u := by
  rcases unfoldTo_tuple_eq_some.mp h with ⟨d, ts, rfl, -, hts⟩
  rcases List.mem_iff_get.mp hitem with ⟨i, rfl⟩
  exact ⟨d, Nat.lt_succ_self d, _, hts.get i.2 (hts.length_eq ▸ i.2)⟩

/-- And so does every tuple inside it. -/
theorem exists_unfoldTo_inside (h : (Value.tuple ref).unfoldTo store depth = some t) {inner : Nat}
    (hinner : Relation.TransGen store.Contains ref inner) :
    ∃ d < depth, ∃ u, (Value.tuple inner).unfoldTo store d = some u := by
  induction hinner with
  | single hcontains => exact exists_unfoldTo_item h hcontains
  | tail _ hcontains ih =>
      rcases ih with ⟨d, hlt, u, hu⟩
      rcases exists_unfoldTo_item hu hcontains with ⟨d', hlt', u', hu'⟩
      exact ⟨d', Nat.lt_trans hlt' hlt, u', hu'⟩

/-- So a tuple that unfolds is not inside itself. -/
theorem not_inside_of_unfoldTo (h : (Value.tuple ref).unfoldTo store depth = some t) :
    ¬ Relation.TransGen store.Contains ref ref := by
  induction depth using Nat.strongRecOn generalizing t with
  | ind depth ih =>
      intro hinside
      rcases exists_unfoldTo_inside h hinside with ⟨d, hlt, u, hu⟩
      exact ih d hlt hu hinside

theorem acyclic_of_unfoldTo (h : v.unfoldTo store depth = some t) : v.Acyclic store := by
  rintro ref ⟨first, rfl, hreaches⟩
  rcases Relation.reflTransGen_iff_eq_or_transGen.mp hreaches with rfl | hinner
  · exact not_inside_of_unfoldTo h
  · rcases exists_unfoldTo_inside h hinner with ⟨d, -, u, hu⟩
    exact not_inside_of_unfoldTo hu

/-- The values that unfold are those without a cycle. -/
theorem acyclic_iff_unfolds : v.Acyclic store ↔ ∃ t, v.Unfolds store t := by
  constructor
  · exact exists_unfolds_below (.nil store v)
  · rintro ⟨t, depth, h⟩
    exact acyclic_of_unfoldTo h

/-- Without a cycle, a value below open tuples is written as its tree is. -/
theorem displayWithin_eq_text {opened : List Nat} (hbelow : Below store opened v)
    (hacyclic : v.Acyclic store) (h : v.unfoldTo store depth = some t) :
    v.displayWithin store opened = t.text := by
  induction depth generalizing opened v t with
  | zero =>
      rcases v.atom_or_tuple with ⟨a, rfl⟩ | ⟨ref, rfl⟩
      · rw [unfoldTo_atom] at h
        cases h
        rw [displayWithin_atom, Unfolded.text, Atom.text]
      · cases h
  | succ depth ih =>
      rcases v.atom_or_tuple with ⟨a, rfl⟩ | ⟨ref, rfl⟩
      · rw [unfoldTo_atom] at h
        cases h
        rw [displayWithin_atom, Unfolded.text, Atom.text]
      · rcases unfoldTo_tuple_eq_some.mp h with ⟨_, ts, ⟨⟩, rfl, hts⟩
        rw [displayWithin_eq_tupleText, if_neg (hbelow.not_mem hacyclic), Unfolded.text]
        congr 1
        rw [← List.forall₂_eq_eq_eq]
        refine List.rel_map ?_ ((List.forall₂_and_left _ _).mpr ⟨fun _ hitem => hitem, hts⟩)
        rintro item u ⟨hitem, hu⟩
        exact ih (hbelow.item hitem) (hacyclic.item hitem) hu

/-- Without a cycle, a value is written as its tree is. -/
theorem display_eq_text (h : v.Unfolds store t) : v.display store = t.text := by
  rcases h with ⟨depth, hdepth⟩
  exact displayWithin_eq_text (.nil store v) (acyclic_of_unfoldTo hdepth) hdepth

end Value

end CSEMachine
