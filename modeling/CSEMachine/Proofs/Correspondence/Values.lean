import CSEMachine.Proofs.Focus
import Mathlib.Data.List.Forall2

/-!
# Corresponding values

Two runs may keep their tuples in different cells and their functions as different
closures and still do the same.  A link says which cells and which closures stand
for each other.  Operators and built-ins see of a function no more than its number,
and of a tuple no more than its elements, so they take linked operands to linked
results and fail with the same words.

Main results:

- Theorem `Value.Linked.displayWithin_eq`: linked values have the same text.
- Theorem `BinaryOp.apply_linked`: operators respect a link.
- Theorem `Builtin.apply_linked`: so do built-ins.
-/

namespace CSEMachine

/-- Which cells and which closures of two runs stand for each other. -/
structure Link where
  cell : Nat → Nat → Prop
  closure : Closure → Closure → Prop
  /-- No cell stands for two. -/
  cell_iff : ∀ {r r' q q' : Nat}, cell r r' → cell q q' → (r = q ↔ r' = q')
  /-- Linked closures carry the same number. -/
  index_eq : ∀ {c d : Closure}, closure c d → c.block.index = d.block.index

/-- Values correspond when they are the same data, linked tuples or linked closures. -/
inductive Value.Linked (L : Link) : Value → Value → Prop
  | int (n : Int64) : Linked L (.int n) (.int n)
  | str (s : String) : Linked L (.str s) (.str s)
  | bool (b : Bool) : Linked L (.bool b) (.bool b)
  | dummy : Linked L .dummy .dummy
  | tuple {r r' : Nat} : L.cell r r' → Linked L (.tuple r) (.tuple r')
  | closure {c d : Closure} : L.closure c d → Linked L (.closure c) (.closure d)
  | eta {c d : Closure} : L.closure c d → Linked L (.eta c) (.eta d)
  | builtin (b : Builtin) : Linked L (.builtin b) (.builtin b)
  | fixpoint : Linked L .fixpoint .fixpoint

/-- Stores correspond when linked cells have linked elements and exist together. -/
structure Store.Linked (L : Link) (s s' : Store) : Prop where
  items : ∀ {r r' : Nat}, L.cell r r' →
    List.Forall₂ (Value.Linked L) (s.items r).toList (s'.items r').toList
  bound : ∀ {r r' : Nat}, L.cell r r' → (r < s.tuples.size ↔ r' < s'.tuples.size)

/-- Results correspond when both are values that correspond or the same error. -/
inductive ResultsLinked {ε α β : Type} (R : α → β → Prop) : Except ε α → Except ε β → Prop
  | ok {a : α} {b : β} : R a b → ResultsLinked R (.ok a) (.ok b)
  | error (e : ε) : ResultsLinked R (.error e) (.error e)

namespace ResultsLinked

/-- Renaming the errors on both sides keeps a correspondence. -/
theorem mapError {ε ε' α β : Type} {R : α → β → Prop} {x : Except ε α} {y : Except ε β}
    (h : ResultsLinked R x y) (f : ε → ε') :
    ResultsLinked R (x.mapError f) (y.mapError f) := by
  cases h with
  | ok h => exact .ok h
  | error e => exact .error (f e)

/-- Mapping the same value on both sides gives what the map relates. -/
theorem map_same {ε α β γ : Type} {R : β → γ → Prop} (x : Except ε α) {f : α → β} {g : α → γ}
    (h : ∀ a, R (f a) (g a)) : ResultsLinked R (x.map f) (x.map g) := by
  cases x with
  | ok a => exact .ok (h a)
  | error e => exact .error e

end ResultsLinked

/-! ## Texts -/

/-- The text of a tuple, by its elements. -/
theorem Value.displayWithin_tuple (store : Store) (opened : List Nat) (ref : Nat) :
    (Value.tuple ref).displayWithin store opened =
      if ref ∈ opened then "(...)"
      else if (store.items ref).toList = [] then "nil"
      else "(" ++ ", ".intercalate
        ((store.items ref).toList.map (Value.displayWithin store (ref :: opened))) ++ ")" := by
  by_cases hlt : ref < store.tuples.size
  · simp [Value.displayWithin, Store.items, hlt]
  · simp [Value.displayWithin, Store.items, hlt]

/-- A tuple with an element is in the store. -/
theorem Store.lt_size_of_items_ne_nil {store : Store} {ref : Nat}
    (h : (store.items ref).toList ≠ []) : ref < store.tuples.size := by
  apply Decidable.byContradiction
  intro hge
  simp [Store.items, hge] at h

namespace Value.Linked

variable {L : Link} {s s' : Store}

/-- Linked values are of the same kind. -/
theorem kind_eq {v v' : Value} (h : Linked L v v') : v.kind = v'.kind := by
  cases h <;> rfl

/-- Constants stand for themselves. -/
theorem literal (v : Literal) : Linked L v.value v.value := by
  cases v with
  | int n => exact .int n
  | str t => exact .str t
  | bool b => exact .bool b
  | dummy => exact .dummy

/-- A value that is itself a link's image of itself stays one under a wider link. -/
theorem imp {L' : Link} (hcell : ∀ {r r' : Nat}, L.cell r r' → L'.cell r r')
    (hclosure : ∀ {c d : Closure}, L.closure c d → L'.closure c d) {v v' : Value}
    (h : Linked L v v') : Linked L' v v' := by
  cases h with
  | int n => exact .int n
  | str t => exact .str t
  | bool b => exact .bool b
  | dummy => exact .dummy
  | tuple h => exact .tuple (hcell h)
  | closure h => exact .closure (hclosure h)
  | eta h => exact .eta (hclosure h)
  | builtin b => exact .builtin b
  | fixpoint => exact .fixpoint

/-- A cell is open on both sides or on neither. -/
theorem mem_opened_iff {opened opened' : List Nat} (ho : List.Forall₂ L.cell opened opened')
    {r r' : Nat} (h : L.cell r r') : r ∈ opened ↔ r' ∈ opened' := by
  induction ho with
  | nil => simp
  | cons hq _ ih => rw [List.mem_cons, List.mem_cons, ih, L.cell_iff h hq]

/-- Linked values have the same text. -/
theorem displayWithin_eq (hs : Store.Linked L s s') {opened opened' : List Nat}
    (ho : List.Forall₂ L.cell opened opened') {v v' : Value} (h : Linked L v v') :
    v.displayWithin s opened = v'.displayWithin s' opened' := by
  -- the tuples that are not open yet become fewer with every tuple that is opened
  induction hn : s.countClosed opened using Nat.strongRecOn
    generalizing opened opened' v v' with
  | ind n ih =>
      subst hn
      cases h with
      | tuple hcell =>
          rename_i r r'
          rw [displayWithin_tuple, displayWithin_tuple]
          have hitems := hs.items hcell
          by_cases hopen : r ∈ opened
          · rw [if_pos hopen, if_pos ((mem_opened_iff ho hcell).mp hopen)]
          · rw [if_neg hopen, if_neg (hopen ∘ (mem_opened_iff ho hcell).mpr)]
            by_cases hnil : (s.items r).toList = []
            · rw [if_pos hnil]
              rw [hnil, List.forall₂_nil_left_iff] at hitems
              rw [if_pos hitems]
            · have hlt := Store.countClosed_lt (Store.lt_size_of_items_ne_nil hnil) hopen
              have hnil' : (s'.items r').toList ≠ [] := by
                intro h'
                rw [h', List.forall₂_nil_right_iff] at hitems
                exact hnil hitems
              have htexts : (s.items r).toList.map (displayWithin s (r :: opened)) =
                  (s'.items r').toList.map (displayWithin s' (r' :: opened')) := by
                rw [← List.forall₂_eq_eq_eq]
                refine List.rel_map ?_ hitems
                intro w w' hw
                exact ih _ hlt (.cons hcell ho) hw rfl
              rw [if_neg hnil, if_neg hnil', htexts]
      | closure hc => simp only [displayWithin, Closure.display, L.index_eq hc]
      | eta hc => simp only [displayWithin, Closure.display, L.index_eq hc]
      | int n => simp only [displayWithin]
      | str t => simp only [displayWithin]
      | bool b => simp only [displayWithin]
      | dummy => simp only [displayWithin]
      | builtin b => simp only [displayWithin]
      | fixpoint => simp only [displayWithin]

theorem display_eq (hs : Store.Linked L s s') {v v' : Value} (h : Linked L v v') :
    v.display s = v'.display s' :=
  displayWithin_eq hs .nil h

theorem printed_eq (hs : Store.Linked L s s') {v v' : Value} (h : Linked L v v') :
    v.printed s = v'.printed s' := by
  rw [printed, printed, display_eq hs h]

/-- Linked values are cited alike. -/
theorem cite_eq (hs : Store.Linked L s s') {v v' : Value} (h : Linked L v v') :
    v.cite s = v'.cite s' := by
  cases h with
  | str t => rfl
  | int n => exact display_eq hs (.int n)
  | bool b => exact display_eq hs (.bool b)
  | dummy => exact display_eq hs .dummy
  | tuple hc => exact display_eq hs (.tuple hc)
  | closure hc => exact display_eq hs (.closure hc)
  | eta hc => exact display_eq hs (.eta hc)
  | builtin b => exact display_eq hs (.builtin b)
  | fixpoint => exact display_eq hs .fixpoint

theorem citePair_eq (hs : Store.Linked L s s') {v v' w w' : Value} (h : Linked L v v')
    (hw : Linked L w w') : v.citePair s w = v'.citePair s' w' := by
  rw [citePair, citePair, cite_eq hs h, cite_eq hs hw]

end Value.Linked

/-! ## Changes of the store -/

namespace Store.Linked

variable {L : Link} {s s' : Store}

/-- Linked tuples have equally many elements. -/
theorem order_eq (hs : Store.Linked L s s') {r r' : Nat} (h : L.cell r r') :
    s.order r = s'.order r' := by
  simpa [Store.order] using (hs.items h).length_eq

/-- Selecting from linked tuples gives linked values, or fails alike. -/
theorem select (hs : Store.Linked L s s') {r r' : Nat} (h : L.cell r r') (index : Int64) :
    ResultsLinked (Value.Linked L) (s.select r index) (s'.select r' index) := by
  have hitems := hs.items h
  have hlength := hitems.length_eq
  rw [Array.length_toList, Array.length_toList] at hlength
  unfold Store.select Store.select?
  rw [hs.order_eq h]
  by_cases hindex : 1 ≤ index
  · rw [if_pos hindex, if_pos hindex]
    by_cases hlt : index.toInt.toNat - 1 < (s.items r).size
    · have hlt' : index.toInt.toNat - 1 < (s'.items r').size := hlength ▸ hlt
      rw [Array.getElem?_eq_getElem hlt, Array.getElem?_eq_getElem hlt']
      exact .ok (hitems.get (i := index.toInt.toNat - 1) hlt hlt')
    · have hlt' : ¬ index.toInt.toNat - 1 < (s'.items r').size := hlength ▸ hlt
      rw [Array.getElem?_eq_none (Nat.le_of_not_lt hlt),
        Array.getElem?_eq_none (Nat.le_of_not_lt hlt')]
      exact .error _
  · rw [if_neg hindex, if_neg hindex]
    exact .error _

/-- Appending linked values to linked tuples keeps the stores linked. -/
theorem augment (hs : Store.Linked L s s') {r r' : Nat} (h : L.cell r r') {v v' : Value}
    (hv : Value.Linked L v v') : Store.Linked L (s.augment r v) (s'.augment r' v') := by
  constructor
  · intro q q' hq
    by_cases hlt : r < s.tuples.size
    · rw [items_augment hlt, items_augment ((hs.bound h).mp hlt)]
      by_cases heq : q = r
      · rw [if_pos heq, if_pos ((L.cell_iff hq h).mp heq), Array.toList_push, Array.toList_push]
        exact List.rel_append (hs.items h) (.cons hv .nil)
      · rw [if_neg heq, if_neg (heq ∘ (L.cell_iff hq h).mpr)]
        exact hs.items hq
    · rw [augment_of_not_lt hlt, augment_of_not_lt (hlt ∘ (hs.bound h).mpr)]
      exact hs.items hq
  · intro q q' hq
    rw [size_augment, size_augment]
    exact hs.bound hq

/-- Forming tuples of linked values in linked cells keeps the stores linked. -/
theorem formTuple (hs : Store.Linked L s s') (hnew : L.cell s.tuples.size s'.tuples.size)
    {items items' : List Value} (hitems : List.Forall₂ (Value.Linked L) items items') :
    Store.Linked L (s.formTuple items.toArray).2 (s'.formTuple items'.toArray).2 := by
  constructor
  · intro q q' hq
    by_cases heq : q = s.tuples.size
    · have heq' := (L.cell_iff hq hnew).mp heq
      subst heq heq'
      exact (items_formTuple_self s items.toArray).symm ▸
        (items_formTuple_self s' items'.toArray).symm ▸ hitems
    · rw [items_formTuple_of_ne heq, items_formTuple_of_ne (heq ∘ (L.cell_iff hq hnew).mpr)]
      exact hs.items hq
  · intro q q' hq
    have heq := L.cell_iff hq hnew
    have hbound := hs.bound hq
    rw [size_formTuple, size_formTuple]
    omega

end Store.Linked

/-! ## Operators -/

namespace BinaryOp

variable {L : Link} {s s' : Store} {left left' right right' : Value}

theorem onIntegers_linked (hs : Store.Linked L s s') (hl : Value.Linked L left left')
    (hr : Value.Linked L right right') {f : Int64 → Int64 → Except Cause Value}
    (hf : ∀ a b, ResultsLinked (Value.Linked L) (f a b) (f a b)) :
    ResultsLinked (Value.Linked L) (onIntegers s left right f) (onIntegers s' left' right' f) := by
  have hpair := Value.Linked.citePair_eq hs hl hr
  cases hl with
  | int a =>
      cases hr with
      | int b => exact hf a b
      | _ => simp only [onIntegers, hpair]; exact .error _
  | _ => simp only [onIntegers, hpair]; exact .error _

theorem arithmetic_linked (hs : Store.Linked L s s') (hl : Value.Linked L left left')
    (hr : Value.Linked L right right') (f : Int64 → Int64 → Except Cause Int64) :
    ResultsLinked (Value.Linked L) (arithmetic s left right f) (arithmetic s' left' right' f) :=
  onIntegers_linked hs hl hr fun a b => .map_same (f a b) fun n => .int n

theorem ordering_linked (hs : Store.Linked L s s') (hl : Value.Linked L left left')
    (hr : Value.Linked L right right') (f : Int64 → Int64 → Bool) :
    ResultsLinked (Value.Linked L) (ordering s left right f) (ordering s' left' right' f) :=
  onIntegers_linked hs hl hr fun a b => .ok (.bool (f a b))

theorem logical_linked (op : BinaryOp) (hs : Store.Linked L s s')
    (hl : Value.Linked L left left') (hr : Value.Linked L right right') (f : Bool → Bool → Bool) :
    ResultsLinked (Value.Linked L) (op.logical s left right f) (op.logical s' left' right' f) := by
  have hleft := Value.Linked.cite_eq hs hl
  have hright := Value.Linked.cite_eq hs hr
  cases hl with
  | bool a =>
      cases hr with
      | bool b => exact .ok (.bool (f a b))
      | _ => simp only [logical, hleft, hright]; exact .error _
  | _ => simp only [logical, hleft, hright]; exact .error _

/-- Equality answers alike on linked operands. -/
theorem equality_eq (op : BinaryOp) (hs : Store.Linked L s s') (hl : Value.Linked L left left')
    (hr : Value.Linked L right right') :
    op.equality s left right = op.equality s' left' right' := by
  have hleft := Value.Linked.cite_eq hs hl
  have hright := Value.Linked.cite_eq hs hr
  have hkl := hl.kind_eq
  have hkr := hr.kind_eq
  cases hl with
  | int a => cases hr <;> simp only [equality, hleft, hright, hkr]
  | str a => cases hr <;> simp only [equality, hleft, hright, hkr]
  | bool a => cases hr <;> simp only [equality, hleft, hright, hkr]
  | _ => simp only [equality, hleft, hright, hkl, hkr]

/-- Operators take linked operands to linked results. -/
theorem result_linked (op : BinaryOp) (hs : Store.Linked L s s')
    (hl : Value.Linked L left left') (hr : Value.Linked L right right') :
    ResultsLinked (Value.Linked L) (op.result s left right) (op.result s' left' right') := by
  cases op with
  | add | sub | mul | div | pow => exact arithmetic_linked hs hl hr _
  | lt | le | gt | ge => exact ordering_linked hs hl hr _
  | eq =>
      simp only [result, equality_eq .eq hs hl hr]
      exact .map_same _ fun b => .bool b
  | ne =>
      simp only [result, equality_eq .ne hs hl hr]
      exact .map_same _ fun b => .bool !b
  | or => exact logical_linked .or hs hl hr _
  | and => exact logical_linked .and hs hl hr _
  | aug =>
      have hleft := Value.Linked.cite_eq hs hl
      cases hl with
      | tuple hc => exact .ok (.tuple hc)
      | _ => simp only [result, hleft]; exact .error _

/-- Operators respect a link, their effect on the store included. -/
theorem apply_linked (op : BinaryOp) (hs : Store.Linked L s s')
    (hl : Value.Linked L left left') (hr : Value.Linked L right right') :
    ResultsLinked (Value.Linked L) (op.apply left right s).1 (op.apply left' right' s').1 ∧
      Store.Linked L (op.apply left right s).2 (op.apply left' right' s').2 := by
  by_cases hop : op = .aug
  · subst hop
    have hresult := result_linked .aug hs hl hr
    cases hl with
    | tuple hc => exact ⟨.ok (.tuple hc), hs.augment hc hr⟩
    | _ => exact ⟨hresult, hs⟩
  · rw [store_of_ne_aug hop, store_of_ne_aug hop, result_of_ne_aug hop, result_of_ne_aug hop]
    exact ⟨result_linked op hs hl hr, hs⟩

end BinaryOp

/-- Operators on one operand respect a link. -/
theorem UnaryOp.apply_linked {L : Link} {s s' : Store} (op : UnaryOp)
    (hs : Store.Linked L s s') {v v' : Value} (h : Value.Linked L v v') :
    ResultsLinked (Value.Linked L) (op.apply s v) (op.apply s' v') := by
  have hcite := Value.Linked.cite_eq hs h
  cases op with
  | not =>
      cases h with
      | bool b => exact .ok (.bool !b)
      | _ => simp only [apply, hcite]; exact .error _
  | neg =>
      cases h with
      | int n => exact .map_same _ fun k => .int k
      | _ => simp only [apply, hcite]; exact .error _

/-! ## Built-ins -/

namespace Builtin

variable {L : Link} {s s' : Store} {v v' : Value}

theorem onString_linked (b : Builtin) (hs : Store.Linked L s s') (h : Value.Linked L v v')
    (f : String → String) :
    ResultsLinked (Value.Linked L) (b.onString s v f) (b.onString s' v' f) := by
  have hcite := Value.Linked.cite_eq hs h
  cases h with
  | str t => exact .ok (.str (f t))
  | _ => simp only [onString, hcite]; exact .error _

theorem onInteger_linked (b : Builtin) (hs : Store.Linked L s s') (h : Value.Linked L v v')
    {f : Int64 → Except Fault Value} (hf : ∀ n, ResultsLinked (Value.Linked L) (f n) (f n)) :
    ResultsLinked (Value.Linked L) (b.onInteger s v f) (b.onInteger s' v' f) := by
  have hcite := Value.Linked.cite_eq hs h
  cases h with
  | int n => exact hf n
  | _ => simp only [onInteger, hcite]; exact .error _

theorem onTuple_linked (b : Builtin) (hs : Store.Linked L s s') (h : Value.Linked L v v')
    {f : Nat → Except Fault Value} (hf : ∀ n, ResultsLinked (Value.Linked L) (f n) (f n)) :
    ResultsLinked (Value.Linked L) (b.onTuple s v f) (b.onTuple s' v' f) := by
  have hcite := Value.Linked.cite_eq hs h
  cases h with
  | tuple hc =>
      simp only [onTuple, hs.order_eq hc]
      exact hf _
  | _ => simp only [onTuple, hcite]; exact .error _

theorem integer_linked (result : Except Cause Int64) :
    ResultsLinked (Value.Linked L) (integer result) (integer result) :=
  (ResultsLinked.map_same result fun n => .int n).mapError _

/-- `Conc` respects a link. -/
theorem applyConc_linked (hs : Store.Linked L s s') (h : Value.Linked L v v')
    {w w' : Value} (hw : Value.Linked L w w') :
    ResultsLinked (Value.Linked L) (applyConc s v w) (applyConc s' v' w') := by
  have hpair := Value.Linked.citePair_eq hs h hw
  cases h with
  | str t =>
      cases hw with
      | str u => exact .ok (.str (t ++ u))
      | _ => simp only [applyConc, hpair]; exact .error _
  | _ => simp only [applyConc, hpair]; exact .error _

/-- Built-ins of one operand respect a link. -/
theorem apply_linked (b : Builtin) (hs : Store.Linked L s s') (h : Value.Linked L v v') :
    ResultsLinked (Value.Linked L) (b.apply s v) (b.apply s' v') := by
  have hkind := h.kind_eq
  cases b with
  | isInteger | isString | isTuple | isDummy | isTruthValue | isFunction =>
      simp only [apply, hkind]
      exact .ok (.bool _)
  | stem => exact onString_linked .stem hs h stemText
  | stern => exact onString_linked .stern hs h sternText
  | conc => exact .error _
  | print => exact .ok .dummy
  | itoS => exact onInteger_linked .itoS hs h fun n => .ok (.str (toString n))
  | order => exact onTuple_linked .order hs h fun n => integer_linked (Arithmetic.checked "Order" n)
  | null => exact onTuple_linked .null hs h fun n => .ok (.bool (n = 0))
  | neg => exact onInteger_linked .neg hs h fun n => integer_linked (Arithmetic.neg n)

end Builtin

end CSEMachine
