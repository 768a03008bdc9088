import CSEMachine.Proofs.Correspondence.Values
import CSEMachine.Proofs.Direct.Evaluator

/-!
# What a machine and a direct evaluation have in common

A machine keeps the same data as a direct evaluation of its tree, with other numbers: its
tuples lie behind those of earlier evaluations, its functions are closures of blocks, and
its scopes are in the store.  A view of a run lists the closures that stand for the
functions and the scopes that have been closed.  Views only grow, and what corresponds in
a view corresponds in every larger one.

Main results:

- Theorem `View.EnvLinked.lookup`: a variable has corresponding values.
- Theorem `View.Agrees.formTuple`: tuples are formed alike.
- Theorem `View.Agrees.formFunction`: so are functions.
- Theorem `View.Agrees.bindOperand`: parameters are bound alike.
-/

namespace CSEMachine

namespace Direct

/-! ## Views -/

/-- How the data of a run is to be read: the number of tuples before it, the closures that
stand for the functions, in the order of their cells, and the scopes. -/
structure View where
  base : Nat
  closures : List Closure
  scopes : Array Bindings

namespace View

/-- The tuples and closures that stand for each other. -/
def link (view : View) : Link where
  cell r r' := r = view.base + r'
  closure c d := view.closures[d.env.scope]? = some c ∧ c.block.index = d.block.index
  cell_iff := by
    intro r r' q q' h h'
    omega
  index_eq h := h.2

/-- Values of a machine and of a direct evaluation that stand for each other. -/
abbrev ValueLinked (view : View) : Value → Value → Prop :=
  Value.Linked view.link

/-- A view grows by further closures and scopes. -/
structure Grows (view later : View) : Prop where
  base : view.base = later.base
  closures : view.closures <+: later.closures
  scopes : view.scopes.toList <+: later.scopes.toList

section Names

variable (names : NameTable) (view : View)

/-- Bindings of the names of variables to their values. -/
def BindingsLinked : Bindings → List (String × Value) → Prop :=
  List.Forall₂ fun p q => p.1 = names.nameOf q.1 ∧ view.ValueLinked p.2 q.2

/-- The number of a scope that binds variables. -/
def ScopeLinked (n : Nat) (scope : List (String × Value)) : Prop :=
  ∃ b, view.scopes.toList[n]? = some b ∧ view.BindingsLinked names b scope

/-- Environments that bind the same variables, scope by scope. -/
def EnvLinked (env : Env) (env' : Environment) : Prop :=
  List.Forall₂ (view.ScopeLinked names) env.scopes env'

/-- A closure of the block of a function. -/
structure FunctionLinked (c : Closure) (fn : Function) : Prop where
  block : c.block = Block.ofLambda names fn.number fn.params fn.body
  env : view.EnvLinked names c.env fn.env
  nodup : fn.params.Nodup
  wellBound : fn.body.WellBound
  lists : names.Lists (fn.params ++ fn.body.texts)

/-- The store and the texts of a machine are those of a world. -/
structure Agrees (s : Store) (printed : Array String) (w : World) : Prop where
  tuples : Store.Linked view.link s w.store
  size : s.tuples.size = view.base + w.store.tuples.size
  scopes : s.scopes = view.scopes
  functions : List.Forall₂ (view.FunctionLinked names) view.closures w.functions.toList
  printed : printed = w.printed

end Names

/-! ## Larger views -/

variable {names : NameTable} {view later : View}

namespace Grows

theorem refl (view : View) : view.Grows view :=
  ⟨rfl, List.prefix_rfl, List.prefix_rfl⟩

theorem trans {last : View} (h : view.Grows later) (h' : later.Grows last) : view.Grows last :=
  ⟨h.base.trans h'.base, h.closures.trans h'.closures, h.scopes.trans h'.scopes⟩

theorem value (h : view.Grows later) {u v : Value} (huv : view.ValueLinked u v) :
    later.ValueLinked u v := by
  refine huv.imp ?_ ?_
  · intro r r' hcell
    exact hcell.trans (by rw [h.base])
  · rintro c d ⟨hc, hindex⟩
    exact ⟨getElem?_continued h.closures hc, hindex⟩

theorem values {α : Type} {value : α → Value} (h : view.Grows later) {us : List Value}
    {vs : List α} (huv : List.Forall₂ (fun u a => view.ValueLinked u (value a)) us vs) :
    List.Forall₂ (fun u a => later.ValueLinked u (value a)) us vs :=
  List.Forall₂.imp (fun _ _ hv => h.value hv) huv

theorem bindings (h : view.Grows later) {b : Bindings} {scope : List (String × Value)}
    (hb : view.BindingsLinked names b scope) : later.BindingsLinked names b scope :=
  List.Forall₂.imp (fun _ _ hp => ⟨hp.1, h.value hp.2⟩) hb

theorem env (h : view.Grows later) {env : Env} {env' : Environment}
    (henv : view.EnvLinked names env env') : later.EnvLinked names env env' := by
  refine List.Forall₂.imp ?_ henv
  rintro n scope ⟨b, hb, hlinked⟩
  exact ⟨b, getElem?_continued h.scopes hb, h.bindings hlinked⟩

theorem function (h : view.Grows later) {c : Closure} {fn : Function}
    (hc : view.FunctionLinked names c fn) : later.FunctionLinked names c fn :=
  { hc with env := h.env hc.env }

end Grows

/-! ## Variables -/

/-- A variable has corresponding values. -/
theorem EnvLinked.lookup {env : Env} {env' : Environment} (h : view.EnvLinked names env env')
    {s : Store} (hs : s.scopes = view.scopes) {x : String} (hx : x ∈ names.texts) :
    Option.Rel view.ValueLinked (env.lookup s (names.nameOf x)) (env'.find? x) := by
  unfold Env.lookup Environment.find?
  unfold EnvLinked at h
  generalize env.scopes = ns at h ⊢
  induction h with
  | nil => exact .none
  | @cons n scope ns env' hn _ ih =>
      rcases hn with ⟨b, hb, hlinked⟩
      have hscope : s.bindings n = b := by
        rw [Store.bindings, hs, ← Array.getElem?_toList, hb, Option.getD_some]
      have hfind : Option.Rel view.ValueLinked (b.find? (names.nameOf x)) (scope.lookup x) := by
        clear hb hscope
        induction hlinked with
        | nil => exact .none
        | @cons p q b scope hp _ ih =>
            rcases p with ⟨y, u⟩
            rcases q with ⟨z, v⟩
            rcases hp with ⟨rfl, huv⟩
            simp only [Bindings.find?, List.lookup_cons, NameTable.nameOf_inj hx]
            by_cases heq : x = z
            · simp only [heq, if_true, beq_self_eq_true]
              exact .some huv
            · simp only [heq, if_false, beq_eq_false_iff_ne.mpr heq]
              exact ih
      rw [List.findSome?_cons, List.findSome?_cons, hscope]
      generalize b.find? (names.nameOf x) = found at hfind ⊢
      generalize scope.lookup x = found' at hfind ⊢
      cases hfind with
      | none => exact ih
      | some huv => exact .some huv

/-! ## Parameters -/

/-- Names of variables are bound to corresponding values one by one. -/
theorem bindingsLinked_zip {us vs : List Value} (h : List.Forall₂ view.ValueLinked us vs)
    (xs : List String) :
    view.BindingsLinked names ((xs.map names.nameOf).zip us) (xs.zip vs) := by
  induction h generalizing xs with
  | nil => simp [BindingsLinked]
  | cons huv _ ih =>
      cases xs with
      | nil => exact .nil
      | cons x xs => exact List.Forall₂.cons ⟨rfl, huv⟩ (ih xs)

/-- The parameters of a closure are those of its function. -/
theorem FunctionLinked.params_eq {c : Closure} {fn : Function}
    (h : view.FunctionLinked names c fn) : c.block.params = fn.params.map names.nameOf := by
  rw [h.block]
  rfl

/-- The scope of an activation binds the parameters to the operands. -/
theorem FunctionLinked.bindEach {c : Closure} {fn : Function}
    (h : view.FunctionLinked names c fn) {us vs : List Value}
    (huvs : List.Forall₂ view.ValueLinked us vs) :
    (c.env.extend.bindEach c.block.params us).parent = c.env ∧
      view.BindingsLinked names (c.env.extend.bindEach c.block.params us).bindings
        (fn.params.zip vs) := by
  have hnodup : (c.env.extend.bindings.map Prod.fst ++ c.block.params).Nodup := by
    simpa [Env.extend, h.params_eq] using h.lists.left.nodup_map_nameOf h.nodup
  refine ⟨Scope.parent_bindEach _ _ _, ?_⟩
  rw [Scope.bindings_bindEach us hnodup, h.params_eq]
  exact bindingsLinked_zip huvs fn.params

/-! ## Changes of a world -/

namespace Agrees

variable {s : Store} {printed : Array String} {w : World}

/-- An operator that changes tuples only keeps the agreement. -/
theorem binary (h : view.Agrees names s printed w) (op : BinaryOp) {left left' right right' : Value}
    (hl : view.ValueLinked left left') (hr : view.ValueLinked right right') :
    view.Agrees names (op.apply left right s).2 printed
      { w with store := (op.apply left' right' w.store).2 } where
  tuples := (op.apply_linked h.tuples hl hr).2
  size := by rw [op.size_apply, op.size_apply, h.size]
  scopes := by rw [op.scopes_apply, h.scopes]
  functions := h.functions
  printed := h.printed

/-- Tuples of corresponding items are formed alike. -/
theorem formTuple (h : view.Agrees names s printed w) {items items' : List Value}
    (hitems : List.Forall₂ view.ValueLinked items items') :
    view.ValueLinked (.tuple s.tuples.size) (w.formTuple items').1 ∧
      view.Agrees names (s.formTuple items.toArray).2 printed (w.formTuple items').2 := by
  refine ⟨.tuple h.size, ?_⟩
  exact {
    tuples := h.tuples.formTuple h.size hitems
    size := by
      simp only [World.formTuple, Store.size_formTuple, h.size, Nat.add_assoc]
    scopes := h.scopes
    functions := h.functions
    printed := h.printed }

/-- Functions are formed alike. -/
theorem formFunction (h : view.Agrees names s printed w) {c : Closure} {fn : Function}
    (hc : view.FunctionLinked names c fn) :
    ∃ later : View, view.Grows later ∧
      later.ValueLinked (.closure c) (w.formFunction fn).1 ∧
      later.Agrees names s printed (w.formFunction fn).2 := by
  have hgrows : view.Grows ⟨view.base, view.closures ++ [c], view.scopes⟩ :=
    ⟨rfl, List.prefix_append _ _, List.prefix_rfl⟩
  have hlength : view.closures.length = w.functions.size := by
    simpa using h.functions.length_eq
  refine ⟨_, hgrows, .closure ⟨?_, ?_⟩, ?_⟩
  · simp [← hlength]
  · rw [hc.block]
    rfl
  · exact {
      tuples := by
        constructor
        · intro r r' hcell
          exact hgrows.values (h.tuples.items hcell)
        · intro r r' hcell
          exact h.tuples.bound hcell
      size := h.size
      scopes := h.scopes
      functions := by
        simp only [World.formFunction, Array.toList_push]
        refine List.rel_append ?_ (.cons (hgrows.function hc) .nil)
        exact List.Forall₂.imp (fun _ _ hfn => hgrows.function hfn) h.functions
      printed := h.printed }

/-- Corresponding values are printed alike. -/
theorem print (h : view.Agrees names s printed w) {u v : Value} (huv : view.ValueLinked u v) :
    view.Agrees names s (printed.push (u.printed s)) (w.print v) :=
  { h with printed := by rw [World.print, h.printed, huv.printed_eq h.tuples] }

/-- Closing a scope that binds variables goes one scope deeper. -/
theorem addScope (h : view.Agrees names s printed w) {env : Env} {env' : Environment}
    (henv : view.EnvLinked names env env') {b : Bindings} {scope : List (String × Value)}
    (hb : view.BindingsLinked names b scope) :
    ∃ later : View, view.Grows later ∧
      later.EnvLinked names ⟨s.scopes.size, env.scopes⟩ (scope :: env') ∧
      later.Agrees names (s.addScope b).2 printed w := by
  have hgrows : view.Grows ⟨view.base, view.closures, view.scopes.push b⟩ :=
    ⟨rfl, List.prefix_rfl, by simp⟩
  refine ⟨_, hgrows, List.Forall₂.cons ⟨b, ?_, hgrows.bindings hb⟩ (hgrows.env henv), ?_⟩
  · simp [h.scopes]
  · exact {
      tuples := by
        constructor
        · intro r r' hcell
          exact hgrows.values (h.tuples.items hcell)
        · intro r r' hcell
          exact h.tuples.bound hcell
      size := h.size
      scopes := by simp [Store.addScope, h.scopes]
      functions := List.Forall₂.imp (fun _ _ hfn => hgrows.function hfn) h.functions
      printed := h.printed }

/-- A closure that corresponds to a value stands for the function it points to. -/
theorem function (h : view.Agrees names s printed w) {c d : Closure}
    (hc : view.link.closure c d) :
    ∃ fn, w.function? d = some fn ∧ view.FunctionLinked names c fn := by
  rcases List.getElem?_eq_some_iff.mp hc.1 with ⟨hlt, heq⟩
  have hlt' : d.env.scope < w.functions.toList.length := h.functions.length_eq ▸ hlt
  have hfn := h.functions.get (i := d.env.scope) hlt hlt'
  refine ⟨w.functions[d.env.scope], ?_, ?_⟩
  · rw [World.function?, Array.getElem?_eq_getElem hlt']
  · simpa [heq] using hfn

/-- Parameters are bound to corresponding values, or refused alike. -/
theorem bindOperand (h : view.Agrees names s printed w) {c : Closure} {fn : Function}
    (hc : view.FunctionLinked names c fn) {u v : Value} (huv : view.ValueLinked u v) :
    ResultsLinked
      (fun scope vs => scope.parent = c.env ∧
        view.BindingsLinked names scope.bindings (fn.params.zip vs))
      (c.bindOperand s u) (w.spread fn.params.length v) := by
  have hlength : c.block.params.length = fn.params.length := by
    rw [hc.params_eq, List.length_map]
  unfold World.spread
  by_cases hone : c.block.params.length = 1
  · rw [Closure.bindOperand_of_length_eq_one hone, if_pos (hlength ▸ hone)]
    exact .ok (hc.bindEach (.cons huv .nil))
  · have hcite := huv.cite_eq h.tuples
    rw [Closure.bindOperand_of_length_ne_one hone, if_neg (hlength ▸ hone), hlength]
    cases huv with
    | @tuple r r' hcell =>
        have horder := h.tuples.order_eq hcell
        rw [Store.order] at horder
        simp only [Scope.bindPositional, horder, hlength]
        split
        · exact .ok (hc.bindEach (h.tuples.items hcell))
        · exact .error _
    | _ =>
        simp only [hcite]
        exact .error _

end Agrees

end View

end Direct

end CSEMachine
