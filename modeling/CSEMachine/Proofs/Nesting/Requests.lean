import CSEMachine.Proofs.Naming
import CSEMachine.Proofs.Nesting.Maps
import CSEMachine.Proofs.Tuples.Growth

/-!
# Environments over time

A host makes roots, opens scopes in the environments that it holds, binds names in them and
closes them, in any order and in any environment as often as it likes; in between it forms
and augments tuples.  The same requests can be met with nested maps, in which nothing is
shared.  They give the same answers, and what an environment answers once it answers for
good.

Main results:

- Theorem `Holder.Reads.step`: a request keeps a host in step with its nested maps.
- Theorem `Nested.nests_after`: nested maps that are there stay as they are.
- Theorem `Holder.refines_nested`: what this means for any requests.
-/

namespace CSEMachine

/-! ## Requests -/

/-- A request.  Environments and scopes go by numbers, in the order in which they were made,
and so do tuples in the store. -/
inductive Request where
  | root
  | extend (env : Nat)
  | bind (scope : Nat) (x : Name) (v : Value)
  | bindPositional (scope : Nat) (xs : List Name) (ref : Nat)
  | close (scope : Nat)
  | formTuple (items : List Value)
  | augment (ref : Nat) (v : Value)

/-- The scope that a request changes, if it changes one. -/
def Request.scope? : Request → Option Nat
  | .bind i _ _ | .bindPositional i _ _ | .close i => some i
  | .root | .extend _ | .formTuple _ | .augment _ _ => none

/-- What a host holds: a store, environments, and the scopes that it has opened.  A scope is
gone once it is closed. -/
structure Holder where
  store : Store
  envs : List Env := []
  scopes : List (Option Scope) := []

/-- An open scope in nested maps: its record, and those around it. -/
structure Layer where
  parent : Nest
  record : Record := []

/-- What a host holds in nested maps. -/
structure Nested where
  tuples : List (List Value)
  nests : List Nest := []
  layers : List (Option Layer) := []

namespace Holder

/-- The open scope of a number. -/
def scope? (h : Holder) (i : Nat) : Option Scope :=
  h.scopes[i]?.join

/-- A scope in place of the one that had its number. -/
def put (h : Holder) (i : Nat) (scope : Scope) : Holder :=
  { h with scopes := h.scopes.set i (some scope) }

/-- Meets a request.  Nothing happens if what it is about is not there. -/
def step (h : Holder) : Request → Holder
  | .root => { h with store := (Env.root h.store).2, envs := h.envs ++ [(Env.root h.store).1] }
  | .extend i =>
    match h.envs[i]? with
    | some env => { h with scopes := h.scopes ++ [some env.extend] }
    | none => h
  | .bind i x v =>
    match h.scope? i with
    | some scope => h.put i (scope.bind x v)
    | none => h
  | .bindPositional i xs ref =>
    match h.scope? i with
    | some scope =>
      match scope.bindPositional xs (h.store.items ref) with
      | .ok scope => h.put i scope
      | .error _ => h
    | none => h
  | .close i =>
    match h.scope? i with
    | some scope =>
      ⟨(scope.close h.store).2, h.envs ++ [(scope.close h.store).1], h.scopes.set i none⟩
    | none => h
  | .formTuple items => { h with store := (h.store.formTuple items.toArray).2 }
  | .augment ref v => { h with store := h.store.augment ref v }

/-- Whether a request fails. -/
def answer (h : Holder) : Request → Except Cause Unit
  | .bindPositional i xs ref =>
    match h.scope? i with
    | some scope => (scope.bindPositional xs (h.store.items ref)).map fun _ => ()
    | none => .ok ()
  | _ => .ok ()

/-- Meets requests, one after the other. -/
def after (h : Holder) (requests : List Request) : Holder :=
  requests.foldl step h

end Holder

namespace Nested

/-- The elements of a tuple. -/
def items (n : Nested) (ref : Nat) : List Value :=
  n.tuples[ref]?.getD []

/-- The open scope of a number. -/
def layer? (n : Nested) (i : Nat) : Option Layer :=
  n.layers[i]?.join

/-- Adds bindings to an open scope, the latest one first. -/
def put (n : Nested) (i : Nat) (layer : Layer) (record : Record) : Nested :=
  { n with layers := n.layers.set i (some ⟨layer.parent, record ++ layer.record⟩) }

/-- Meets a request. -/
def step (n : Nested) : Request → Nested
  | .root => { n with nests := n.nests ++ [[]] }
  | .extend i =>
    match n.nests[i]? with
    | some nest => { n with layers := n.layers ++ [some ⟨nest, []⟩] }
    | none => n
  | .bind i x v =>
    match n.layer? i with
    | some layer => n.put i layer [(x, v)]
    | none => n
  | .bindPositional i xs ref =>
    match n.layer? i with
    | some layer =>
      if (n.items ref).length = xs.length then n.put i layer (xs.zip (n.items ref)).reverse
      else n
    | none => n
  | .close i =>
    match n.layer? i with
    | some layer =>
      { n with
        nests := n.nests ++ [layer.record :: layer.parent]
        layers := n.layers.set i none }
    | none => n
  | .formTuple items => { n with tuples := n.tuples ++ [items] }
  | .augment ref v => { n with tuples := n.tuples.modify ref (· ++ [v]) }

/-- Whether a request fails. -/
def answer (n : Nested) : Request → Except Cause Unit
  | .bindPositional i xs ref =>
    if (n.layer? i).isSome ∧ (n.items ref).length ≠ xs.length then
      .error (.arityMismatch xs.length (n.items ref).length)
    else .ok ()
  | _ => .ok ()

/-- Meets requests, one after the other. -/
def after (n : Nested) (requests : List Request) : Nested :=
  requests.foldl step n

/-! ## What stays in nested maps -/

variable {n : Nested} {i : Nat} {layer : Layer}

/-- A request changes no nested maps that are there. -/
theorem nests_step (n : Nested) (r : Request) : n.nests <+: (n.step r).nests := by
  cases r with
  | root => exact List.prefix_append _ _
  | extend i =>
      simp only [step]
      split <;> exact List.prefix_rfl
  | bind i x v =>
      simp only [step]
      split <;> exact List.prefix_rfl
  | bindPositional i xs ref =>
      simp only [step]
      split
      · split <;> exact List.prefix_rfl
      · exact List.prefix_rfl
  | close i =>
      simp only [step]
      split
      · exact List.prefix_append _ _
      · exact List.prefix_rfl
  | formTuple items => exact List.prefix_rfl
  | augment ref v => exact List.prefix_rfl

/-- Nested maps that are there stay as they are. -/
theorem nests_after (n : Nested) (requests : List Request) :
    n.nests <+: (n.after requests).nests := by
  induction requests generalizing n with
  | nil => exact List.prefix_rfl
  | cons r requests ih => exact (n.nests_step r).trans (ih (n.step r))

/-- The scope of a number is open if there is one at all. -/
theorem lt_of_layer? (h : n.layer? i = some layer) : i < n.layers.length := by
  rw [layer?, Option.join_eq_some_iff] at h
  exact (List.getElem?_eq_some_iff.mp h).1

/-- An open scope has been put where it was. -/
theorem layer?_put (h : n.layer? i = some layer) (record : Record) (k : Nat) :
    (n.put i layer record).layer? k =
      if k = i then some ⟨layer.parent, record ++ layer.record⟩ else n.layer? k := by
  have hlt := lt_of_layer? h
  rw [layer?, put, List.getElem?_set]
  by_cases hk : k = i
  · subst hk
    simp [hlt]
  · simp [hk, Ne.symm hk, layer?]

/-- An open scope stays as it is while no request is about it. -/
theorem layer?_step (h : n.layer? i = some layer) {r : Request} (hr : r.scope? ≠ some i) :
    (n.step r).layer? i = some layer := by
  cases r with
  | root => exact h
  | extend k =>
      simp only [step]
      split
      · rw [layer?, List.getElem?_append_left (lt_of_layer? h)]
        exact h
      · exact h
  | bind k x v =>
      have hk : i ≠ k := fun heq => hr (congrArg some heq.symm)
      simp only [step]
      split
      · rename_i hlayer
        rwa [layer?_put hlayer, if_neg hk]
      · exact h
  | bindPositional k xs ref =>
      have hk : i ≠ k := fun heq => hr (congrArg some heq.symm)
      simp only [step]
      split
      · rename_i hlayer
        split
        · rwa [layer?_put hlayer, if_neg hk]
        · exact h
      · exact h
  | close k =>
      have hk : k ≠ i := fun heq => hr (congrArg some heq)
      simp only [step]
      split
      · simpa only [layer?, List.getElem?_set, if_neg hk] using h
      · exact h
  | formTuple items => exact h
  | augment ref v => exact h

theorem layer?_after (h : n.layer? i = some layer) {requests : List Request}
    (hrequests : ∀ r ∈ requests, r.scope? ≠ some i) :
    (n.after requests).layer? i = some layer := by
  induction requests generalizing n with
  | nil => exact h
  | cons r requests ih =>
      rw [List.forall_mem_cons] at hrequests
      exact ih (layer?_step h hrequests.1) hrequests.2

end Nested

/-! ## Hosts and nested maps -/

/-- An open scope is that of nested maps. -/
structure Scope.Reads (store : Store) (scope : Scope) (layer : Layer) : Prop where
  parent : scope.parent.Nests store layer.parent
  bindings : scope.bindings.Records layer.record

/-- A host holds what there is in nested maps, under the same numbers. -/
structure Holder.Reads (h : Holder) (n : Nested) : Prop where
  tuples : h.store.tuples.toList.map Array.toList = n.tuples
  envs : ∀ i : Nat, Option.Rel (Env.Nests h.store) h.envs[i]? n.nests[i]?
  scopes : ∀ i : Nat, Option.Rel (Option.Rel (Scope.Reads h.store)) h.scopes[i]? n.layers[i]?

/-- Lists that correspond place by place are equally long. -/
theorem length_eq_of_rel {α β : Type} {R : α → β → Prop} {xs : List α} {ys : List β}
    (h : ∀ i : Nat, Option.Rel R xs[i]? ys[i]?) : xs.length = ys.length := by
  have hiff : ∀ i, xs.length ≤ i ↔ ys.length ≤ i := by
    intro i
    rw [← List.getElem?_eq_none_iff, ← List.getElem?_eq_none_iff]
    have hi := h i
    generalize xs[i]? = x at hi ⊢
    generalize ys[i]? = y at hi ⊢
    cases hi with
    | some _ => simp
    | none => simp
  exact Nat.le_antisymm ((hiff _).mpr (Nat.le_refl _)) ((hiff _).mp (Nat.le_refl _))

/-- They still do with corresponding things behind them. -/
theorem rel_append {α β : Type} {R : α → β → Prop} {xs : List α} {ys : List β}
    (h : ∀ i : Nat, Option.Rel R xs[i]? ys[i]?) {x : α} {y : β} (hxy : R x y) (i : Nat) :
    Option.Rel R (xs ++ [x])[i]? (ys ++ [y])[i]? := by
  have hlength := length_eq_of_rel h
  by_cases hlt : i < xs.length
  · rw [List.getElem?_append_left hlt, List.getElem?_append_left (hlength ▸ hlt)]
    exact h i
  · rw [List.getElem?_append_right (Nat.le_of_not_lt hlt),
      List.getElem?_append_right (hlength ▸ Nat.le_of_not_lt hlt), hlength]
    cases i - ys.length with
    | zero => exact .some hxy
    | succ k => exact .none

/-- They still do with corresponding things in the same place. -/
theorem rel_set {α β : Type} {R : α → β → Prop} {xs : List α} {ys : List β}
    (h : ∀ i : Nat, Option.Rel R xs[i]? ys[i]?) {x : α} {y : β} (hxy : R x y) (k i : Nat) :
    Option.Rel R (xs.set k x)[i]? (ys.set k y)[i]? := by
  have hlength := length_eq_of_rel h
  rw [List.getElem?_set, List.getElem?_set, hlength]
  split
  · split
    · exact .some hxy
    · exact .none
  · exact h i

theorem Scope.Reads.keeps {store later : Store} {scope : Scope} {layer : Layer}
    (h : scope.Reads store layer) (hkeeps : store.Keeps later) : scope.Reads later layer :=
  ⟨h.parent.keeps hkeeps, h.bindings⟩

namespace Holder.Reads

variable {h : Holder} {n : Nested}

theorem new (store : Store) :
    Holder.Reads ⟨store, [], []⟩ ⟨store.tuples.toList.map Array.toList, [], []⟩ :=
  ⟨rfl, fun _ => .none, fun _ => .none⟩

/-- A tuple has the same elements. -/
theorem items_eq (hreads : h.Reads n) (ref : Nat) : (h.store.items ref).toList = n.items ref := by
  rw [Nested.items, ← hreads.tuples, List.getElem?_map, Store.items, Array.getElem?_toList]
  cases h.store.tuples[ref]? with
  | none => rfl
  | some items => rfl

/-- A scope is open in both or in neither. -/
theorem scope? (hreads : h.Reads n) (i : Nat) :
    Option.Rel (Scope.Reads h.store) (h.scope? i) (n.layer? i) := by
  have hi := hreads.scopes i
  unfold Holder.scope? Nested.layer?
  generalize h.scopes[i]? = scope at hi ⊢
  generalize n.layers[i]? = layer at hi ⊢
  cases hi with
  | none => exact .none
  | some hsome => exact hsome

/-- Environments and scopes are read in the same way in a later store. -/
theorem keeps (hreads : h.Reads n) {later : Store} (hkeeps : h.store.Keeps later)
    {tuples : List (List Value)} (htuples : later.tuples.toList.map Array.toList = tuples) :
    Holder.Reads { h with store := later } { n with tuples := tuples } where
  tuples := htuples
  envs i := by
    have hi := hreads.envs i
    generalize h.envs[i]? = env at hi ⊢
    generalize n.nests[i]? = nest at hi ⊢
    cases hi with
    | none => exact .none
    | some hnests => exact .some (hnests.keeps hkeeps)
  scopes i := by
    have hi := hreads.scopes i
    generalize h.scopes[i]? = scope at hi ⊢
    generalize n.layers[i]? = layer at hi ⊢
    cases hi with
    | none => exact .none
    | some hsome =>
        cases hsome with
        | none => exact .some .none
        | some hscope => exact .some (.some (hscope.keeps hkeeps))

/-- Another environment at the end. -/
theorem addEnv (hreads : h.Reads n) {env : Env} {nest : Nest} (henv : env.Nests h.store nest) :
    Holder.Reads { h with envs := h.envs ++ [env] } { n with nests := n.nests ++ [nest] } :=
  ⟨hreads.tuples, rel_append hreads.envs henv, hreads.scopes⟩

/-- More bindings in an open scope. -/
theorem put (hreads : h.Reads n) {scope : Scope} {layer : Layer} (i : Nat) {record : Record}
    (hparent : scope.parent.Nests h.store layer.parent)
    (hbindings : scope.bindings.Records (record ++ layer.record)) :
    (h.put i scope).Reads (n.put i layer record) := by
  have hscope : scope.Reads h.store ⟨layer.parent, record ++ layer.record⟩ :=
    ⟨hparent, hbindings⟩
  exact ⟨hreads.tuples, hreads.envs, rel_set hreads.scopes (.some hscope) i⟩

/-- A request keeps a host in step with its nested maps. -/
theorem step (hreads : h.Reads n) (r : Request) : (h.step r).Reads (n.step r) := by
  cases r with
  | root =>
      have hkeeps : h.store.Keeps (Env.root h.store).2 := .of_scopes_push rfl
      exact (hreads.keeps hkeeps hreads.tuples).addEnv (.root h.store)
  | extend i =>
      have hi := hreads.envs i
      simp only [Holder.step, Nested.step]
      generalize h.envs[i]? = env at hi ⊢
      generalize n.nests[i]? = nest at hi ⊢
      cases hi with
      | none => exact hreads
      | some hnests =>
          have hscope : Option.Rel (Scope.Reads h.store) (some (Env.extend _)) (some ⟨_, []⟩) :=
            .some ⟨hnests, .nil⟩
          exact ⟨hreads.tuples, hreads.envs, rel_append hreads.scopes hscope⟩
  | bind i x v =>
      have hi := hreads.scope? i
      simp only [Holder.step, Nested.step]
      generalize h.scope? i = scope at hi ⊢
      generalize n.layer? i = layer at hi ⊢
      cases hi with
      | none => exact hreads
      | some hscope => exact hreads.put i hscope.parent (hscope.bindings.insert x v)
  | bindPositional i xs ref =>
      have hi := hreads.scope? i
      have hlength : (h.store.items ref).size = (n.items ref).length := by
        rw [← hreads.items_eq ref, Array.length_toList]
      simp only [Holder.step, Nested.step, Scope.bindPositional, hlength]
      generalize h.scope? i = scope at hi ⊢
      generalize n.layer? i = layer at hi ⊢
      cases hi with
      | none => exact hreads
      | @some scope layer hscope =>
          by_cases harity : (n.items ref).length = xs.length
          · simp only [if_pos harity, hreads.items_eq ref]
            refine hreads.put i ?_ (hscope.bindings.bindEach xs (n.items ref))
            rw [Scope.parent_bindEach]
            exact hscope.parent
          · simp only [if_neg harity]
            exact hreads
  | close i =>
      have hi := hreads.scope? i
      simp only [Holder.step, Nested.step]
      generalize h.scope? i = scope at hi ⊢
      generalize n.layer? i = layer at hi ⊢
      cases hi with
      | none => exact hreads
      | @some scope layer hscope =>
          have hkeeps : h.store.Keeps (scope.close h.store).2 := .of_scopes_push rfl
          have hlater := (hreads.keeps hkeeps hreads.tuples).addEnv
            (hscope.parent.close hscope.bindings)
          exact ⟨hlater.tuples, hlater.envs, rel_set hlater.scopes .none i⟩
  | formTuple items =>
      have hkeeps : h.store.Keeps (h.store.formTuple items.toArray).2 := .of_scopes_eq rfl
      refine hreads.keeps hkeeps ?_
      simp [Store.formTuple, hreads.tuples]
  | augment ref v =>
      have hkeeps : h.store.Keeps (h.store.augment ref v) := .of_scopes_eq rfl
      refine hreads.keeps hkeeps ?_
      rw [← hreads.tuples]
      apply List.ext_getElem?
      intro i
      simp only [Store.augment, Array.toList_modify, List.getElem?_map, List.getElem?_modify]
      cases h.store.tuples.toList[i]? with
      | none => rfl
      | some items =>
          by_cases heq : ref = i
          · simp [heq]
          · simp [heq]

/-- So do any requests. -/
theorem after (hreads : h.Reads n) (requests : List Request) :
    (h.after requests).Reads (n.after requests) := by
  induction requests generalizing h n with
  | nil => exact hreads
  | cons r requests ih => exact ih (hreads.step r)

/-- Both give the same answers. -/
theorem answer_eq (hreads : h.Reads n) (r : Request) : h.answer r = n.answer r := by
  cases r with
  | bindPositional i xs ref =>
      have hi := hreads.scope? i
      have hlength : (h.store.items ref).size = (n.items ref).length := by
        rw [← hreads.items_eq ref, Array.length_toList]
      simp only [Holder.answer, Nested.answer, Scope.bindPositional, hlength]
      generalize h.scope? i = scope at hi ⊢
      generalize n.layer? i = layer at hi ⊢
      cases hi with
      | none => simp
      | some _ =>
          by_cases harity : (n.items ref).length = xs.length
          · simp [harity, Except.map]
          · simp [harity, Except.map]
  | _ => rfl

end Holder.Reads

/-! ## After any requests -/

namespace Holder

/-- A request takes no environment away. -/
theorem envs_step (h : Holder) (r : Request) : h.envs <+: (h.step r).envs := by
  cases r with
  | root => exact List.prefix_append _ _
  | extend i =>
      simp only [step]
      split <;> exact List.prefix_rfl
  | bind i x v =>
      simp only [step]
      split <;> exact List.prefix_rfl
  | bindPositional i xs ref =>
      simp only [step]
      split
      · split <;> exact List.prefix_rfl
      · exact List.prefix_rfl
  | close i =>
      simp only [step]
      split
      · exact List.prefix_append _ _
      · exact List.prefix_rfl
  | formTuple items => exact List.prefix_rfl
  | augment ref v => exact List.prefix_rfl

theorem envs_after (h : Holder) (requests : List Request) :
    h.envs <+: (h.after requests).envs := by
  induction requests generalizing h with
  | nil => exact List.prefix_rfl
  | cons r requests ih => exact (h.envs_step r).trans (ih (h.step r))

variable {h : Holder} {n : Nested} {i : Nat} {scope : Scope} {xs : List Name} {ref : Nat}

/-- An environment is that of nested maps. -/
theorem Reads.exists_nest (hreads : h.Reads n) {env : Env} (henv : h.envs[i]? = some env) :
    ∃ nest, n.nests[i]? = some nest ∧ env.Nests h.store nest := by
  have hi := hreads.envs i
  rw [henv] at hi
  generalize n.nests[i]? = nest at hi ⊢
  cases hi with
  | some hnests => exact ⟨_, rfl, hnests⟩

/-- An environment that is held answers for good as it does now. -/
theorem Reads.lookup_after (hreads : h.Reads n) (later : List Request) {env : Env}
    (henv : h.envs[i]? = some env) (x : Name) :
    env.lookup (h.after later).store x = env.lookup h.store x := by
  rcases hreads.exists_nest henv with ⟨nest, hnest, hnow⟩
  rcases (hreads.after later).exists_nest (getElem?_continued (h.envs_after later) henv) with
    ⟨nest', hnest', hthen⟩
  have hsame := getElem?_continued (n.nests_after later) hnest
  rw [hnest', Option.some.injEq] at hsame
  rw [hthen.lookup_eq, hnow.lookup_eq, hsame]

/-- Names are bound to the elements of a tuple exactly if there are as many. -/
theorem answer_bindPositional (hscope : h.scope? i = some scope) (xs : List Name) (ref : Nat) :
    h.answer (.bindPositional i xs ref) =
      if h.store.order ref = xs.length then .ok ()
      else .error (.arityMismatch xs.length (h.store.order ref)) := by
  simp only [answer, hscope, Scope.bindPositional, Store.order]
  by_cases harity : (h.store.items ref).size = xs.length
  · simp [harity, Except.map]
  · simp [harity, Except.map]

/-- Otherwise nothing is bound. -/
theorem step_bindPositional_of_ne (harity : h.store.order ref ≠ xs.length) :
    h.step (.bindPositional i xs ref) = h := by
  simp only [step, Scope.bindPositional]
  rw [Store.order] at harity
  split
  · rw [if_neg harity]
  · rfl

/-- The environment that was made last is that of the nested maps that were. -/
theorem Reads.getLast? (hreads : h.Reads n) :
    Option.Rel (Env.Nests h.store) h.envs.getLast? n.nests.getLast? := by
  rw [List.getLast?_eq_getElem?, List.getLast?_eq_getElem?, length_eq_of_rel hreads.envs]
  exact hreads.envs _

/-- Closing an open scope makes an environment of its record. -/
theorem Reads.exists_closed (hreads : h.Reads n) {layer : Layer}
    (hlayer : n.layer? i = some layer) :
    ∃ env, (h.step (.close i)).envs.getLast? = some env ∧
      env.Nests (h.step (.close i)).store (layer.record :: layer.parent) := by
  have hlast := (hreads.step (.close i)).getLast?
  have hnests : (n.step (.close i)).nests.getLast? = some (layer.record :: layer.parent) := by
    simp only [Nested.step, hlayer, List.getLast?_concat]
  rw [hnests] at hlast
  generalize (h.step (.close i)).envs.getLast? = env at hlast ⊢
  cases hlast with
  | some henv => exact ⟨_, rfl, henv⟩

/-- Names bound to the elements of a tuple have these for their values, however the tuple
grows until the scope is closed. -/
theorem Reads.lookup_bound (hreads : h.Reads n) (hscope : h.scope? i = some scope)
    (harity : h.store.order ref = xs.length) {between : List Request}
    (hbetween : ∀ r ∈ between, r.scope? ≠ some i) :
    ∃ env, (h.after (.bindPositional i xs ref :: between ++ [.close i])).envs.getLast? = some env ∧
      ∀ (k : Nat) (x : Name), xs[k]? = some x → x ∉ xs.drop (k + 1) →
        env.lookup (h.after (.bindPositional i xs ref :: between ++ [.close i])).store x =
          (h.store.items ref)[k]? := by
  obtain ⟨layer, hlayer⟩ : ∃ layer, n.layer? i = some layer := by
    have hi := hreads.scope? i
    rw [hscope] at hi
    generalize n.layer? i = layer at hi ⊢
    cases hi with
    | some _ => exact ⟨_, rfl⟩
  have hlength : (n.items ref).length = xs.length := by
    rw [← hreads.items_eq ref, Array.length_toList, ← harity, Store.order]
  have hbound : (n.step (.bindPositional i xs ref)).layer? i =
      some ⟨layer.parent, (xs.zip (n.items ref)).reverse ++ layer.record⟩ := by
    simp only [Nested.step, hlayer, if_pos hlength, Nested.layer?_put hlayer, if_true]
  have hready := (hreads.step (.bindPositional i xs ref)).after between
  rcases hready.exists_closed (Nested.layer?_after hbound hbetween) with ⟨env, hlast, henv⟩
  have hsplit : h.after (.bindPositional i xs ref :: between ++ [.close i]) =
      ((h.step (.bindPositional i xs ref)).after between).step (.close i) := List.foldl_append
  refine ⟨env, hsplit ▸ hlast, fun k x hx hunique => ?_⟩
  have hvalue := Record.latest?_zip hlength hx hunique layer.record
  have hk : k < (n.items ref).length := hlength ▸ (List.getElem?_eq_some_iff.mp hx).1
  rw [hsplit, henv.lookup_eq, Nest.find?, List.findSome?_cons, hvalue, ← Array.getElem?_toList,
    hreads.items_eq ref, List.getElem?_eq_getElem hk]

/-- Whatever is requested, environments answer as nested maps do, and what one answers once it
answers for good.  Its depth is the number of scopes that were closed on the way from its
root.  Names are bound to the elements of a tuple exactly if there are as many at that moment.
If there are not, nothing is bound; if there are, every name has the element that could then
be selected by its position, or by the last one of its positions. -/
theorem refines_nested (store : Store) (requests : List Request) :
    let h := (⟨store, [], []⟩ : Holder).after requests
    let n := (⟨store.tuples.toList.map Array.toList, [], []⟩ : Nested).after requests
    (∀ r, h.answer r = n.answer r) ∧
    h.envs.length = n.nests.length ∧
    (∀ (i : Nat) (env : Env), h.envs[i]? = some env →
      (∃ nest : Nest, n.nests[i]? = some nest ∧ (∀ x, env.lookup h.store x = nest.find? x) ∧
        env.depth = nest.length ∧ (env.isRoot = true ↔ env.depth = 0)) ∧
      ∀ later, (h.after later).envs[i]? = some env ∧
        ∀ x, env.lookup (h.after later).store x = env.lookup h.store x) ∧
    ∀ (i : Nat) (scope : Scope) (xs : List Name) (ref : Nat), h.scope? i = some scope →
      (h.answer (.bindPositional i xs ref) =
        if h.store.order ref = xs.length then .ok ()
        else .error (.arityMismatch xs.length (h.store.order ref))) ∧
      (h.store.order ref ≠ xs.length → h.step (.bindPositional i xs ref) = h) ∧
      (h.store.order ref = xs.length → ∀ between : List Request,
        (∀ r ∈ between, r.scope? ≠ some i) →
          let closed := h.after (.bindPositional i xs ref :: between ++ [.close i])
          ∃ env, closed.envs.getLast? = some env ∧
            ∀ (k : Nat) (x : Name), xs[k]? = some x → x ∉ xs.drop (k + 1) →
              ∃ v, env.lookup closed.store x = some v ∧ (h.store.items ref)[k]? = some v ∧
                ∀ index : Int64, index.toInt = k + 1 → h.store.select ref index = .ok v) := by
  intro h n
  have hreads : h.Reads n := (Reads.new store).after requests
  refine ⟨hreads.answer_eq, length_eq_of_rel hreads.envs, fun i env henv => ⟨?_, ?_⟩, ?_⟩
  · rcases hreads.exists_nest henv with ⟨nest, hnest, hnests⟩
    refine ⟨nest, hnest, hnests.lookup_eq, hnests.depth_eq, ?_⟩
    rw [Env.isRoot, Env.depth, List.isEmpty_iff, List.length_eq_zero_iff]
  · intro later
    exact ⟨getElem?_continued (h.envs_after later) henv, hreads.lookup_after later henv⟩
  · intro i scope xs ref hscope
    refine ⟨answer_bindPositional hscope xs ref, step_bindPositional_of_ne, ?_⟩
    intro harity between hbetween
    rcases hreads.lookup_bound hscope harity hbetween with ⟨env, hlast, hlookup⟩
    refine ⟨env, hlast, fun k x hx hunique => ?_⟩
    have hk : k < (h.store.items ref).size := by
      rw [Store.order] at harity
      exact harity ▸ (List.getElem?_eq_some_iff.mp hx).1
    have hitem := Array.getElem?_eq_getElem hk
    refine ⟨(h.store.items ref)[k], (hlookup k x hx hunique).trans hitem, hitem, ?_⟩
    intro index hindex
    have hplace : index.toInt.toNat - 1 = k := by omega
    rw [Store.select_eq_ok_iff, Array.getElem?_toList, hplace]
    exact ⟨by omega, hitem⟩

/-- Of two positions of a name the second one counts, whatever the tuple is augmented with
before the scope is closed. -/
theorem refines_nested_twice :
    let h := (⟨.empty, [], []⟩ : Holder).after [.root, .formTuple [.int 1, .int 2], .extend 0]
    let closed := h.after [.bindPositional 0 [⟨7⟩, ⟨7⟩] 0, .augment 0 (.int 3), .close 0]
    h.answer (.bindPositional 0 [⟨7⟩, ⟨7⟩] 0) = .ok () ∧
    ∃ env, closed.envs.getLast? = some env ∧ env.lookup closed.store ⟨7⟩ = some (.int 2) := by
  intro h closed
  have hscope : h.scope? 0 = some ⟨⟨0, []⟩, []⟩ := by decide
  have hitems : (h.store.items 0)[1]? = some (.int 2) := by decide
  have hrefines := refines_nested .empty [.root, .formTuple [.int 1, .int 2], .extend 0]
  rcases hrefines.2.2.2 0 _ [⟨7⟩, ⟨7⟩] 0 hscope with ⟨hanswer, -, hbound⟩
  have harity : h.store.order 0 = 2 := by decide
  rcases hbound harity [.augment 0 (.int 3)] (by simp [Request.scope?]) with ⟨env, hlast, hlookup⟩
  rcases hlookup 1 ⟨7⟩ rfl (by decide) with ⟨v, hv, hitem, -⟩
  rw [hitems, Option.some.injEq] at hitem
  exact ⟨hanswer.trans (if_pos harity), env, hlast, hitem ▸ hv⟩

end Holder

end CSEMachine
