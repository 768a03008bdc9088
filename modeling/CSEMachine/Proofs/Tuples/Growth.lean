import CSEMachine.Proofs.Effects
import CSEMachine.Proofs.Tuples.Held

/-!
# Growing tuples

A tuple changes by `aug` only, which adds one element at its end.  So whatever has been
selected from a tuple once can be selected from it for good, whichever of the values that
stand for the tuple is asked.

Main results:

- Theorem `Machine.step_grows`: a step leaves every tuple its elements.
- Theorem `Machine.tupleStep_of_reachable`: what a step does to the tuples, one by one.
- Theorem `Store.select_isOk_iff`: a position can be selected if it lies within the tuple.
- Theorem `Machine.tuples_run`: what follows for whole runs.
-/

namespace CSEMachine

/-! ## Growing stores -/

/-- All tuples of a store are in a later one, where they may have got further elements. -/
structure Store.Grows (s s' : Store) : Prop where
  size_le : s.tuples.size ≤ s'.tuples.size
  items_prefix : ∀ ref, ref < s.tuples.size → (s.items ref).toList <+: (s'.items ref).toList

namespace Store

variable {s s' s'' : Store} {ref : Nat}

/-- Stores of the same tuples differ in scopes only. -/
theorem Grows.of_tuples_eq (h : s'.tuples = s.tuples) : s.Grows s' := by
  refine ⟨Nat.le_of_eq (congrArg Array.size h.symm), fun ref _ => ?_⟩
  have hitems : s.items ref = s'.items ref := by rw [items, items, h]
  exact hitems ▸ List.prefix_rfl

theorem Grows.trans (h : s.Grows s') (h' : s'.Grows s'') : s.Grows s'' := by
  refine ⟨Nat.le_trans h.size_le h'.size_le, fun ref hlt => ?_⟩
  exact (h.items_prefix ref hlt).trans
    (h'.items_prefix ref (Nat.lt_of_lt_of_le hlt h.size_le))

theorem grows_formTuple (s : Store) (items : Array Value) : s.Grows (s.formTuple items).2 := by
  refine ⟨?_, fun ref hlt => ?_⟩
  · rw [size_formTuple]
    exact Nat.le_succ _
  · have hitems : (s.formTuple items).2.items ref = s.items ref := items_formTuple_of_lt hlt
    exact hitems ▸ List.prefix_rfl

theorem grows_augment (s : Store) (ref : Nat) (v : Value) : s.Grows (s.augment ref v) := by
  by_cases hlt : ref < s.tuples.size
  · refine ⟨Nat.le_of_eq (size_augment s ref v).symm, fun other _ => ?_⟩
    rw [items_augment hlt]
    split
    · rename_i heq
      rw [heq, Array.toList_push]
      exact List.prefix_append _ _
    · exact List.prefix_rfl
  · rw [augment_of_not_lt hlt]
    exact .of_tuples_eq rfl

/-! ## Selection -/

/-- The first element of a tuple is selected by 1. -/
theorem select_eq_ok_iff {index : Int64} {v : Value} :
    s.select ref index = .ok v ↔
      1 ≤ index.toInt ∧ (s.items ref).toList[index.toInt.toNat - 1]? = some v := by
  have hone : 1 ≤ index ↔ 1 ≤ index.toInt := Int64.le_iff_toInt_le
  rw [Array.getElem?_toList]
  unfold select select?
  by_cases hle : 1 ≤ index
  · rw [if_pos hle]
    cases (s.items ref)[index.toInt.toNat - 1]? with
    | none => simp
    | some w => simp [hone.mp hle]
  · rw [if_neg hle]
    simp [hone.not.mp hle]

/-- A position can be selected if it lies within the tuple. -/
theorem select_isOk_iff (s : Store) (ref : Nat) (index : Int64) :
    (∃ v, s.select ref index = .ok v) ↔ 1 ≤ index.toInt ∧ index.toInt ≤ s.order ref := by
  simp only [select_eq_ok_iff, exists_and_left]
  refine and_congr_right fun hle => ?_
  rw [← Option.isSome_iff_exists, Option.isSome_iff_ne_none, ne_eq, List.getElem?_eq_none_iff,
    Array.length_toList, ← order]
  omega

/-- What has been selected from a tuple is selected from it for good. -/
theorem Grows.select (h : s.Grows s') (hlt : ref < s.tuples.size) {index : Int64} {v : Value}
    (hv : s.select ref index = .ok v) : s'.select ref index = .ok v := by
  rw [select_eq_ok_iff] at hv ⊢
  rcases List.getElem?_eq_some_iff.mp hv.2 with ⟨hwithin, hget⟩
  refine ⟨hv.1, ?_⟩
  rw [← hget]
  exact List.prefix_iff_getElem?.mp (h.items_prefix ref hlt) _ hwithin

/-- A tuple never gets smaller. -/
theorem Grows.order (h : s.Grows s') (hlt : ref < s.tuples.size) : s.order ref ≤ s'.order ref := by
  have hlength := (h.items_prefix ref hlt).length_le
  rwa [Array.length_toList, Array.length_toList] at hlength

end Store

/-! ## Steps -/

/-- The instruction whose turn it is, unless no frame or a finished one is on top. -/
def State.instr? (s : State) : Option Instr :=
  match s.frames with
  | ⟨_, i :: _⟩ :: _ => some i
  | _ => none

theorem State.frames_of_instr? {s : State} {i : Instr} (h : s.instr? = some i) :
    ∃ env code callers, s.frames = ⟨env, i :: code⟩ :: callers := by
  unfold instr? at h
  split at h
  · rename_i env j code callers hframes
    cases h
    exact ⟨env, code, callers, hframes⟩
  · cases h

namespace Machine

/-- What a step does to the tuples. -/
structure TupleStep (m : Machine) (s : State) : Prop where
  /-- Every tuple keeps its elements, at their positions. -/
  grows : s.store.Grows (m.step s).state.store
  /-- Every tuple stays as it is, unless the step is an `aug` that succeeds. -/
  unchanged : (∀ line s', s.instr? = some (.binary line .aug) → m.step s ≠ .next s') →
    ∀ ref < s.store.tuples.size, (m.step s).state.store.items ref = s.store.items ref
  /-- An `aug` that succeeds appends the right operand to the tuple on its left, and gives
  back that tuple. -/
  augments : ∀ {line s'}, s.instr? = some (.binary line .aug) → m.step s = .next s' →
    ∃ ref v rest, s.stack = .tuple ref :: v :: rest ∧ s'.stack = .tuple ref :: rest ∧
      s'.store.tuples.size = s.store.tuples.size ∧
      s'.store.items ref = (s.store.items ref).push v ∧
      ∀ other, other ≠ ref → s'.store.items other = s.store.items other
  /-- A step that fails changes nothing. -/
  failed : ∀ {fault s'}, m.step s = .failed fault s' → s'.store = s.store
  /-- A tuple is formed in a cell of its own. -/
  forms : ∀ {line arity s'}, s.instr? = some (.tuple line arity) → m.step s = .next s' →
    s'.stack = .tuple s.store.tuples.size :: s.stack.drop arity ∧
      s'.store.tuples.size = s.store.tuples.size + 1 ∧
      s'.store.items s.store.tuples.size = (s.stack.take arity).toArray ∧
      ¬ s.Holds (.tuple s.store.tuples.size)
  /-- A tuple is asked for an element by a position within it. -/
  selects : ∀ {line ref index rest}, s.instr? = some (.apply line) →
    s.stack = .tuple ref :: .int index :: rest →
    (1 ≤ index.toInt ∧ index.toInt ≤ s.store.order ref →
      ∃ v s', s.store.select ref index = .ok v ∧ m.step s = .next s' ∧
        s'.stack = v :: rest ∧ s'.store = s.store) ∧
    (¬ (1 ≤ index.toInt ∧ index.toInt ≤ s.store.order ref) →
      ∃ fault s', m.step s = .failed fault s' ∧ s'.store = s.store)

/-- A step leaves every tuple its elements. -/
theorem step_grows (m : Machine) (s : State) : s.store.Grows (m.step s).state.store := by
  have heffect := m.step_effect s
  generalize m.step s = t at heffect ⊢
  cases heffect with
  | quiet hstore _ => exact .of_tuples_eq (congrArg Store.tuples hstore)
  | opens b hstore _ =>
      have htuples : _ = (s.store.addScope b).2.tuples := congrArg Store.tuples hstore
      exact .of_tuples_eq htuples
  | forms _ _ => exact s.store.grows_formTuple _
  | augments _ _ => exact s.store.grows_augment _ _
  | prints _ _ => exact .of_tuples_eq rfl

/-- A step other than an `aug` that succeeds leaves every tuple as it is. -/
theorem step_unchanged {m : Machine} {s : State}
    (h : ∀ line s', s.instr? = some (.binary line .aug) → m.step s ≠ .next s') {ref : Nat}
    (hlt : ref < s.store.tuples.size) :
    (m.step s).state.store.items ref = s.store.items ref := by
  have heffect := m.step_effect s
  generalize m.step s = t at heffect h ⊢
  cases heffect with
  | quiet hstore _ => rw [hstore]
  | opens b hstore _ => rw [Transition.state, hstore]; rfl
  | forms _ _ => exact Store.items_formTuple_of_lt hlt
  | @augments _ line _ _ _ _ _ hframes _ =>
      have hinstr : s.instr? = some (.binary line .aug) := by rw [State.instr?, hframes]
      exact absurd rfl (h _ _ hinstr)
  | prints _ _ => rfl

/-- An `aug` that succeeds finds a tuple on its left. -/
theorem step_aug {m : Machine} {s s' : State} {line : Nat}
    (h : s.instr? = some (.binary line .aug)) (hstep : m.step s = .next s') :
    ∃ ref v rest, s.stack = .tuple ref :: v :: rest ∧ s'.stack = .tuple ref :: rest ∧
      s'.store = s.store.augment ref v := by
  rcases State.frames_of_instr? h with ⟨env, code, callers, hframes⟩
  rcases s with ⟨frames, stack, store, printed⟩
  subst hframes
  match stack with
  | [] => cases hstep
  | [_] => cases hstep
  | left :: right :: rest =>
      cases left with
      | tuple ref =>
          cases hstep
          exact ⟨ref, right, rest, rfl, rfl, rfl⟩
      | _ => cases hstep

/-- A tuple is formed in the next cell. -/
theorem step_tuple {m : Machine} {s s' : State} {line arity : Nat}
    (h : s.instr? = some (.tuple line arity)) (hstep : m.step s = .next s') :
    s'.stack = .tuple s.store.tuples.size :: s.stack.drop arity ∧
      s'.store = (s.store.formTuple (s.stack.take arity).toArray).2 := by
  rcases State.frames_of_instr? h with ⟨env, code, callers, hframes⟩
  rcases s with ⟨frames, stack, store, printed⟩
  subst hframes
  rw [step_cons_cons] at hstep
  have hperform := Transition.eq_next_of_atLine hstep
  simp only [Instr.perform_eq, Focus.formTuple_eq] at hperform
  split at hperform
  · cases hperform
    exact ⟨rfl, rfl⟩
  · cases hperform

/-- A tuple that is applied to an integer gives the element at that position, or fails. -/
theorem step_select {m : Machine} {s : State} {line ref : Nat} {index : Int64}
    {rest : List Value} (h : s.instr? = some (.apply line))
    (hstack : s.stack = .tuple ref :: .int index :: rest) :
    (∀ v, s.store.select ref index = .ok v →
      ∃ s', m.step s = .next s' ∧ s'.stack = v :: rest ∧ s'.store = s.store) ∧
    ∀ cause, s.store.select ref index = .error cause →
      ∃ fault s', m.step s = .failed fault s' ∧ s'.store = s.store := by
  rcases State.frames_of_instr? h with ⟨env, code, callers, hframes⟩
  rcases s with ⟨frames, stack, store, printed⟩
  subst hframes hstack
  have hperform : m.step ⟨⟨env, .apply line :: code⟩ :: callers,
      .tuple ref :: .int index :: rest, store, printed⟩ =
        (Focus.pushResult ⟨env, code, callers, rest, store, printed⟩
          ((store.select ref index).mapError .of)).atLine line := rfl
  refine ⟨fun v hv => ?_, fun cause hcause => ?_⟩
  · rw [hperform, hv]
    exact ⟨_, rfl, rfl, rfl⟩
  · rw [hperform, hcause]
    exact ⟨_, _, rfl, rfl⟩

variable {m : Machine} {root : Block} {base : Store}

/-- What a step from a reachable state does to the tuples. -/
theorem tupleStep_of_reachable {s : State} (h : m.Reachable root base s) : m.TupleStep s where
  grows := m.step_grows s
  unchanged := fun hnone _ hlt => step_unchanged hnone hlt
  augments := by
    intro line s' hinstr hstep
    rcases step_aug hinstr hstep with ⟨ref, v, rest, hstack, hstack', hstore⟩
    have hlt : ref < s.store.tuples.size := by
      refine h.lt_size_of_holds (.stack ?_)
      rw [hstack]
      exact List.mem_cons_self
    refine ⟨ref, v, rest, hstack, hstack', ?_, ?_, fun other hne => ?_⟩
    · rw [hstore, Store.size_augment]
    · rw [hstore, Store.items_augment hlt, if_pos rfl]
    · rw [hstore, Store.items_augment hlt, if_neg hne]
  failed := fun hstep => (step_failed hstep).1
  forms := by
    intro line arity s' hinstr hstep
    rcases step_tuple hinstr hstep with ⟨hstack, hstore⟩
    refine ⟨hstack, ?_, ?_, fun hholds => ?_⟩
    · rw [hstore, Store.size_formTuple]
    · rw [hstore]
      exact Store.items_formTuple_self _ _
    · exact Nat.lt_irrefl _ (h.lt_size_of_holds hholds)
  selects := by
    intro line ref index rest hinstr hstack
    have hselect := step_select (m := m) hinstr hstack
    rw [← Store.select_isOk_iff]
    refine ⟨?_, fun hnone => ?_⟩
    · rintro ⟨v, hv⟩
      rcases hselect.1 v hv with ⟨s', hstep⟩
      exact ⟨v, s', hv, hstep⟩
    · cases hresult : s.store.select ref index with
      | ok v => exact absurd ⟨v, hresult⟩ hnone
      | error cause => exact hselect.2 cause hresult

/-! ## Runs -/

/-- The store that a run has got to after some steps. -/
def storeAfter (m : Machine) (root : Block) (base : Store) (n : Nat) : Store :=
  (m.after n (m.start root base)).state.store

/-- The first activation changes no tuple. -/
theorem start_grows (m : Machine) (root : Block) (base : Store) :
    base.Grows (m.storeAfter root base 0) := by
  unfold storeAfter
  rw [after_zero, start]
  split
  · exact .of_tuples_eq rfl
  · exact .of_tuples_eq rfl

/-- Tuples grow from step to step. -/
theorem storeAfter_grows (m : Machine) (root : Block) (base : Store) {n k : Nat} (h : n ≤ k) :
    (m.storeAfter root base n).Grows (m.storeAfter root base k) := by
  induction h with
  | refl => exact .of_tuples_eq rfl
  | @step k _ ih =>
      refine ih.trans ?_
      unfold storeAfter
      rw [Nat.succ_eq_add_one, after_succ]
      cases m.after k (m.start root base) with
      | next s => exact m.step_grows s
      | halted s => exact .of_tuples_eq rfl
      | failed fault s => exact .of_tuples_eq rfl

/-- Tuples only grow, one element at a time, and only by `aug`.  In every reachable state the
tuples that it holds exist, and a step changes no tuple but one that `aug` appends an element
to, and forms new tuples in cells of their own.  So in the course of a run no tuple gets
smaller, those that were in the store before the run included; a position can be selected
from it when it lies within its present elements, and gives the same value ever after. -/
theorem tuples_run (m : Machine) (root : Block) (base : Store) :
    (∀ s, m.Reachable root base s →
      m.TupleStep s ∧ ∀ ref, s.Holds (.tuple ref) → ref < s.store.tuples.size) ∧
    (∀ n, base.Grows (m.storeAfter root base n)) ∧
    ∀ n k, n ≤ k → ∀ ref < (m.storeAfter root base n).tuples.size,
      ref < (m.storeAfter root base k).tuples.size ∧
      (m.storeAfter root base n).order ref ≤ (m.storeAfter root base k).order ref ∧
      ∀ index,
        ((∃ v, (m.storeAfter root base n).select ref index = .ok v) ↔
          1 ≤ index.toInt ∧ index.toInt ≤ (m.storeAfter root base n).order ref) ∧
        ∀ v, (m.storeAfter root base n).select ref index = .ok v →
          (m.storeAfter root base k).select ref index = .ok v := by
  refine ⟨fun s h => ⟨tupleStep_of_reachable h, fun ref href => h.lt_size_of_holds href⟩, ?_, ?_⟩
  · intro n
    exact (start_grows m root base).trans (storeAfter_grows m root base (Nat.zero_le n))
  · intro n k hle ref hlt
    have hgrows := storeAfter_grows m root base hle
    refine ⟨Nat.lt_of_lt_of_le hlt hgrows.size_le, hgrows.order hlt, fun index => ⟨?_, ?_⟩⟩
    · exact Store.select_isOk_iff _ _ _
    · exact fun v hv => hgrows.select hlt hv

/-- The run of `(fn t. t aug 7) nil` augments its tuple in its sixth step; from then on the
first element of that tuple is 7. -/
theorem tuples_run_seven :
    let root : Block := ⟨0, [], [.tuple 1 0, .lambda 1 ⟨1, [⟨0⟩], [.literal 1 (.int 7),
      .ident 1 ⟨0⟩, .binary 1 .aug]⟩, .apply 1]⟩
    let m : Machine := ⟨⟨0, ["t"]⟩, none, true⟩
    (m.storeAfter root .empty 5).order 0 = 0 ∧
      ∀ k, 6 ≤ k → (m.storeAfter root .empty k).select 0 1 = .ok (.int 7) := by
  intro root m
  refine ⟨rfl, fun k hle => ?_⟩
  have hlt : 0 < (m.storeAfter root .empty 6).tuples.size := Nat.zero_lt_one
  have hselect : (m.storeAfter root .empty 6).select 0 1 = .ok (.int 7) := rfl
  exact (((tuples_run m root .empty).2.2 6 k hle 0 hlt).2.2 1).2 _ hselect

end Machine

end CSEMachine
