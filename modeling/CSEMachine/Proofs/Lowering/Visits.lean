import CSEMachine.Proofs.Preorder
import Mathlib.Data.List.Induction

/-!
# The order of lowering

Lowering a tree visits its nodes in pre-order.  At an identifier it names the identifier, at a
lambda the parameters, one by one, and at no other node anything.  It stops at the first lambda
that binds nothing or a variable twice, with the parameters named up to the repeated one.  So
the table afterwards lists what was new to it in the order in which it occurs in the tree.

Main results:

- Theorem `NameTable.internAll_eq_adding`: the texts that a table lists after several have been
  named.
- Theorem `Term.traced_resolve_eq_visits`: resolving a tree visits its nodes in pre-order.
- Theorem `Walk.run_visits`: the outcome of visiting nodes.
- Theorem `Program.outcome_ofTerm`: when lowering fails, with which error, and what is named.
-/

namespace CSEMachine

/-! ## Texts in the order in which they come -/

namespace NameTable

/-- The table with several texts listed behind its own: those that are new to it, in the order
in which they come first. -/
def adding (table : NameTable) (texts : List String) : NameTable :=
  { table with texts := table.texts ++ (texts.filter (· ∉ table.texts)).eraseDups }

/-- Naming texts lists those that are new in the order in which they come first. -/
theorem internAll_eq_adding (table : NameTable) (texts : List String) :
    table.internAll texts = table.adding texts := by
  induction texts generalizing table with
  | nil => simp [internAll, adding]
  | cons x texts ih =>
      have hcons : table.internAll (x :: texts) = (table.intern x).2.internAll texts := rfl
      rw [hcons, ih]
      by_cases hx : x ∈ table.texts
      · rw [intern_of_mem hx]
        simp [adding, hx]
      · have hintern : (table.intern x).2 = ⟨table.id, table.texts ++ [x]⟩ := by
          simp [intern, find?_eq_none_iff.mpr hx, append]
        rw [hintern]
        simp [adding, hx, List.eraseDups_cons, List.filter_filter, and_comm, beq_eq_decide]

end NameTable

/-! ## Nodes of their own -/

namespace Term

/-- The texts that stand in a node itself: an identifier, or the parameters of a lambda. -/
def ownTexts : Term → List String
  | .ident _ x => [x]
  | .lambda _ xs _ => xs
  | _ => []

/-- A lambda that binds nothing, or a variable twice. -/
def Misbinds : Term → Prop
  | .lambda _ xs _ => xs = [] ∨ ¬ xs.Nodup
  | _ => False

/-- The error of such a lambda, on its line, and the parameters that have been read when it is
found: none of an empty list, otherwise those up to the first one that repeats another. -/
inductive Refuses : Term → List String → BinderError → Prop
  | empty (line : Nat) (body : Term) : Refuses (.lambda line [] body) [] ⟨.empty, line⟩
  | repeated (line : Nat) (body : Term) {xs : List String} {x : String} (ys : List String)
      (hnodup : xs.Nodup) (hx : x ∈ xs) :
      Refuses (.lambda line (xs ++ x :: ys) body) (xs ++ [x]) ⟨.repeated x, line⟩

/-- A list with a repetition has a first one. -/
theorem exists_first_repetition {xs : List String} (h : ¬ xs.Nodup) :
    ∃ (ys : List String) (x : String) (zs : List String), xs = ys ++ x :: zs ∧ ys.Nodup ∧ x ∈ ys := by
  induction xs using List.reverseRecOn with
  | nil => exact absurd List.nodup_nil h
  | append_singleton xs x ih =>
      by_cases hxs : xs.Nodup
      · refine ⟨xs, x, [], rfl, hxs, ?_⟩
        by_contra hx
        exact h (List.nodup_append.mpr ⟨hxs, List.nodup_singleton x, by
          rintro y hy z hz rfl
          exact hx (List.mem_singleton.mp hz ▸ hy)⟩)
      · rcases ih hxs with ⟨ys, y, zs, rfl, hys, hy⟩
        exact ⟨ys, y, zs ++ [x], by simp, hys, hy⟩

theorem Misbinds.refuses {t : Term} (h : t.Misbinds) : ∃ texts e, t.Refuses texts e := by
  cases t with
  | lambda line xs body =>
      by_cases hempty : xs = []
      · subst hempty
        exact ⟨_, _, .empty line body⟩
      · rcases exists_first_repetition (h.resolve_left hempty) with ⟨ys, x, zs, rfl, hys, hx⟩
        exact ⟨_, _, .repeated line body zs hys hx⟩
  | _ => exact h.elim

theorem Refuses.misbinds {t : Term} {texts : List String} {e : BinderError}
    (h : t.Refuses texts e) : t.Misbinds := by
  cases h with
  | empty line body => exact Or.inl rfl
  | repeated line body ys hnodup hx =>
      refine Or.inr fun hall => ?_
      exact (List.nodup_append.mp hall).2.2 _ hx _ List.mem_cons_self rfl

end Term

/-! ## Visits -/

namespace Walk

/-- A walk without its result. -/
def traced {α : Type} (walk : Walk α) : Walk Unit := do
  let _ ← walk

/-- What resolving does at a node itself. -/
def visit : Term → Walk Unit
  | .ident _ x => (intern x).traced
  | .lambda line xs _ => do
    if xs.isEmpty then throw ⟨.empty, line⟩
    let _ ← params line [] xs
    let _ ← fresh
  | _ => pure ()

/-- Without its result a walk ends as it does with it. -/
theorem run_traced {α : Type} (walk : Walk α) (s : Numbering) :
    walk.traced.run s = ((walk.run s).1.map fun _ => (), (walk.run s).2) := by
  rw [traced, run_bind]
  rcases walk.run s with ⟨_ | _, _⟩ <;> rfl

end Walk

theorem Term.traced_resolveAll (ts : List Term) :
    (Term.resolveAll ts).traced = forM ts fun t => t.resolve.traced := by
  induction ts with
  | nil => rfl
  | cons t ts ih =>
      rw [List.forM_cons, ← ih]
      simp only [Term.resolveAll, Walk.traced, bind_assoc, pure_bind]

/-- Resolving a tree visits its first node and then resolves its subtrees. -/
theorem Term.traced_resolve (t : Term) :
    t.resolve.traced = (do Walk.visit t; forM t.subtrees fun u => u.resolve.traced) := by
  cases t with
  | literal line v | nil line | fixpoint line =>
      simp only [Term.resolve, Walk.visit, subtrees, Walk.traced, pure_bind, List.forM_nil]
  | ident line x | app line r d | cond line c t e | binary line op l r | unary line op a =>
      simp only [Term.resolve, Walk.visit, subtrees, Walk.traced, bind_assoc, pure_bind,
        List.forM_cons, List.forM_nil]
  | lambda line xs body =>
      by_cases h : xs.isEmpty = true
      · simp only [Term.resolve, Walk.visit, subtrees, Walk.traced, bind_assoc, pure_bind,
          List.forM_cons, List.forM_nil, if_pos h]
      · simp only [Term.resolve, Walk.visit, subtrees, Walk.traced, bind_assoc, pure_bind,
          List.forM_cons, List.forM_nil, if_neg h]
  | tuple line items =>
      rw [subtrees, ← Term.traced_resolveAll]
      simp only [Term.resolve, Walk.visit, Walk.traced, bind_assoc, pure_bind]

/-- Resolving a tree visits its nodes in pre-order. -/
theorem Term.traced_resolve_eq_visits (t : Term) :
    t.resolve.traced = forM t.nodes Walk.visit := by
  refine Term.induction_forest (P := fun t => t.resolve.traced = forM t.nodes Walk.visit)
    (Q := fun us => (forM us fun u => u.resolve.traced) = forM (us.flatMap nodes) Walk.visit)
    ?_ ?_ ?_ t
  · rfl
  · intro u us hu hus
    rw [List.forM_cons, hu, hus, List.flatMap_cons, List.forM_append]
  · intro t hbelow
    rw [Term.traced_resolve, hbelow, t.nodes_eq, List.forM_cons]

namespace Walk

/-- Parameters are named one by one, up to the first one that repeats another. -/
theorem run_params_of_repeated (line : Nat) (seen : List String) {xs : List String} {x : String}
    (ys : List String) {table : NameTable} (n : Nat) (hseen : ∀ y ∈ seen, y ∈ table.texts)
    (hnodup : (seen ++ xs).Nodup) (hx : x ∈ seen ++ xs) :
    (params line (seen.map table.nameOf) (xs ++ x :: ys)).run ⟨table, n⟩ =
      (.error ⟨.repeated x, line⟩, ⟨table.internAll (xs ++ [x]), n⟩) := by
  induction xs generalizing seen table with
  | nil =>
      rw [List.append_nil] at hx
      exact run_params_of_mem line ys n hseen hx
  | cons y xs ih =>
      have hperm : (seen ++ y :: xs).Perm (y :: seen ++ xs) := List.perm_middle
      have hy : y ∉ seen := fun hmem =>
        (List.nodup_append.mp hnodup).2.2 y hmem y List.mem_cons_self rfl
      have hrest := ih _ (forall_mem_intern y hseen) (hperm.nodup_iff.mp hnodup)
        (hperm.mem_iff.mp hx)
      rw [List.cons_append, run_params_cons line _ n hseen hy, run_bind, hrest]
      rfl

/-- At a lambda that misbinds, the visits stop. -/
theorem run_visit_of_refuses {t : Term} {texts : List String} {e : BinderError}
    (h : t.Refuses texts e) (table : NameTable) (n : Nat) :
    (visit t).run ⟨table, n⟩ = (.error e, ⟨table.internAll texts, n⟩) := by
  cases h with
  | empty line body => rfl
  | @repeated line body xs x ys hnodup hx =>
      have hparams : (params line [] (xs ++ x :: ys)).run ⟨table, n⟩ =
          (.error ⟨.repeated x, line⟩, ⟨table.internAll (xs ++ [x]), n⟩) :=
        run_params_of_repeated line [] ys n (List.forall_mem_nil _) hnodup hx
      have hne : ¬ (xs ++ x :: ys).isEmpty = true := by simp
      rw [visit, if_neg hne, run_bind, hparams]

/-- At any other node, its texts are named. -/
theorem run_visit {t : Term} (h : ¬ t.Misbinds) (table : NameTable) (n : Nat) :
    ∃ k, (visit t).run ⟨table, n⟩ = (.ok (), ⟨table.internAll t.ownTexts, k⟩) := by
  cases t with
  | ident line x => exact ⟨n, by rw [visit, run_traced, run_intern]; rfl⟩
  | lambda line xs body =>
      simp only [Term.Misbinds, not_or, not_not] at h
      have hne : ¬ xs.isEmpty = true := by simpa using h.1
      refine ⟨n + 1, ?_⟩
      rw [visit, if_neg hne]
      exact run_bind_of_ok (run_params line xs [] n (List.forall_mem_nil _) h.2 (.refl _))
  | _ => exact ⟨n, rfl⟩

/-- Visiting nodes names their texts, or stops at the first lambda that misbinds. -/
theorem run_visits (ts : List Term) (table : NameTable) (n : Nat) :
    (∀ t ∈ ts, ¬ t.Misbinds) ∧
        (∃ k, (forM ts visit : Walk _).run ⟨table, n⟩ =
          (.ok (), ⟨table.internAll (ts.flatMap Term.ownTexts), k⟩)) ∨
      ∃ before t after texts e, ts = before ++ t :: after ∧ (∀ u ∈ before, ¬ u.Misbinds) ∧
        t.Refuses texts e ∧ ∃ k, (forM ts visit : Walk _).run ⟨table, n⟩ =
          (.error e, ⟨table.internAll (before.flatMap Term.ownTexts ++ texts), k⟩) := by
  induction ts generalizing table n with
  | nil => exact Or.inl ⟨nofun, n, rfl⟩
  | cons t ts ih =>
      rw [List.forM_cons, run_bind]
      by_cases ht : t.Misbinds
      · rcases ht.refuses with ⟨texts, e, hrefuses⟩
        refine Or.inr ⟨[], t, ts, texts, e, rfl, nofun, hrefuses, n, ?_⟩
        rw [run_visit_of_refuses hrefuses]
        rfl
      · rcases run_visit ht table n with ⟨k, hvisit⟩
        rw [hvisit]
        rcases ih (table.internAll t.ownTexts) k with ⟨hall, k', hrun⟩ |
          ⟨before, u, after, texts, e, rfl, hbefore, hrefuses, k', hrun⟩
        · refine Or.inl ⟨List.forall_mem_cons.mpr ⟨ht, hall⟩, k', ?_⟩
          rw [List.flatMap_cons, NameTable.internAll_append]
          exact hrun
        · refine Or.inr ⟨t :: before, u, after, texts, e, rfl,
            List.forall_mem_cons.mpr ⟨ht, hbefore⟩, hrefuses, k', ?_⟩
          rw [List.flatMap_cons, List.append_assoc, NameTable.internAll_append]
          exact hrun

end Walk

/-! ## Lowering -/

namespace Program

variable {t : Term} {table : NameTable} {s : Numbering}

/-- A tree becomes a program if the visits of its nodes go well. -/
theorem ofTerm_of_visits_ok (standardized : Bool)
    (h : (forM t.nodes Walk.visit : Walk _).run ⟨table, 1⟩ = (.ok (), s)) :
    ∃ p, Program.ofTerm t standardized table = (.ok p, s.table) := by
  rw [← t.traced_resolve_eq_visits, Walk.run_traced] at h
  simp only [ofTerm, Term.resolveIn]
  generalize t.resolve.run ⟨table, 1⟩ = outcome at h ⊢
  rcases outcome with ⟨_ | e, s'⟩
  · cases h
  · cases h
    exact ⟨_, rfl⟩

/-- And it is refused as they are. -/
theorem ofTerm_of_visits_error (standardized : Bool) {e : BinderError}
    (h : (forM t.nodes Walk.visit : Walk _).run ⟨table, 1⟩ = (.error e, s)) :
    Program.ofTerm t standardized table = (.error e, s.table) := by
  rw [← t.traced_resolve_eq_visits, Walk.run_traced] at h
  simp only [ofTerm, Term.resolveIn]
  generalize t.resolve.run ⟨table, 1⟩ = outcome at h ⊢
  rcases outcome with ⟨_ | e, s'⟩
  · cases h
    rfl
  · cases h

/-- Lowering a tree fails exactly if a lambda of it binds nothing, or a variable twice.  The
error is that of the first such lambda in pre-order.  In either case the table afterwards lists
behind its own texts those that were new to it, in the order in which they occur in the tree:
all of them if the tree became a program, otherwise those up to the parameter that repeats
another, or to the lambda without parameters. -/
theorem outcome_ofTerm (t : Term) (standardized : Bool) (table : NameTable) :
    ((∃ e, (Program.ofTerm t standardized table).1 = .error e) ↔
      ∃ u ∈ t.nodes, u.Misbinds) ∧
    (∀ p table', Program.ofTerm t standardized table = (.ok p, table') →
      table' = table.adding (t.nodes.flatMap Term.ownTexts)) ∧
    ∀ e table', Program.ofTerm t standardized table = (.error e, table') →
      ∃ before u after texts, t.nodes = before ++ u :: after ∧
        (∀ v ∈ before, ¬ v.Misbinds) ∧ u.Refuses texts e ∧
        table' = table.adding (before.flatMap Term.ownTexts ++ texts) := by
  rcases Walk.run_visits t.nodes table 1 with ⟨hall, k, hrun⟩ |
    ⟨before, u, after, texts, e, hnodes, hbefore, hrefuses, k, hrun⟩
  · rcases ofTerm_of_visits_ok standardized hrun with ⟨p, hp⟩
    rw [hp, NameTable.internAll_eq_adding]
    refine ⟨?_, ?_, ?_⟩
    · constructor
      · rintro ⟨e, ⟨⟩⟩
      · rintro ⟨u, hu, hmisbinds⟩
        exact absurd hmisbinds (hall u hu)
    · rintro _ _ ⟨⟩
      rfl
    · rintro _ _ ⟨⟩
  · rw [ofTerm_of_visits_error standardized hrun, NameTable.internAll_eq_adding]
    refine ⟨?_, ?_, ?_⟩
    · constructor
      · intro _
        exact ⟨u, by simp [hnodes], hrefuses.misbinds⟩
      · intro _
        exact ⟨e, rfl⟩
    · rintro _ _ ⟨⟩
    · rintro _ _ ⟨⟩
      exact ⟨before, u, after, texts, hnodes, hbefore, hrefuses, rfl⟩

/-- The tree of `(fn x. y) (x -> (fn z w z. fn . nil) | u)` is refused for the lambda on
line 6, whose parameters are named up to the repeated one; `y` is known already. -/
theorem outcome_ofTerm_repeated :
    let t : Term := .app 1 (.lambda 2 ["x"] (.ident 3 "y"))
      (.cond 4 (.ident 5 "x") (.lambda 6 ["z", "w", "z"] (.lambda 7 [] (.nil 8)))
        (.ident 9 "u"))
    let e : BinderError := ⟨.repeated "z", 6⟩
    let table' : NameTable := ⟨0, ["y", "x", "z", "w"]⟩
    Program.ofTerm t true ⟨0, ["y"]⟩ = (.error e, table') ∧
      ∃ before u after texts, t.nodes = before ++ u :: after ∧
        (∀ v ∈ before, ¬ v.Misbinds) ∧ u.Refuses texts e ∧
        table' = (⟨0, ["y"]⟩ : NameTable).adding (before.flatMap Term.ownTexts ++ texts) := by
  intro t e table'
  have h : Program.ofTerm t true ⟨0, ["y"]⟩ = (.error e, table') := rfl
  exact ⟨h, (outcome_ofTerm t true ⟨0, ["y"]⟩).2.2 e table' h⟩

end Program

end CSEMachine
