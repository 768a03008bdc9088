import CSEMachine.Proofs.Lowering.Visits

/-!
# Refused trees

A tree is refused for the first lambda, in the order of the walk, that binds nothing or
binds a variable twice.  Which lambda that is, and what is wrong with it, can be read off
the tree; the table that the walk started with has no part in it.

Main results:

- Theorem `Term.refusal?_eq_none_iff`: exactly the well-bound trees are not refused.
- Theorem `Term.refusal?_eq_findSome?`: the refusal of a tree is that of its first refused node.
- Theorem `Program.ofTerm_of_refusal`: so no table makes a program of it.
- Theorem `Program.grows_ofTerm`: in either case the table only grows.
-/

namespace CSEMachine

/-! ## What is refused -/

/-- The first of several texts that has been seen, or stands behind an equal one. -/
def Term.repeated? : List String → List String → Option String
  | _, [] => none
  | seen, x :: xs => if x ∈ seen then some x else Term.repeated? (x :: seen) xs

mutual

/-- The refusal of the first lambda that is refused, if one is. -/
def Term.refusal? : Term → Option BinderError
  | .ident _ _ | .literal _ _ | .nil _ | .fixpoint _ => none
  | .lambda line xs body =>
    if xs.isEmpty then some ⟨.empty, line⟩
    else match Term.repeated? [] xs with
      | some x => some ⟨.repeated x, line⟩
      | none => body.refusal?
  | .app _ rator rand => rator.refusal? <|> rand.refusal?
  | .cond _ condition thenArm elseArm =>
    condition.refusal? <|> thenArm.refusal? <|> elseArm.refusal?
  | .tuple _ items => Term.refusalAll? items
  | .binary _ _ left right => left.refusal? <|> right.refusal?
  | .unary _ _ operand => operand.refusal?

/-- The refusal of the first lambda of several trees that is refused. -/
def Term.refusalAll? : List Term → Option BinderError
  | [] => none
  | t :: ts => t.refusal? <|> Term.refusalAll? ts

end

theorem Term.repeated?_eq_none_iff {seen xs : List String} :
    Term.repeated? seen xs = none ↔ xs.Nodup ∧ ∀ x ∈ xs, x ∉ seen := by
  induction xs generalizing seen with
  | nil => simp [repeated?]
  | cons x xs ih =>
      rw [repeated?]
      by_cases hx : x ∈ seen
      · simp [hx]
      · rw [if_neg hx, ih, List.nodup_cons, List.forall_mem_cons]
        constructor
        · rintro ⟨hnodup, hseen⟩
          refine ⟨⟨?_, hnodup⟩, hx, ?_⟩
          · intro hmem
            exact hseen x hmem List.mem_cons_self
          · exact fun y hy hmem => hseen y hy (List.mem_cons_of_mem _ hmem)
        · rintro ⟨⟨hmem, hnodup⟩, _, hseen⟩
          refine ⟨hnodup, ?_⟩
          rintro y hy (_ | ⟨_, hy'⟩)
          · exact hmem hy
          · exact hseen y hy hy'

mutual

/-- Exactly the well-bound trees are not refused. -/
theorem Term.refusal?_eq_none_iff : ∀ t : Term, t.refusal? = none ↔ t.WellBound
  | .ident _ _ | .literal _ _ | .nil _ | .fixpoint _ => by simp [Term.refusal?, Term.WellBound]
  | .lambda line xs body => by
      rw [Term.refusal?, Term.WellBound]
      by_cases hempty : xs.isEmpty = true
      · simp only [if_pos hempty]
        simp [List.isEmpty_iff.mp hempty]
      · have hne : xs ≠ [] := by simpa using hempty
        rw [if_neg hempty]
        cases hrepeated : Term.repeated? [] xs with
        | some x =>
            have hnodup : ¬ xs.Nodup := by
              intro hnodup
              have hnone := Term.repeated?_eq_none_iff.mpr ⟨hnodup, fun y _ => List.not_mem_nil⟩
              rw [hrepeated] at hnone
              cases hnone
            simp [hnodup]
        | none =>
            have hnodup := (Term.repeated?_eq_none_iff.mp hrepeated).1
            simp [hne, hnodup, Term.refusal?_eq_none_iff body]
  | .app _ rator rand => by
      simp [Term.refusal?, Term.WellBound, Term.refusal?_eq_none_iff rator,
        Term.refusal?_eq_none_iff rand]
  | .cond _ c t e => by
      simp [Term.refusal?, Term.WellBound, Term.refusal?_eq_none_iff c,
        Term.refusal?_eq_none_iff t, Term.refusal?_eq_none_iff e]
  | .tuple _ items => by
      simp [Term.refusal?, Term.WellBound, Term.refusalAll?_eq_none_iff items]
  | .binary _ _ left right => by
      simp [Term.refusal?, Term.WellBound, Term.refusal?_eq_none_iff left,
        Term.refusal?_eq_none_iff right]
  | .unary _ _ operand => by
      simp [Term.refusal?, Term.WellBound, Term.refusal?_eq_none_iff operand]

theorem Term.refusalAll?_eq_none_iff : ∀ ts : List Term,
    Term.refusalAll? ts = none ↔ Term.AllWellBound ts
  | [] => by simp [Term.refusalAll?, Term.AllWellBound]
  | t :: ts => by
      simp [Term.refusalAll?, Term.AllWellBound, Term.refusal?_eq_none_iff t,
        Term.refusalAll?_eq_none_iff ts]

end

/-! ## Refusals in pre-order -/

namespace Term

/-- The refusal of a lambda for its own parameters, if it is refused for them. -/
def ownRefusal? : Term → Option BinderError
  | .lambda line xs _ =>
    if xs.isEmpty then some ⟨.empty, line⟩
    else (repeated? [] xs).map fun x => ⟨.repeated x, line⟩
  | _ => none

/-- The first repetition is found behind texts that neither repeat nor have been seen. -/
theorem repeated?_append_cons {seen xs : List String} {x : String} (ys : List String)
    (hnodup : (seen ++ xs).Nodup) (hx : x ∈ seen ++ xs) :
    repeated? seen (xs ++ x :: ys) = some x := by
  induction xs generalizing seen with
  | nil =>
      rw [List.append_nil] at hx
      rw [List.nil_append, repeated?, if_pos hx]
  | cons y xs ih =>
      have hperm : (seen ++ y :: xs).Perm (y :: seen ++ xs) := List.perm_middle
      have hy : y ∉ seen := fun hmem =>
        (List.nodup_append.mp hnodup).2.2 y hmem y List.mem_cons_self rfl
      rw [List.cons_append, repeated?, if_neg hy]
      exact ih (hperm.nodup_iff.mp hnodup) (hperm.mem_iff.mp hx)

theorem Refuses.ownRefusal?_eq {t : Term} {texts : List String} {e : BinderError}
    (h : t.Refuses texts e) : t.ownRefusal? = some e := by
  cases h with
  | empty line body => rfl
  | @repeated line body xs x ys hnodup hx =>
      have hne : ¬ (xs ++ x :: ys).isEmpty = true := by simp
      have hrepeated : repeated? [] (xs ++ x :: ys) = some x := repeated?_append_cons ys hnodup hx
      rw [ownRefusal?, if_neg hne, hrepeated]
      rfl

theorem ownRefusal?_eq_none {t : Term} (h : ¬ t.Misbinds) : t.ownRefusal? = none := by
  cases t with
  | lambda line xs body =>
      simp only [Misbinds, not_or, not_not] at h
      have hne : ¬ xs.isEmpty = true := by simpa using h.1
      have hnone := repeated?_eq_none_iff.mpr ⟨h.2, fun y _ => List.not_mem_nil (a := y)⟩
      rw [ownRefusal?, if_neg hne, hnone]
      rfl
  | _ => rfl

theorem refusalAll?_eq_findSome? (ts : List Term) :
    refusalAll? ts = ts.findSome? refusal? := by
  induction ts with
  | nil => rfl
  | cons t ts ih =>
      rw [refusalAll?, List.findSome?_cons, ih]
      cases t.refusal? <;> rfl

/-- A tree is refused for its first node, or else for its subtrees. -/
theorem refusal?_eq_or (t : Term) :
    t.refusal? = t.ownRefusal?.or (t.subtrees.findSome? refusal?) := by
  rw [← refusalAll?_eq_findSome?]
  cases t with
  | ident line x | literal line v | nil line | fixpoint line | tuple line items => rfl
  | app line rator rand | cond line c t e | binary line op left right | unary line op operand =>
      simp [refusal?, ownRefusal?, subtrees, refusalAll?]
  | lambda line xs body =>
      rw [refusal?, ownRefusal?]
      split
      · rfl
      · cases repeated? [] xs with
        | some x => rfl
        | none => simp [subtrees, refusalAll?]

/-- The refusal of a tree is that of its first node, in pre-order, that is refused. -/
theorem refusal?_eq_findSome? (t : Term) : t.refusal? = t.nodes.findSome? ownRefusal? := by
  refine Term.induction_forest (P := fun t => t.refusal? = t.nodes.findSome? ownRefusal?)
    (Q := fun us => us.findSome? refusal? = (us.flatMap nodes).findSome? ownRefusal?) ?_ ?_ ?_ t
  · rfl
  · intro u us hu hus
    rw [List.findSome?_cons, hu, hus, List.flatMap_cons, List.findSome?_append]
    cases u.nodes.findSome? ownRefusal? <;> rfl
  · intro t hbelow
    rw [refusal?_eq_or, hbelow, t.nodes_eq, List.findSome?_cons]
    cases t.ownRefusal? <;> rfl

end Term

/-! ## Refused trees -/

/-- No table makes a program of a refused tree, and all refuse it alike. -/
theorem Program.ofTerm_of_refusal {t : Term} {e : BinderError} (h : t.refusal? = some e)
    (standardized : Bool) (table : NameTable) :
    ∃ table', Program.ofTerm t standardized table = (.error e, table') ∧
      table.Grows table' := by
  rw [t.refusal?_eq_findSome?] at h
  rcases Walk.run_visits t.nodes table 1 with ⟨hall, _⟩ |
    ⟨before, u, after, texts, e', hnodes, hbefore, hrefuses, k, hrun⟩
  · rw [List.findSome?_eq_none_iff.mpr fun u hu => Term.ownRefusal?_eq_none (hall u hu)] at h
    cases h
  · have hnone := List.findSome?_eq_none_iff.mpr
      fun u hu => Term.ownRefusal?_eq_none (hbefore u hu)
    rw [hnodes, List.findSome?_append, hnone, List.findSome?_cons, hrefuses.ownRefusal?_eq] at h
    cases h
    exact ⟨_, ofTerm_of_visits_error standardized hrun, table.grows_internAll _⟩

/-- Making a program of a tree only adds texts to the table, also when the tree is
refused. -/
theorem Program.grows_ofTerm (t : Term) (standardized : Bool) (table : NameTable) :
    table.Grows (Program.ofTerm t standardized table).2 := by
  rcases Walk.run_visits t.nodes table 1 with ⟨_, k, hrun⟩ | ⟨_, _, _, _, e, _, _, _, k, hrun⟩
  · rcases ofTerm_of_visits_ok standardized hrun with ⟨p, hp⟩
    rw [hp]
    exact table.grows_internAll _
  · rw [ofTerm_of_visits_error standardized hrun]
    exact table.grows_internAll _

end CSEMachine
