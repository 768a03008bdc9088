import CSEMachine.Evaluation
import Mathlib.Data.List.Nodup

/-!
# What resolving gives

A tree resolves exactly when every lambda in it binds at least one variable and none
twice.  The names that it then carries are the positions that its texts have in the
table as it is afterwards, and its lambdas are numbered in the order of the tree.  A
table only grows, so those names keep their meaning.

Main results:

- Theorem `NameTable.Grows.text_nameOf`: a name given once stands for its text for good.
- Theorem `Term.resolve_of_wellBound`: what a tree resolves to.
- Theorem `Program.ofTerm_of_wellBound`: well-bound trees become programs.
- Theorem `Program.of_ofTerm`: what is known of a tree that has become a program.
-/

namespace CSEMachine

/-! ## Names of listed texts -/

/-- What is in a list is at the same position of every list that continues it. -/
theorem getElem?_continued {α : Type} {xs ys : List α} (h : xs <+: ys) {n : Nat} {x : α}
    (hx : xs[n]? = some x) : ys[n]? = some x := by
  rcases List.getElem?_eq_some_iff.mp hx with ⟨hlt, rfl⟩
  exact List.prefix_iff_getElem?.mp h n hlt

namespace NameTable

/-- The name of a text that is listed. -/
def nameOf (table : NameTable) (text : String) : Name :=
  ⟨table.texts.idxOf text⟩

/-- A table grows into another when that one lists further texts behind its own. -/
structure Grows (table later : NameTable) : Prop where
  id : table.id = later.id
  texts : table.texts <+: later.texts

namespace Grows

theorem refl (table : NameTable) : table.Grows table :=
  ⟨rfl, List.prefix_rfl⟩

theorem trans {table later last : NameTable} (h : table.Grows later) (h' : later.Grows last) :
    table.Grows last :=
  ⟨h.id.trans h'.id, h.texts.trans h'.texts⟩

theorem mem {table later : NameTable} (h : table.Grows later) {text : String}
    (hmem : text ∈ table.texts) : text ∈ later.texts :=
  h.texts.subset hmem

/-- A listed text keeps its name. -/
theorem nameOf_eq {table later : NameTable} (h : table.Grows later) {text : String}
    (hmem : text ∈ table.texts) : later.nameOf text = table.nameOf text := by
  rcases h.texts with ⟨new, hnew⟩
  rw [nameOf, nameOf, ← hnew, List.idxOf_append_of_mem hmem]

/-- A name given once stands for its text for good. -/
theorem text_nameOf {table later : NameTable} (h : table.Grows later) {text : String}
    (hmem : text ∈ table.texts) : later.text (table.nameOf text) = text := by
  rw [← h.nameOf_eq hmem, nameOf, NameTable.text]
  have hlt := List.idxOf_lt_length_of_mem (h.mem hmem)
  rw [List.getElem?_eq_getElem hlt, List.getElem_idxOf, Option.getD_some]

end Grows

/-- Listed texts with one name are one text. -/
theorem nameOf_inj {table : NameTable} {x y : String} (hx : x ∈ table.texts) :
    table.nameOf x = table.nameOf y ↔ x = y := by
  rw [nameOf, nameOf, Name.mk.injEq, List.idxOf_inj hx]

/-- A table lists every one of several texts. -/
def Lists (table : NameTable) (texts : List String) : Prop :=
  ∀ x ∈ texts, x ∈ table.texts

namespace Lists

variable {table : NameTable} {xs ys : List String}

theorem left (h : table.Lists (xs ++ ys)) : table.Lists xs :=
  fun x hx => h x (List.mem_append_left _ hx)

theorem right (h : table.Lists (xs ++ ys)) : table.Lists ys :=
  fun x hx => h x (List.mem_append_right _ hx)

/-- The name of a listed text stands for it. -/
theorem text_nameOf (h : table.Lists xs) {x : String} (hx : x ∈ xs) :
    table.text (table.nameOf x) = x :=
  (Grows.refl table).text_nameOf (h x hx)

/-- The names of listed texts stand for them. -/
theorem map_text (h : table.Lists xs) : (xs.map table.nameOf).map table.text = xs := by
  rw [List.map_map]
  exact (List.map_congr_left fun x hx => h.text_nameOf hx).trans (List.map_id xs)

/-- Distinct listed texts have distinct names. -/
theorem nodup_map_nameOf (h : table.Lists xs) (hnodup : xs.Nodup) :
    (xs.map table.nameOf).Nodup := by
  refine List.Nodup.map_on ?_ hnodup
  intro x hx y _ hxy
  exact (nameOf_inj (h x hx)).mp hxy

end Lists

/-- Interning lists a text that is new and changes nothing else. -/
theorem grows_intern (table : NameTable) (text : String) :
    table.Grows (table.intern text).2 := by
  unfold intern
  split
  · exact Grows.refl table
  · exact ⟨rfl, List.prefix_append _ _⟩

theorem mem_intern (table : NameTable) (text : String) :
    text ∈ (table.intern text).2.texts := by
  unfold intern
  split
  · rename_i name hfound
    have hsome : table.find? text ≠ none := by simp [hfound]
    rw [ne_eq, find?_eq_none_iff, not_not] at hsome
    exact hsome
  · simp [append]

/-- Interning gives the name that the text has afterwards. -/
theorem intern_fst (table : NameTable) (text : String) :
    (table.intern text).1 = (table.intern text).2.nameOf text := by
  unfold intern
  split
  · rename_i name hfound
    simp only [find?, Option.map_eq_some_iff] at hfound
    rcases hfound with ⟨i, hi, rfl⟩
    rw [nameOf, List.idxOf_eq_getD_idxOf?, hi]
    rfl
  · rename_i hnone
    rw [find?_eq_none_iff] at hnone
    simp [append, nameOf, size, List.idxOf_append_of_notMem hnone]

/-- The table after several texts have been interned. -/
def internAll (table : NameTable) (texts : List String) : NameTable :=
  texts.foldl (fun table text => (table.intern text).2) table

theorem internAll_append (table : NameTable) (xs ys : List String) :
    table.internAll (xs ++ ys) = (table.internAll xs).internAll ys :=
  List.foldl_append

theorem grows_internAll (table : NameTable) (texts : List String) :
    table.Grows (table.internAll texts) := by
  induction texts generalizing table with
  | nil => exact Grows.refl table
  | cons text texts ih => exact (table.grows_intern text).trans (ih _)

theorem mem_internAll {table : NameTable} {texts : List String} {text : String}
    (h : text ∈ texts) : text ∈ (table.internAll texts).texts := by
  induction texts generalizing table with
  | nil => cases h
  | cons x texts ih =>
      rcases List.mem_cons.mp h with rfl | h
      · exact (grows_internAll _ texts).mem (table.mem_intern text)
      · exact ih h

end NameTable

/-! ## Trees -/

mutual

/-- Number of lambdas of a tree. -/
def Term.lambdas : Term → Nat
  | .ident _ _ | .literal _ _ | .nil _ | .fixpoint _ => 0
  | .lambda _ _ body => body.lambdas + 1
  | .app _ rator rand => rator.lambdas + rand.lambdas
  | .cond _ condition thenArm elseArm =>
    condition.lambdas + thenArm.lambdas + elseArm.lambdas
  | .tuple _ items => Term.lambdasAll items
  | .binary _ _ left right => left.lambdas + right.lambdas
  | .unary _ _ operand => operand.lambdas

/-- Number of lambdas of several trees. -/
def Term.lambdasAll : List Term → Nat
  | [] => 0
  | t :: ts => t.lambdas + Term.lambdasAll ts

end

mutual

/-- The texts of a tree, parameters included, in the order in which they are named. -/
def Term.texts : Term → List String
  | .ident _ x => [x]
  | .literal _ _ | .nil _ | .fixpoint _ => []
  | .lambda _ xs body => xs ++ body.texts
  | .app _ rator rand => rator.texts ++ rand.texts
  | .cond _ condition thenArm elseArm => condition.texts ++ thenArm.texts ++ elseArm.texts
  | .tuple _ items => Term.textsAll items
  | .binary _ _ left right => left.texts ++ right.texts
  | .unary _ _ operand => operand.texts

/-- The texts of several trees. -/
def Term.textsAll : List Term → List String
  | [] => []
  | t :: ts => t.texts ++ Term.textsAll ts

end

mutual

/-- Every lambda binds at least one variable, and none twice. -/
def Term.WellBound : Term → Prop
  | .ident _ _ | .literal _ _ | .nil _ | .fixpoint _ => True
  | .lambda _ xs body => xs ≠ [] ∧ xs.Nodup ∧ body.WellBound
  | .app _ rator rand => rator.WellBound ∧ rand.WellBound
  | .cond _ condition thenArm elseArm =>
    condition.WellBound ∧ thenArm.WellBound ∧ elseArm.WellBound
  | .tuple _ items => Term.AllWellBound items
  | .binary _ _ left right => left.WellBound ∧ right.WellBound
  | .unary _ _ operand => operand.WellBound

/-- Every lambda of several trees is well bound. -/
def Term.AllWellBound : List Term → Prop
  | [] => True
  | t :: ts => t.WellBound ∧ Term.AllWellBound ts

end

mutual

/-- The tree with names for its texts and its lambdas numbered from `n` on. -/
def Term.named (name : String → Name) : Nat → Term → Expr
  | _, .ident line x => .ident line (name x)
  | _, .literal line v => .literal line v
  | _, .nil line => .tuple line []
  | _, .fixpoint line => .fixpoint line
  | n, .lambda line xs body => .lambda line n (xs.map name) (body.named name (n + 1))
  | n, .app line rator rand =>
    .app line (rator.named name n) (rand.named name (n + rator.lambdas))
  | n, .cond line condition thenArm elseArm =>
    .cond line (condition.named name n) (thenArm.named name (n + condition.lambdas))
      (elseArm.named name (n + condition.lambdas + thenArm.lambdas))
  | n, .tuple line items => .tuple line (Term.namedAll name n items)
  | n, .binary line op left right =>
    .binary line op (left.named name n) (right.named name (n + left.lambdas))
  | n, .unary line op operand => .unary line op (operand.named name n)

/-- Several trees with names for their texts. -/
def Term.namedAll (name : String → Name) : Nat → List Term → List Expr
  | _, [] => []
  | n, t :: ts => t.named name n :: Term.namedAll name (n + t.lambdas) ts

end

/-- The block of the lambda with a given number, by the names in a table. -/
def Block.ofLambda (names : NameTable) (n : Nat) (xs : List String) (body : Term) : Block :=
  ⟨n, xs.map names.nameOf, (body.named names.nameOf (n + 1)).flatten []⟩

theorem Term.length_namedAll (name : String → Name) : ∀ (n : Nat) (ts : List Term),
    (Term.namedAll name n ts).length = ts.length
  | _, [] => rfl
  | n, t :: ts => by
      simp only [Term.namedAll, List.length_cons, Term.length_namedAll name (n + t.lambdas) ts]

/-! ## Walks -/

namespace Walk

variable {α β : Type} {x : Walk α} {f : α → Walk β} {s s' : Numbering}

/-- A walk stops with its first part, or goes on from where that ended. -/
theorem run_bind (x : Walk α) (f : α → Walk β) (s : Numbering) :
    (x >>= f).run s = match x.run s with
      | (.ok a, s') => (f a).run s'
      | (.error e, s') => (.error e, s') := by
  change (match x.run s with
    | (r, s') => (ExceptT.bindCont f r : StateM Numbering _) s') = _
  rcases x.run s with ⟨_ | _, _⟩ <;> rfl

theorem run_bind_of_ok {a : α} (h : x.run s = (.ok a, s')) :
    (x >>= f).run s = (f a).run s' := by
  rw [run_bind, h]

/-- A walk that succeeds did so in its first part. -/
theorem ok_of_run_bind {b : β} (h : (x >>= f).run s = (.ok b, s')) :
    ∃ a s₁, x.run s = (.ok a, s₁) ∧ (f a).run s₁ = (.ok b, s') := by
  rw [run_bind] at h
  split at h
  · rename_i a s₁ hx
    exact ⟨a, s₁, hx, h⟩
  · cases h

theorem run_intern (text : String) (table : NameTable) (n : Nat) :
    (intern text).run ⟨table, n⟩ =
      (.ok ((table.intern text).2.nameOf text), ⟨(table.intern text).2, n⟩) := by
  rw [← table.intern_fst]
  rfl

theorem run_fresh (table : NameTable) (n : Nat) :
    fresh.run ⟨table, n⟩ = (.ok n, ⟨table, n + 1⟩) :=
  rfl

theorem run_throw (e : BinderError) (s : Numbering) :
    (throw e : Walk α).run s = (.error e, s) :=
  rfl

/-- A walk that goes well and names texts on its way: its result, by the names in any
later table, and what it carries along. -/
def Names (walk : Walk α) (texts : List String) (lambdas : Nat)
    (result : (String → Name) → Nat → α) : Prop :=
  ∀ (table later : NameTable) (n : Nat), (table.internAll texts).Grows later →
    walk.run ⟨table, n⟩ =
      (.ok (result later.nameOf n), ⟨table.internAll texts, n + lambdas⟩)

/-- Texts that are listed stay so when one more is named, which is listed as well. -/
theorem forall_mem_intern {seen : List String} {table : NameTable} (x : String)
    (hseen : ∀ y ∈ seen, y ∈ table.texts) : ∀ y ∈ x :: seen, y ∈ (table.intern x).2.texts :=
  List.forall_mem_cons.mpr
    ⟨table.mem_intern x, fun y hy => (table.grows_intern x).mem (hseen y hy)⟩

/-- Listed texts keep their names when one more is named. -/
theorem map_nameOf_intern {seen : List String} {table : NameTable} (x : String)
    (hseen : ∀ y ∈ seen, y ∈ table.texts) :
    seen.map table.nameOf = seen.map (table.intern x).2.nameOf :=
  List.map_congr_left fun y hy => ((table.grows_intern x).nameOf_eq (hseen y hy)).symm

/-- A text that is none of `seen` is named, and is one of those that have been seen for the
next texts. -/
theorem run_params_cons (line : Nat) {x : String} (xs : List String) {seen : List String}
    {table : NameTable} (n : Nat) (hseen : ∀ y ∈ seen, y ∈ table.texts) (hx : x ∉ seen) :
    (params line (seen.map table.nameOf) (x :: xs)).run ⟨table, n⟩ =
      (do
        let names ← params line ((x :: seen).map (table.intern x).2.nameOf) xs
        return (table.intern x).2.nameOf x :: names : Walk _).run ⟨(table.intern x).2, n⟩ := by
  have hnew : (table.intern x).2.nameOf x ∉ seen.map (table.intern x).2.nameOf := by
    intro hmem
    rcases List.mem_map.mp hmem with ⟨y, hy, heq⟩
    have hxy : x = y := (NameTable.nameOf_inj (table.mem_intern x)).mp heq.symm
    exact hx (hxy ▸ hy)
  rw [params, run_bind_of_ok (run_intern x table n), map_nameOf_intern x hseen, if_neg hnew,
    List.map_cons]

/-- A text of `seen` is named, and refused. -/
theorem run_params_of_mem (line : Nat) {x : String} (xs : List String) {seen : List String}
    {table : NameTable} (n : Nat) (hseen : ∀ y ∈ seen, y ∈ table.texts) (hx : x ∈ seen) :
    (params line (seen.map table.nameOf) (x :: xs)).run ⟨table, n⟩ =
      (.error ⟨.repeated x, line⟩, ⟨(table.intern x).2, n⟩) := by
  rw [params, run_bind_of_ok (run_intern x table n), map_nameOf_intern x hseen,
    if_pos (List.mem_map_of_mem hx), run_bind, run_throw]

/-- Texts that differ from each other and from those of `seen` are named one by one. -/
theorem run_params (line : Nat) (xs seen : List String) {table later : NameTable} (n : Nat)
    (hseen : ∀ y ∈ seen, y ∈ table.texts) (hnodup : (seen ++ xs).Nodup)
    (hlater : (table.internAll xs).Grows later) :
    (params line (seen.map table.nameOf) xs).run ⟨table, n⟩ =
      (.ok (xs.map later.nameOf), ⟨table.internAll xs, n⟩) := by
  induction xs generalizing seen table with
  | nil => rfl
  | cons x xs ih =>
      have hx : x ∉ seen := fun hmem =>
        (List.nodup_append.mp hnodup).2.2 x hmem x List.mem_cons_self rfl
      have hnodup' : ((x :: seen) ++ xs).Nodup := List.perm_middle.nodup_iff.mp hnodup
      have hrest := ih (x :: seen) (forall_mem_intern x hseen) hnodup' hlater
      have hgrows' := (NameTable.grows_internAll (table.intern x).2 xs).trans hlater
      rw [run_params_cons line xs n hseen hx, run_bind_of_ok hrest, List.map_cons,
        hgrows'.nameOf_eq (table.mem_intern x)]
      rfl

/-- Parameters that are named are distinct. -/
theorem nodup_of_run_params {line : Nat} {xs seen : List String} {table : NameTable} {n : Nat}
    (hseen : ∀ y ∈ seen, y ∈ table.texts) (hnodup : seen.Nodup) {names : List Name}
    {s' : Numbering}
    (h : (params line (seen.map table.nameOf) xs).run ⟨table, n⟩ = (.ok names, s')) :
    (seen ++ xs).Nodup := by
  induction xs generalizing seen table names s' with
  | nil => simpa using hnodup
  | cons x xs ih =>
      by_cases hx : x ∈ seen
      · rw [run_params_of_mem line xs n hseen hx] at h
        cases h
      · rw [run_params_cons line xs n hseen hx] at h
        rcases ok_of_run_bind h with ⟨rest, s₁, hrest, _⟩
        have hperm : (seen ++ x :: xs).Perm (x :: seen ++ xs) := List.perm_middle
        have hnodup' : (x :: seen).Nodup := List.nodup_cons.mpr ⟨hx, hnodup⟩
        exact hperm.nodup_iff.mpr (ih (forall_mem_intern x hseen) hnodup' hrest)

end Walk

/-! ## Resolving trees -/

mutual

/-- What a tree resolves to. -/
theorem Term.resolve_of_wellBound : ∀ t : Term, t.WellBound →
    Walk.Names t.resolve t.texts t.lambdas fun name n => t.named name n
  | .ident line x, _ => by
      intro table later n hlater
      have hgrows : (table.intern x).2.Grows later := hlater
      rw [Term.resolve, Walk.run_bind_of_ok (Walk.run_intern x table n),
        ← hgrows.nameOf_eq (table.mem_intern x)]
      simp only [Term.named, Term.texts, Term.lambdas]
      rfl
  | .literal line v, _ => by
      intro table later n _
      simp only [Term.named, Term.resolve]
      rfl
  | .nil line, _ => by
      intro table later n _
      simp only [Term.named, Term.resolve]
      rfl
  | .fixpoint line, _ => by
      intro table later n _
      simp only [Term.named, Term.resolve]
      rfl
  | .lambda line xs body, ⟨hne, hnodup, hbody⟩ => by
      intro table later n hlater
      simp only [Term.texts, NameTable.internAll_append] at hlater
      have hgrows := (NameTable.grows_internAll _ body.texts).trans hlater
      have hparams := Walk.run_params line xs [] n nofun (by simpa using hnodup) hgrows
      have hbody := Term.resolve_of_wellBound body hbody _ later (n + 1) hlater
      have hempty : ¬ xs.isEmpty = true := by simpa using hne
      rw [Term.resolve, if_neg hempty]
      refine (Walk.run_bind_of_ok hparams).trans ?_
      rw [Walk.run_bind_of_ok (Walk.run_fresh _ n), Walk.run_bind_of_ok hbody]
      simp only [Term.named, Term.texts, Term.lambdas, NameTable.internAll_append]
      rw [Nat.add_comm body.lambdas 1, ← Nat.add_assoc]
      rfl
  | .app line rator rand, ⟨hrator, hrand⟩ => by
      intro table later n hlater
      simp only [Term.texts, NameTable.internAll_append] at hlater
      have hgrows := (NameTable.grows_internAll _ rand.texts).trans hlater
      have hrator := Term.resolve_of_wellBound rator hrator table later n hgrows
      have hrand := Term.resolve_of_wellBound rand hrand _ later (n + rator.lambdas) hlater
      rw [Term.resolve, Walk.run_bind_of_ok hrator, Walk.run_bind_of_ok hrand]
      simp only [Term.named, Term.texts, Term.lambdas, NameTable.internAll_append, Nat.add_assoc]
      rfl
  | .cond line c t e, ⟨hc, ht, he⟩ => by
      intro table later n hlater
      simp only [Term.texts, NameTable.internAll_append] at hlater
      have hgrows := (NameTable.grows_internAll _ e.texts).trans hlater
      have hgrows' := (NameTable.grows_internAll _ t.texts).trans hgrows
      have hc := Term.resolve_of_wellBound c hc table later n hgrows'
      have ht := Term.resolve_of_wellBound t ht _ later (n + c.lambdas) hgrows
      have he := Term.resolve_of_wellBound e he _ later (n + c.lambdas + t.lambdas) hlater
      rw [Term.resolve, Walk.run_bind_of_ok hc, Walk.run_bind_of_ok ht, Walk.run_bind_of_ok he]
      simp only [Term.named, Term.texts, Term.lambdas, NameTable.internAll_append, Nat.add_assoc]
      rfl
  | .tuple line items, hitems => by
      intro table later n hlater
      have hitems := Term.resolveAll_of_wellBound items hitems table later n hlater
      rw [Term.resolve, Walk.run_bind_of_ok hitems]
      simp only [Term.named, Term.texts, Term.lambdas]
      rfl
  | .binary line op left right, ⟨hleft, hright⟩ => by
      intro table later n hlater
      simp only [Term.texts, NameTable.internAll_append] at hlater
      have hgrows := (NameTable.grows_internAll _ right.texts).trans hlater
      have hleft := Term.resolve_of_wellBound left hleft table later n hgrows
      have hright := Term.resolve_of_wellBound right hright _ later (n + left.lambdas) hlater
      rw [Term.resolve, Walk.run_bind_of_ok hleft, Walk.run_bind_of_ok hright]
      simp only [Term.named, Term.texts, Term.lambdas, NameTable.internAll_append, Nat.add_assoc]
      rfl
  | .unary line op operand, hoperand => by
      intro table later n hlater
      have hoperand := Term.resolve_of_wellBound operand hoperand table later n hlater
      rw [Term.resolve, Walk.run_bind_of_ok hoperand]
      simp only [Term.named, Term.texts, Term.lambdas]
      rfl

theorem Term.resolveAll_of_wellBound : ∀ ts : List Term, Term.AllWellBound ts →
    Walk.Names (Term.resolveAll ts) (Term.textsAll ts) (Term.lambdasAll ts)
      fun name n => Term.namedAll name n ts
  | [], _ => by
      intro table later n _
      rfl
  | t :: ts, ⟨ht, hts⟩ => by
      intro table later n hlater
      simp only [Term.textsAll, NameTable.internAll_append] at hlater
      have hgrows := (NameTable.grows_internAll _ (Term.textsAll ts)).trans hlater
      have ht := Term.resolve_of_wellBound t ht table later n hgrows
      have hts := Term.resolveAll_of_wellBound ts hts _ later (n + t.lambdas) hlater
      rw [Term.resolveAll, Walk.run_bind_of_ok ht, Walk.run_bind_of_ok hts]
      simp only [Term.namedAll, Term.textsAll, Term.lambdasAll, NameTable.internAll_append,
        Nat.add_assoc]
      rfl

end

mutual

/-- A tree that resolves is well bound. -/
theorem Term.wellBound_of_resolve : ∀ (t : Term) {s s' : Numbering} {e : Expr},
    t.resolve.run s = (.ok e, s') → t.WellBound
  | .ident _ _, _, _, _, _ => trivial
  | .literal _ _, _, _, _, _ => trivial
  | .nil _, _, _, _, _ => trivial
  | .fixpoint _, _, _, _, _ => trivial
  | .lambda line xs body, s, s', e, h => by
      rcases s with ⟨table, n⟩
      rw [Term.resolve] at h
      by_cases hempty : xs.isEmpty = true
      · rw [if_pos hempty, Walk.run_bind, Walk.run_throw] at h
        cases h
      · rw [if_neg hempty] at h
        rcases Walk.ok_of_run_bind h with ⟨params, s₁, hparams, h⟩
        rcases Walk.ok_of_run_bind h with ⟨index, s₂, _, h⟩
        rcases Walk.ok_of_run_bind h with ⟨inner, s₃, hbody, _⟩
        have hnodup : ([] ++ xs).Nodup :=
          Walk.nodup_of_run_params nofun List.nodup_nil hparams
        exact ⟨by simpa using hempty, hnodup, Term.wellBound_of_resolve body hbody⟩
  | .app line rator rand, s, s', e, h => by
      rw [Term.resolve] at h
      rcases Walk.ok_of_run_bind h with ⟨_, s₁, hrator, h⟩
      rcases Walk.ok_of_run_bind h with ⟨_, s₂, hrand, _⟩
      exact ⟨Term.wellBound_of_resolve rator hrator, Term.wellBound_of_resolve rand hrand⟩
  | .cond line c t f, s, s', e, h => by
      rw [Term.resolve] at h
      rcases Walk.ok_of_run_bind h with ⟨_, s₁, hc, h⟩
      rcases Walk.ok_of_run_bind h with ⟨_, s₂, ht, h⟩
      rcases Walk.ok_of_run_bind h with ⟨_, s₃, hf, _⟩
      exact ⟨Term.wellBound_of_resolve c hc, Term.wellBound_of_resolve t ht,
        Term.wellBound_of_resolve f hf⟩
  | .tuple line items, s, s', e, h => by
      rw [Term.resolve] at h
      rcases Walk.ok_of_run_bind h with ⟨_, s₁, hitems, _⟩
      exact Term.wellBound_of_resolveAll items hitems
  | .binary line op left right, s, s', e, h => by
      rw [Term.resolve] at h
      rcases Walk.ok_of_run_bind h with ⟨_, s₁, hleft, h⟩
      rcases Walk.ok_of_run_bind h with ⟨_, s₂, hright, _⟩
      exact ⟨Term.wellBound_of_resolve left hleft, Term.wellBound_of_resolve right hright⟩
  | .unary line op operand, s, s', e, h => by
      rw [Term.resolve] at h
      rcases Walk.ok_of_run_bind h with ⟨_, s₁, hoperand, _⟩
      exact Term.wellBound_of_resolve operand hoperand

theorem Term.wellBound_of_resolveAll : ∀ (ts : List Term) {s s' : Numbering} {es : List Expr},
    (Term.resolveAll ts).run s = (.ok es, s') → Term.AllWellBound ts
  | [], _, _, _, _ => trivial
  | t :: ts, s, s', es, h => by
      rw [Term.resolveAll] at h
      rcases Walk.ok_of_run_bind h with ⟨_, s₁, ht, h⟩
      rcases Walk.ok_of_run_bind h with ⟨_, s₂, hts, _⟩
      exact ⟨Term.wellBound_of_resolve t ht, Term.wellBound_of_resolveAll ts hts⟩

end

/-! ## Programs of trees -/

/-- The program of a well-bound tree, by the names in a table. -/
def Term.program (t : Term) (standardized : Bool) (table : NameTable) : Program :=
  ⟨(t.named table.nameOf 1).toBlock, standardized, table.id⟩

/-- Well-bound trees become programs, by the names in any later table. -/
theorem Program.ofTerm_of_wellBound {t : Term} (ht : t.WellBound) (standardized : Bool)
    (table : NameTable) {later : NameTable} (hlater : (table.internAll t.texts).Grows later) :
    Program.ofTerm t standardized table =
      (.ok (t.program standardized later), table.internAll t.texts) := by
  have hresolve := t.resolve_of_wellBound ht table later 1 hlater
  have hid : (table.internAll t.texts).id = later.id := hlater.id
  simp only [Program.ofTerm, Term.resolveIn, hresolve, hid, Term.program]

/-- They do whatever a table lists already. -/
theorem Program.exists_ofTerm {t : Term} (ht : t.WellBound) (standardized : Bool)
    (table : NameTable) :
    ∃ p named, Program.ofTerm t standardized table = (.ok p, named) :=
  ⟨_, _, Program.ofTerm_of_wellBound ht standardized table (NameTable.Grows.refl _)⟩

/-- Only well-bound trees become programs. -/
theorem Program.wellBound_of_ofTerm {t : Term} {standardized : Bool}
    {table table' : NameTable} {p : Program}
    (h : Program.ofTerm t standardized table = (.ok p, table')) : t.WellBound := by
  unfold Program.ofTerm at h
  split at h
  · rename_i e _ hresolve
    unfold Term.resolveIn at hresolve
    rcases hrun : t.resolve.run ⟨table, 1⟩ with ⟨result, numbering⟩
    rw [hrun] at hresolve
    cases hresolve
    exact t.wellBound_of_resolve hrun
  · cases h

/-- A program keeps its meaning as the table it was named in grows. -/
theorem Program.of_ofTerm {t : Term} {standardized : Bool} {table table' later : NameTable}
    {p : Program} (h : Program.ofTerm t standardized table = (.ok p, table'))
    (hlater : table'.Grows later) :
    t.WellBound ∧ p = t.program standardized later ∧ ∀ x ∈ t.texts, x ∈ later.texts := by
  have ht := Program.wellBound_of_ofTerm h
  have htable : table' = table.internAll t.texts := by
    rw [Program.ofTerm_of_wellBound ht standardized table (NameTable.Grows.refl _)] at h
    exact (Prod.mk.inj h).2.symm
  subst htable
  rw [Program.ofTerm_of_wellBound ht standardized table hlater] at h
  refine ⟨ht, ?_, ?_⟩
  · exact (Except.ok.inj (Prod.mk.inj h).1).symm
  · intro x hx
    exact hlater.mem (NameTable.mem_internAll hx)

/-- A well-bound tree has a program, by which every machine that knows its names runs it. -/
theorem Machine.exists_program {t : Term} (ht : t.WellBound) (table : NameTable)
    {P : Machine → Program → Prop}
    (h : ∀ m : Machine, m.names.Lists t.texts → P m (t.program true m.names)) :
    ∃ p table₁, Program.ofTerm t true table = (.ok p, table₁) ∧
      ∀ m : Machine, table₁.Grows m.names → P m p := by
  rcases Program.exists_ofTerm ht true table with ⟨p, table₁, hp⟩
  refine ⟨p, table₁, hp, fun m hgrows => ?_⟩
  rcases Program.of_ofTerm hp hgrows with ⟨_, hprogram, hlists⟩
  rw [hprogram]
  exact h m hlists

/-- A standardized program is not refused by a machine with its names. -/
theorem Machine.refusal?_program (m : Machine) (t : Term) :
    m.refusal? (t.program true m.names) = none := by
  simp [refusal?, Term.program]

end CSEMachine
