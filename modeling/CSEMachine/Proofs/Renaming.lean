import CSEMachine.Proofs.Scoping.Places
import CSEMachine.Proofs.Similarity.Runs
import Mathlib.Data.List.Find

/-!
# Renaming bound variables

A parameter may be called by any text that does not occur in the tree, also by one that
spells a built-in, if the occurrences that it binds are called so too.  The renamed tree
is similar to the tree as it was, wherever in it the lambda stands.

Main results:

- Theorem `Term.similar_rename`: where `x` on one side stands for `y` on the other, a tree
  is similar to the one with `y` for `x`.
- Theorem `Term.similar_lambda_rename`: a lambda is similar to the one whose parameter is
  renamed.
- Theorem `Machine.observe_rename`: the renaming cannot be observed.
-/

namespace CSEMachine

/-! ## Renaming in a tree -/

/-- What a text becomes when `x` is renamed to `y`. -/
def renamed (x y z : String) : String :=
  if z = x then y else z

/-- Only `y` itself can be mistaken for the renamed text. -/
theorem renamed_inj {x y z w : String} (hz : z ≠ y) (hw : w ≠ y) :
    renamed x y z = renamed x y w ↔ z = w := by
  unfold renamed
  split <;> split <;> grind

mutual

/-- The tree with `y` for every occurrence of `x` that no inner lambda binds. -/
def Term.rename (x y : String) : Term → Term
  | .ident line z => .ident line (renamed x y z)
  | .literal line v => .literal line v
  | .nil line => .nil line
  | .fixpoint line => .fixpoint line
  | .lambda line zs body => .lambda line zs (if x ∈ zs then body else body.rename x y)
  | .app line rator rand => .app line (rator.rename x y) (rand.rename x y)
  | .cond line c t e => .cond line (c.rename x y) (t.rename x y) (e.rename x y)
  | .tuple line items => .tuple line (Term.renameAll x y items)
  | .binary line op left right => .binary line op (left.rename x y) (right.rename x y)
  | .unary line op operand => .unary line op (operand.rename x y)

/-- Several trees with `y` for every free occurrence of `x`. -/
def Term.renameAll (x y : String) : List Term → List Term
  | [] => []
  | t :: ts => t.rename x y :: Term.renameAll x y ts

end

/-! ## Contexts that rename -/

/-- On the one side every text but `y` stands for what it stands for on the other side once
`x` is renamed to `y`. -/
def Context.Renames (ctx : Context) (x y : String) : Prop :=
  ∀ z, z ≠ y → ctx.Alike z (renamed x y z)

namespace Context

variable {ctx : Context} {x y : String}

/-- Scopes that bind neither of the two texts rename nothing else. -/
theorem Renames.cons_same (h : ctx.Renames x y) {zs : List String} (hx : x ∉ zs)
    (hy : y ∉ zs) : Renames (zs.map Variable.same :: ctx) x y := by
  intro z hz
  by_cases hzx : z = x
  · subst hzx
    have hleft : (zs.map Variable.same).find? (fun v => v.left = z) = none :=
      find?_map_same (fun _ => rfl) hx
    have hright : (zs.map Variable.same).find? (fun v => v.right = y) = none :=
      find?_map_same (fun _ => rfl) hy
    have hrenamed : renamed z y z = y := if_pos rfl
    have halike := h z hz
    rw [hrenamed] at halike ⊢
    exact alike_cons (hleft.trans hright.symm) fun _ => halike
  · have hrenamed : renamed x y z = z := if_neg hzx
    have halike := h z hz
    rw [hrenamed] at halike ⊢
    exact halike.cons_same zs

/-- Below a lambda that binds `x` anew every other text stands for itself. -/
theorem Renames.alike_of_mem (h : ctx.Renames x y) {zs : List String} (hx : x ∈ zs)
    {z : String} (hz : z ≠ y) : Alike (zs.map Variable.same :: ctx) z z := by
  by_cases hzs : z ∈ zs
  · -- the new scope finds the variable on both sides
    have hplain : ∀ v ∈ zs.map Variable.same, v.left = v.right := by simp [Variable.same]
    refine alike_cons (find?_of_plain hplain z) fun hnone => ?_
    have hbound := List.find?_eq_none.mp hnone (Variable.same z) (List.mem_map_of_mem hzs)
    simp [Variable.same] at hbound
  · have hzx : z ≠ x := fun heq => hzs (heq ▸ hx)
    have hrenamed : renamed x y z = z := if_neg hzx
    have halike := h z hz
    rw [hrenamed] at halike
    exact halike.cons_same zs

/-- The variables of a lambda whose parameter `x` is renamed to `y`. -/
def renamedVariables (x y : String) (xs : List String) : List Variable :=
  xs.map fun z => ⟨z, renamed x y z, none⟩

/-- The scope of such a lambda renames `x` to `y` where nothing else is renamed. -/
theorem Plain.renames (h : ctx.Plain) {xs : List String} (hx : x ∈ xs) (hy : y ∉ xs) :
    Renames (renamedVariables x y xs :: ctx) x y := by
  intro z hz
  have hfind : (renamedVariables x y xs).find? (fun v => v.left = z) =
      (renamedVariables x y xs).find? (fun v => v.right = renamed x y z) := by
    unfold renamedVariables
    rw [List.find?_map, List.find?_map]
    congr 1
    refine List.find?_congr fun w hw => ?_
    have hwy : w ≠ y := fun heq => hy (heq ▸ hw)
    simp [renamed_inj hwy hz]
  refine alike_cons hfind fun hnone => ?_
  have hzx : z ≠ x := by
    rintro rfl
    have hbound := List.find?_eq_none.mp hnone ⟨z, renamed z y z, none⟩
      (List.mem_map_of_mem (f := fun w => (⟨w, renamed z y w, none⟩ : Variable)) hx)
    simp at hbound
  have hrenamed : renamed x y z = z := if_neg hzx
  rw [hrenamed]
  exact h.alike z

end Context

/-! ## Renamed trees are similar -/

mutual

/-- Where `x` on one side stands for `y` on the other, a tree in which `y` does not occur is
similar to the one with `y` for `x`. -/
theorem Term.similar_rename {x y : String} : ∀ (t : Term), t.WellBound → y ∉ t.texts →
    ∀ {ctx : Context}, ctx.Renames x y → Term.Similar ctx t (t.rename x y)
  | .ident line z, _, hy, _, hctx => by
      have hz : z ≠ y := fun heq => hy (by simp [Term.texts, heq])
      exact .ident line (hctx z hz)
  | .literal line v, _, _, _, _ => .literal line v
  | .nil line, _, _, _, _ => .nil line
  | .fixpoint line, _, _, _, _ => .fixpoint line
  | .lambda line zs body, ⟨_, hnodup, hbody⟩, hy, _, hctx => by
      simp only [Term.texts, List.mem_append, not_or] at hy
      rw [Term.rename]
      by_cases hmem : x ∈ zs
      · rw [if_pos hmem]
        have hinner := Term.Similar.of_alike body hbody fun z hz =>
          hctx.alike_of_mem hmem fun heq => hy.2 (heq ▸ hz)
        exact hinner.lambda_same line hnodup
      · rw [if_neg hmem]
        have hinner := Term.similar_rename body hbody hy.2 (hctx.cons_same hmem hy.1)
        exact hinner.lambda_same line hnodup
  | .app line rator rand, ⟨hrator, hrand⟩, hy, _, hctx => by
      simp only [Term.texts, List.mem_append, not_or] at hy
      exact .app line (Term.similar_rename rator hrator hy.1 hctx)
        (Term.similar_rename rand hrand hy.2 hctx)
  | .cond line c t e, ⟨hc, ht, he⟩, hy, _, hctx => by
      simp only [Term.texts, List.mem_append, not_or] at hy
      exact .cond line (Term.similar_rename c hc hy.1.1 hctx)
        (Term.similar_rename t ht hy.1.2 hctx) (Term.similar_rename e he hy.2 hctx)
  | .tuple line items, hitems, hy, _, hctx =>
      .tuple line (Term.allSimilar_renameAll items hitems hy hctx)
  | .binary line op left right, ⟨hleft, hright⟩, hy, _, hctx => by
      simp only [Term.texts, List.mem_append, not_or] at hy
      exact .binary line op (Term.similar_rename left hleft hy.1 hctx)
        (Term.similar_rename right hright hy.2 hctx)
  | .unary line op operand, hoperand, hy, _, hctx =>
      .unary line op (Term.similar_rename operand hoperand hy hctx)

theorem Term.allSimilar_renameAll {x y : String} : ∀ (ts : List Term), Term.AllWellBound ts →
    y ∉ Term.textsAll ts → ∀ {ctx : Context}, ctx.Renames x y →
      Term.AllSimilar ctx ts (Term.renameAll x y ts)
  | [], _, _, _, _ => .nil
  | t :: ts, ⟨ht, hts⟩, hy, _, hctx => by
      simp only [Term.textsAll, List.mem_append, not_or] at hy
      exact .cons (Term.similar_rename t ht hy.1 hctx)
        (Term.allSimilar_renameAll ts hts hy.2 hctx)

end

/-- A lambda is similar to the one whose parameter is renamed, with the occurrences that it
binds. -/
theorem Term.similar_lambda_rename {line : Nat} {xs : List String} {body : Term}
    (h : (Term.lambda line xs body).WellBound) {x y : String} (hx : x ∈ xs)
    (hy : y ∉ (Term.lambda line xs body).texts) {ctx : Context} (hctx : ctx.Plain) :
    Term.Similar ctx (.lambda line xs body)
      (.lambda line (xs.map (renamed x y)) (body.rename x y)) := by
  rcases h with ⟨_, hnodup, hbody⟩
  simp only [Term.texts, List.mem_append, not_or] at hy
  have hleft : (Context.renamedVariables x y xs).map Variable.left = xs := by
    simp [Context.renamedVariables, Function.comp_def]
  have hright : (Context.renamedVariables x y xs).map Variable.right = xs.map (renamed x y) := by
    simp [Context.renamedVariables, Function.comp_def]
  have hnodup' : (xs.map (renamed x y)).Nodup := by
    refine List.Nodup.map_on ?_ hnodup
    intro z hz w hw heq
    have hzy : z ≠ y := fun h => hy.1 (h ▸ hz)
    have hwy : w ≠ y := fun h => hy.1 (h ▸ hw)
    exact (renamed_inj hzy hwy).mp heq
  have hinner := Term.similar_rename body hbody hy.2 (hctx.renames hx hy.1)
  have hlambda := Term.Similar.lambda line (Context.renamedVariables x y xs) (by rwa [hleft])
    (by rwa [hright]) (by simp [Context.renamedVariables]) hinner
  rwa [hleft, hright] at hlambda

/-! ## Surroundings -/

/-- What is around one node of a tree. -/
inductive Surroundings where
  | here
  | body (line : Nat) (params : List String) (around : Surroundings)
  | rator (line : Nat) (around : Surroundings) (rand : Term)
  | rand (line : Nat) (rator : Term) (around : Surroundings)
  | condition (line : Nat) (around : Surroundings) (thenArm elseArm : Term)
  | thenArm (line : Nat) (condition : Term) (around : Surroundings) (elseArm : Term)
  | elseArm (line : Nat) (condition thenArm : Term) (around : Surroundings)
  | item (line : Nat) (before : List Term) (around : Surroundings) (after : List Term)
  | left (line : Nat) (op : BinaryOp) (around : Surroundings) (right : Term)
  | right (line : Nat) (op : BinaryOp) (left : Term) (around : Surroundings)
  | operand (line : Nat) (op : UnaryOp) (around : Surroundings)

namespace Surroundings

/-- The whole tree when a given tree is in the middle. -/
def fill : Surroundings → Term → Term
  | here, u => u
  | body line xs around, u => .lambda line xs (around.fill u)
  | rator line around d, u => .app line (around.fill u) d
  | rand line r around, u => .app line r (around.fill u)
  | condition line around t e, u => .cond line (around.fill u) t e
  | thenArm line c around e, u => .cond line c (around.fill u) e
  | elseArm line c t around, u => .cond line c t (around.fill u)
  | item line before around after, u => .tuple line (before ++ around.fill u :: after)
  | left line op around b, u => .binary line op (around.fill u) b
  | right line op a around, u => .binary line op a (around.fill u)
  | operand line op around, u => .unary line op (around.fill u)

/-- What holds of a tree and of all trees below those that it holds of, holds of the tree in
the middle. -/
theorem of_fill {P : Term → Prop} (hP : ∀ t u, P t → u ∈ t.subtrees → P u)
    (around : Surroundings) {u : Term} (h : P (around.fill u)) : P u := by
  induction around with
  | here => exact h
  | body line xs around ih => exact ih (hP _ _ h (by simp [fill, Term.subtrees]))
  | rator line around rand ih => exact ih (hP _ _ h (by simp [fill, Term.subtrees]))
  | rand line rator around ih => exact ih (hP _ _ h (by simp [fill, Term.subtrees]))
  | condition line around t e ih => exact ih (hP _ _ h (by simp [fill, Term.subtrees]))
  | thenArm line c around e ih => exact ih (hP _ _ h (by simp [fill, Term.subtrees]))
  | elseArm line c t around ih => exact ih (hP _ _ h (by simp [fill, Term.subtrees]))
  | item line before around after ih => exact ih (hP _ _ h (by simp [fill, Term.subtrees]))
  | left line op around right ih => exact ih (hP _ _ h (by simp [fill, Term.subtrees]))
  | right line op left around ih => exact ih (hP _ _ h (by simp [fill, Term.subtrees]))
  | operand line op around ih => exact ih (hP _ _ h (by simp [fill, Term.subtrees]))

/-- Trees that are similar where nothing is renamed are so in any surroundings. -/
theorem similar_fill {u u' : Term} (hu : ∀ ctx : Context, ctx.Plain → Term.Similar ctx u u')
    (around : Surroundings) (hwell : (around.fill u).WellBound) {ctx : Context}
    (hctx : ctx.Plain) : Term.Similar ctx (around.fill u) (around.fill u') := by
  induction around generalizing ctx with
  | here => exact hu ctx hctx
  | body line xs around ih =>
      have hinner := ih hwell.2.2 (hctx.cons_same xs)
      exact hinner.lambda_same line hwell.2.1
  | rator line around rand ih => exact .app line (ih hwell.1 hctx) (.refl rand hwell.2 hctx)
  | rand line rator around ih => exact .app line (.refl rator hwell.1 hctx) (ih hwell.2 hctx)
  | condition line around t e ih =>
      exact .cond line (ih hwell.1 hctx) (.refl t hwell.2.1 hctx) (.refl e hwell.2.2 hctx)
  | thenArm line c around e ih =>
      exact .cond line (.refl c hwell.1 hctx) (ih hwell.2.1 hctx) (.refl e hwell.2.2 hctx)
  | elseArm line c t around ih =>
      exact .cond line (.refl c hwell.1 hctx) (.refl t hwell.2.1 hctx) (ih hwell.2.2 hctx)
  | item line before around after ih =>
      have hitems := Term.allWellBound_iff.mp hwell
      refine .tuple line ?_
      clear hwell
      induction before with
      | nil =>
          refine .cons (ih (hitems _ List.mem_cons_self) hctx) ?_
          have hafter := Term.allWellBound_iff.mpr fun t ht =>
            hitems t (List.mem_cons_of_mem _ ht)
          exact .of_alike after hafter fun z _ => hctx.alike z
      | cons t before ihitems =>
          refine .cons (.refl t (hitems t List.mem_cons_self) hctx) (ihitems ?_)
          exact fun s hs => hitems s (List.mem_cons_of_mem _ hs)
  | left line op around right ih =>
      exact .binary line op (ih hwell.1 hctx) (.refl right hwell.2 hctx)
  | right line op left around ih =>
      exact .binary line op (.refl left hwell.1 hctx) (ih hwell.2 hctx)
  | operand line op around ih => exact .unary line op (ih hwell hctx)

end Surroundings

/-! ## Renaming a parameter of a program -/

namespace Machine

/-- Calling a parameter of a lambda, with the occurrences that it binds, by a text that does
not occur in the tree cannot be observed.  The renamed tree becomes a program whenever the
tree does; both programs show the same after any number of steps, and have printed the
same, whatever tables their names come from and whatever happened before. -/
theorem observe_rename (around : Surroundings) (line : Nat) {xs : List String} (body : Term)
    {x y : String} (hx : x ∈ xs) (hy : y ∉ (around.fill (.lambda line xs body)).texts)
    {standardized : Bool} {table₀ table₀' : NameTable} {p₀ : Program}
    (hlowers : Program.ofTerm (around.fill (.lambda line xs body)) standardized table₀ =
      (.ok p₀, table₀')) (table table' : NameTable) :
    ∃ p p' table₁ table₁',
      Program.ofTerm (around.fill (.lambda line xs body)) standardized table =
          (.ok p, table₁) ∧
        Program.ofTerm
            (around.fill (.lambda line (xs.map (renamed x y)) (body.rename x y)))
            standardized table' = (.ok p', table₁') ∧
        ∀ (m m' : Machine) (session session' : Session), table₁.Grows m.names →
          table₁'.Grows m'.names → m.maxDepth = m'.maxDepth → m.dropsCallers = m'.dropsCallers →
          ∀ fuel, m.observe fuel p session = m'.observe fuel p' session' ∧
            (m.after fuel (m.start p.root session.store)).printed =
              (m'.after fuel (m'.start p'.root session'.store)).printed := by
  have hwell := Program.wellBound_of_ofTerm hlowers
  have hwellLambda : (Term.lambda line xs body).WellBound :=
    around.of_fill (P := Term.WellBound) (fun _ _ => Term.WellBound.of_mem_subtrees) hwell
  have hyLambda : y ∉ (Term.lambda line xs body).texts :=
    around.of_fill (P := fun t => y ∉ t.texts)
      (fun _ _ hy hu hmem => hy (Term.texts_of_mem_subtrees hu hmem)) hy
  have hplain : Context.Plain [[]] := by simp [Context.Plain]
  have hsimilar := around.similar_fill
    (fun _ hctx => Term.similar_lambda_rename hwellLambda hx hyLambda hctx) hwell hplain
  exact observe_similar hsimilar hwell standardized table table'

/-- In `(fn x. (x, fn x. x, fn z. x)) 7` the outer `x` may be called `Print`. -/
theorem observe_rename_to_print :
    ∃ p p' table table',
      Program.ofTerm (.app 1 (.lambda 1 ["x"] (.tuple 2 [.ident 2 "x",
          .lambda 3 ["x"] (.ident 3 "x"), .lambda 4 ["z"] (.ident 4 "x")]))
          (.literal 1 (.int 7))) true (.new 0) = (.ok p, table) ∧
      Program.ofTerm (.app 1 (.lambda 1 ["Print"] (.tuple 2 [.ident 2 "Print",
          .lambda 3 ["x"] (.ident 3 "x"), .lambda 4 ["z"] (.ident 4 "Print")]))
          (.literal 1 (.int 7))) true table = (.ok p', table') ∧
      ∀ fuel, (Machine.mk table' none true).observe fuel p (.fresh .silent) =
        (Machine.mk table' none true).observe fuel p' (.fresh .silent) := by
  let around : Surroundings := .rator 1 .here (.literal 1 (.int 7))
  let body : Term := .tuple 2 [.ident 2 "x", .lambda 3 ["x"] (.ident 3 "x"),
    .lambda 4 ["z"] (.ident 4 "x")]
  have hlowers : ∃ p table, Program.ofTerm (around.fill (.lambda 1 ["x"] body)) true (.new 0) =
      (.ok p, table) := ⟨_, _, rfl⟩
  rcases hlowers with ⟨p₀, table₀, hlowers⟩
  rcases observe_rename (y := "Print") around 1 body List.mem_cons_self (by decide) hlowers
    (.new 0) table₀ with ⟨p, p', table, table', hp, hp', hsame⟩
  obtain rfl : table₀ = table := congrArg Prod.snd (hlowers.symm.trans hp)
  refine ⟨p, p', table₀, table', hp, hp', fun fuel => ?_⟩
  have hgrows : table₀.Grows table' := by
    have hwell := Program.wellBound_of_ofTerm hp'
    rw [Program.ofTerm_of_wellBound hwell true table₀ (.refl _)] at hp'
    rw [← (Prod.mk.inj hp').2]
    exact NameTable.grows_internAll _ _
  exact (hsame ⟨table', none, true⟩ ⟨table', none, true⟩ (.fresh .silent) (.fresh .silent)
    hgrows (.refl _) rfl rfl fuel).1

end Machine

end CSEMachine
