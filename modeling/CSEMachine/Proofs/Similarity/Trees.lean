import CSEMachine.Proofs.Naming
import CSEMachine.Value
import Mathlib.Data.List.Forall2

/-!
# Similar trees

Two trees are similar when they differ in the names of bound variables only, and in
that one may have a constant where the other has a variable that is known to be bound
to it.  What a variable is bound to depends on the scopes around it, so trees are
compared in a context, the variables of the scopes around them from the inside out.

The code of similar trees is similar instruction by instruction, whatever tables their
names come from.

Main results:

- Theorem `Term.Similar.of_alike`: a tree is similar to itself where its texts stand for
  the same on both sides.
- Theorem `Term.Similar.flatten`: similar trees have similar code.
-/

namespace CSEMachine

/-! ## Contexts -/

/-- A value that cannot change and that a tree can denote directly. -/
inductive Constant where
  | literal (value : Literal)
  | fixpoint
deriving DecidableEq

namespace Constant

/-- The tree that denotes a constant. -/
def term (line : Nat) : Constant → Term
  | literal v => .literal line v
  | fixpoint => .fixpoint line

/-- The value of a constant. -/
def value : Constant → Value
  | literal v => v.value
  | fixpoint => .fixpoint

/-- The instruction that pushes a constant. -/
def instr (line : Nat) : Constant → Instr
  | literal v => .literal line v
  | fixpoint => .fixpoint line

end Constant

/-- A bound variable of two trees: its text on either side, and the constant that it is
known to be bound to, if there is one. -/
structure Variable where
  left : String
  right : String
  constant : Option Constant

/-- A variable that keeps its text, and of which nothing is known. -/
def Variable.same (x : String) : Variable :=
  ⟨x, x, none⟩

/-- The variables of the scopes around a tree, the innermost scope first. -/
abbrev Context := List (List Variable)

/-- The variable that a text stands for on one side. -/
def Context.find? (ctx : Context) (side : Variable → String) (x : String) : Option Variable :=
  ctx.findSome? fun vs => vs.find? fun v => side v = x

/-- Two texts stand for the same variable, or for themselves. -/
def Context.Alike (ctx : Context) (x x' : String) : Prop :=
  ctx.find? Variable.left x = ctx.find? Variable.right x' ∧
    (ctx.find? Variable.left x = none → x = x')

/-- A text stands for a variable that is bound to a constant. -/
def Context.Knows (ctx : Context) (x : String) (k : Constant) : Prop :=
  ∃ v, ctx.find? Variable.left x = some v ∧ v.constant = some k

/-- A context that renames nothing. -/
def Context.Plain (ctx : Context) : Prop :=
  ∀ vs ∈ ctx, ∀ v ∈ vs, v.left = v.right

namespace Context

/-- A variable that is found has the text that was looked for. -/
theorem side_of_find? {ctx : Context} {side : Variable → String} {x : String} {v : Variable}
    (h : ctx.find? side x = some v) : side v = x := by
  rcases List.exists_of_findSome?_eq_some h with ⟨vs, _, hvs⟩
  simpa using List.find?_some hvs

/-- If both sides find the same, they find it in the same scope. -/
theorem find?_cons_eq {ctx : Context} {vs : List Variable} {side side' : Variable → String}
    {x x' : String} (h : find? (vs :: ctx) side x = find? (vs :: ctx) side' x') :
    vs.find? (fun v => side v = x) = vs.find? (fun v => side' v = x') ∧
      (vs.find? (fun v => side v = x) = none → ctx.find? side x = ctx.find? side' x') := by
  simp only [find?, List.findSome?_cons] at h
  cases hl : vs.find? (fun v => side v = x) with
  | some v =>
      cases hr : vs.find? (fun v => side' v = x') with
      | some w =>
          simp only [hl, hr] at h
          exact ⟨h, nofun⟩
      | none =>
          simp only [hl, hr] at h
          have hside : side' v = x' := side_of_find? h.symm
          have hnone := List.find?_eq_none.mp hr v (List.mem_of_find?_eq_some hl)
          exact absurd (by simpa using hside) hnone
  | none =>
      cases hr : vs.find? (fun v => side' v = x') with
      | some w =>
          simp only [hl, hr] at h
          have hside : side w = x := side_of_find? h
          have hnone := List.find?_eq_none.mp hl w (List.mem_of_find?_eq_some hr)
          exact absurd (by simpa using hside) hnone
      | none =>
          simp only [hl, hr] at h
          exact ⟨rfl, fun _ => h⟩

/-- A scope of variables that keep their texts finds no other text. -/
theorem find?_map_same {side : Variable → String} (hside : ∀ y, side (.same y) = y)
    {ys : List String} {x : String} (hx : x ∉ ys) :
    (ys.map Variable.same).find? (fun v => side v = x) = none := by
  rw [List.find?_eq_none]
  intro v hv
  rcases List.mem_map.mp hv with ⟨y, hy, rfl⟩
  have hne : y ≠ x := fun heq => hx (heq ▸ hy)
  simpa [hside] using hne

/-- Among variables that keep their texts both sides find the same. -/
theorem find?_of_plain {vs : List Variable} (h : ∀ v ∈ vs, v.left = v.right) (x : String) :
    vs.find? (fun v => v.left = x) = vs.find? (fun v => v.right = x) := by
  induction vs with
  | nil => rfl
  | cons v vs ih =>
      have hrest := ih fun w hw => h w (List.mem_cons_of_mem _ hw)
      simp only [List.find?_cons, h v List.mem_cons_self, hrest]

/-- If both sides find the same variable in a new scope, or nothing there and the same
outside, the texts stand for the same. -/
theorem alike_cons {ctx : Context} {vs : List Variable} {x x' : String}
    (hfind : vs.find? (fun v => v.left = x) = vs.find? (fun v => v.right = x'))
    (h : vs.find? (fun v => v.left = x) = none → ctx.Alike x x') :
    Context.Alike (vs :: ctx) x x' := by
  unfold Alike find?
  simp only [List.findSome?_cons, ← hfind]
  cases hleft : vs.find? (fun v => v.left = x) with
  | some v => simp
  | none => exact h hleft

/-- A text that stands for the same on both sides still does where further variables keep
their texts. -/
theorem Alike.cons_same {ctx : Context} {x : String} (h : ctx.Alike x x) (ys : List String) :
    Context.Alike (ys.map Variable.same :: ctx) x x := by
  refine alike_cons (find?_of_plain ?_ x) fun _ => h
  intro v hv
  rcases List.mem_map.mp hv with ⟨y, _, rfl⟩
  rfl

/-- Where nothing is renamed every text stands for the same on both sides. -/
theorem Plain.alike {ctx : Context} (h : ctx.Plain) (x : String) : ctx.Alike x x := by
  induction ctx with
  | nil => exact ⟨rfl, fun _ => rfl⟩
  | cons vs ctx ih =>
      refine alike_cons (find?_of_plain (h vs List.mem_cons_self) x) fun _ => ?_
      exact ih fun vs' hvs' => h vs' (List.mem_cons_of_mem _ hvs')

/-- A scope that keeps the texts of its variables renames nothing. -/
theorem Plain.cons_same {ctx : Context} (h : ctx.Plain) (xs : List String) :
    Plain (xs.map Variable.same :: ctx) := by
  intro vs hvs v hv
  rcases List.mem_cons.mp hvs with rfl | hvs
  · rcases List.mem_map.mp hv with ⟨x, _, rfl⟩
    rfl
  · exact h vs hvs v hv

end Context

/-! ## Trees -/

mutual

/-- Trees that differ in bound names only, or in that a variable is replaced by the
constant that it is bound to. -/
inductive Term.Similar : Context → Term → Term → Prop
  | ident {ctx : Context} {x x' : String} (line : Nat) (h : ctx.Alike x x') :
      Similar ctx (.ident line x) (.ident line x')
  | constant {ctx : Context} {x : String} {k : Constant} (line : Nat) (h : ctx.Knows x k) :
      Similar ctx (.ident line x) (k.term line)
  | literal {ctx : Context} (line : Nat) (v : Literal) :
      Similar ctx (.literal line v) (.literal line v)
  | nil {ctx : Context} (line : Nat) : Similar ctx (.nil line) (.nil line)
  | fixpoint {ctx : Context} (line : Nat) : Similar ctx (.fixpoint line) (.fixpoint line)
  | lambda {ctx : Context} {body body' : Term} (line : Nat) (vs : List Variable)
      (hleft : (vs.map Variable.left).Nodup) (hright : (vs.map Variable.right).Nodup)
      (hunknown : ∀ v ∈ vs, v.constant = none) (hbody : Similar (vs :: ctx) body body') :
      Similar ctx (.lambda line (vs.map Variable.left) body)
        (.lambda line (vs.map Variable.right) body')
  | app {ctx : Context} {rator rator' rand rand' : Term} (line : Nat)
      (hrator : Similar ctx rator rator') (hrand : Similar ctx rand rand') :
      Similar ctx (.app line rator rand) (.app line rator' rand')
  | cond {ctx : Context} {c c' t t' e e' : Term} (line : Nat) (hc : Similar ctx c c')
      (ht : Similar ctx t t') (he : Similar ctx e e') :
      Similar ctx (.cond line c t e) (.cond line c' t' e')
  | tuple {ctx : Context} {items items' : List Term} (line : Nat)
      (h : AllSimilar ctx items items') : Similar ctx (.tuple line items) (.tuple line items')
  | binary {ctx : Context} {left left' right right' : Term} (line : Nat) (op : BinaryOp)
      (hleft : Similar ctx left left') (hright : Similar ctx right right') :
      Similar ctx (.binary line op left right) (.binary line op left' right')
  | unary {ctx : Context} {operand operand' : Term} (line : Nat) (op : UnaryOp)
      (h : Similar ctx operand operand') :
      Similar ctx (.unary line op operand) (.unary line op operand')

/-- Lists of trees that are similar one by one. -/
inductive Term.AllSimilar : Context → List Term → List Term → Prop
  | nil {ctx : Context} : AllSimilar ctx [] []
  | cons {ctx : Context} {t t' : Term} {ts ts' : List Term} (h : Similar ctx t t')
      (hs : AllSimilar ctx ts ts') : AllSimilar ctx (t :: ts) (t' :: ts')

end

/-- Binding the same variables keeps bodies similar. -/
theorem Term.Similar.lambda_same {ctx : Context} {xs : List String} {body body' : Term}
    (h : Term.Similar (xs.map Variable.same :: ctx) body body') (line : Nat) (hnodup : xs.Nodup) :
    Term.Similar ctx (.lambda line xs body) (.lambda line xs body') := by
  have hleft : (xs.map Variable.same).map Variable.left = xs := by
    simp [Variable.same, Function.comp_def]
  have hright : (xs.map Variable.same).map Variable.right = xs := by
    simp [Variable.same, Function.comp_def]
  have hlambda := Term.Similar.lambda line (xs.map Variable.same) (by rwa [hleft])
    (by rwa [hright]) (by simp [Variable.same]) h
  rwa [hleft, hright] at hlambda

mutual

/-- A tree is similar to itself where its texts stand for the same on both sides. -/
theorem Term.Similar.of_alike : ∀ (t : Term), t.WellBound → ∀ {ctx : Context},
    (∀ x ∈ t.texts, ctx.Alike x x) → Term.Similar ctx t t
  | .ident line x, _, _, hctx => .ident line (hctx x (by simp [Term.texts]))
  | .literal line v, _, _, _ => .literal line v
  | .nil line, _, _, _ => .nil line
  | .fixpoint line, _, _, _ => .fixpoint line
  | .lambda line xs body, ⟨_, hnodup, hbody⟩, _, hctx => by
      have hinner := Term.Similar.of_alike body hbody fun x hx =>
        (hctx x (List.mem_append_right xs hx)).cons_same xs
      exact hinner.lambda_same line hnodup
  | .app line rator rand, ⟨hrator, hrand⟩, _, hctx => by
      simp only [Term.texts, List.forall_mem_append] at hctx
      exact .app line (Term.Similar.of_alike rator hrator hctx.1)
        (Term.Similar.of_alike rand hrand hctx.2)
  | .cond line c t e, ⟨hc, ht, he⟩, _, hctx => by
      simp only [Term.texts, List.forall_mem_append] at hctx
      exact .cond line (Term.Similar.of_alike c hc hctx.1.1)
        (Term.Similar.of_alike t ht hctx.1.2) (Term.Similar.of_alike e he hctx.2)
  | .tuple line items, hitems, _, hctx =>
      .tuple line (Term.AllSimilar.of_alike items hitems hctx)
  | .binary line op left right, ⟨hleft, hright⟩, _, hctx => by
      simp only [Term.texts, List.forall_mem_append] at hctx
      exact .binary line op (Term.Similar.of_alike left hleft hctx.1)
        (Term.Similar.of_alike right hright hctx.2)
  | .unary line op operand, hoperand, _, hctx =>
      .unary line op (Term.Similar.of_alike operand hoperand hctx)

theorem Term.AllSimilar.of_alike : ∀ (ts : List Term), Term.AllWellBound ts →
    ∀ {ctx : Context}, (∀ x ∈ Term.textsAll ts, ctx.Alike x x) → Term.AllSimilar ctx ts ts
  | [], _, _, _ => .nil
  | t :: ts, ⟨ht, hts⟩, _, hctx => by
      simp only [Term.textsAll, List.forall_mem_append] at hctx
      exact .cons (Term.Similar.of_alike t ht hctx.1) (Term.AllSimilar.of_alike ts hts hctx.2)

end

/-- A tree is similar to itself where nothing is renamed. -/
theorem Term.Similar.refl (t : Term) (ht : t.WellBound) {ctx : Context} (hctx : ctx.Plain) :
    Term.Similar ctx t t :=
  .of_alike t ht fun x _ => hctx.alike x

mutual

/-- Similar trees have equally many lambdas. -/
theorem Term.Similar.lambdas_eq : ∀ {ctx : Context} {t t' : Term}, Term.Similar ctx t t' →
    t.lambdas = t'.lambdas
  | _, _, _, .ident _ _ => by simp only [Term.lambdas]
  | _, _, _, .constant (k := k) _ _ => by cases k <;> simp only [Term.lambdas, Constant.term]
  | _, _, _, .literal _ _ => rfl
  | _, _, _, .nil _ => rfl
  | _, _, _, .fixpoint _ => rfl
  | _, _, _, .lambda _ _ _ _ _ hbody => by
      simp only [Term.lambdas, Term.Similar.lambdas_eq hbody]
  | _, _, _, .app _ hrator hrand => by
      simp only [Term.lambdas, Term.Similar.lambdas_eq hrator, Term.Similar.lambdas_eq hrand]
  | _, _, _, .cond _ hc ht he => by
      simp only [Term.lambdas, Term.Similar.lambdas_eq hc, Term.Similar.lambdas_eq ht,
        Term.Similar.lambdas_eq he]
  | _, _, _, .tuple _ h => by simp only [Term.lambdas, Term.AllSimilar.lambdas_eq h]
  | _, _, _, .binary _ _ hleft hright => by
      simp only [Term.lambdas, Term.Similar.lambdas_eq hleft, Term.Similar.lambdas_eq hright]
  | _, _, _, .unary _ _ h => by simp only [Term.lambdas, Term.Similar.lambdas_eq h]

theorem Term.AllSimilar.lambdas_eq : ∀ {ctx : Context} {ts ts' : List Term},
    Term.AllSimilar ctx ts ts' → Term.lambdasAll ts = Term.lambdasAll ts'
  | _, _, _, .nil => rfl
  | _, _, _, .cons h hs => by
      simp only [Term.lambdasAll, Term.Similar.lambdas_eq h, Term.AllSimilar.lambdas_eq hs]

end

theorem Term.AllSimilar.length_eq {ctx : Context} : ∀ {ts ts' : List Term},
    Term.AllSimilar ctx ts ts' → ts.length = ts'.length
  | _, _, .nil => rfl
  | _, _, .cons _ hs => by simp only [List.length_cons, hs.length_eq]

mutual

/-- A tree similar to a well-bound one is well bound. -/
theorem Term.Similar.wellBound : ∀ {ctx : Context} {t t' : Term}, Term.Similar ctx t t' →
    t.WellBound → t'.WellBound
  | _, _, _, .ident _ _, _ => trivial
  | _, _, _, .constant (k := k) _ _, _ => by cases k <;> exact trivial
  | _, _, _, .literal _ _, _ => trivial
  | _, _, _, .nil _, _ => trivial
  | _, _, _, .fixpoint _, _ => trivial
  | _, _, _, .lambda _ vs _ hright _ hbody, ⟨hne, _, h⟩ =>
      ⟨by simpa using hne, hright, Term.Similar.wellBound hbody h⟩
  | _, _, _, .app _ hrator hrand, ⟨h, h'⟩ =>
      ⟨Term.Similar.wellBound hrator h, Term.Similar.wellBound hrand h'⟩
  | _, _, _, .cond _ hc ht he, ⟨h, h', h''⟩ =>
      ⟨Term.Similar.wellBound hc h, Term.Similar.wellBound ht h', Term.Similar.wellBound he h''⟩
  | _, _, _, .tuple _ hitems, h => Term.AllSimilar.allWellBound hitems h
  | _, _, _, .binary _ _ hleft hright, ⟨h, h'⟩ =>
      ⟨Term.Similar.wellBound hleft h, Term.Similar.wellBound hright h'⟩
  | _, _, _, .unary _ _ hoperand, h => by
      have hwell := Term.Similar.wellBound hoperand h
      exact hwell

theorem Term.AllSimilar.allWellBound : ∀ {ctx : Context} {ts ts' : List Term},
    Term.AllSimilar ctx ts ts' → Term.AllWellBound ts → Term.AllWellBound ts'
  | _, _, _, .nil, _ => trivial
  | _, _, _, .cons h hs, ⟨ht, hts⟩ =>
      ⟨Term.Similar.wellBound h ht, Term.AllSimilar.allWellBound hs hts⟩

end

/-! ## Code -/

section Code

variable (T T' : NameTable)

/-- The blocks of two lambdas with similar bodies, each by the names of its own table. -/
inductive Block.Similar (ctx : Context) : Block → Block → Prop
  | mk (n : Nat) (vs : List Variable) {body body' : Term}
      (hleft : (vs.map Variable.left).Nodup) (hright : (vs.map Variable.right).Nodup)
      (hunknown : ∀ v ∈ vs, v.constant = none) (hbody : Term.Similar (vs :: ctx) body body')
      (hlists : T.Lists (vs.map Variable.left ++ body.texts))
      (hlists' : T'.Lists (vs.map Variable.right ++ body'.texts)) :
      Similar ctx
        (Block.ofLambda T n (vs.map Variable.left) body)
        (Block.ofLambda T' n (vs.map Variable.right) body')

/-- Instructions of similar trees, each by the names of its own table. -/
inductive Instr.Similar (ctx : Context) : Instr → Instr → Prop
  | ident {x x' : String} (line : Nat) (h : ctx.Alike x x') (hx : x ∈ T.texts)
      (hx' : x' ∈ T'.texts) :
      Similar ctx (.ident line (T.nameOf x)) (.ident line (T'.nameOf x'))
  | constant {x : String} {k : Constant} (line : Nat) (h : ctx.Knows x k) (hx : x ∈ T.texts) :
      Similar ctx (.ident line (T.nameOf x)) (k.instr line)
  | literal (line : Nat) (v : Literal) : Similar ctx (.literal line v) (.literal line v)
  | fixpoint (line : Nat) : Similar ctx (.fixpoint line) (.fixpoint line)
  | lambda {b b' : Block} (line : Nat) (h : Block.Similar T T' ctx b b') :
      Similar ctx (.lambda line b) (.lambda line b')
  | binary (line : Nat) (op : BinaryOp) : Similar ctx (.binary line op) (.binary line op)
  | unary (line : Nat) (op : UnaryOp) : Similar ctx (.unary line op) (.unary line op)
  | tuple (line arity : Nat) : Similar ctx (.tuple line arity) (.tuple line arity)
  | apply (line : Nat) : Similar ctx (.apply line) (.apply line)
  | branch {t t' e e' : Term} (line n k : Nat) (ht : Term.Similar ctx t t')
      (he : Term.Similar ctx e e') (hlists : T.Lists (t.texts ++ e.texts))
      (hlists' : T'.Lists (t'.texts ++ e'.texts)) :
      Similar ctx
        (.branch line ((t.named T.nameOf n).flatten []) ((e.named T.nameOf k).flatten []))
        (.branch line ((t'.named T'.nameOf n).flatten []) ((e'.named T'.nameOf k).flatten []))

end Code

variable {T T' : NameTable}

mutual

/-- Similar trees have similar code. -/
theorem Term.Similar.flatten : ∀ {ctx : Context} {t t' : Term}, Term.Similar ctx t t' →
    T.Lists t.texts → T'.Lists t'.texts → ∀ (n : Nat) {rest rest' : List Instr},
    List.Forall₂ (Instr.Similar T T' ctx) rest rest' →
      List.Forall₂ (Instr.Similar T T' ctx) ((t.named T.nameOf n).flatten rest)
        ((t'.named T'.nameOf n).flatten rest')
  | _, _, _, .ident line h, hlists, hlists', _, _, _, hrest => by
      simp only [Term.texts, NameTable.Lists, List.mem_singleton, forall_eq] at hlists hlists'
      simp only [Term.named, Expr.flatten]
      exact .cons (.ident line h hlists hlists') hrest
  | _, _, _, .constant (k := k) line h, hlists, _, _, _, _, hrest => by
      simp only [Term.texts, NameTable.Lists, List.mem_singleton, forall_eq] at hlists
      cases k with
      | literal v =>
          simp only [Term.named, Constant.term, Expr.flatten]
          exact .cons (.constant line h hlists) hrest
      | fixpoint =>
          simp only [Term.named, Constant.term, Expr.flatten]
          exact .cons (.constant line h hlists) hrest
  | _, _, _, .literal line v, _, _, _, _, _, hrest => by
      simp only [Term.named, Expr.flatten]
      exact .cons (.literal line v) hrest
  | _, _, _, .nil line, _, _, _, _, _, hrest => by
      simp only [Term.named, Expr.flatten, Expr.flattenAll]
      exact .cons (.tuple line _) hrest
  | _, _, _, .fixpoint line, _, _, _, _, _, hrest => by
      simp only [Term.named, Expr.flatten]
      exact .cons (.fixpoint line) hrest
  | _, _, _, .lambda line vs hleft hright hunknown hbody, hlists, hlists', n, _, _, hrest => by
      simp only [Term.texts] at hlists hlists'
      simp only [Term.named, Expr.flatten]
      exact .cons (.lambda line (.mk n vs hleft hright hunknown hbody hlists hlists')) hrest
  | _, _, _, .app line hrator hrand, hlists, hlists', n, _, _, hrest => by
      simp only [Term.texts] at hlists hlists'
      simp only [Term.named, Expr.flatten, ← Term.Similar.lambdas_eq hrator]
      refine Term.Similar.flatten hrand hlists.right hlists'.right _ ?_
      exact Term.Similar.flatten hrator hlists.left hlists'.left _ (.cons (.apply line) hrest)
  | _, _, _, .cond line hc ht he, hlists, hlists', n, _, _, hrest => by
      simp only [Term.texts] at hlists hlists'
      simp only [Term.named, Expr.flatten, ← Term.Similar.lambdas_eq hc,
        ← Term.Similar.lambdas_eq ht]
      refine Term.Similar.flatten hc hlists.left.left hlists'.left.left _ (.cons ?_ hrest)
      refine .branch line _ _ ht he ?_ ?_
      · exact NameTable.Lists.right (List.append_assoc _ _ _ ▸ hlists)
      · exact NameTable.Lists.right (List.append_assoc _ _ _ ▸ hlists')
  | _, _, _, .tuple line h, hlists, hlists', n, _, _, hrest => by
      simp only [Term.texts] at hlists hlists'
      simp only [Term.named, Expr.flatten, Term.length_namedAll, ← h.length_eq]
      exact Term.AllSimilar.flattenAll h hlists hlists' _ (.cons (.tuple line _) hrest)
  | _, _, _, .binary line op hleft hright, hlists, hlists', n, _, _, hrest => by
      simp only [Term.texts] at hlists hlists'
      simp only [Term.named, Expr.flatten, ← Term.Similar.lambdas_eq hleft]
      refine Term.Similar.flatten hright hlists.right hlists'.right _ ?_
      exact Term.Similar.flatten hleft hlists.left hlists'.left _ (.cons (.binary line op) hrest)
  | _, _, _, .unary line op h, hlists, hlists', n, _, _, hrest => by
      simp only [Term.texts] at hlists hlists'
      simp only [Term.named, Expr.flatten]
      exact Term.Similar.flatten h hlists hlists' _ (.cons (.unary line op) hrest)

theorem Term.AllSimilar.flattenAll : ∀ {ctx : Context} {ts ts' : List Term},
    Term.AllSimilar ctx ts ts' → T.Lists (Term.textsAll ts) → T'.Lists (Term.textsAll ts') →
    ∀ (n : Nat) {rest rest' : List Instr}, List.Forall₂ (Instr.Similar T T' ctx) rest rest' →
      List.Forall₂ (Instr.Similar T T' ctx) (Expr.flattenAll (Term.namedAll T.nameOf n ts) rest)
        (Expr.flattenAll (Term.namedAll T'.nameOf n ts') rest')
  | _, _, _, .nil, _, _, _, _, _, hrest => hrest
  | _, _, _, .cons h hs, hlists, hlists', n, _, _, hrest => by
      simp only [Term.textsAll] at hlists hlists'
      simp only [Term.namedAll, Expr.flattenAll, ← Term.Similar.lambdas_eq h]
      refine Term.AllSimilar.flattenAll hs hlists.right hlists'.right _ ?_
      exact Term.Similar.flatten h hlists.left hlists'.left _ hrest

end

end CSEMachine
