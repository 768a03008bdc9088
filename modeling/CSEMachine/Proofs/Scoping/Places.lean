import CSEMachine.Proofs.Naming

/-!
# Places in a tree

A place in a tree is one of its nodes together with the parameters of all lambdas around
it and the number that its first lambda has.  Places say where in the tree the parts of
its code come from.

Main results:

- Theorem `Place.Inside.eq_of_index_eq`: a lambda is known by its number.
- Theorem `Term.flatten_from`: every instruction of the code of a tree comes from a place
  in it.
-/

namespace CSEMachine

/-- The trees just below the outermost node. -/
def Term.subtrees : Term → List Term
  | .ident _ _ | .literal _ _ | .nil _ | .fixpoint _ => []
  | .lambda _ _ body => [body]
  | .app _ rator rand => [rator, rand]
  | .cond _ c t e => [c, t, e]
  | .tuple _ items => items
  | .binary _ _ left right => [left, right]
  | .unary _ _ operand => [operand]

theorem Term.allWellBound_iff {ts : List Term} :
    Term.AllWellBound ts ↔ ∀ t ∈ ts, t.WellBound := by
  induction ts with
  | nil => simp [Term.AllWellBound]
  | cons t ts ih => simp [Term.AllWellBound, ih]

theorem Term.mem_textsAll {ts : List Term} {x : String} :
    x ∈ Term.textsAll ts ↔ ∃ t ∈ ts, x ∈ t.texts := by
  induction ts with
  | nil => simp [Term.textsAll]
  | cons t ts ih => simp [Term.textsAll, ih]

/-- The trees below a well-bound tree are well bound. -/
theorem Term.WellBound.of_mem_subtrees {t u : Term} (h : t.WellBound) (hu : u ∈ t.subtrees) :
    u.WellBound := by
  cases t with
  | ident line x | literal line v | nil line | fixpoint line => cases hu
  | tuple line items => exact Term.allWellBound_iff.mp h u hu
  | lambda line xs body =>
      rcases List.mem_singleton.mp hu with rfl
      exact h.2.2
  | app line rator rand =>
      simp only [Term.subtrees, List.mem_cons, List.not_mem_nil, or_false] at hu
      rcases hu with rfl | rfl
      · exact h.1
      · exact h.2
  | cond line c t e =>
      simp only [Term.subtrees, List.mem_cons, List.not_mem_nil, or_false] at hu
      rcases hu with rfl | rfl | rfl
      · exact h.1
      · exact h.2.1
      · exact h.2.2
  | binary line op left right =>
      simp only [Term.subtrees, List.mem_cons, List.not_mem_nil, or_false] at hu
      rcases hu with rfl | rfl
      · exact h.1
      · exact h.2
  | unary line op operand =>
      rcases List.mem_singleton.mp hu with rfl
      exact h

/-- The texts of the trees below a tree are texts of the tree. -/
theorem Term.texts_of_mem_subtrees {t u : Term} (hu : u ∈ t.subtrees) {x : String}
    (hx : x ∈ u.texts) : x ∈ t.texts := by
  cases t with
  | ident line y | literal line v | nil line | fixpoint line => cases hu
  | tuple line items => exact Term.mem_textsAll.mpr ⟨u, hu, hx⟩
  | lambda line xs body =>
      rcases List.mem_singleton.mp hu with rfl
      exact List.mem_append_right xs hx
  | app line rator rand =>
      simp only [Term.subtrees, List.mem_cons, List.not_mem_nil, or_false] at hu
      rcases hu with rfl | rfl
      · exact List.mem_append_left _ hx
      · exact List.mem_append_right _ hx
  | cond line c t e =>
      simp only [Term.subtrees, List.mem_cons, List.not_mem_nil, or_false] at hu
      rcases hu with rfl | rfl | rfl
      · exact List.mem_append_left _ (List.mem_append_left _ hx)
      · exact List.mem_append_left _ (List.mem_append_right _ hx)
      · exact List.mem_append_right _ hx
  | binary line op left right =>
      simp only [Term.subtrees, List.mem_cons, List.not_mem_nil, or_false] at hu
      rcases hu with rfl | rfl
      · exact List.mem_append_left _ hx
      · exact List.mem_append_right _ hx
  | unary line op operand =>
      rcases List.mem_singleton.mp hu with rfl
      exact hx

/-! ## Places -/

/-- A node of a tree: the parameters of the lambdas around it, the innermost lambda first;
the number of the first lambda at or inside it; and the tree that begins there. -/
structure Place where
  path : List (List String)
  index : Nat
  tree : Term

namespace Place

/-- The place of a whole tree. -/
def top (t : Term) : Place :=
  ⟨[], 1, t⟩

/-- The places of several trees side by side. -/
def row (path : List (List String)) : Nat → List Term → List Place
  | _, [] => []
  | n, t :: ts => ⟨path, n, t⟩ :: row path (n + t.lambdas) ts

/-- The parameters around the places below a place, and the number of the first lambda
there. -/
def inner : Place → List (List String) × Nat
  | ⟨path, n, .lambda _ xs _⟩ => (xs :: path, n + 1)
  | ⟨path, n, _⟩ => (path, n)

/-- The places just below a place. -/
def children (p : Place) : List Place :=
  row p.inner.1 p.inner.2 p.tree.subtrees

/-- The places at or below a place. -/
inductive Inside (root : Place) : Place → Prop
  | root : Inside root root
  | child {p q : Place} (h : Inside root p) (hq : q ∈ p.children) : Inside root q

theorem tree_of_mem_row {path : List (List String)} {n : Nat} {ts : List Term} {q : Place}
    (h : q ∈ row path n ts) : q.tree ∈ ts := by
  induction ts generalizing n with
  | nil => cases h
  | cons t ts ih =>
      rcases List.mem_cons.mp h with rfl | h
      · exact List.mem_cons_self
      · exact List.mem_cons_of_mem _ (ih h)

theorem tree_of_mem_children {p q : Place} (h : q ∈ p.children) : q.tree ∈ p.tree.subtrees :=
  tree_of_mem_row h

namespace Inside

variable {root p q r : Place}

/-- What is inside a place is that place or inside one just below it. -/
theorem cases_child (h : Inside root p) : p = root ∨ ∃ c ∈ root.children, Inside c p := by
  induction h with
  | root => exact Or.inl rfl
  | child _ hq ih =>
      rcases ih with rfl | ⟨c, hc, hinside⟩
      · exact Or.inr ⟨_, hq, .root⟩
      · exact Or.inr ⟨c, hc, hinside.child hq⟩

/-- Every place inside a well-bound tree is well bound. -/
theorem wellBound (h : Inside root p) (hroot : root.tree.WellBound) : p.tree.WellBound := by
  induction h with
  | root => exact hroot
  | child _ hq ih => exact ih.of_mem_subtrees (tree_of_mem_children hq)

/-- The texts of every place inside a tree are texts of the tree. -/
theorem texts (h : Inside root p) {x : String} (hx : x ∈ p.tree.texts) : x ∈ root.tree.texts := by
  induction h with
  | root => exact hx
  | child _ hq ih => exact ih (Term.texts_of_mem_subtrees (tree_of_mem_children hq) hx)

end Inside

/-! ## Numbers of lambdas -/

/-- The number after the last lambda at or inside a place. -/
def last (p : Place) : Nat :=
  p.index + p.tree.lambdas

/-- Two places without a number in common. -/
def Apart (p q : Place) : Prop :=
  p.last ≤ q.index ∨ q.last ≤ p.index

theorem span_of_mem_row {path : List (List String)} {n : Nat} {ts : List Term} {q : Place}
    (h : q ∈ row path n ts) : n ≤ q.index ∧ q.last ≤ n + Term.lambdasAll ts := by
  induction ts generalizing n with
  | nil => cases h
  | cons t ts ih =>
      rw [Term.lambdasAll]
      rcases List.mem_cons.mp h with rfl | h
      · exact ⟨Nat.le_refl n, by simp only [last]; omega⟩
      · have hspan := ih h
        omega

theorem row_apart {path : List (List String)} {n : Nat} {ts : List Term} {p q : Place}
    (hp : p ∈ row path n ts) (hq : q ∈ row path n ts) : p = q ∨ Apart p q := by
  induction ts generalizing n with
  | nil => cases hp
  | cons t ts ih =>
      rcases List.mem_cons.mp hp with rfl | hp
      · rcases List.mem_cons.mp hq with rfl | hq
        · exact Or.inl rfl
        · exact Or.inr (Or.inl (span_of_mem_row hq).1)
      · rcases List.mem_cons.mp hq with rfl | hq
        · exact Or.inr (Or.inr (span_of_mem_row hp).1)
        · exact ih hp hq

/-- The numbers of a place contain those of the places below it. -/
theorem span_of_mem_children {p q : Place} (h : q ∈ p.children) :
    p.index ≤ q.index ∧ q.last ≤ p.last := by
  rcases p with ⟨path, n, t⟩
  cases t with
  | ident line x | literal line v | nil line | fixpoint line => cases h
  | _ =>
      have hspan := span_of_mem_row h
      simp only [inner, Term.subtrees, Term.lambdasAll] at hspan
      simp only [last, Term.lambdas] at hspan ⊢
      omega

theorem Inside.span {root p : Place} (h : Inside root p) :
    root.index ≤ p.index ∧ p.last ≤ root.last := by
  induction h with
  | root => exact ⟨Nat.le_refl _, Nat.le_refl _⟩
  | child _ hq ih =>
      have hspan := span_of_mem_children hq
      omega

/-- Of two places in a tree one is inside the other, or they are apart. -/
theorem Inside.comparable {root p q : Place} (hp : Inside root p) (hq : Inside root q) :
    Inside p q ∨ Inside q p ∨ Apart p q := by
  induction hp with
  | root => exact Or.inl hq
  | @child c p hc hp ih =>
      rcases ih with hbelow | habove | hapart
      · rcases hbelow.cases_child with rfl | ⟨d, hd, hinside⟩
        · exact Or.inr (Or.inl (.child .root hp))
        · rcases row_apart hp hd with rfl | hapart
          · exact Or.inl hinside
          · have hspan := hinside.span
            refine Or.inr (Or.inr ?_)
            simp only [Apart] at hapart ⊢
            omega
      · exact Or.inr (Or.inl (habove.child hp))
      · have hspan := span_of_mem_children hp
        refine Or.inr (Or.inr ?_)
        simp only [Apart] at hapart ⊢
        omega

/-- A lambda is known by its number. -/
theorem Inside.eq_of_index_eq {root p q : Place} (hp : Inside root p) (hq : Inside root q)
    {line line' : Nat} {xs xs' : List String} {body body' : Term}
    (hptree : p.tree = .lambda line xs body) (hqtree : q.tree = .lambda line' xs' body')
    (hindex : p.index = q.index) : p = q := by
  have hbelow : ∀ {p q : Place} {line : Nat} {xs : List String} {body : Term},
      p.tree = .lambda line xs body → p.index = q.index → Inside p q → p = q := by
    rintro ⟨path, n, t⟩ q line xs body rfl hindex hinside
    rcases hinside.cases_child with rfl | ⟨c, hc, hinside⟩
    · rfl
    · have hc : n + 1 ≤ c.index := (span_of_mem_row hc).1
      have hspan := hinside.span
      have hindex : n = q.index := hindex
      omega
  rcases hp.comparable hq with hinside | hinside | hapart
  · exact hbelow hptree hindex hinside
  · exact (hbelow hqtree hindex.symm hinside).symm
  · simp only [Apart, last, hptree, hqtree, Term.lambdas] at hapart
    omega

end Place

/-! ## Code -/

/-- An instruction of the code of a tree, under the lambdas of a path: it comes from a
place there. -/
inductive Instr.From (names : NameTable) (root : Place) (path : List (List String)) :
    Instr → Prop
  | ident {n line : Nat} {x : String} (h : Place.Inside root ⟨path, n, .ident line x⟩) :
      From names root path (.ident line (names.nameOf x))
  | lambda {n line : Nat} {xs : List String} {body : Term}
      (h : Place.Inside root ⟨path, n, .lambda line xs body⟩) :
      From names root path (.lambda line (Block.ofLambda names n xs body))
  | branch {n k : Nat} {t e : Term} (line : Nat) (ht : Place.Inside root ⟨path, n, t⟩)
      (he : Place.Inside root ⟨path, k, e⟩) :
      From names root path (.branch line ((t.named names.nameOf n).flatten [])
        ((e.named names.nameOf k).flatten []))
  | literal (line : Nat) (v : Literal) : From names root path (.literal line v)
  | fixpoint (line : Nat) : From names root path (.fixpoint line)
  | binary (line : Nat) (op : BinaryOp) : From names root path (.binary line op)
  | unary (line : Nat) (op : UnaryOp) : From names root path (.unary line op)
  | tuple (line arity : Nat) : From names root path (.tuple line arity)
  | apply (line : Nat) : From names root path (.apply line)

mutual

/-- Every instruction of the code of a tree comes from a place in it. -/
theorem Term.flatten_from {names : NameTable} {root : Place} {path : List (List String)} :
    ∀ (t : Term) (n : Nat), Place.Inside root ⟨path, n, t⟩ → ∀ {rest : List Instr},
      (∀ i ∈ rest, Instr.From names root path i) →
        ∀ i ∈ (t.named names.nameOf n).flatten rest, Instr.From names root path i
  | .ident line x, n, h, rest, hrest => by
      simp only [Term.named, Expr.flatten]
      exact List.forall_mem_cons.mpr ⟨.ident h, hrest⟩
  | .literal line v, n, _, rest, hrest => by
      simp only [Term.named, Expr.flatten]
      exact List.forall_mem_cons.mpr ⟨.literal line v, hrest⟩
  | .nil line, n, _, rest, hrest => by
      simp only [Term.named, Expr.flatten, Expr.flattenAll]
      exact List.forall_mem_cons.mpr ⟨.tuple line _, hrest⟩
  | .fixpoint line, n, _, rest, hrest => by
      simp only [Term.named, Expr.flatten]
      exact List.forall_mem_cons.mpr ⟨.fixpoint line, hrest⟩
  | .lambda line xs body, n, h, rest, hrest => by
      simp only [Term.named, Expr.flatten]
      exact List.forall_mem_cons.mpr ⟨.lambda h, hrest⟩
  | .app line rator rand, n, h, rest, hrest => by
      have hparts : ∀ q ∈ Place.row path n [rator, rand], Place.Inside root q :=
        fun q hq => h.child hq
      simp only [Place.row, List.forall_mem_cons] at hparts
      rcases hparts with ⟨hrator, hrand, _⟩
      simp only [Term.named, Expr.flatten]
      refine Term.flatten_from rand _ hrand (Term.flatten_from rator _ hrator ?_)
      exact List.forall_mem_cons.mpr ⟨.apply line, hrest⟩
  | .cond line c t e, n, h, rest, hrest => by
      have hparts : ∀ q ∈ Place.row path n [c, t, e], Place.Inside root q :=
        fun q hq => h.child hq
      simp only [Place.row, List.forall_mem_cons] at hparts
      rcases hparts with ⟨hc, ht, he, _⟩
      simp only [Term.named, Expr.flatten]
      refine Term.flatten_from c _ hc ?_
      exact List.forall_mem_cons.mpr ⟨.branch line ht he, hrest⟩
  | .tuple line items, n, h, rest, hrest => by
      have hitems : ∀ q ∈ Place.row path n items, Place.Inside root q := fun q hq => h.child hq
      simp only [Term.named, Expr.flatten]
      refine Term.flattenAll_from items _ hitems ?_
      exact List.forall_mem_cons.mpr ⟨.tuple line _, hrest⟩
  | .binary line op left right, n, h, rest, hrest => by
      have hparts : ∀ q ∈ Place.row path n [left, right], Place.Inside root q :=
        fun q hq => h.child hq
      simp only [Place.row, List.forall_mem_cons] at hparts
      rcases hparts with ⟨hleft, hright, _⟩
      simp only [Term.named, Expr.flatten]
      refine Term.flatten_from right _ hright (Term.flatten_from left _ hleft ?_)
      exact List.forall_mem_cons.mpr ⟨.binary line op, hrest⟩
  | .unary line op operand, n, h, rest, hrest => by
      have hoperand : Place.Inside root ⟨path, n, operand⟩ := h.child List.mem_cons_self
      simp only [Term.named, Expr.flatten]
      refine Term.flatten_from operand _ hoperand ?_
      exact List.forall_mem_cons.mpr ⟨.unary line op, hrest⟩

theorem Term.flattenAll_from {names : NameTable} {root : Place} {path : List (List String)} :
    ∀ (ts : List Term) (n : Nat), (∀ q ∈ Place.row path n ts, Place.Inside root q) →
      ∀ {rest : List Instr}, (∀ i ∈ rest, Instr.From names root path i) →
        ∀ i ∈ Expr.flattenAll (Term.namedAll names.nameOf n ts) rest,
          Instr.From names root path i
  | [], _, _, _, hrest => hrest
  | t :: ts, n, h, rest, hrest => by
      rw [Place.row, List.forall_mem_cons] at h
      simp only [Term.namedAll, Expr.flattenAll]
      exact Term.flattenAll_from ts _ h.2 (Term.flatten_from t n h.1 hrest)

end

end CSEMachine
