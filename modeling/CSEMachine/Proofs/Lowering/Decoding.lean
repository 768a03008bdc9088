import CSEMachine.Proofs.Naming

/-!
# Reading code back

Code is read back into a tree in one pass, in the order in which it runs, with a stack of
the trees that have been read: an instruction takes the trees of its operands from the
stack and puts back the tree of its node.  The code of a tree reads back as that tree, but
for one thing: `nil` and the tuple of no items have the same code, which reads as `nil`.

Main results:

- Theorem `Term.readAll_flatten`: the code of a tree reads as that tree, in front of any
  code and over any stack.
- Theorem `Term.named_withNil`: nothing else than the spelling of `nil` is lost.
- Theorem `Program.decode_ofTerm`: a program reads back as the tree that it was made from,
  and two trees have the same program only if they differ in the spelling of `nil` alone.
-/

namespace CSEMachine

/-! ## The spelling of `nil` -/

mutual

/-- The tree with `nil` for every tuple of no items. -/
def Term.withNil : Term → Term
  | .ident line x => .ident line x
  | .literal line v => .literal line v
  | .nil line => .nil line
  | .fixpoint line => .fixpoint line
  | .lambda line xs body => .lambda line xs body.withNil
  | .app line rator rand => .app line rator.withNil rand.withNil
  | .cond line c t e => .cond line c.withNil t.withNil e.withNil
  | .tuple line [] => .nil line
  | .tuple line (t :: ts) => .tuple line (t.withNil :: Term.allWithNil ts)
  | .binary line op left right => .binary line op left.withNil right.withNil
  | .unary line op operand => .unary line op operand.withNil

/-- Several trees with `nil` for every tuple of no items. -/
def Term.allWithNil : List Term → List Term
  | [] => []
  | t :: ts => t.withNil :: Term.allWithNil ts

end

theorem Term.length_allWithNil : ∀ ts : List Term, (Term.allWithNil ts).length = ts.length
  | [] => rfl
  | t :: ts => by rw [Term.allWithNil, List.length_cons, Term.length_allWithNil ts,
      List.length_cons]

/-! ## The decoder -/

/-- The tree of a tuple of the topmost trees, the topmost one first. -/
def Term.readTuple (line arity : Nat) (ts : List Term) : Option (List Term) :=
  if arity = 0 then some (.nil line :: ts)
  else if arity ≤ ts.length then some (.tuple line (ts.take arity) :: ts.drop arity)
  else none

mutual

/-- Reads an instruction, by the names in a table. -/
def Instr.read (names : NameTable) : Instr → List Term → Option (List Term)
  | .ident line x, ts => some (.ident line (names.text x) :: ts)
  | .literal line v, ts => some (.literal line v :: ts)
  | .fixpoint line, ts => some (.fixpoint line :: ts)
  | .lambda line b, ts => (b.read names).map fun body =>
      .lambda line (b.params.map names.text) body :: ts
  | .binary line op, left :: right :: ts => some (.binary line op left right :: ts)
  | .unary line op, operand :: ts => some (.unary line op operand :: ts)
  | .tuple line arity, ts => Term.readTuple line arity ts
  | .branch line thenArm elseArm, c :: ts =>
    match Instr.readAll names thenArm [], Instr.readAll names elseArm [] with
    | some [t], some [e] => some (.cond line c t e :: ts)
    | _, _ => none
  | .apply line, rator :: rand :: ts => some (.app line rator rand :: ts)
  | _, _ => none

/-- Reads the body of the lambda of a block. -/
def Block.read (names : NameTable) : Block → Option Term
  | ⟨_, _, code⟩ =>
    match Instr.readAll names code [] with
    | some [body] => some body
    | _ => none

/-- Reads code, with the trees that have been read before on a stack. -/
def Instr.readAll (names : NameTable) : List Instr → List Term → Option (List Term)
  | [], ts => some ts
  | i :: code, ts => (i.read names ts).bind (Instr.readAll names code)

end

/-- A tuple reads back from the trees of its items. -/
theorem Term.readTuple_withNil (line : Nat) (items ts : List Term) :
    Term.readTuple line items.length (Term.allWithNil items ++ ts) =
      some ((Term.tuple line items).withNil :: ts) := by
  cases items with
  | nil => rfl
  | cons t items =>
      have hlength : (Term.allWithNil (t :: items)).length = (t :: items).length :=
        Term.length_allWithNil _
      rw [readTuple, if_neg (by simp), if_pos (by simp [hlength]), ← hlength, List.take_left,
        List.drop_left]
      rfl

/-! ## Reading the code of trees -/

section Read

variable {names : NameTable}

mutual

/-- The code of a tree reads as that tree. -/
theorem Term.readAll_flatten : ∀ (t : Term) (n : Nat) (rest : List Instr) (ts : List Term),
    names.Lists t.texts →
      Instr.readAll names ((t.named names.nameOf n).flatten rest) ts =
        Instr.readAll names rest (t.withNil :: ts)
  | .ident line x, n, rest, ts, h => by
      have hx := h.text_nameOf (List.mem_singleton_self x)
      simp only [Term.named, Expr.flatten, Instr.readAll, Instr.read, hx, Term.withNil,
        Option.bind_some]
  | .literal line v, n, rest, ts, _ => by
      simp only [Term.named, Expr.flatten, Instr.readAll, Instr.read, Term.withNil,
        Option.bind_some]
  | .nil line, n, rest, ts, _ => by
      simp only [Term.named, Expr.flatten, Expr.flattenAll, Instr.readAll, Instr.read,
        List.length_nil, Term.readTuple, if_true, Term.withNil, Option.bind_some]
  | .fixpoint line, n, rest, ts, _ => by
      simp only [Term.named, Expr.flatten, Instr.readAll, Instr.read, Term.withNil,
        Option.bind_some]
  | .lambda line xs body, n, rest, ts, h => by
      rw [Term.texts] at h
      have hxs := h.left.map_text
      have hbody := Term.readAll_flatten body (n + 1) [] [] h.right
      simp only [Term.named, Expr.flatten, Instr.readAll, Instr.read, Block.read, hbody, hxs,
        Term.withNil, Option.map_some, Option.bind_some]
  | .app line rator rand, n, rest, ts, h => by
      rw [Term.texts] at h
      simp only [Term.named, Expr.flatten]
      rw [Term.readAll_flatten rand _ _ _ h.right, Term.readAll_flatten rator _ _ _ h.left]
      simp only [Instr.readAll, Instr.read, Term.withNil, Option.bind_some]
  | .cond line c t e, n, rest, ts, h => by
      rw [Term.texts] at h
      have ht := Term.readAll_flatten t (n + c.lambdas) [] [] h.left.right
      have he := Term.readAll_flatten e (n + c.lambdas + t.lambdas) [] [] h.right
      simp only [Term.named, Expr.flatten]
      rw [Term.readAll_flatten c _ _ _ h.left.left]
      simp only [Instr.readAll, Instr.read, ht, he, Term.withNil, Option.bind_some]
  | .tuple line items, n, rest, ts, h => by
      rw [Term.texts] at h
      simp only [Term.named, Expr.flatten]
      rw [Term.readAll_flattenAll items _ _ _ h, Instr.readAll, Instr.read,
        Term.length_namedAll, Term.readTuple_withNil, Option.bind_some]
  | .binary line op left right, n, rest, ts, h => by
      rw [Term.texts] at h
      simp only [Term.named, Expr.flatten]
      rw [Term.readAll_flatten right _ _ _ h.right, Term.readAll_flatten left _ _ _ h.left]
      simp only [Instr.readAll, Instr.read, Term.withNil, Option.bind_some]
  | .unary line op operand, n, rest, ts, h => by
      rw [Term.texts] at h
      simp only [Term.named, Expr.flatten]
      rw [Term.readAll_flatten operand _ _ _ h]
      simp only [Instr.readAll, Instr.read, Term.withNil, Option.bind_some]

/-- The code of several trees reads as those trees, the first one topmost. -/
theorem Term.readAll_flattenAll : ∀ (items : List Term) (n : Nat) (rest : List Instr)
    (ts : List Term), names.Lists (Term.textsAll items) →
      Instr.readAll names (Expr.flattenAll (Term.namedAll names.nameOf n items) rest) ts =
        Instr.readAll names rest (Term.allWithNil items ++ ts)
  | [], _, _, _, _ => rfl
  | t :: items, n, rest, ts, h => by
      rw [Term.textsAll] at h
      simp only [Term.namedAll, Expr.flattenAll]
      rw [Term.readAll_flattenAll items _ _ _ h.right, Term.readAll_flatten t _ _ _ h.left]
      rfl

end

end Read

mutual

/-- Nothing else than the spelling of `nil` is lost. -/
theorem Term.named_withNil (name : String → Name) : ∀ (t : Term) (n : Nat),
    t.withNil.named name n = t.named name n ∧ t.withNil.lambdas = t.lambdas
  | .ident _ _, _ | .literal _ _, _ | .nil _, _ | .fixpoint _, _ => ⟨rfl, rfl⟩
  | .lambda line xs body, n => by
      rcases Term.named_withNil name body (n + 1) with ⟨hbody, hlambdas⟩
      simp only [Term.withNil, Term.named, Term.lambdas, hbody, hlambdas, and_self]
  | .app line rator rand, n => by
      rcases Term.named_withNil name rator n with ⟨hrator, hlambdas⟩
      rcases Term.named_withNil name rand (n + rator.lambdas) with ⟨hrand, hlambdas'⟩
      simp only [Term.withNil, Term.named, Term.lambdas, hrator, hlambdas, hrand, hlambdas',
        and_self]
  | .cond line c t e, n => by
      rcases Term.named_withNil name c n with ⟨hc, hlambdas⟩
      rcases Term.named_withNil name t (n + c.lambdas) with ⟨ht, hlambdas'⟩
      rcases Term.named_withNil name e (n + c.lambdas + t.lambdas) with ⟨he, hlambdas''⟩
      simp only [Term.withNil, Term.named, Term.lambdas, hc, hlambdas, ht, hlambdas', he,
        hlambdas'', and_self]
  | .tuple line [], n => ⟨rfl, rfl⟩
  | .tuple line (t :: items), n => by
      rcases Term.named_withNil name t n with ⟨ht, hlambdas⟩
      rcases Term.namedAll_withNil name items (n + t.lambdas) with ⟨hitems, hlambdas'⟩
      simp only [Term.withNil, Term.named, Term.namedAll, Term.lambdas, Term.lambdasAll, ht,
        hlambdas, hitems, hlambdas', and_self]
  | .binary line op left right, n => by
      rcases Term.named_withNil name left n with ⟨hleft, hlambdas⟩
      rcases Term.named_withNil name right (n + left.lambdas) with ⟨hright, hlambdas'⟩
      simp only [Term.withNil, Term.named, Term.lambdas, hleft, hlambdas, hright, hlambdas',
        and_self]
  | .unary line op operand, n => by
      rcases Term.named_withNil name operand n with ⟨hoperand, hlambdas⟩
      simp only [Term.withNil, Term.named, Term.lambdas, hoperand, hlambdas, and_self]

theorem Term.namedAll_withNil (name : String → Name) : ∀ (items : List Term) (n : Nat),
    Term.namedAll name n (Term.allWithNil items) = Term.namedAll name n items ∧
      Term.lambdasAll (Term.allWithNil items) = Term.lambdasAll items
  | [], _ => ⟨rfl, rfl⟩
  | t :: items, n => by
      rcases Term.named_withNil name t n with ⟨ht, hlambdas⟩
      rcases Term.namedAll_withNil name items (n + t.lambdas) with ⟨hitems, hlambdas'⟩
      simp only [Term.allWithNil, Term.namedAll, Term.lambdasAll, ht, hlambdas, hitems,
        hlambdas', and_self]

end

/-! ## Programs -/

namespace Program

/-- The root of a program reads as its tree, by the names in any later table. -/
theorem read_root {t : Term} {standardized : Bool} {table table' later : NameTable}
    {p : Program} (h : Program.ofTerm t standardized table = (.ok p, table'))
    (hlater : table'.Grows later) : p.root.read later = some t.withNil := by
  rcases Program.of_ofTerm h hlater with ⟨_, rfl, hlisted⟩
  have hread := t.readAll_flatten 1 [] [] hlisted
  simp only [Term.program, Expr.toBlock, Block.read, hread, Instr.readAll]

/-- The root of a program, whatever table later than that of its tree is taken, reads as the
tree that it was made from, with `nil` for the tuples of no items.  So of two trees that
were made into programs by one table, as it grew, the programs have the same root, and with
it the same blocks, exactly when the trees differ in the spelling of `nil` alone. -/
theorem decode_ofTerm :
    (∀ (t : Term) (standardized : Bool) (table table' later : NameTable) (p : Program),
      Program.ofTerm t standardized table = (.ok p, table') → table'.Grows later →
        p.root.read later = some t.withNil) ∧
    ∀ (t₁ t₂ : Term) (standardized₁ standardized₂ : Bool)
      (table₁ table₁' table₂ table₂' later : NameTable) (p₁ p₂ : Program),
      Program.ofTerm t₁ standardized₁ table₁ = (.ok p₁, table₁') → table₁'.Grows later →
      Program.ofTerm t₂ standardized₂ table₂ = (.ok p₂, table₂') → table₂'.Grows later →
        (p₁.root = p₂.root ↔ t₁.withNil = t₂.withNil) := by
  refine ⟨?_, ?_⟩
  · intro t standardized table table' later p h hlater
    exact read_root h hlater
  · intro t₁ t₂ standardized₁ standardized₂ table₁ table₁' table₂ table₂' later p₁ p₂ h₁ hlater₁
      h₂ hlater₂
    constructor
    · intro hroot
      have hread := read_root h₁ hlater₁
      rw [hroot, read_root h₂ hlater₂] at hread
      exact (Option.some.inj hread).symm
    · intro hnil
      have hnamed := (t₁.named_withNil later.nameOf 1).1
      rw [hnil, (t₂.named_withNil later.nameOf 1).1] at hnamed
      rw [(Program.of_ofTerm h₁ hlater₁).2.1, (Program.of_ofTerm h₂ hlater₂).2.1]
      simp only [Term.program, hnamed]

/-- The trees `(fn x. x) nil` and `(fn x. x) ()` have the same program, which reads as the
first one. -/
theorem decode_ofTerm_nil :
    let applied (operand : Term) : Term := .app 1 (.lambda 2 ["x"] (.ident 3 "x")) operand
    let t₁ := applied (.nil 4)
    let t₂ := applied (.tuple 4 [])
    let table : NameTable := ⟨0, ["x"]⟩
    ∃ p₁ p₂, Program.ofTerm t₁ true ⟨0, []⟩ = (.ok p₁, table) ∧
      Program.ofTerm t₂ false table = (.ok p₂, table) ∧ p₁.root = p₂.root ∧
      p₁.root.read table = some t₁ ∧ p₂.root.read table = some t₁ := by
  intro applied t₁ t₂ table
  have h₁ : Program.ofTerm t₁ true ⟨0, []⟩ = (.ok (t₁.program true table), table) := rfl
  have h₂ : Program.ofTerm t₂ false table = (.ok (t₂.program false table), table) := rfl
  have hroot : (t₁.program true table).root = (t₂.program false table).root :=
    (decode_ofTerm.2 t₁ t₂ true false _ _ _ _ table _ _ h₁ (.refl _) h₂ (.refl _)).mpr rfl
  exact ⟨_, _, h₁, h₂, hroot, decode_ofTerm.1 t₁ true _ _ table _ h₁ (.refl _),
    decode_ofTerm.1 t₂ false _ _ table _ h₂ (.refl _)⟩

end Program

end CSEMachine
