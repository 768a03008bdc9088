import CSEMachine.Proofs.Balance.Code
import CSEMachine.Proofs.Correspondence.Code
import CSEMachine.Proofs.Naming

/-!
# Positions in a tree

A node of a tree stands in tail position when it is the whole tree, the body of a lambda,
or an arm of a conditional that stands in tail position.  Every instruction of the code of
a tree is the own instruction of one of its nodes, and it is the last one of its code
exactly when that node stands in tail position.  In the arms of branches and in the blocks
of lambdas this is so as well, hence it is in all that a run performs.

Main results:

- Theorem `Term.positionsIn_subset`: the nodes below a node of a tree are nodes of the tree.
- Theorem `Term.eq_of_line_eq`: where no two nodes share a line, a line tells a node.
- Theorem `Term.flatten_placed`: which node every instruction of the code of a tree comes
  from.
- Theorem `Machine.Reachable.stems`: which nodes the instructions that a run performs come
  from.
-/

namespace CSEMachine

/-! ## Nodes -/

/-- A node of a tree: the tree that begins there, and whether it stands in tail position. -/
structure Position where
  tail : Bool
  node : Term

mutual

/-- The nodes of a tree that stands in tail position itself, or does not, each before those
below it. -/
def Term.positionsIn : Bool → Term → List Position
  | tail, .ident line x => [⟨tail, .ident line x⟩]
  | tail, .literal line v => [⟨tail, .literal line v⟩]
  | tail, .nil line => [⟨tail, .nil line⟩]
  | tail, .fixpoint line => [⟨tail, .fixpoint line⟩]
  | tail, .lambda line xs body => ⟨tail, .lambda line xs body⟩ :: body.positionsIn true
  | tail, .app line rator rand =>
    ⟨tail, .app line rator rand⟩ :: (rator.positionsIn false ++ rand.positionsIn false)
  | tail, .cond line c t e =>
    ⟨tail, .cond line c t e⟩ ::
      (c.positionsIn false ++ (t.positionsIn tail ++ e.positionsIn tail))
  | tail, .tuple line items => ⟨tail, .tuple line items⟩ :: Term.positionsAll items
  | tail, .binary line op left right =>
    ⟨tail, .binary line op left right⟩ :: (left.positionsIn false ++ right.positionsIn false)
  | tail, .unary line op operand =>
    ⟨tail, .unary line op operand⟩ :: operand.positionsIn false

/-- The nodes of the items of a tuple, none of which stands in tail position. -/
def Term.positionsAll : List Term → List Position
  | [] => []
  | t :: ts => t.positionsIn false ++ Term.positionsAll ts

end

namespace Term

/-- The nodes of a whole tree. -/
def positions (t : Term) : List Position :=
  t.positionsIn true

/-- The lines of all nodes of a tree. -/
def lines (t : Term) : List Nat :=
  t.positions.map fun p => p.node.line

/-- Whether a node on a line stands in tail position. -/
def tailAt (t : Term) (line : Nat) : Bool :=
  t.positions.any fun p => p.tail && p.node.line == line

theorem self_mem_positionsIn (tail : Bool) (t : Term) : ⟨tail, t⟩ ∈ t.positionsIn tail := by
  cases t <;> simp [positionsIn]

/-- Where no two nodes share a line, a line tells a node. -/
theorem eq_of_line_eq {t : Term} (h : t.lines.Nodup) {p q : Position} (hp : p ∈ t.positions)
    (hq : q ∈ t.positions) (hline : p.node.line = q.node.line) : p = q :=
  List.inj_on_of_nodup_map h hp hq hline

/-- The node on a line stands in tail position if some node on that line does. -/
theorem tailAt_line {t : Term} (h : t.lines.Nodup) {p : Position} (hp : p ∈ t.positions) :
    t.tailAt p.node.line = p.tail := by
  rw [Bool.eq_iff_iff, tailAt, List.any_eq_true]
  constructor
  · rintro ⟨q, hq, hmatch⟩
    simp only [Bool.and_eq_true, beq_iff_eq] at hmatch
    rw [← eq_of_line_eq h hq hp hmatch.2]
    exact hmatch.1
  · intro htail
    exact ⟨p, hp, by simp [htail]⟩

end Term

mutual

/-- The nodes below a node of a tree are nodes of the tree. -/
theorem Term.positionsIn_subset : ∀ (t : Term) {tail : Bool} {p : Position},
    p ∈ t.positionsIn tail → p.node.positionsIn p.tail ⊆ t.positionsIn tail
  | .ident line x, _, _, hp | .literal line v, _, _, hp | .nil line, _, _, hp
  | .fixpoint line, _, _, hp => by
      rcases List.mem_singleton.mp hp with rfl
      exact List.Subset.refl _
  | .lambda line xs body, _, _, hp => by
      rcases List.mem_cons.mp hp with rfl | hp
      · exact List.Subset.refl _
      · exact List.subset_cons_of_subset _ (Term.positionsIn_subset body hp)
  | .app line rator rand, _, _, hp => by
      rcases List.mem_cons.mp hp with rfl | hp
      · exact List.Subset.refl _
      refine List.subset_cons_of_subset _ ?_
      rcases List.mem_append.mp hp with hp | hp
      · exact List.subset_append_of_subset_left _ (Term.positionsIn_subset rator hp)
      · exact List.subset_append_of_subset_right _ (Term.positionsIn_subset rand hp)
  | .cond line c t e, _, _, hp => by
      rcases List.mem_cons.mp hp with rfl | hp
      · exact List.Subset.refl _
      refine List.subset_cons_of_subset _ ?_
      rcases List.mem_append.mp hp with hp | hp
      · exact List.subset_append_of_subset_left _ (Term.positionsIn_subset c hp)
      refine List.subset_append_of_subset_right _ ?_
      rcases List.mem_append.mp hp with hp | hp
      · exact List.subset_append_of_subset_left _ (Term.positionsIn_subset t hp)
      · exact List.subset_append_of_subset_right _ (Term.positionsIn_subset e hp)
  | .tuple line items, _, _, hp => by
      rcases List.mem_cons.mp hp with rfl | hp
      · exact List.Subset.refl _
      · exact List.subset_cons_of_subset _ (Term.positionsAll_subset items hp)
  | .binary line op left right, _, _, hp => by
      rcases List.mem_cons.mp hp with rfl | hp
      · exact List.Subset.refl _
      refine List.subset_cons_of_subset _ ?_
      rcases List.mem_append.mp hp with hp | hp
      · exact List.subset_append_of_subset_left _ (Term.positionsIn_subset left hp)
      · exact List.subset_append_of_subset_right _ (Term.positionsIn_subset right hp)
  | .unary line op operand, _, _, hp => by
      rcases List.mem_cons.mp hp with rfl | hp
      · exact List.Subset.refl _
      · exact List.subset_cons_of_subset _ (Term.positionsIn_subset operand hp)

theorem Term.positionsAll_subset : ∀ (ts : List Term) {p : Position},
    p ∈ Term.positionsAll ts → p.node.positionsIn p.tail ⊆ Term.positionsAll ts
  | [], _, hp => by cases hp
  | t :: ts, _, hp => by
      rcases List.mem_append.mp hp with hp | hp
      · exact List.subset_append_of_subset_left _ (Term.positionsIn_subset t hp)
      · exact List.subset_append_of_subset_right _ (Term.positionsAll_subset ts hp)

end

/-! ## Own instructions -/

/-- The instruction that stands for the outermost node in the code of an expression. -/
def Expr.instr : Expr → Instr
  | .ident line x => .ident line x
  | .literal line v => .literal line v
  | .fixpoint line => .fixpoint line
  | .lambda line index params body => .lambda line ⟨index, params, body.flatten []⟩
  | .app line _ _ => .apply line
  | .cond line _ t e => .branch line (t.flatten []) (e.flatten [])
  | .tuple line items => .tuple line items.length
  | .binary line op _ _ => .binary line op
  | .unary line op _ => .unary line op

/-- The own instruction of a node is on its line. -/
theorem Term.line_instr_named (t : Term) (name : String → Name) (n : Nat) :
    (t.named name n).instr.line = t.line := by
  cases t <;> rfl

theorem Expr.flatten_ne_nil (e : Expr) (rest : List Instr) : e.flatten rest ≠ [] := by
  intro h
  rw [Expr.flatten_append, List.append_eq_nil_iff] at h
  have hheight := e.balanced_flatten.height_written [] 0
  simp [Instr.written, h.1, Instr.height] at hheight

/-- Code whose instructions come from nodes of a tree.  The node of an instruction stands in
tail position exactly when the instruction is the last one, provided that nothing is left
to do after the code. -/
inductive Instr.Placed (name : String → Name) (root : Term) (final : Bool) : List Instr → Prop
  | nil : Placed name root final []
  | cons {p : Position} {code : List Instr} (n : Nat) (hp : p ∈ root.positions)
      (htail : p.tail = (code.isEmpty && final)) (hcode : Placed name root final code) :
      Placed name root final ((p.node.named name n).instr :: code)

/-- Every instruction of such code comes from a node. -/
theorem Instr.Placed.of_mem {name : String → Name} {root : Term} {final : Bool}
    {code : List Instr} (h : Instr.Placed name root final code) {i : Instr} (hi : i ∈ code) :
    ∃ p ∈ root.positions, ∃ n, i = (p.node.named name n).instr := by
  induction h with
  | nil => cases hi
  | cons n hp _ _ ih =>
      rcases List.mem_cons.mp hi with rfl | hi
      · exact ⟨_, hp, n, rfl⟩
      · exact ih hi

/-- The rest of such code. -/
theorem Instr.Placed.tail {name : String → Name} {root : Term} {final : Bool} {i : Instr}
    {code : List Instr} (h : Instr.Placed name root final (i :: code)) :
    Instr.Placed name root final code := by
  cases h with
  | cons _ _ _ hcode => exact hcode

/-- Code in front of which code is put that is final exactly if nothing follows it. -/
theorem Instr.Placed.append {name : String → Name} {root : Term} {final : Bool}
    {arm code : List Instr} (harm : Instr.Placed name root (code.isEmpty && final) arm)
    (hcode : Instr.Placed name root final code) :
    Instr.Placed name root final (arm ++ code) := by
  induction harm with
  | nil => exact hcode
  | @cons _ arm n hp htail _ ih =>
      refine .cons n hp ?_ ih
      rw [htail]
      cases arm <;> rfl

section Flatten

variable {name : String → Name} {root : Term} {final : Bool}

mutual

/-- Every instruction of the code of a tree is the own instruction of one of its nodes. -/
theorem Term.flatten_placed : ∀ (t : Term) {tail : Bool} (n : Nat) {rest : List Instr},
    t.positionsIn tail ⊆ root.positions → tail = (rest.isEmpty && final) →
    Instr.Placed name root final rest →
      Instr.Placed name root final ((t.named name n).flatten rest)
  | .ident line x, _, n, _, hsub, htail, hrest => by
      simp only [Term.named, Expr.flatten]
      exact .cons n (hsub List.mem_cons_self) htail hrest
  | .literal line v, _, n, _, hsub, htail, hrest => by
      simp only [Term.named, Expr.flatten]
      exact .cons n (hsub List.mem_cons_self) htail hrest
  | .nil line, _, n, _, hsub, htail, hrest => by
      simp only [Term.named, Expr.flatten, Expr.flattenAll]
      exact .cons n (hsub List.mem_cons_self) htail hrest
  | .fixpoint line, _, n, _, hsub, htail, hrest => by
      simp only [Term.named, Expr.flatten]
      exact .cons n (hsub List.mem_cons_self) htail hrest
  | .lambda line xs body, _, n, _, hsub, htail, hrest => by
      simp only [Term.named, Expr.flatten]
      exact .cons n (hsub List.mem_cons_self) htail hrest
  | .app line rator rand, _, n, rest, hsub, htail, hrest => by
      rw [Term.positionsIn, List.cons_subset, List.append_subset] at hsub
      have happly : Instr.Placed name root final (.apply line :: rest) := .cons n hsub.1 htail hrest
      have hrator := Term.flatten_placed rator n hsub.2.1 rfl happly
      simp only [Term.named, Expr.flatten]
      refine Term.flatten_placed rand _ hsub.2.2 ?_ hrator
      simp [Expr.flatten_ne_nil]
  | .cond line c t e, _, n, rest, hsub, htail, hrest => by
      rw [Term.positionsIn, List.cons_subset, List.append_subset] at hsub
      simp only [Term.named, Expr.flatten]
      refine Term.flatten_placed c _ hsub.2.1 rfl ?_
      exact .cons n hsub.1 htail hrest
  | .tuple line items, _, n, rest, hsub, htail, hrest => by
      rw [Term.positionsIn, List.cons_subset] at hsub
      simp only [Term.named, Expr.flatten]
      refine Term.flattenAll_placed items _ hsub.2 (List.cons_ne_nil _ _) ?_
      exact .cons n hsub.1 htail hrest
  | .binary line op left right, _, n, rest, hsub, htail, hrest => by
      rw [Term.positionsIn, List.cons_subset, List.append_subset] at hsub
      have hop : Instr.Placed name root final (.binary line op :: rest) :=
        .cons n hsub.1 htail hrest
      have hleft := Term.flatten_placed left n hsub.2.1 rfl hop
      simp only [Term.named, Expr.flatten]
      refine Term.flatten_placed right _ hsub.2.2 ?_ hleft
      simp [Expr.flatten_ne_nil]
  | .unary line op operand, _, n, rest, hsub, htail, hrest => by
      rw [Term.positionsIn, List.cons_subset] at hsub
      simp only [Term.named, Expr.flatten]
      refine Term.flatten_placed operand _ hsub.2 rfl ?_
      exact .cons n hsub.1 htail hrest

theorem Term.flattenAll_placed : ∀ (ts : List Term) (n : Nat) {rest : List Instr},
    Term.positionsAll ts ⊆ root.positions → rest ≠ [] → Instr.Placed name root final rest →
      Instr.Placed name root final (Expr.flattenAll (Term.namedAll name n ts) rest)
  | [], _, _, _, _, hrest => hrest
  | t :: ts, n, rest, hsub, hne, hrest => by
      rw [Term.positionsAll, List.append_subset] at hsub
      simp only [Term.namedAll, Expr.flattenAll]
      refine Term.flattenAll_placed ts _ hsub.2 (Expr.flatten_ne_nil _ _) ?_
      refine Term.flatten_placed t n hsub.1 ?_ hrest
      simp [hne]

end

end Flatten

/-! ## Code inside instructions -/

namespace Instr.Placed

variable {name : String → Name} {root : Term} {p : Position} {n : Nat}

/-- The arms of a branch stand in tail position if the conditional does. -/
theorem of_branch (hp : p ∈ root.positions) {line : Nat} {thenArm elseArm : List Instr}
    (h : (p.node.named name n).instr = .branch line thenArm elseArm) :
    Instr.Placed name root p.tail thenArm ∧ Instr.Placed name root p.tail elseArm := by
  have hsub := root.positionsIn_subset hp
  rcases p with ⟨tail, node⟩
  cases node with
  | cond line c t e =>
      cases h
      rw [Term.positionsIn, List.cons_subset, List.append_subset, List.append_subset] at hsub
      exact ⟨Term.flatten_placed t _ hsub.2.2.1 rfl .nil,
        Term.flatten_placed e _ hsub.2.2.2 rfl .nil⟩
  | _ => cases h

/-- The body of a lambda stands in tail position. -/
theorem of_lambda (hp : p ∈ root.positions) {line : Nat} {b : Block}
    (h : (p.node.named name n).instr = .lambda line b) : Instr.Placed name root true b.code := by
  have hsub := root.positionsIn_subset hp
  rcases p with ⟨tail, node⟩
  cases node with
  | lambda line xs body =>
      cases h
      rw [Term.positionsIn, List.cons_subset] at hsub
      exact Term.flatten_placed body _ hsub.2 rfl .nil
  | _ => cases h

/-- The code of a whole tree. -/
theorem of_root (name : String → Name) (root : Term) (n : Nat) :
    Instr.Placed name root true ((root.named name n).flatten []) :=
  Term.flatten_placed root n (List.Subset.refl _) rfl .nil

end Instr.Placed

/-! ## Runs -/

/-- An instruction that is the own instruction of a node of a tree. -/
def Instr.StemsFrom (t : Term) (name : String → Name) (i : Instr) : Prop :=
  ∃ p ∈ t.positions, ∃ n, i = (p.node.named name n).instr

/-- Code comes from nodes wherever it stands. -/
theorem Term.stems_inherited (t : Term) (name : String → Name) :
    Instr.Inherited (Instr.StemsFrom t name) fun b => Instr.Placed name t true b.code where
  lambda := by
    rintro line b ⟨p, hp, n, hi⟩
    exact Instr.Placed.of_lambda hp hi.symm
  branch := by
    rintro line thenArm elseArm ⟨p, hp, n, hi⟩
    rcases Instr.Placed.of_branch hp hi.symm with ⟨hthen, helse⟩
    exact ⟨fun i hi => hthen.of_mem hi, fun i hi => helse.of_mem hi⟩
  code h _ hi := h.of_mem hi

/-- The instructions that a run performs come from nodes of its tree, and the code of the
closures that it holds is that of bodies of lambdas. -/
theorem Machine.Reachable.stems {m : Machine} {t : Term} {name : String → Name} {n : Nat}
    {store : Store} {s : State} (hs : m.Reachable (t.named name n).toBlock store s) :
    (∀ frame ∈ s.frames, ∀ i ∈ frame.code, Instr.StemsFrom t name i) ∧
      ∀ c, s.Holds (.closure c) ∨ s.Holds (.eta c) → Instr.Placed name t true c.block.code :=
  hs.holding (t.stems_inherited name) fun _ hi => (Instr.Placed.of_root name t n).of_mem hi

end CSEMachine
