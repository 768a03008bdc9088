import CSEMachine.Proofs.Positions
import CSEMachine.Proofs.Scoping.Places

/-!
# Trees in pre-order

In pre-order a node comes before those below it, and what is below one of its subtrees before
what is below the next one.  A statement about all trees follows from what it says of the
subtrees of a tree, whatever kind of node the tree begins with.

Main results:

- Theorem `Term.induction_subtrees`: induction from the subtrees to the tree.
- Theorem `Term.induction_forest`: the same through the list of the subtrees.
- Theorem `Term.nodes_eq`: the nodes of a tree in pre-order, by those of its subtrees.
-/

namespace CSEMachine

mutual

/-- What holds of a tree if it holds of its subtrees holds of all trees. -/
theorem Term.induction_subtrees {P : Term → Prop}
    (node : ∀ t : Term, (∀ u ∈ t.subtrees, P u) → P t) : ∀ t : Term, P t
  | .ident _ _ | .literal _ _ | .nil _ | .fixpoint _ => node _ nofun
  | .lambda _ _ body => node _ (List.forall_mem_singleton.mpr (body.induction_subtrees node))
  | .app _ rator rand => by
      refine node _ (List.forall_mem_cons.mpr ⟨rator.induction_subtrees node, ?_⟩)
      exact List.forall_mem_singleton.mpr (rand.induction_subtrees node)
  | .cond _ c t e => by
      refine node _ (List.forall_mem_cons.mpr ⟨c.induction_subtrees node, ?_⟩)
      refine List.forall_mem_cons.mpr ⟨t.induction_subtrees node, ?_⟩
      exact List.forall_mem_singleton.mpr (e.induction_subtrees node)
  | .tuple _ items => node _ (Term.forall_of_subtrees node items)
  | .binary _ _ left right => by
      refine node _ (List.forall_mem_cons.mpr ⟨left.induction_subtrees node, ?_⟩)
      exact List.forall_mem_singleton.mpr (right.induction_subtrees node)
  | .unary _ _ operand =>
      node _ (List.forall_mem_singleton.mpr (operand.induction_subtrees node))

theorem Term.forall_of_subtrees {P : Term → Prop}
    (node : ∀ t : Term, (∀ u ∈ t.subtrees, P u) → P t) : ∀ ts : List Term, ∀ t ∈ ts, P t
  | [] => nofun
  | t :: ts =>
      List.forall_mem_cons.mpr ⟨t.induction_subtrees node, Term.forall_of_subtrees node ts⟩

end

/-- A property of trees holds of every tree if it follows from a property of lists of trees that
holds of the subtrees, one tree after the other. -/
theorem Term.induction_forest {P : Term → Prop} {Q : List Term → Prop} (nil : Q [])
    (cons : ∀ t ts, P t → Q ts → Q (t :: ts)) (node : ∀ t : Term, Q t.subtrees → P t) (t : Term) :
    P t := by
  induction t using Term.induction_subtrees with
  | node t ih =>
      have hforest : ∀ ts : List Term, (∀ u ∈ ts, P u) → Q ts := by
        intro ts hts
        induction ts with
        | nil => exact nil
        | cons u us ihus =>
            rcases List.forall_mem_cons.mp hts with ⟨hu, hus⟩
            exact cons u us hu (ihus hus)
      exact node t (hforest _ ih)

namespace Term

/-- The nodes of a tree in pre-order, each as the tree that begins there. -/
def nodes (t : Term) : List Term :=
  t.positions.map Position.node

/-- The nodes of several trees stand one after the other. -/
theorem positionsAll_eq_flatMap (ts : List Term) :
    positionsAll ts = ts.flatMap (positionsIn false) := by
  induction ts with
  | nil => rfl
  | cons t ts ih => rw [positionsAll, ih, List.flatMap_cons]

/-- Which nodes a tree has does not depend on where it stands itself. -/
theorem map_node_positionsIn (t : Term) (tail : Bool) :
    (t.positionsIn tail).map Position.node = t.nodes := by
  induction t using Term.induction_subtrees generalizing tail with
  | node t ih =>
      cases t with
      | ident line x | literal line v | nil line | fixpoint line | lambda line xs body
      | app line rator rand | tuple line items | binary line op left right
      | unary line op operand => rfl
      | cond line c t e =>
          simp only [subtrees, List.forall_mem_cons] at ih
          change _ = (positionsIn true _).map Position.node
          simp only [positionsIn, List.map_cons, List.map_append, ih.2.1, ih.2.2.1]

/-- The nodes of a tree are the tree itself and then those of its subtrees. -/
theorem nodes_eq (t : Term) : t.nodes = t :: t.subtrees.flatMap nodes := by
  rw [← map_node_positionsIn t true]
  cases t <;>
    simp [positionsIn, positionsAll_eq_flatMap, map_node_positionsIn, subtrees,
      List.map_flatMap]

end Term

end CSEMachine
