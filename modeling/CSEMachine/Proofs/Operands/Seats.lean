import CSEMachine.Proofs.Preorder

/-!
# Operands and operator positions

The code of a node is that of its operands, the last one first, and then its own
instruction.  What a node gives goes to the node above it as an operand, unless the node is
an arm of a conditional, which stands for the conditional, or the body of a lambda, which
stands for an application of the closure.  So a node is in operator position of an
application when it is its operator, or an arm of a conditional that is.

Main results:

- Theorem `Term.mem_seats_iff_operatorOf`: the list of seats says what stands in operator
  position of what.
- Theorem `Term.eq_of_seat_line_eq`: where no two nodes share a line, every node has one
  seat.
- Theorem `Term.flatten_named`: the code of a node is that of its operands and its own
  instruction.
-/

namespace CSEMachine

/-- A node stands in operator position of an application when it is its operator, or an arm
of a conditional that stands there itself. -/
inductive Term.OperatorOf (g : Term) : Term → Prop
  | rator {line : Nat} {rator rand : Term} (h : g = .app line rator rand) : OperatorOf g rator
  | thenArm {line : Nat} {c t e : Term} (h : OperatorOf g (.cond line c t e)) : OperatorOf g t
  | elseArm {line : Nat} {c t e : Term} (h : OperatorOf g (.cond line c t e)) : OperatorOf g e

/-- A node with the application in whose operator position it stands, if there is one. -/
structure Seat where
  app? : Option Term
  node : Term

/-! ## The seats of a tree -/

/-- The operands of a node, whose values its own instruction takes. -/
def Term.operands : Term → List Seat
  | .app line rator rand => [⟨some (.app line rator rand), rator⟩, ⟨none, rand⟩]
  | .cond _ c _ _ => [⟨none, c⟩]
  | .tuple _ items => items.map (Seat.mk none)
  | .binary _ _ left right => [⟨none, left⟩, ⟨none, right⟩]
  | .unary _ _ operand => [⟨none, operand⟩]
  | .ident _ _ | .literal _ _ | .nil _ | .fixpoint _ | .lambda _ _ _ => []

namespace Seat

/-- The other nodes right below a node.  An arm of a conditional stands where the conditional
stands, the body of a lambda in operator position of nothing. -/
def held (s : Seat) : List Seat :=
  match s.node with
  | .cond _ _ t e => [⟨s.app?, t⟩, ⟨s.app?, e⟩]
  | .lambda _ _ body => [⟨none, body⟩]
  | _ => []

/-- All nodes right below a node. -/
def inner (s : Seat) : List Seat :=
  s.node.operands ++ s.held

/-- They are the subtrees, in order. -/
theorem map_node_inner (s : Seat) : s.inner.map node = s.node.subtrees := by
  rcases s with ⟨g, t⟩
  cases t <;> simp [inner, Term.operands, held, Term.subtrees, Function.comp_def]

theorem mem_subtrees_of_mem_inner {s u : Seat} (h : u ∈ s.inner) :
    u.node ∈ s.node.subtrees := by
  rw [← map_node_inner]
  exact List.mem_map_of_mem h

end Seat

mutual

/-- The seats of a tree that stands in operator position of a given application, or of none,
each before those below it. -/
def Term.seatsIn : Option Term → Term → List Seat
  | g, .ident line x => [⟨g, .ident line x⟩]
  | g, .literal line v => [⟨g, .literal line v⟩]
  | g, .nil line => [⟨g, .nil line⟩]
  | g, .fixpoint line => [⟨g, .fixpoint line⟩]
  | g, .lambda line xs body => ⟨g, .lambda line xs body⟩ :: body.seatsIn none
  | g, .app line rator rand =>
    ⟨g, .app line rator rand⟩ ::
      (rator.seatsIn (some (.app line rator rand)) ++ rand.seatsIn none)
  | g, .cond line c t e =>
    ⟨g, .cond line c t e⟩ :: (c.seatsIn none ++ (t.seatsIn g ++ e.seatsIn g))
  | g, .tuple line items => ⟨g, .tuple line items⟩ :: Term.seatsAll items
  | g, .binary line op left right =>
    ⟨g, .binary line op left right⟩ :: (left.seatsIn none ++ right.seatsIn none)
  | g, .unary line op operand => ⟨g, .unary line op operand⟩ :: operand.seatsIn none

/-- The seats of the items of a tuple. -/
def Term.seatsAll : List Term → List Seat
  | [] => []
  | t :: ts => t.seatsIn none ++ Term.seatsAll ts

end

namespace Term

/-- The seats of a whole tree. -/
def seats (t : Term) : List Seat :=
  t.seatsIn none

theorem seatsAll_eq_flatMap (ts : List Term) : seatsAll ts = ts.flatMap (seatsIn none) := by
  induction ts with
  | nil => rfl
  | cons t ts ih => rw [seatsAll, ih, List.flatMap_cons]

/-- The seats of a tree are its own and then those of the nodes right below. -/
theorem seatsIn_eq (g : Option Term) (t : Term) :
    t.seatsIn g = ⟨g, t⟩ :: (Seat.inner ⟨g, t⟩).flatMap fun s => s.node.seatsIn s.app? := by
  cases t <;>
    simp [seatsIn, seatsAll_eq_flatMap, Seat.inner, operands, Seat.held, List.flatMap_map]

/-- What stands on the seats are the nodes. -/
theorem map_node_seatsIn (g : Option Term) (t : Term) :
    (t.seatsIn g).map Seat.node = t.nodes := by
  induction t using Term.induction_subtrees generalizing g with
  | node t ih =>
      have hinner : ∀ s ∈ (Seat.inner ⟨g, t⟩),
          (s.node.seatsIn s.app?).map Seat.node = s.node.nodes := fun s hs =>
        ih s.node (Seat.mem_subtrees_of_mem_inner hs) s.app?
      rw [seatsIn_eq, nodes_eq, List.map_cons, List.map_flatMap, List.flatMap_congr hinner,
        ← Seat.map_node_inner ⟨g, t⟩, List.flatMap_map]

theorem map_node_seats (t : Term) : t.seats.map Seat.node = t.nodes :=
  t.map_node_seatsIn none

theorem self_mem_seats (t : Term) : ⟨none, t⟩ ∈ t.seats := by
  rw [seats, seatsIn_eq]
  exact List.mem_cons_self

theorem node_mem_nodes {t : Term} {s : Seat} (h : s ∈ t.seats) : s.node ∈ t.nodes := by
  rw [← map_node_seats]
  exact List.mem_map_of_mem h

theorem exists_seat {t u : Term} (h : u ∈ t.nodes) : ∃ g, ⟨g, u⟩ ∈ t.seats := by
  rw [← map_node_seats] at h
  rcases List.mem_map.mp h with ⟨s, hs, rfl⟩
  exact ⟨s.app?, hs⟩

/-- Where no two nodes share a line, every node has one seat. -/
theorem eq_of_seat_line_eq {t : Term} (h : t.lines.Nodup) {s u : Seat} (hs : s ∈ t.seats)
    (hu : u ∈ t.seats) (hline : s.node.line = u.node.line) : s = u := by
  have hlines : t.lines = t.seats.map fun s => s.node.line := by
    rw [lines, ← Function.comp_def, ← List.map_map, ← nodes, ← map_node_seats, List.map_map]
    rfl
  rw [hlines] at h
  exact List.inj_on_of_nodup_map h hs hu hline

/-- Where no two nodes share a line, a line tells a node. -/
theorem eq_of_mem_nodes {t u v : Term} (h : t.lines.Nodup) (hu : u ∈ t.nodes) (hv : v ∈ t.nodes)
    (hline : u.line = v.line) : u = v := by
  rcases List.mem_map.mp hu with ⟨p, hp, rfl⟩
  rcases List.mem_map.mp hv with ⟨q, hq, rfl⟩
  rw [eq_of_line_eq h hp hq hline]

/-- The seats below a seat of a tree are seats of the tree. -/
theorem seatsIn_subset {t : Term} {g : Option Term} {s : Seat} (h : s ∈ t.seatsIn g) :
    s.node.seatsIn s.app? ⊆ t.seatsIn g := by
  induction t using Term.induction_subtrees generalizing g with
  | node t ih =>
      rw [seatsIn_eq] at h
      rcases List.mem_cons.mp h with rfl | h
      · exact List.Subset.refl _
      · rw [seatsIn_eq g t]
        rcases List.mem_flatMap.mp h with ⟨u, hu, h⟩
        refine List.subset_cons_of_subset _ fun v hv => ?_
        exact List.mem_flatMap.mpr ⟨u, hu, ih _ (Seat.mem_subtrees_of_mem_inner hu) h hv⟩

theorem mem_seats_of_mem_inner {t : Term} {s u : Seat} (hs : s ∈ t.seats) (hu : u ∈ s.inner) :
    u ∈ t.seats := by
  refine seatsIn_subset hs ?_
  rw [seatsIn_eq]
  refine List.mem_cons_of_mem _ (List.mem_flatMap.mpr ⟨u, hu, ?_⟩)
  rw [seatsIn_eq]
  exact List.mem_cons_self

theorem mem_seats_of_mem_operands {t : Term} {s u : Seat} (hs : s ∈ t.seats)
    (hu : u ∈ s.node.operands) : u ∈ t.seats :=
  mem_seats_of_mem_inner hs (List.mem_append_left _ hu)

theorem mem_seats_of_mem_held {t : Term} {s u : Seat} (hs : s ∈ t.seats) (hu : u ∈ s.held) :
    u ∈ t.seats :=
  mem_seats_of_mem_inner hs (List.mem_append_right _ hu)

/-- What holds of the topmost seat and is passed down holds of every seat. -/
theorem forall_mem_seatsIn {P : Seat → Prop} (hinner : ∀ s u, P s → u ∈ s.inner → P u)
    {t : Term} {g : Option Term} (h : P ⟨g, t⟩) : ∀ s ∈ t.seatsIn g, P s := by
  induction t using Term.induction_subtrees generalizing g with
  | node t ih =>
      intro s hs
      rw [seatsIn_eq] at hs
      rcases List.mem_cons.mp hs with rfl | hs
      · exact h
      · rcases List.mem_flatMap.mp hs with ⟨u, hu, hs⟩
        exact ih _ (Seat.mem_subtrees_of_mem_inner hu) (hinner _ u h hu) s hs

/-! ## Operator positions -/

/-- The operand of a node that is in operator position is the operator of an application. -/
theorem of_mem_operands {t g : Term} {s : Seat} (hs : s ∈ t.operands) (hg : s.app? = some g) :
    g = t ∧ ∃ line rand, t = .app line s.node rand := by
  cases t with
  | app line rator rand =>
      rcases List.mem_cons.mp hs with rfl | hs
      · cases hg
        exact ⟨rfl, line, rand, rfl⟩
      · rcases List.mem_singleton.mp hs with rfl
        cases hg
  | tuple line items =>
      rcases List.mem_map.mp hs with ⟨item, _, rfl⟩
      cases hg
  | binary line op left right =>
      rcases List.mem_cons.mp hs with rfl | hs
      · cases hg
      · rcases List.mem_singleton.mp hs with rfl
        cases hg
  | cond line c t e | unary line op operand =>
      rcases List.mem_singleton.mp hs with rfl
      cases hg
  | ident line x | literal line v | nil line | fixpoint line | lambda line xs body => cases hs

/-- Any other node below that is in operator position is an arm of a conditional. -/
theorem of_mem_held {s u : Seat} {g : Term} (hu : u ∈ s.held) (hg : u.app? = some g) :
    s.app? = some g ∧ (g.OperatorOf s.node → g.OperatorOf u.node) := by
  rcases s with ⟨g', x⟩
  cases x with
  | lambda line xs body =>
      rcases List.mem_singleton.mp hu with rfl
      cases hg
  | cond line c t e =>
      rcases List.mem_cons.mp hu with rfl | hu
      · exact ⟨hg, .thenArm⟩
      · rcases List.mem_singleton.mp hu with rfl
        exact ⟨hg, .elseArm⟩
  | ident line x | literal line v | nil line | fixpoint line | app line rator rand
  | tuple line items | binary line op left right | unary line op operand => cases hu

/-- The list of seats says what stands in operator position of what. -/
theorem mem_seats_iff_operatorOf {t g x : Term} :
    ⟨some g, x⟩ ∈ t.seats ↔ g ∈ t.nodes ∧ g.OperatorOf x := by
  constructor
  · intro h
    have hall : ∀ s ∈ t.seatsIn none,
        s ∈ t.seats ∧ ∀ g, s.app? = some g → g ∈ t.nodes ∧ g.OperatorOf s.node := by
      refine forall_mem_seatsIn ?_ ⟨self_mem_seats t, nofun⟩
      · rintro s u ⟨hs, hoperator⟩ hu
        refine ⟨mem_seats_of_mem_inner hs hu, fun g hg => ?_⟩
        rcases List.mem_append.mp hu with hu | hu
        · rcases of_mem_operands hu hg with ⟨rfl, line, rand, happ⟩
          exact ⟨node_mem_nodes hs, .rator happ⟩
        · rcases of_mem_held hu hg with ⟨hg, h⟩
          exact ⟨(hoperator g hg).1, h (hoperator g hg).2⟩
    exact (hall _ h).2 g rfl
  · rintro ⟨hg, h⟩
    induction h with
    | @rator line rator rand happ =>
        subst happ
        rcases exists_seat hg with ⟨g', hseat⟩
        exact mem_seats_of_mem_operands hseat List.mem_cons_self
    | thenArm _ ih => exact mem_seats_of_mem_held ih List.mem_cons_self
    | elseArm _ ih => exact mem_seats_of_mem_held ih (List.mem_cons_of_mem _ List.mem_cons_self)

/-- Where no two nodes share a line, a node that is in operator position has the seat of that
position and no other. -/
theorem app?_eq_some_iff {t g : Term} {s : Seat} (h : t.lines.Nodup) (hs : s ∈ t.seats) :
    s.app? = some g ↔ g ∈ t.nodes ∧ g.OperatorOf s.node := by
  rw [← mem_seats_iff_operatorOf]
  constructor
  · intro hg
    rwa [← hg]
  · intro hseat
    rw [eq_of_seat_line_eq h hs hseat rfl]

end Term

/-! ## Code -/

namespace Term

variable (name : String → Name)

/-- The code of a node from where some of its operands are left to evaluate, the last one
first. -/
def remaining (t : Term) (n : Nat) (todo : List Seat) (rest : List Instr) : List Instr :=
  Expr.flattenAll (namedAll name n (todo.map Seat.node)) ((t.named name n).instr :: rest)

/-- The code of a node is that of its operands and then its own instruction. -/
theorem flatten_named (t : Term) (n : Nat) (rest : List Instr) :
    (t.named name n).flatten rest = t.remaining name n t.operands rest := by
  cases t <;>
    simp [remaining, operands, named, namedAll, Expr.flatten, Expr.flattenAll, Expr.instr,
      length_namedAll, Function.comp_def]

@[simp]
theorem remaining_nil (t : Term) (n : Nat) (rest : List Instr) :
    t.remaining name n [] rest = (t.named name n).instr :: rest :=
  rfl

/-- The last operand that is left comes first. -/
theorem exists_remaining_concat (t : Term) (n : Nat) (todo : List Seat) (s : Seat)
    (rest : List Instr) :
    ∃ k, t.remaining name n (todo ++ [s]) rest =
      (s.node.named name k).flatten (t.remaining name n todo rest) := by
  have hgeneral : ∀ (ts : List Term) (n : Nat) (rest : List Instr),
      ∃ k, Expr.flattenAll (namedAll name n (ts ++ [s.node])) rest =
        (s.node.named name k).flatten (Expr.flattenAll (namedAll name n ts) rest) := by
    intro ts
    induction ts with
    | nil => exact fun n rest => ⟨n, rfl⟩
    | cons t ts ih => exact fun n rest => ih _ _
  simp only [remaining, List.map_append]
  exact hgeneral _ n _

/-- The own instruction comes last. -/
theorem exists_remaining_eq_append (t : Term) (n : Nat) (todo : List Seat) (rest : List Instr) :
    ∃ front, t.remaining name n todo rest = front ++ (t.named name n).instr :: rest :=
  ⟨_, Expr.flattenAll_append _ _⟩

/-- The own instruction takes one value for every operand. -/
theorem operands_instr_named (t : Term) (n : Nat) :
    (t.named name n).instr.operands = t.operands.length := by
  cases t <;> simp [operands, named, Expr.instr, Instr.operands, length_namedAll]

end Term

/-- The code of an expression does not begin with an application. -/
theorem Expr.flatten_ne_apply (e : Expr) (rest : List Instr) (line : Nat) (code : List Instr) :
    e.flatten rest ≠ .apply line :: code := by
  intro h
  -- on an empty stack the code runs, but an application does not
  have hheight := e.balanced_flatten.height_written [] 0
  rw [Expr.flatten_append] at h
  cases hcode : e.flatten [] with
  | nil => exact e.flatten_ne_nil [] hcode
  | cons i front =>
      rw [hcode] at h
      cases h
      simp [Instr.written, hcode, Instr.height, Instr.operands] at hheight

/-- Nor does the code of a node begin with one, unless it is an application and its operator
is what has been waited for. -/
theorem Term.remaining_ne_apply (name : String → Name) {t : Term} {n : Nat} {todo fin : List Seat}
    {s : Seat} (hsplit : t.operands = todo ++ s :: fin) (hs : s.app? = none)
    (rest : List Instr) (line : Nat) (code : List Instr) :
    t.remaining name n todo rest ≠ .apply line :: code := by
  rcases List.eq_nil_or_concat todo with rfl | ⟨todo, u, rfl⟩
  · cases t with
    | app line' rator rand =>
        cases hsplit
        cases hs
    | ident line x | literal line v | nil line | fixpoint line | lambda line xs body
    | cond line c t e | tuple line items | binary line op left right | unary line op operand =>
        exact nofun
  · rw [List.concat_eq_append]
    rcases t.exists_remaining_concat name n todo u rest with ⟨k, hk⟩
    rw [hk]
    exact Expr.flatten_ne_apply _ _ line code

/-- The operator of an application is evaluated last, after the operand. -/
theorem Term.of_operands_eq_append {t g : Term} {todo fin : List Seat} {s : Seat}
    (hsplit : t.operands = todo ++ s :: fin) (hs : s.app? = some g) :
    g = t ∧ todo = [] ∧ ∃ line rand, t = .app line s.node rand ∧ fin = [⟨none, rand⟩] := by
  have hmem : s ∈ t.operands := by simp [hsplit]
  rcases of_mem_operands hmem hs with ⟨rfl, line, rand, rfl⟩
  match todo with
  | [] =>
      rcases List.cons.inj hsplit with ⟨_, hfin⟩
      exact ⟨rfl, rfl, line, rand, rfl, hfin.symm⟩
  | [u] =>
      cases hsplit
      cases hs
  | u :: v :: todo => simp [operands] at hsplit

end CSEMachine
