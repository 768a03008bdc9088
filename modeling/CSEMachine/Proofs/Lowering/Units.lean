import CSEMachine.Proofs.Blocks
import CSEMachine.Proofs.Lowering.Notation
import CSEMachine.Proofs.Preorder

/-!
# The units of a program

A program has one block for each lambda of its tree, numbered in pre-order from 1 on, and its
root, which has number 0.  Each block reads as the body of its lambda in prefix notation.  The
lambdas inside that body are the next ones in pre-order, so the numbers that stand for them
there go on from that of the block.

Main results:

- Theorem `Term.listings_eq_mapIdx`: what can be read of the blocks of the lambdas of a tree, by
  their positions in pre-order.
- Theorem `Term.nested_binders`: the lambdas inside a lambda are the next ones in pre-order.
- Theorem `Program.units_ofTerm`: the blocks of a program, and what can be read of them.
-/

namespace CSEMachine

/-! ## Lambdas in pre-order -/

/-- A lambda of a tree: its line, its parameters and its body. -/
structure Binder where
  line : Nat
  params : List String
  body : Term

namespace Term

/-- The lambda that a tree is, if it is one. -/
def binder? : Term → Option Binder
  | .lambda line xs body => some ⟨line, xs, body⟩
  | _ => none

/-- The lambdas of a tree in pre-order. -/
def binders (t : Term) : List Binder :=
  t.nodes.filterMap binder?

theorem binders_eq (t : Term) :
    t.binders = t.binder?.toList ++ t.subtrees.flatMap binders := by
  have hbelow : (t.subtrees.flatMap nodes).filterMap binder? = t.subtrees.flatMap binders := by
    rw [List.filterMap_flatMap]
    rfl
  rw [binders, t.nodes_eq, List.filterMap_cons, hbelow]
  cases t.binder? <;> rfl

/-- The lambdas of a tree are those of its subtrees, and itself if it is one. -/
theorem lambdas_eq (t : Term) :
    t.lambdas = t.binder?.toList.length + lambdasAll t.subtrees := by
  cases t <;> simp [lambdas, lambdasAll, binder?, subtrees, Nat.add_assoc, Nat.add_comm]

theorem length_binders (t : Term) : t.binders.length = t.lambdas := by
  refine Term.induction_forest (P := fun t => t.binders.length = t.lambdas)
    (Q := fun us => (us.flatMap binders).length = lambdasAll us) ?_ ?_ ?_ t
  · rfl
  · intro u us hu hus
    rw [List.flatMap_cons, List.length_append, hu, hus, lambdasAll]
  · intro t hbelow
    rw [binders_eq, List.length_append, hbelow, lambdas_eq]

/-- The lambdas of a tree are listed from its own one on. -/
theorem listings_eq (t : Term) (n : Nat) :
    t.listings n =
      t.binder?.toList.map (fun b => b.body.listing n b.params (n + 1)) ++
        listingsAll (n + t.binder?.toList.length) t.subtrees := by
  cases t <;> simp [listings, listingsAll, binder?, subtrees, Nat.add_assoc]

/-- What can be read of the block of a lambda, by its position in pre-order. -/
theorem listings_eq_mapIdx (t : Term) (n : Nat) :
    t.listings n =
      t.binders.mapIdx fun k b => b.body.listing (n + k) b.params (n + k + 1) := by
  refine Term.induction_forest
    (P := fun t => ∀ n, t.listings n =
      t.binders.mapIdx fun k b => b.body.listing (n + k) b.params (n + k + 1))
    (Q := fun us => ∀ n, listingsAll n us =
      (us.flatMap binders).mapIdx fun k b => b.body.listing (n + k) b.params (n + k + 1))
    ?_ ?_ ?_ t n
  · exact fun n => rfl
  · intro u us hu hus n
    rw [listingsAll, hu, hus, List.flatMap_cons, List.mapIdx_append, length_binders]
    simp only [Nat.add_assoc, Nat.add_comm, Nat.add_left_comm]
  · intro t hbelow n
    rw [listings_eq, binders_eq, hbelow, List.mapIdx_append]
    cases t.binder? with
    | none => simp
    | some b => simp [Nat.add_assoc, Nat.add_comm, Nat.add_left_comm]

/-! ## Nesting -/

/-- Lambdas in an order in which those inside a lambda come right behind it. -/
def Nested (binders : List Binder) : Prop :=
  ∀ k b, binders[k]? = some b → b.body.binders <+: binders.drop (k + 1)

theorem Nested.append {bs cs : List Binder} (hbs : Nested bs) (hcs : Nested cs) :
    Nested (bs ++ cs) := by
  intro k b hb
  by_cases hk : k < bs.length
  · rw [List.getElem?_append_left hk] at hb
    rw [List.drop_append_of_le_length hk]
    exact (hbs k b hb).trans (List.prefix_append _ _)
  · rw [List.getElem?_append_right (Nat.le_of_not_lt hk)] at hb
    have hdrop : (bs ++ cs).drop (k + 1) = cs.drop (k - bs.length + 1) := by
      rw [List.drop_append, List.drop_eq_nil_of_le (by omega), List.nil_append,
        Nat.sub_add_comm (Nat.le_of_not_lt hk)]
    rw [hdrop]
    exact hcs _ b hb

/-- The lambdas inside a lambda are the next ones in pre-order. -/
theorem nested_binders (t : Term) : Nested t.binders := by
  refine Term.induction_forest (P := fun t => Nested t.binders)
    (Q := fun us => Nested (us.flatMap binders)) ?_ ?_ ?_ t
  · exact nofun
  · exact fun u us hu hus => hu.append hus
  · intro t hbelow
    rw [binders_eq]
    cases t with
    | lambda line xs body =>
        intro k b hb
        cases k with
        | zero =>
            cases hb
            simp [binder?, subtrees]
        | succ k => exact hbelow k b hb
    | _ => exact hbelow

end Term

/-! ## Blocks of programs -/

namespace Program

variable {t : Term} {names : NameTable}

/-- The blocks of the program of a tree are numbered one after the other, from 0 on. -/
theorem index_blocks (h : names.Lists t.texts) (standardized : Bool) :
    (t.program standardized names).blocks.map Block.index = List.range (t.binders.length + 1) := by
  have hlistings := congrArg (List.map Listing.index) (Program.listings_program h standardized)
  rw [listings, List.map_map, List.map_cons, Term.index_listings] at hlistings
  have hindex : Listing.index ∘ Block.listing names = Block.index := rfl
  rw [hindex] at hlistings
  rw [hlistings, Term.length_binders, List.range_eq_range', List.range'_succ]
  rfl

/-- The block on a position reads as what stands on that position. -/
theorem listing_getElem? (h : names.Lists t.texts) (standardized : Bool) {k : Nat}
    {listing : Listing}
    (hk : (t.listing 0 [] 1 :: t.listings 1)[k]? = some listing) :
    ∃ b, (t.program standardized names).blocks[k]? = some b ∧ b.listing names = listing := by
  rw [← Program.listings_program h standardized, listings, List.getElem?_map,
    Option.map_eq_some_iff] at hk
  exact hk

/-- The first block is the root. -/
theorem head?_blocks (h : names.Lists t.texts) (standardized : Bool) :
    (t.program standardized names).blocks.head? = some (t.program standardized names).root := by
  rcases listing_getElem? h standardized (k := 0) rfl with ⟨b, hb, hlisting⟩
  have hindex : b.index = 0 := congrArg Listing.index hlisting
  have hnodup : ((t.program standardized names).blocks.map Block.index).Nodup := by
    rw [index_blocks h standardized]
    exact List.nodup_range
  have hroot : (t.program standardized names).root ∈ (t.program standardized names).blocks :=
    mem_blocks.mpr (Or.inl rfl)
  rw [List.head?_eq_getElem?, hb]
  exact congrArg some (List.inj_on_of_nodup_map hnodup (List.mem_of_getElem? hb) hroot hindex)

/-- The blocks of the program of a tree are its root, with number 0 and no parameters, and one
block for each lambda of the tree, numbered from 1 on in pre-order.  By the names in any later
table, the root reads as the tree in prefix notation, and the block of a lambda as its body,
with its parameters; an instruction is on the line of its node.  In the notation of the body of
a lambda the lambdas inside it are numbered on from its own number, and these are the next ones
in pre-order. -/
theorem units_ofTerm (t : Term) (standardized : Bool) (table table' later : NameTable)
    (p : Program) (hlowered : Program.ofTerm t standardized table = (.ok p, table'))
    (hlater : table'.Grows later) :
    p.blocks.map Block.index = List.range (t.binders.length + 1) ∧
    (p.blocks.head? = some p.root ∧ p.root.index = 0 ∧ p.root.params = [] ∧
      p.root.render later = " ".intercalate (t.words 1) ∧
      Instr.codeLines p.root.code [] = t.wordLines) ∧
    ∀ k binder, t.binders[k]? = some binder →
      binder.body.binders <+: t.binders.drop (k + 1) ∧
      ∃ b, p.blocks[k + 1]? = some b ∧ b.index = k + 1 ∧
        b.params.map later.text = binder.params ∧
        b.render later = " ".intercalate (binder.body.words (k + 2)) ∧
        Instr.codeLines b.code [] = binder.body.wordLines := by
  rcases Program.of_ofTerm hlowered hlater with ⟨_, rfl, hlisted⟩
  refine ⟨index_blocks hlisted standardized, ?_, ?_⟩
  · have hhead := head?_blocks hlisted standardized
    rcases listing_getElem? hlisted standardized (k := 0) rfl with ⟨b, hb, hlisting⟩
    rw [List.head?_eq_getElem?, hb] at hhead
    cases hhead
    have htext := congrArg Listing.text hlisting
    have hlines := congrArg Listing.lines hlisting
    exact ⟨List.head?_eq_getElem?.trans hb, rfl, rfl, htext, hlines⟩
  · intro k binder hbinder
    have hk : (t.listing 0 [] 1 :: t.listings 1)[k + 1]? =
        some (binder.body.listing (1 + k) binder.params (1 + k + 1)) := by
      rw [List.getElem?_cons_succ, Term.listings_eq_mapIdx, List.getElem?_mapIdx, hbinder]
      rfl
    rcases listing_getElem? hlisted standardized hk with ⟨b, hb, hlisting⟩
    rw [Nat.add_comm 1 k] at hlisting
    have hindex := congrArg Listing.index hlisting
    have hparams := congrArg Listing.params hlisting
    have htext := congrArg Listing.text hlisting
    have hlines := congrArg Listing.lines hlisting
    exact ⟨t.nested_binders k binder hbinder, b, hb, hindex, hparams, htext, hlines⟩

/-- In `(fn x. x) true -> (fn (y, z). y) | fn u. fn w. nil` the lambda of the condition has
number 1, that of the first arm 2, and the nested ones of the other arm 3 and 4. -/
theorem units_ofTerm_cond :
    let t : Term := .cond 1 (.app 2 (.lambda 3 ["x"] (.ident 4 "x")) (.literal 5 (.bool true)))
      (.lambda 6 ["y", "z"] (.ident 7 "y")) (.lambda 8 ["u"] (.lambda 9 ["w"] (.nil 10)))
    let table : NameTable := ⟨0, ["x", "y", "z", "u", "w"]⟩
    let p := t.program true table
    Program.ofTerm t true ⟨0, ["x"]⟩ = (.ok p, table) ∧
      p.root.render table = "beta<lambda<2> | lambda<3>> gamma lambda<1> true" ∧
      Instr.codeLines p.root.code [] = [1, 6, 8, 2, 3, 5] ∧
      ∃ b c, p.blocks[3]? = some b ∧ b.params.map table.text = ["u"] ∧
        b.render table = "lambda<4>" ∧ p.blocks[4]? = some c ∧ c.index = 4 ∧
        c.render table = "tau<0>" := by
  intro t table p
  have hlowered : Program.ofTerm t true ⟨0, ["x"]⟩ = (.ok p, table) := rfl
  rcases units_ofTerm t true _ _ table p hlowered (.refl table) with
    ⟨_, ⟨_, _, _, htext, hlines⟩, hunits⟩
  rcases hunits 2 ⟨8, ["u"], .lambda 9 ["w"] (.nil 10)⟩ rfl with
    ⟨_, b, hb, _, hparams, hrender, _⟩
  rcases hunits 3 ⟨9, ["w"], .nil 10⟩ rfl with ⟨_, c, hc, hindex, _, hrender', _⟩
  exact ⟨hlowered, htext.trans (by decide), hlines, b, c, hb, hparams, hrender.trans (by decide),
    hc, hindex, hrender'.trans (by decide)⟩

end Program

end CSEMachine
