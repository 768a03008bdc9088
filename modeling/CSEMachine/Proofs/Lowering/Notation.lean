import CSEMachine.Control.Render
import CSEMachine.Proofs.Naming

/-!
# The written form of trees

The written form of the code of a tree is the tree in prefix notation, a conditional with
its arms in front of its condition, a lambda by its number alone; and the lambdas are
numbered in the order of the tree.  So all that can be read of a program is a matter of its
tree, and the table that its names come from has no part in it.

Main results:

- Theorem `Term.words_flatten`: the words of the code of a tree.
- Theorem `Term.codeLines_flatten`: their lines.
- Theorem `Term.index_listings`: the lambdas of a tree are numbered one after the other.
- Theorem `Program.listings_program`: what can be read of the program of a tree.
-/

namespace CSEMachine

/-- What can be read of a block: its number, the texts of its parameters, the number of its
instructions, its code in written form, and the lines of that code. -/
structure Listing where
  index : Nat
  params : List String
  size : Nat
  text : String
  lines : List Nat
deriving DecidableEq

/-- What can be read of a block, by the names in a table. -/
def Block.listing (table : NameTable) (b : Block) : Listing :=
  ⟨b.index, b.params.map table.text, b.code.length, b.render table, Instr.codeLines b.code []⟩

/-- What can be read of the blocks of a program, in the order of their numbers. -/
def Program.listings (table : NameTable) (p : Program) : List Listing :=
  p.blocks.map (Block.listing table)

/-! ## Trees in prefix notation -/

mutual

/-- The words of a tree, whose lambdas are numbered from `n` on. -/
def Term.words : Nat → Term → List String
  | _, .ident _ x => [x]
  | _, .literal _ v => [v.render]
  | _, .nil _ => ["tau<0>"]
  | _, .fixpoint _ => ["Y*"]
  | n, .lambda _ _ _ => [s!"lambda<{n}>"]
  | n, .app _ rator rand => "gamma" :: (rator.words n ++ rand.words (n + rator.lambdas))
  | n, .cond _ c t e =>
    let thenText := " ".intercalate (t.words (n + c.lambdas))
    let elseText := " ".intercalate (e.words (n + c.lambdas + t.lambdas))
    s!"beta<{thenText} | {elseText}>" :: c.words n
  | n, .tuple _ items => s!"tau<{items.length}>" :: Term.wordsAll n items
  | n, .binary _ op left right =>
    op.keyword :: (left.words n ++ right.words (n + left.lambdas))
  | n, .unary _ op operand => op.keyword :: operand.words n

/-- The words of several trees. -/
def Term.wordsAll : Nat → List Term → List String
  | _, [] => []
  | n, t :: ts => t.words n ++ Term.wordsAll (n + t.lambdas) ts

end

mutual

/-- The lines of the words of a tree; behind that of a conditional stand those of its
arms. -/
def Term.wordLines : Term → List Nat
  | .ident line _ | .literal line _ | .nil line | .fixpoint line | .lambda line _ _ => [line]
  | .app line rator rand => line :: (rator.wordLines ++ rand.wordLines)
  | .cond line c t e => line :: (t.wordLines ++ e.wordLines ++ c.wordLines)
  | .tuple line items => line :: Term.wordLinesAll items
  | .binary line _ left right => line :: (left.wordLines ++ right.wordLines)
  | .unary line _ operand => line :: operand.wordLines

/-- The lines of the words of several trees. -/
def Term.wordLinesAll : List Term → List Nat
  | [] => []
  | t :: ts => t.wordLines ++ Term.wordLinesAll ts

end

/-- What can be read of the block of a tree whose lambdas are numbered from `n` on. -/
def Term.listing (index : Nat) (params : List String) (n : Nat) (t : Term) : Listing :=
  ⟨index, params, (t.words n).length, " ".intercalate (t.words n), t.wordLines⟩

mutual

/-- What can be read of the blocks of the lambdas of a tree, numbered from `n` on. -/
def Term.listings : Nat → Term → List Listing
  | _, .ident _ _ | _, .literal _ _ | _, .nil _ | _, .fixpoint _ => []
  | n, .lambda _ xs body => body.listing n xs (n + 1) :: body.listings (n + 1)
  | n, .app _ rator rand => rator.listings n ++ rand.listings (n + rator.lambdas)
  | n, .cond _ c t e =>
    c.listings n ++ t.listings (n + c.lambdas) ++ e.listings (n + c.lambdas + t.lambdas)
  | n, .tuple _ items => Term.listingsAll n items
  | n, .binary _ _ left right => left.listings n ++ right.listings (n + left.lambdas)
  | n, .unary _ _ operand => operand.listings n

/-- What can be read of the blocks of the lambdas of several trees. -/
def Term.listingsAll : Nat → List Term → List Listing
  | _, [] => []
  | n, t :: ts => t.listings n ++ Term.listingsAll (n + t.lambdas) ts

end

/-! ## The code of trees -/

section Flatten

variable {table : NameTable}

mutual

/-- The words of the code of a tree. -/
theorem Term.words_flatten : ∀ (t : Term) (n : Nat) (rest : List Instr) (acc : List String),
    table.Lists t.texts →
      Instr.words table ((t.named table.nameOf n).flatten rest) acc =
        Instr.words table rest (t.words n ++ acc)
  | .ident line x, n, rest, acc, h => by
      have hx := h.text_nameOf (List.mem_singleton_self x)
      simp only [Term.named, Expr.flatten, Instr.words, Instr.render, Term.words, hx,
        List.singleton_append]
  | .literal line v, n, rest, acc, _ => by
      simp only [Term.named, Expr.flatten, Instr.words, Instr.render, Term.words,
        List.singleton_append]
  | .nil line, n, rest, acc, _ => by
      simp only [Term.named, Expr.flatten, Expr.flattenAll, Instr.words, Instr.render, Term.words,
        List.singleton_append]
      rfl
  | .fixpoint line, n, rest, acc, _ => by
      simp only [Term.named, Expr.flatten, Instr.words, Instr.render, Term.words,
        List.singleton_append]
  | .lambda line xs body, n, rest, acc, _ => by
      simp only [Term.named, Expr.flatten, Instr.words, Instr.render, Block.index_mk, Term.words,
        List.singleton_append]
  | .app line rator rand, n, rest, acc, h => by
      rw [Term.texts] at h
      simp only [Term.named, Expr.flatten]
      rw [Term.words_flatten rand _ _ _ h.right, Term.words_flatten rator _ _ _ h.left]
      simp only [Instr.words, Instr.render, Term.words, List.cons_append, List.append_assoc]
  | .cond line c t e, n, rest, acc, h => by
      rw [Term.texts] at h
      have ht := Term.words_flatten t (n + c.lambdas) [] [] h.left.right
      have he := Term.words_flatten e (n + c.lambdas + t.lambdas) [] [] h.right
      simp only [Instr.words, List.append_nil] at ht he
      simp only [Term.named, Expr.flatten]
      rw [Term.words_flatten c _ _ _ h.left.left]
      simp only [Instr.words, Instr.render, Term.words, ht, he, List.cons_append]
  | .tuple line items, n, rest, acc, h => by
      rw [Term.texts] at h
      simp only [Term.named, Expr.flatten]
      rw [Term.words_flattenAll items _ _ _ h]
      simp only [Instr.words, Instr.render, Term.words, Term.length_namedAll, List.cons_append]
  | .binary line op left right, n, rest, acc, h => by
      rw [Term.texts] at h
      simp only [Term.named, Expr.flatten]
      rw [Term.words_flatten right _ _ _ h.right, Term.words_flatten left _ _ _ h.left]
      simp only [Instr.words, Instr.render, Term.words, List.cons_append, List.append_assoc]
  | .unary line op operand, n, rest, acc, h => by
      rw [Term.texts] at h
      simp only [Term.named, Expr.flatten]
      rw [Term.words_flatten operand _ _ _ h]
      simp only [Instr.words, Instr.render, Term.words, List.cons_append]

theorem Term.words_flattenAll : ∀ (ts : List Term) (n : Nat) (rest : List Instr)
    (acc : List String), table.Lists (Term.textsAll ts) →
      Instr.words table (Expr.flattenAll (Term.namedAll table.nameOf n ts) rest) acc =
        Instr.words table rest (Term.wordsAll n ts ++ acc)
  | [], _, _, _, _ => rfl
  | t :: ts, n, rest, acc, h => by
      rw [Term.textsAll] at h
      simp only [Term.namedAll, Expr.flattenAll]
      rw [Term.words_flattenAll ts _ _ _ h.right, Term.words_flatten t _ _ _ h.left]
      simp only [Term.wordsAll, List.append_assoc]

end

mutual

/-- The lines of the code of a tree. -/
theorem Term.codeLines_flatten (name : String → Name) : ∀ (t : Term) (n : Nat)
    (rest : List Instr) (acc : List Nat),
      Instr.codeLines ((t.named name n).flatten rest) acc =
        Instr.codeLines rest (t.wordLines ++ acc)
  | .ident line x, n, rest, acc => by
      simp only [Term.named, Expr.flatten, Instr.codeLines, Instr.lines, Term.wordLines]
  | .literal line v, n, rest, acc => by
      simp only [Term.named, Expr.flatten, Instr.codeLines, Instr.lines, Term.wordLines]
  | .nil line, n, rest, acc => by
      simp only [Term.named, Expr.flatten, Expr.flattenAll, Instr.codeLines, Instr.lines,
        Term.wordLines]
  | .fixpoint line, n, rest, acc => by
      simp only [Term.named, Expr.flatten, Instr.codeLines, Instr.lines, Term.wordLines]
  | .lambda line xs body, n, rest, acc => by
      simp only [Term.named, Expr.flatten, Instr.codeLines, Instr.lines, Term.wordLines]
  | .app line rator rand, n, rest, acc => by
      simp only [Term.named, Expr.flatten]
      rw [Term.codeLines_flatten name rand, Term.codeLines_flatten name rator]
      simp only [Instr.codeLines, Instr.lines, Term.wordLines, List.cons_append, List.nil_append,
        List.append_assoc]
  | .cond line c t e, n, rest, acc => by
      have ht := Term.codeLines_flatten name t (n + c.lambdas) [] []
      have he := Term.codeLines_flatten name e (n + c.lambdas + t.lambdas) [] []
      simp only [Instr.codeLines, List.append_nil] at ht he
      simp only [Term.named, Expr.flatten]
      rw [Term.codeLines_flatten name c]
      simp only [Instr.codeLines, Instr.lines, Term.wordLines, ht, he, List.cons_append,
        List.append_assoc]
  | .tuple line items, n, rest, acc => by
      simp only [Term.named, Expr.flatten]
      rw [Term.codeLines_flattenAll name items]
      simp only [Instr.codeLines, Instr.lines, Term.wordLines, List.cons_append, List.nil_append]
  | .binary line op left right, n, rest, acc => by
      simp only [Term.named, Expr.flatten]
      rw [Term.codeLines_flatten name right, Term.codeLines_flatten name left]
      simp only [Instr.codeLines, Instr.lines, Term.wordLines, List.cons_append, List.nil_append,
        List.append_assoc]
  | .unary line op operand, n, rest, acc => by
      simp only [Term.named, Expr.flatten]
      rw [Term.codeLines_flatten name operand]
      simp only [Instr.codeLines, Instr.lines, Term.wordLines, List.cons_append, List.nil_append]

theorem Term.codeLines_flattenAll (name : String → Name) : ∀ (ts : List Term) (n : Nat)
    (rest : List Instr) (acc : List Nat),
      Instr.codeLines (Expr.flattenAll (Term.namedAll name n ts) rest) acc =
        Instr.codeLines rest (Term.wordLinesAll ts ++ acc)
  | [], _, _, _ => rfl
  | t :: ts, n, rest, acc => by
      simp only [Term.namedAll, Expr.flattenAll]
      rw [Term.codeLines_flattenAll name ts, Term.codeLines_flatten name t]
      simp only [Term.wordLinesAll, List.append_assoc]

end

/-- Every instruction is one word. -/
theorem Instr.length_words (table : NameTable) (code : List Instr) (acc : List String) :
    (Instr.words table code acc).length = code.length + acc.length := by
  induction code generalizing acc with
  | nil => simp [Instr.words]
  | cons i code ih =>
      rw [Instr.words, ih, List.length_cons, List.length_cons]
      omega

/-- What can be read of the block of a tree. -/
theorem Term.listing_block (t : Term) (h : table.Lists t.texts) (index n : Nat)
    {params : List String} (hparams : table.Lists params) :
    Block.listing table ⟨index, params.map table.nameOf, (t.named table.nameOf n).flatten []⟩ =
      t.listing index params n := by
  have hwords := t.words_flatten n [] [] h
  have hlines := t.codeLines_flatten table.nameOf n [] []
  have hlength := Instr.length_words table ((t.named table.nameOf n).flatten []) []
  rw [hwords] at hlength
  simp only [Instr.words, Instr.codeLines, List.append_nil, List.length_nil, Nat.add_zero]
    at hwords hlines hlength
  simp only [Block.listing, Block.index_mk, Block.render, Term.listing, hparams.map_text, hwords,
    hlines, hlength]

/-! ## The blocks of trees -/

/-- The blocks inside code stand in front of those that follow. -/
theorem Instr.codeBlocks_append (code : List Instr) (rest : List Block) :
    Instr.codeBlocks code rest = Instr.codeBlocks code [] ++ rest := by
  induction code generalizing rest with
  | nil => rfl
  | cons i code ih =>
      rw [Instr.codeBlocks, ih, Instr.codeBlocks, ih (i.blocks ++ []), List.append_nil,
        List.append_assoc]

/-- The blocks of what follows code can be listed before those of the code. -/
theorem Instr.codeBlocks_perm (code : List Instr) (blocks rest : List Block) :
    (Instr.codeBlocks code (blocks ++ rest)).Perm (blocks ++ Instr.codeBlocks code rest) := by
  rw [Instr.codeBlocks_append code (blocks ++ rest), Instr.codeBlocks_append code rest]
  exact List.perm_append_comm_assoc _ _ _

mutual

/-- The blocks inside the code of a tree are those of its lambdas. -/
theorem Term.listings_perm : ∀ (t : Term) (n : Nat) (rest : List Instr) (acc : List Block),
    table.Lists t.texts →
      ((Instr.codeBlocks ((t.named table.nameOf n).flatten rest) acc).map
        (Block.listing table)).Perm
        (t.listings n ++ (Instr.codeBlocks rest acc).map (Block.listing table))
  | .ident line x, n, rest, acc, _ => by
      simp only [Term.named, Expr.flatten]
      exact List.Perm.refl _
  | .literal line v, n, rest, acc, _ => by
      simp only [Term.named, Expr.flatten]
      exact List.Perm.refl _
  | .nil line, n, rest, acc, _ => by
      simp only [Term.named, Expr.flatten, Expr.flattenAll]
      exact List.Perm.refl _
  | .fixpoint line, n, rest, acc, _ => by
      simp only [Term.named, Expr.flatten]
      exact List.Perm.refl _
  | .lambda line xs body, n, rest, acc, h => by
      rw [Term.texts] at h
      have hbody := Term.listings_perm body (n + 1) [] [] h.right
      have hlisting := body.listing_block h.right n (n + 1) h.left
      simp only [Instr.codeBlocks, List.map_nil, List.append_nil] at hbody
      simp only [Term.named, Expr.flatten, Instr.codeBlocks, Instr.blocks, Block.inner]
      refine ((Instr.codeBlocks_perm rest _ acc).map _).trans ?_
      rw [List.map_append, List.map_cons, hlisting]
      exact (hbody.cons _).append_right _
  | .app line rator rand, n, rest, acc, h => by
      rw [Term.texts] at h
      have hrator := Term.listings_perm rator n (.apply line :: rest) acc h.left
      have hrand := Term.listings_perm rand (n + rator.lambdas)
        ((rator.named table.nameOf n).flatten (.apply line :: rest)) acc h.right
      simp only [Term.named, Expr.flatten, Term.listings, List.append_assoc]
      refine (hrand.trans (hrator.append_left _)).trans ?_
      exact List.perm_append_comm_assoc _ _ _
  | .cond line c t e, n, rest, acc, h => by
      rw [Term.texts] at h
      have ht := Term.listings_perm t (n + c.lambdas) [] [] h.left.right
      have he := Term.listings_perm e (n + c.lambdas + t.lambdas) [] [] h.right
      simp only [Instr.codeBlocks, List.map_nil, List.append_nil] at ht he
      simp only [Term.named, Expr.flatten, Term.listings, List.append_assoc]
      refine (Term.listings_perm c n _ acc h.left.left).trans (List.Perm.append_left _ ?_)
      rw [Instr.codeBlocks, Instr.blocks]
      refine ((Instr.codeBlocks_perm rest _ acc).map _).trans ?_
      rw [List.map_append, List.map_append, List.append_assoc]
      exact ht.append (he.append_right _)
  | .tuple line items, n, rest, acc, h => by
      rw [Term.texts] at h
      simp only [Term.named, Expr.flatten, Term.listings]
      exact Term.listingsAll_perm items n _ acc h
  | .binary line op left right, n, rest, acc, h => by
      rw [Term.texts] at h
      have hleft := Term.listings_perm left n (.binary line op :: rest) acc h.left
      have hright := Term.listings_perm right (n + left.lambdas)
        ((left.named table.nameOf n).flatten (.binary line op :: rest)) acc h.right
      simp only [Term.named, Expr.flatten, Term.listings, List.append_assoc]
      refine (hright.trans (hleft.append_left _)).trans ?_
      exact List.perm_append_comm_assoc _ _ _
  | .unary line op operand, n, rest, acc, h => by
      rw [Term.texts] at h
      simp only [Term.named, Expr.flatten, Term.listings]
      exact Term.listings_perm operand n (.unary line op :: rest) acc h

theorem Term.listingsAll_perm : ∀ (ts : List Term) (n : Nat) (rest : List Instr)
    (acc : List Block), table.Lists (Term.textsAll ts) →
      ((Instr.codeBlocks (Expr.flattenAll (Term.namedAll table.nameOf n ts) rest) acc).map
        (Block.listing table)).Perm
        (Term.listingsAll n ts ++ (Instr.codeBlocks rest acc).map (Block.listing table))
  | [], _, _, _, _ => by
      simp only [Term.namedAll, Expr.flattenAll]
      exact List.Perm.refl _
  | t :: ts, n, rest, acc, h => by
      rw [Term.textsAll] at h
      have ht := Term.listings_perm t n rest acc h.left
      have hts := Term.listingsAll_perm ts (n + t.lambdas)
        ((t.named table.nameOf n).flatten rest) acc h.right
      simp only [Term.namedAll, Expr.flattenAll, Term.listingsAll, List.append_assoc]
      refine (hts.trans (ht.append_left _)).trans ?_
      exact List.perm_append_comm_assoc _ _ _

end

end Flatten

mutual

/-- The lambdas of a tree are numbered one after the other. -/
theorem Term.index_listings : ∀ (t : Term) (n : Nat),
    (t.listings n).map Listing.index = List.range' n t.lambdas
  | .ident _ _, _ | .literal _ _, _ | .nil _, _ | .fixpoint _, _ => rfl
  | .lambda line xs body, n => by
      rw [Term.listings, Term.lambdas, List.map_cons, Term.index_listings body,
        List.range'_succ]
      rfl
  | .app _ rator rand, n => by
      rw [Term.listings, Term.lambdas, List.map_append, Term.index_listings rator,
        Term.index_listings rand, List.range'_append_1]
  | .cond _ c t e, n => by
      rw [Term.listings, Term.lambdas, List.map_append, List.map_append, Term.index_listings c,
        Term.index_listings t, Term.index_listings e, List.range'_append_1, Nat.add_assoc n,
        List.range'_append_1]
  | .tuple _ items, n => Term.index_listingsAll items n
  | .binary _ _ left right, n => by
      rw [Term.listings, Term.lambdas, List.map_append, Term.index_listings left,
        Term.index_listings right, List.range'_append_1]
  | .unary _ _ operand, n => Term.index_listings operand n

theorem Term.index_listingsAll : ∀ (ts : List Term) (n : Nat),
    (Term.listingsAll n ts).map Listing.index = List.range' n (Term.lambdasAll ts)
  | [], _ => rfl
  | t :: ts, n => by
      rw [Term.listingsAll, Term.lambdasAll, List.map_append, Term.index_listings t,
        Term.index_listingsAll ts, List.range'_append_1]

end

/-- The blocks of a program are in the order of their numbers. -/
theorem Program.pairwise_blocks (p : Program) :
    p.blocks.Pairwise fun b c => b.index ≤ c.index := by
  have hsorted : p.blocks.Pairwise fun b c => decide (b.index ≤ c.index) = true := by
    refine List.pairwise_mergeSort ?_ ?_ _
    · intro b c d hbc hcd
      rw [decide_eq_true_eq] at hbc hcd ⊢
      exact Nat.le_trans hbc hcd
    · intro b c
      rw [Bool.or_eq_true, decide_eq_true_eq, decide_eq_true_eq]
      exact Nat.le_total _ _
  exact hsorted.imp of_decide_eq_true

/-- What can be read of the program of a tree: its blocks are the root and those of the
lambdas, in the order of the tree. -/
theorem Program.listings_program {t : Term} {table : NameTable} (h : table.Lists t.texts)
    (standardized : Bool) :
    (t.program standardized table).listings table = t.listing 0 [] 1 :: t.listings 1 := by
  have hempty : table.Lists [] := fun _ hx => absurd hx List.not_mem_nil
  have hroot : Block.listing table (t.named table.nameOf 1).toBlock = t.listing 0 [] 1 :=
    t.listing_block h 0 1 hempty
  have hinner := t.listings_perm 1 [] [] h
  simp only [Instr.codeBlocks, List.map_nil, List.append_nil] at hinner
  have hindex : (t.listing 0 [] 1 :: t.listings 1).map Listing.index =
      List.range' 0 (t.lambdas + 1) := by
    rw [List.map_cons, Term.index_listings, List.range'_succ]
    rfl
  -- both lists are sorted by numbers, of which there are no two equal ones
  have hnodup : ((t.listing 0 [] 1 :: t.listings 1).map Listing.index).Nodup := by
    rw [hindex]
    exact List.nodup_range'
  have hsorted : (t.listing 0 [] 1 :: t.listings 1).Pairwise fun l l' => l.index ≤ l'.index := by
    rw [← List.pairwise_map, hindex]
    exact List.pairwise_le_range'
  have hperm : ((t.program standardized table).listings table).Perm
      (t.listing 0 [] 1 :: t.listings 1) := by
    refine ((List.mergeSort_perm _ _).map _).trans ?_
    rw [List.map_cons]
    exact hroot ▸ hinner.cons _
  refine List.Perm.eq_of_pairwise ?_ ?_ hsorted hperm
  · intro l l' hl hl' hle hle'
    exact List.inj_on_of_nodup_map hnodup (hperm.subset hl) hl' (Nat.le_antisymm hle hle')
  · exact List.pairwise_map.mpr (pairwise_blocks _)

end CSEMachine
