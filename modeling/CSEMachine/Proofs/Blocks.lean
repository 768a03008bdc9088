import CSEMachine.Control
import CSEMachine.Proofs.Correspondence.Code

/-!
# Lines and blocks of programs

The blocks of a program are its root and all blocks inside it, however deep; its lines are
those that the instructions of its blocks have, in the arms of branches as well.  A run
performs no instruction with another line, and activates no other block.

Main results:

- Theorem `Program.inner_subset_blocks`: the blocks inside a block of a program are blocks
  of the program.
- Theorem `Program.shows_inherited`: what stands inside an instruction that a program shows
  is shown as well.
- Theorem `Machine.Reachable.shown`: a run only performs what its program shows.
-/

namespace CSEMachine

/-! ## Views of code -/

namespace Instr

theorem mem_codeLines {line : Nat} {code : List Instr} {rest : List Nat} :
    line ∈ codeLines code rest ↔ (∃ i ∈ code, line ∈ i.lines) ∨ line ∈ rest := by
  induction code generalizing rest with
  | nil => simp [codeLines]
  | cons i code ih =>
      rw [codeLines, ih, List.mem_append, List.exists_mem_cons_iff, or_left_comm, or_assoc]

theorem mem_codeBlocks {b : Block} {code : List Instr} {rest : List Block} :
    b ∈ codeBlocks code rest ↔ (∃ i ∈ code, b ∈ i.blocks) ∨ b ∈ rest := by
  induction code generalizing rest with
  | nil => simp [codeBlocks]
  | cons i code ih =>
      rw [codeBlocks, ih, List.mem_append, List.exists_mem_cons_iff, or_left_comm, or_assoc]

theorem lines_subset_codeLines {i : Instr} {code : List Instr} (h : i ∈ code) :
    i.lines ⊆ codeLines code [] :=
  fun _ hline => mem_codeLines.mpr (Or.inl ⟨i, h, hline⟩)

theorem blocks_subset_codeBlocks {i : Instr} {code : List Instr} (h : i ∈ code) :
    i.blocks ⊆ codeBlocks code [] :=
  fun _ hb => mem_codeBlocks.mpr (Or.inl ⟨i, h, hb⟩)

/-- The first of the lines of an instruction is its own. -/
theorem line_mem_lines (i : Instr) : i.line ∈ i.lines := by
  cases i <;> simp [lines, line]

end Instr

mutual

theorem Instr.inner_subset_blocks : ∀ (i : Instr) {b : Block}, b ∈ i.blocks → b.inner ⊆ i.blocks
  | .lambda line c, b, hb => by
      rcases List.mem_cons.mp hb with rfl | hb
      · exact List.subset_cons_self _ _
      · exact List.subset_cons_of_subset _ (c.inner_subset_inner hb)
  | .branch line t e, b, hb => by
      rcases List.mem_append.mp hb with hb | hb
      · exact List.subset_append_of_subset_left _ (Instr.inner_subset_codeBlocks t hb)
      · exact List.subset_append_of_subset_right _ (Instr.inner_subset_codeBlocks e hb)
  | .ident _ _, _, hb | .literal _ _, _, hb | .binary _ _, _, hb | .unary _ _, _, hb
  | .tuple _ _, _, hb | .apply _, _, hb | .fixpoint _, _, hb => by cases hb

theorem Block.inner_subset_inner : ∀ (c : Block) {b : Block}, b ∈ c.inner → b.inner ⊆ c.inner
  | ⟨_, _, code⟩, _, hb => Instr.inner_subset_codeBlocks code hb

theorem Instr.inner_subset_codeBlocks : ∀ (code : List Instr) {b : Block},
    b ∈ Instr.codeBlocks code [] → b.inner ⊆ Instr.codeBlocks code []
  | [], _, hb => by cases hb
  | i :: code, b, hb => by
      intro c hc
      rw [Instr.codeBlocks, Instr.mem_codeBlocks] at hb ⊢
      rcases hb with ⟨j, hj, hb⟩ | hb
      · have hcode := Instr.inner_subset_codeBlocks code
          (Instr.blocks_subset_codeBlocks hj hb) hc
        rcases Instr.mem_codeBlocks.mp hcode with h | h
        · exact Or.inl h
        · cases h
      · rw [List.append_nil] at hb ⊢
        exact Or.inr (i.inner_subset_blocks hb hc)

end

/-! ## What a program shows -/

namespace Program

theorem mem_blocks {p : Program} {b : Block} :
    b ∈ p.blocks ↔ b = p.root ∨ b ∈ p.root.inner := by
  rw [blocks, List.mem_mergeSort, List.mem_cons]

/-- The blocks inside a block of a program are blocks of the program. -/
theorem inner_subset_blocks {p : Program} {b : Block} (h : b ∈ p.blocks) :
    b.inner ⊆ p.blocks := by
  intro c hc
  rw [mem_blocks] at h ⊢
  rcases h with rfl | h
  · exact Or.inr hc
  · exact Or.inr (p.root.inner_subset_inner h hc)

/-- The lines of the code of a program. -/
def lines (p : Program) : List Nat :=
  p.blocks.flatMap fun b => Instr.codeLines b.code []

/-- A program shows an instruction whose lines and blocks are all among its own. -/
structure Shows (p : Program) (i : Instr) : Prop where
  lines : i.lines ⊆ p.lines
  blocks : i.blocks ⊆ p.blocks

/-- A program shows the code of its blocks. -/
theorem shows_of_mem {p : Program} {b : Block} (h : b ∈ p.blocks) {i : Instr}
    (hi : i ∈ b.code) : p.Shows i := by
  constructor
  · intro line hline
    exact List.mem_flatMap.mpr ⟨b, h, Instr.lines_subset_codeLines hi hline⟩
  · rcases b with ⟨index, params, code⟩
    exact List.Subset.trans (Instr.blocks_subset_codeBlocks hi) (inner_subset_blocks h)

/-- What stands inside an instruction that a program shows is shown as well. -/
theorem shows_inherited (p : Program) : Instr.Inherited p.Shows (· ∈ p.blocks) where
  lambda h := h.blocks List.mem_cons_self
  branch := by
    intro line t e h
    have hlines := h.lines
    have hblocks := h.blocks
    rw [Instr.lines, List.cons_subset, List.append_subset] at hlines
    rw [Instr.blocks, List.append_subset] at hblocks
    constructor
    · intro i hi
      exact ⟨List.Subset.trans (Instr.lines_subset_codeLines hi) hlines.2.1,
        List.Subset.trans (Instr.blocks_subset_codeBlocks hi) hblocks.1⟩
    · intro i hi
      exact ⟨List.Subset.trans (Instr.lines_subset_codeLines hi) hlines.2.2,
        List.Subset.trans (Instr.blocks_subset_codeBlocks hi) hblocks.2⟩
  code h _ hi := shows_of_mem h hi

end Program

/-- A run only performs what its program shows, and only activates its blocks. -/
theorem Machine.Reachable.shown {m : Machine} {p : Program} {store : Store} {s : State}
    (h : m.Reachable p.root store s) :
    (∀ frame ∈ s.frames, ∀ i ∈ frame.code, p.Shows i) ∧
      ∀ c, s.Holds (.closure c) ∨ s.Holds (.eta c) → c.block ∈ p.blocks := by
  refine h.holding p.shows_inherited ?_
  intro i hi
  exact Program.shows_of_mem (Program.mem_blocks.mpr (Or.inl rfl)) hi

end CSEMachine
