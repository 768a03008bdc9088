import CSEMachine.Proofs.Focus

/-!
# What is printed for an escape

An escape is a backslash right before a `t` or an `n`.  What a character contributes to the
printed text is decided by the places next to it alone: the backslash of an escape becomes
the tab or newline that the escape stands for, its letter nothing, and every other character
stays.  So a backslash before a backslash stays, and the second one may begin an escape.

Two escapes never overlap, and none arises anew: what follows a backslash that stays is
printed as itself or as a tab or newline.

Main results:

- Theorem `Text.unescapeChars_eq_flatMap`: the printed text, place by place.
- Theorem `Text.escapeAt?_unescapeChars`: no escape is left in it.
- Theorem `Text.unescapeChars_append_iff`: texts are printed one after the other unless an
  escape begins in one and ends in the next.
- Theorem `Machine.print_unescapes`: what this means for `Print`.
-/

namespace CSEMachine

namespace Text

/-! ## Escapes by their places -/

/-- The character that the escape at a place stands for, if one begins there. -/
def escapeAt? (cs : List Char) (i : Nat) : Option Char :=
  match cs[i]?, cs[i + 1]? with
  | some '\\', some 't' => some '\t'
  | some '\\', some 'n' => some '\n'
  | _, _ => none

/-- What the character at a place contributes to the printed text. -/
def contribution (cs : List Char) (i : Nat) : List Char :=
  match escapeAt? cs i with
  | some c => [c]
  | none => if 0 < i ∧ (escapeAt? cs (i - 1)).isSome then [] else cs[i]?.toList

/-- Number of escapes. -/
def countEscapes (cs : List Char) : Nat :=
  (List.range cs.length).countP fun i => (escapeAt? cs i).isSome

/-- An escape begins at the end of one text and ends at the beginning of another. -/
def Straddles (cs ds : List Char) : Prop :=
  cs.getLast? = some '\\' ∧ (ds.head? = some 't' ∨ ds.head? = some 'n')

variable {c d : Char} {cs ds : List Char}

@[simp]
theorem escapeAt?_nil (i : Nat) : escapeAt? [] i = none := by
  simp [escapeAt?]

@[simp]
theorem escapeAt?_cons_succ (c : Char) (cs : List Char) (i : Nat) :
    escapeAt? (c :: cs) (i + 1) = escapeAt? cs i := by
  simp [escapeAt?]

/-- An escape begins with a backslash and goes on with its letter. -/
theorem escapeAt?_zero_eq_some_iff :
    escapeAt? (c :: cs) 0 = some d ↔
      c = '\\' ∧ (cs.head? = some 't' ∧ d = '\t' ∨ cs.head? = some 'n' ∧ d = '\n') := by
  cases cs with
  | nil => simp [escapeAt?]
  | cons e es =>
      simp only [escapeAt?, List.getElem?_cons_zero, Nat.zero_add, List.getElem?_cons_succ,
        List.head?_cons]
      split <;> simp_all [eq_comm]

/-- No escape begins with the letter of another. -/
theorem escapeAt?_zero_of_head? (h : cs.head? = some 't' ∨ cs.head? = some 'n') :
    escapeAt? cs 0 = none := by
  cases cs with
  | nil => rfl
  | cons e es =>
      rw [Option.eq_none_iff_forall_ne_some]
      intro d hd
      have he := (escapeAt?_zero_eq_some_iff.mp hd).1
      subst he
      simp at h

/-- Escapes do not overlap. -/
theorem escapeAt?_zero_of_escapeAt? (h : escapeAt? (c :: cs) 0 = some d) :
    escapeAt? cs 0 = none := by
  apply escapeAt?_zero_of_head?
  rcases (escapeAt?_zero_eq_some_iff.mp h).2 with ⟨ht, _⟩ | ⟨hn, _⟩
  · exact Or.inl ht
  · exact Or.inr hn

/-- An escape at the front is carried out. -/
theorem unescapeChars_of_escape (h : escapeAt? (c :: cs) 0 = some d) :
    unescapeChars (c :: cs) = d :: unescapeChars cs.tail := by
  rcases escapeAt?_zero_eq_some_iff.mp h with ⟨rfl, hletter⟩
  cases cs with
  | nil => simp at hletter
  | cons e es =>
      simp only [List.head?_cons, Option.some.injEq] at hletter
      rcases hletter with ⟨rfl, rfl⟩ | ⟨rfl, rfl⟩
      · rfl
      · rfl

/-- Any other character at the front stays. -/
theorem unescapeChars_of_no_escape (h : escapeAt? (c :: cs) 0 = none) :
    unescapeChars (c :: cs) = c :: unescapeChars cs := by
  rw [unescapeChars]
  · rintro es rfl rfl
    cases h
  · rintro es rfl rfl
    cases h

/-- A text is empty, begins with an escape, or with a character that stays. -/
@[elab_as_elim]
theorem escape_induction {motive : List Char → Prop} (nil : motive [])
    (escape : ∀ c cs d, escapeAt? (c :: cs) 0 = some d → motive cs.tail → motive (c :: cs))
    (stays : ∀ c cs, escapeAt? (c :: cs) 0 = none → motive cs → motive (c :: cs))
    (cs : List Char) : motive cs := by
  induction hn : cs.length using Nat.strongRecOn generalizing cs with
  | ind n ih =>
      subst hn
      cases cs with
      | nil => exact nil
      | cons c cs =>
          cases hc : escapeAt? (c :: cs) 0 with
          | some d =>
              have hlt : cs.tail.length < (c :: cs).length := by
                simp only [List.length_tail, List.length_cons]
                omega
              exact escape c cs d hc (ih _ hlt cs.tail rfl)
          | none => exact stays c cs hc (ih _ (Nat.lt_succ_self _) cs rfl)

/-! ## The printed text, place by place -/

/-- One place further on, the character in front matters for its neighbour only. -/
theorem contribution_cons_succ_succ (c : Char) (cs : List Char) (i : Nat) :
    contribution (c :: cs) (i + 2) = contribution cs (i + 1) := by
  simp [contribution]

/-- What is printed for a text behind a character, the letter of whose escape prints
nothing. -/
theorem flatMap_contribution_cons (c : Char) (cs : List Char) :
    ((List.range cs.length).flatMap fun i => contribution (c :: cs) (i + 1)) =
      match escapeAt? (c :: cs) 0 with
      | some _ => unescapeChars cs.tail
      | none => unescapeChars cs := by
  induction cs generalizing c with
  | nil => cases escapeAt? [c] 0 <;> rfl
  | cons e es ih =>
      rw [List.length_cons, List.range_succ_eq_map, List.flatMap_cons, List.flatMap_map]
      simp only [Nat.succ_eq_add_one, Nat.add_assoc, Nat.reduceAdd, contribution_cons_succ_succ,
        ih e]
      cases hc : escapeAt? (c :: e :: es) 0 with
      | some d =>
          have he := escapeAt?_zero_of_escapeAt? hc
          simp [contribution, hc, he]
      | none =>
          cases he : escapeAt? (e :: es) 0 with
          | some d => simp [contribution, he, unescapeChars_of_escape he]
          | none => simp [contribution, hc, he, unescapeChars_of_no_escape he]

/-- The printed text, place by place. -/
theorem unescapeChars_eq_flatMap (cs : List Char) :
    unescapeChars cs = (List.range cs.length).flatMap (contribution cs) := by
  cases cs with
  | nil => rfl
  | cons c cs =>
      have hrest := flatMap_contribution_cons c cs
      rw [List.length_cons, List.range_succ_eq_map, List.flatMap_cons, List.flatMap_map]
      simp only [Nat.succ_eq_add_one, hrest]
      cases hc : escapeAt? (c :: cs) 0 with
      | some d => simp [contribution, hc, unescapeChars_of_escape hc]
      | none => simp [contribution, hc, unescapeChars_of_no_escape hc]

/-- The second of two backslashes may begin an escape. -/
example : unescapeChars ['\\', '\\', 't', 't'] = ['\\', '\t', 't'] := by decide

/-! ## No escape is left -/

/-- What is printed first is what stands first, unless that is a backslash. -/
theorem head?_unescapeChars :
    (unescapeChars cs).head? = (escapeAt? cs 0 <|> cs.head?) := by
  cases cs with
  | nil => rfl
  | cons c cs =>
      cases hc : escapeAt? (c :: cs) 0 with
      | some d => simp [unescapeChars_of_escape hc]
      | none => simp [unescapeChars_of_no_escape hc]

/-- What stays does not begin an escape in the printed text. -/
theorem escapeAt?_cons_unescapeChars (h : escapeAt? (c :: cs) 0 = none) :
    escapeAt? (c :: unescapeChars cs) 0 = none := by
  rw [Option.eq_none_iff_forall_ne_some]
  intro d hd
  rcases escapeAt?_zero_eq_some_iff.mp hd with ⟨rfl, hletter⟩
  rw [head?_unescapeChars] at hletter
  cases hcs : escapeAt? cs 0 with
  | some e =>
      -- tabs and newlines are no letters of escapes
      cases cs with
      | nil => simp at hcs
      | cons b bs =>
          rcases (escapeAt?_zero_eq_some_iff.mp hcs).2 with ⟨_, rfl⟩ | ⟨_, rfl⟩
          · simp [hcs] at hletter
          · simp [hcs] at hletter
  | none =>
      simp only [hcs, Option.orElse_eq_orElse, Option.orElse_eq_or, Option.none_or] at hletter
      rw [escapeAt?_zero_eq_some_iff.mpr ⟨rfl, hletter⟩] at h
      cases h

/-- A tab or newline begins no escape. -/
theorem escapeAt?_cons_of_escape (h : escapeAt? (c :: cs) 0 = some d) (es : List Char) :
    escapeAt? (d :: es) 0 = none := by
  rw [Option.eq_none_iff_forall_ne_some]
  intro e he
  have hd := (escapeAt?_zero_eq_some_iff.mp he).1
  rcases (escapeAt?_zero_eq_some_iff.mp h).2 with ⟨_, rfl⟩ | ⟨_, rfl⟩
  · cases hd
  · cases hd

/-- No escape is left in a printed text. -/
theorem escapeAt?_unescapeChars (cs : List Char) (i : Nat) :
    escapeAt? (unescapeChars cs) i = none := by
  induction cs using escape_induction generalizing i with
  | nil => exact escapeAt?_nil i
  | escape c cs d hc ih =>
      rw [unescapeChars_of_escape hc]
      cases i with
      | zero => exact escapeAt?_cons_of_escape hc _
      | succ i =>
          rw [escapeAt?_cons_succ]
          exact ih i
  | stays c cs hc ih =>
      rw [unescapeChars_of_no_escape hc]
      cases i with
      | zero => exact escapeAt?_cons_unescapeChars hc
      | succ i =>
          rw [escapeAt?_cons_succ]
          exact ih i

/-- A text without escapes is printed as it is. -/
theorem unescapeChars_of_no_escapes (h : ∀ i, escapeAt? cs i = none) :
    unescapeChars cs = cs := by
  induction cs with
  | nil => rfl
  | cons c cs ih =>
      have hrest : ∀ i, escapeAt? cs i = none := by
        intro i
        rw [← escapeAt?_cons_succ c]
        exact h (i + 1)
      rw [unescapeChars_of_no_escape (h 0), ih hrest]

/-! ## Lengths -/

/-- An escape in front is one more. -/
theorem countEscapes_cons (c : Char) (cs : List Char) :
    countEscapes (c :: cs) = countEscapes cs + if (escapeAt? (c :: cs) 0).isSome then 1 else 0 := by
  have hshift : (fun i => (escapeAt? (c :: cs) i).isSome) ∘ Nat.succ =
      fun i => (escapeAt? cs i).isSome := by
    funext i
    exact congrArg Option.isSome (escapeAt?_cons_succ c cs i)
  rw [countEscapes, List.length_cons, List.range_succ_eq_map, List.countP_cons, List.countP_map,
    hshift]
  rfl

/-- The letter of an escape begins no further one. -/
theorem countEscapes_tail (h : escapeAt? cs 0 = none) : countEscapes cs = countEscapes cs.tail := by
  cases cs with
  | nil => rfl
  | cons c cs =>
      rw [countEscapes_cons, h]
      rfl

/-- Every escape makes a text shorter by one character. -/
theorem length_unescapeChars (cs : List Char) :
    (unescapeChars cs).length + countEscapes cs = cs.length := by
  induction cs using escape_induction with
  | nil => rfl
  | escape c cs d hc ih =>
      have hcs : cs ≠ [] := by
        rintro rfl
        simp [escapeAt?] at hc
      have hpos := List.length_pos_iff.mpr hcs
      rw [unescapeChars_of_escape hc, countEscapes_cons, hc,
        countEscapes_tail (escapeAt?_zero_of_escapeAt? hc)]
      simp only [List.length_cons, List.length_tail, Option.isSome_some, if_true] at ih ⊢
      omega
  | stays c cs hc ih =>
      rw [unescapeChars_of_no_escape hc, countEscapes_cons, hc]
      simp only [List.length_cons, Option.isSome_none, Bool.false_eq_true, if_false]
      omega

/-! ## Texts one after the other -/

/-- Whether an escape straddles two texts does not depend on what comes before. -/
theorem Straddles.cons (h : Straddles cs ds) (c : Char) : Straddles (c :: cs) ds := by
  obtain ⟨hlast, hletter⟩ := h
  have hne : cs ≠ [] := by
    rintro rfl
    simp at hlast
  exact ⟨by rwa [List.getLast?_cons_of_ne_nil hne], hletter⟩

/-- The front of a text keeps its escapes, and gets no further one, if none straddles its
end. -/
theorem escapeAt?_zero_append (h : ¬ Straddles (c :: cs) ds) :
    escapeAt? (c :: cs ++ ds) 0 = escapeAt? (c :: cs) 0 := by
  cases cs with
  | cons e es => rfl
  | nil =>
      have hnone : escapeAt? [c] 0 = none := by simp [escapeAt?]
      rw [hnone, Option.eq_none_iff_forall_ne_some]
      intro d hd
      rcases escapeAt?_zero_eq_some_iff.mp hd with ⟨rfl, ⟨ht, _⟩ | ⟨hn, _⟩⟩
      · exact h ⟨rfl, Or.inl ht⟩
      · exact h ⟨rfl, Or.inr hn⟩

/-- Texts that no escape straddles are printed one after the other. -/
theorem unescapeChars_append (h : ¬ Straddles cs ds) :
    unescapeChars (cs ++ ds) = unescapeChars cs ++ unescapeChars ds := by
  induction cs using escape_induction with
  | nil => rfl
  | escape c cs d hc ih =>
      have hfront := escapeAt?_zero_append h
      rw [hc] at hfront
      cases cs with
      | nil => simp [escapeAt?] at hc
      | cons e es =>
          have hes : ¬ Straddles es ds := fun hs => h ((hs.cons e).cons c)
          rw [unescapeChars_of_escape hc]
          exact (unescapeChars_of_escape hfront).trans (congrArg (d :: ·) (ih hes))
  | stays c cs hc ih =>
      have hfront := escapeAt?_zero_append h
      rw [hc] at hfront
      have hcs : ¬ Straddles cs ds := fun hs => h (hs.cons c)
      rw [unescapeChars_of_no_escape hc]
      exact (unescapeChars_of_no_escape hfront).trans (congrArg (c :: ·) (ih hcs))

/-- Texts are printed one after the other exactly when no escape straddles them. -/
theorem unescapeChars_append_iff :
    unescapeChars (cs ++ ds) = unescapeChars cs ++ unescapeChars ds ↔ ¬ Straddles cs ds := by
  refine ⟨?_, unescapeChars_append⟩
  rintro h ⟨hlast, hletter⟩
  obtain ⟨front, rfl⟩ := List.getLast?_eq_some_iff.mp hlast
  cases ds with
  | nil => simp at hletter
  | cons e es =>
      -- the front is printed by itself on both sides, what is left differs in length
      have hfront : ∀ rest, unescapeChars (front ++ '\\' :: rest) =
          unescapeChars front ++ unescapeChars ('\\' :: rest) := by
        intro rest
        apply unescapeChars_append
        simp [Straddles]
      obtain ⟨d, hd⟩ : ∃ d, escapeAt? ('\\' :: e :: es) 0 = some d := by
        rcases hletter with ht | hn
        · exact ⟨'\t', escapeAt?_zero_eq_some_iff.mpr ⟨rfl, Or.inl ⟨ht, rfl⟩⟩⟩
        · exact ⟨'\n', escapeAt?_zero_eq_some_iff.mpr ⟨rfl, Or.inr ⟨hn, rfl⟩⟩⟩
      have hnext := escapeAt?_zero_of_escapeAt? hd
      rw [List.append_assoc, List.singleton_append, hfront, hfront, unescapeChars_of_escape hd,
        unescapeChars_of_no_escape hnext] at h
      have hlength := congrArg List.length h
      simp [unescapeChars] at hlength

end Text

open Text

/-- `Print` records the text of its operand with every escape carried out and nothing else
changed. -/
theorem Machine.print_unescapes :
    (∀ (m : Machine) (line : Nat) (env : Env) (code : List Instr) (callers : List Frame)
        (operand : Value) (rest : List Value) (store : Store) (printed : Array String),
      m.step ⟨⟨env, .apply line :: code⟩ :: callers, .builtin .print :: operand :: rest, store,
          printed⟩ =
        .next ⟨⟨env, code⟩ :: callers, .dummy :: rest, store,
          printed.push (unescape (operand.display store))⟩) ∧
      ∀ s : String,
        (unescape s).toList = (List.range s.length).flatMap (contribution s.toList) ∧
        (∀ i, escapeAt? (unescape s).toList i = none) ∧
        unescape (unescape s) = unescape s ∧
        (unescape s).length + countEscapes s.toList = s.length ∧
        ∀ t : String, unescape (s ++ t) = unescape s ++ unescape t ↔
          ¬ Straddles s.toList t.toList := by
  refine ⟨fun _ _ _ _ _ _ _ _ _ => rfl, fun s => ?_⟩
  have hlength : s.length = s.toList.length := String.length_toList.symm
  refine ⟨?_, ?_, ?_, ?_, ?_⟩
  · rw [toList_unescape, unescapeChars_eq_flatMap, hlength]
  · intro i
    rw [toList_unescape]
    exact escapeAt?_unescapeChars s.toList i
  · apply String.toList_injective
    rw [toList_unescape, toList_unescape]
    exact unescapeChars_of_no_escapes (escapeAt?_unescapeChars s.toList)
  · rw [hlength, ← length_unescapeChars s.toList, ← toList_unescape, String.length_toList]
  · intro t
    rw [← unescapeChars_append_iff, ← String.toList_inj]
    simp only [toList_unescape, String.toList_append]

end CSEMachine
