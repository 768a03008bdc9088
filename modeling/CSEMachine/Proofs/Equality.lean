import CSEMachine.Proofs.Unfolding
import CSEMachine.Value.Equality

/-!
# Equality and unfolded values

Comparing two values goes on level by level: two tuples by their elements, in turn, up to the
first difference, possibly after a look at whether they are the same tuple.  No pair of tuples
that is met again while it is under comparison is ever told apart or found equal, and only such
a pair keeps a comparison from ending.  Values without a cycle are compared to the end, and are
equal exactly if they unfold to the same tree.

Main results:

- Theorem `Value.compare?_eq_some_iff`: comparing gives an answer exactly if some number of
  levels is enough for it.
- Theorem `Value.compareTo_of_unfolds`: values that unfold are compared to the end, and are
  equal exactly if their trees are.
- Theorem `Value.closures_equal_iff`: closures are equal if they share their block and their
  environment.
- Theorem `Value.equal_structural`: equality of values without a cycle is equality of trees.
-/

namespace CSEMachine

/-! ## Comparing lists -/

/-- Lists are not told apart if their elements are not. -/
theorem compareAll_ne_false {compare : Value → Value → Option Bool} {vs ws : List Value}
    (h : List.Forall₂ (fun v w => compare v w ≠ some false) vs ws) :
    compareAll compare vs ws ≠ some false := by
  induction h with
  | nil => simp [compareAll]
  | cons hfirst _ ih =>
      rename_i v w _ _ _
      rw [compareAll]
      cases hcompare : compare v w with
      | none => simp
      | some b =>
          cases b with
          | false => exact absurd hcompare hfirst
          | true => simpa using ih

/-- A comparison of lists that ends does so with every comparison of the elements that ends
wherever this one does. -/
theorem compareAll_mono {compare compare' : Value → Value → Option Bool} {vs ws : List Value}
    {b : Bool} (h : compareAll compare vs ws = some b)
    (hle : ∀ v ∈ vs, ∀ w ∈ ws, ∀ c, compare v w = some c → compare' v w = some c) :
    compareAll compare' vs ws = some b := by
  induction vs generalizing ws with
  | nil => cases ws <;> exact h
  | cons v vs ih =>
      cases ws with
      | nil => exact h
      | cons w ws =>
          rw [compareAll] at h ⊢
          cases hfirst : compare v w with
          | none =>
              rw [hfirst] at h
              cases h
          | some c =>
              rw [hfirst] at h
              rw [hle v List.mem_cons_self w List.mem_cons_self c hfirst]
              cases c with
              | false => exact h
              | true =>
                  exact ih h fun x hx y hy =>
                    hle x (List.mem_cons_of_mem v hx) y (List.mem_cons_of_mem w hy)

namespace Value

variable {shortcut : Bool} {store : Store} {depth more : Nat} {v w : Value} {b : Bool}
variable {opened : List TuplePair}

/-! ## Comparing level by level -/

/-- Compares two values, unless more than `depth` levels are needed for it.  With the
`shortcut`, the elements of a tuple are not compared with themselves. -/
def compareTo (shortcut : Bool) (store : Store) : Nat → Value → Value → Option Bool
  | 0, _, _ => none
  | depth + 1, v, w =>
    match v, w with
    | .tuple r, .tuple q =>
      if shortcut ∧ r = q then some true
      else if store.order r = store.order q then
        compareAll (compareTo shortcut store depth) (store.items r).toList
          (store.items q).toList
      else some false
    | v, w => some (decide (v.leaf? = w.leaf?))

/-- Two values are tuples, or they are not both tuples. -/
theorem tuples_or_not (v w : Value) :
    (∃ r q, v = .tuple r ∧ w = .tuple q) ∨ ∀ r q, v = .tuple r → w = .tuple q → False := by
  by_cases h : ∃ r q, v = .tuple r ∧ w = .tuple q
  · exact Or.inl h
  · exact Or.inr fun r q hv hw => h ⟨r, q, hv, hw⟩

/-- Values that are not both tuples are compared as leaves. -/
theorem compareTo_of_not_tuples (h : ∀ r q, v = .tuple r → w = .tuple q → False) :
    v.compareTo shortcut store (depth + 1) w = some (decide (v.leaf? = w.leaf?)) := by
  unfold compareTo
  split
  · exact (h _ _ rfl rfl).elim
  · rfl

theorem compareTo_tuple (shortcut : Bool) (store : Store) (depth : Nat) (r q : Nat) :
    (Value.tuple r).compareTo shortcut store (depth + 1) (.tuple q) =
      if shortcut ∧ r = q then some true
      else if store.order r = store.order q then
        compareAll (compareTo shortcut store depth) (store.items r).toList
          (store.items q).toList
      else some false := by
  rw [compareTo]

/-- With the shortcut, a tuple equals itself at once. -/
theorem compareTo_shortcut_self (store : Store) (depth : Nat) (ref : Nat) :
    (Value.tuple ref).compareTo true store (depth + 1) (.tuple ref) = some true := by
  rw [compareTo_tuple, if_pos ⟨rfl, rfl⟩]

/-- No comparison tells a value from itself. -/
theorem compareTo_self_ne_false (shortcut : Bool) (store : Store) (depth : Nat) (v : Value) :
    v.compareTo shortcut store depth v ≠ some false := by
  induction depth generalizing v with
  | zero => simp [compareTo]
  | succ depth ih =>
      rcases v.tuples_or_not v with ⟨r, _, rfl, ⟨⟩⟩ | hv
      · rw [compareTo_tuple, if_pos rfl]
        split
        · simp
        · exact compareAll_ne_false (List.forall₂_same.mpr fun item _ => ih item)
      · simp [compareTo_of_not_tuples hv]

/-- A comparison that ends does so through more levels and with the shortcut too, and gives the
same answer. -/
theorem compareTo_mono (h : v.compareTo shortcut store depth w = some b) (hle : depth ≤ more) :
    v.compareTo true store more w = some b := by
  induction depth generalizing more v w b with
  | zero => cases h
  | succ depth ih =>
      rcases Nat.exists_eq_add_one.mpr (Nat.lt_of_lt_of_le (Nat.succ_pos depth) hle) with
        ⟨more, rfl⟩
      rcases v.tuples_or_not w with ⟨r, q, rfl, rfl⟩ | hvw
      · by_cases hsame : r = q
        · subst hsame
          cases b with
          | true => exact compareTo_shortcut_self store more r
          | false => exact absurd h (compareTo_self_ne_false shortcut store _ _)
        · have hdiffer : ∀ shortcut : Bool, ¬ (shortcut ∧ r = q) := fun _ h => hsame h.2
          rw [compareTo_tuple, if_neg (hdiffer _)] at h ⊢
          split
          · rename_i horder
            rw [if_pos horder] at h
            exact compareAll_mono h fun x _ y _ c hxy => ih hxy (Nat.le_of_succ_le_succ hle)
          · rename_i horder
            rw [if_neg horder] at h
            exact h
      · rw [compareTo_of_not_tuples hvw] at h ⊢
        exact h

/-- Fewer levels are not enough where more are not. -/
theorem compareTo_eq_none_of_le (h : v.compareTo true store more w = none)
    (hle : depth ≤ more) : v.compareTo true store depth w = none := by
  rw [Option.eq_none_iff_forall_ne_some] at h ⊢
  exact fun b hb => h b (compareTo_mono hb hle)

/-! ## Comparing to the end -/

theorem compareWithin_of_not_tuples (h : ∀ r q, v = .tuple r → w = .tuple q → False) :
    v.compareWithin store opened w = some (decide (v.leaf? = w.leaf?)) := by
  unfold compareWithin
  split
  · exact (h _ _ rfl rfl).elim
  · rfl

/-- A comparison that ends meets no pair again of which it is a part, since that pair takes more
levels. -/
theorem compareWithin_of_compareTo (h : v.compareTo true store depth w = some b)
    (hopened : ∀ p ∈ opened, (tuple p.1).compareTo true store depth (.tuple p.2) = none) :
    v.compareWithin store opened w = some b := by
  induction depth generalizing v w b opened with
  | zero => cases h
  | succ depth ih =>
      have hfewer : ∀ p ∈ opened, (tuple p.1).compareTo true store depth (.tuple p.2) = none :=
        fun p hp => compareTo_eq_none_of_le (hopened p hp) (Nat.le_succ depth)
      rcases v.tuples_or_not w with ⟨r, q, rfl, rfl⟩ | hvw
      · cases hless : (tuple r).compareTo true store depth (.tuple q) with
        | some c =>
            -- one level fewer is enough
            have hmore := compareTo_mono hless (Nat.le_succ depth)
            rw [h] at hmore
            cases hmore
            exact ih hless hfewer
        | none =>
            have hnew : (r, q) ∉ opened := by
              intro hmem
              rw [hopened (r, q) hmem] at h
              cases h
            rw [compareTo_tuple] at h
            rw [compareWithin_tuple]
            by_cases hsame : r = q
            · rw [if_pos ⟨rfl, hsame⟩] at h
              rw [if_pos hsame, h]
            · rw [if_neg (fun h => hsame h.2)] at h
              rw [if_neg hsame, if_neg hnew]
              split
              · rename_i horder
                rw [if_pos horder] at h
                refine compareAll_mono h fun x _ y _ c hxy => ih hxy fun p hp => ?_
                rcases List.mem_cons.mp hp with rfl | hp
                · exact hless
                · exact hfewer p hp
              · rename_i horder
                rw [if_neg horder] at h
                exact h
      · rw [compareTo_of_not_tuples hvw] at h
        rw [compareWithin_of_not_tuples hvw]
        exact h

/-- A comparison that comes to an end does so within one more level than there are pairs of
tuples to open. -/
theorem compareTo_of_compareWithin (h : v.compareWithin store opened w = some b)
    (hdepth : store.countUnopened opened < depth) :
    v.compareTo true store depth w = some b := by
  induction depth generalizing v w b opened with
  | zero => cases hdepth
  | succ depth ih =>
      rcases v.tuples_or_not w with ⟨r, q, rfl, rfl⟩ | hvw
      · rw [compareWithin_tuple] at h
        rw [compareTo_tuple]
        by_cases hsame : r = q
        · rw [if_pos hsame] at h
          rw [if_pos ⟨rfl, hsame⟩, h]
        · rw [if_neg hsame] at h
          rw [if_neg (fun h => hsame h.2)]
          split at h
          · cases h
          · rename_i hnew
            split at h
            · rename_i horder
              rw [if_pos horder]
              refine compareAll_mono h fun x hx y hy c hxy => ih hxy ?_
              have hr := Store.lt_size_of_items_ne_nil (List.ne_nil_of_mem hx)
              have hq := Store.lt_size_of_items_ne_nil (List.ne_nil_of_mem hy)
              exact Nat.lt_of_lt_of_le (Store.countUnopened_lt hr hq hnew)
                (Nat.le_of_lt_succ hdepth)
            · rename_i horder
              rw [if_neg horder, h]
      · rw [compareWithin_of_not_tuples hvw] at h
        rw [compareTo_of_not_tuples hvw]
        exact h

/-- Comparing gives an answer exactly if some number of levels is enough for it. -/
theorem compare?_eq_some_iff :
    v.compare? store w = some b ↔ ∃ depth, v.compareTo true store depth w = some b := by
  constructor
  · intro h
    exact ⟨_, compareTo_of_compareWithin h (Nat.lt_succ_self _)⟩
  · rintro ⟨depth, h⟩
    exact compareWithin_of_compareTo h fun p hp => absurd hp List.not_mem_nil

/-- Comparing never ends exactly if no number of levels is enough. -/
theorem compare?_eq_none_iff :
    v.compare? store w = none ↔ ∀ depth, v.compareTo true store depth w = none := by
  simp only [Option.eq_none_iff_forall_ne_some, ne_eq, compare?_eq_some_iff, not_exists]
  exact forall_comm

/-- Two tuples that each hold themselves are compared for ever. -/
example : (tuple 0).compare? ⟨#[#[.tuple 0], #[.tuple 1]], #[]⟩ (.tuple 1) = none := by
  simp [compare?, compareWithin_tuple, compareAll, Store.order, Store.items]

/-- A comparison that ends gives the right answer. -/
theorem compare?_of_compareTo (h : v.compareTo shortcut store depth w = some b) :
    v.compare? store w = some b :=
  compare?_eq_some_iff.mpr ⟨depth, compareTo_mono h (Nat.le_refl depth)⟩

theorem equal_of_compare? (h : v.compare? store w = some b) : v.equal store w = b := by
  simp [equal, h]

theorem equal_of_compareTo (h : v.compareTo shortcut store depth w = some b) :
    v.equal store w = b :=
  equal_of_compare? (compare?_of_compareTo h)

/-- An atom equals what is the same leaf. -/
theorem equal_atom (store : Store) (a : Atom) (w : Value) :
    a.1.equal store w = decide (a.1.leaf? = w.leaf?) :=
  equal_of_compare? (compareWithin_of_not_tuples fun r _ h _ => a.ne_tuple r h)

/-! ## Comparing unfolded values -/

variable {t u : Unfolded}

/-- Lists are compared by their trees if their elements are. -/
theorem exists_compareAll_unfolded {compare : Value → Value → Option Bool}
    {tree : Value → Option Unfolded} {vs ws : List Value} {ts us : List Unfolded}
    (hvs : List.Forall₂ (fun v t => tree v = some t) vs ts)
    (hws : List.Forall₂ (fun w u => tree w = some u) ws us)
    (h : ∀ {v w : Value} {t u : Unfolded}, tree v = some t → tree w = some u →
      ∃ b, compare v w = some b ∧ (b = true ↔ t = u)) :
    ∃ b, compareAll compare vs ws = some b ∧ (b = true ↔ ts = us) := by
  induction hvs generalizing ws us with
  | nil =>
      cases hws with
      | nil => exact ⟨true, rfl, by simp⟩
      | cons => exact ⟨false, rfl, by simp⟩
  | cons hv _ ih =>
      cases hws with
      | nil => exact ⟨false, rfl, by simp⟩
      | cons hw hws =>
          rcases h hv hw with ⟨first, hfirst, hiff⟩
          rcases ih hws with ⟨rest, hrest, hiffs⟩
          cases first with
          | false => exact ⟨false, by simp [compareAll, hfirst], by simp [← hiff]⟩
          | true =>
              refine ⟨rest, by simp [compareAll, hfirst, hrest], ?_⟩
              rw [hiffs, hiff.mp rfl]
              simp

/-- Values that unfold are compared to the end, and are equal exactly if their trees are. -/
theorem exists_compareTo_unfolded (shortcut : Bool) (hv : v.unfoldTo store depth = some t)
    (hw : w.unfoldTo store depth = some u) {more : Nat} (hless : depth < more) :
    ∃ b, v.compareTo shortcut store more w = some b ∧ (b = true ↔ t = u) := by
  induction more generalizing depth v w t u with
  | zero => cases hless
  | succ more ih =>
      rcases v.atom_or_tuple with ⟨a, rfl⟩ | ⟨r, rfl⟩
      · rw [unfoldTo_atom] at hv
        cases hv
        refine ⟨_, compareTo_of_not_tuples fun r _ h _ => a.ne_tuple r h, ?_⟩
        rw [decide_eq_true_iff, a.leaf?_eq]
        rcases w.atom_or_tuple with ⟨b, rfl⟩ | ⟨q, rfl⟩
        · rw [unfoldTo_atom] at hw
          cases hw
          simp [b.leaf?_eq]
        · rcases unfoldTo_tuple_eq_some.mp hw with ⟨_, _, -, rfl, -⟩
          simp
      · rcases unfoldTo_tuple_eq_some.mp hv with ⟨d, ts, rfl, rfl, hts⟩
        rcases w.atom_or_tuple with ⟨b, rfl⟩ | ⟨q, rfl⟩
        · rw [unfoldTo_atom] at hw
          cases hw
          refine ⟨_, compareTo_of_not_tuples fun _ q _ h => b.ne_tuple q h, ?_⟩
          simp [b.leaf?_eq]
        · rcases unfoldTo_tuple_eq_some.mp hw with ⟨_, us, ⟨⟩, rfl, hus⟩
          rw [compareTo_tuple]
          split
          · rename_i hsame
            obtain rfl := hsame.2
            rw [hv] at hw
            exact ⟨true, rfl, by simp [Option.some.inj hw]⟩
          · split
            · rcases exists_compareAll_unfolded hts hus
                (fun hx hy => ih hx hy (Nat.lt_of_succ_lt_succ hless)) with ⟨b, hb, hiff⟩
              exact ⟨b, hb, by simp [hiff]⟩
            · rename_i hsize
              refine ⟨false, rfl, ?_⟩
              have hlength : ts.length ≠ us.length := by
                rw [← hts.length_eq, ← hus.length_eq]
                exact hsize
              simp only [Bool.false_eq_true, Unfolded.tuple.injEq, false_iff]
              exact fun heq => hlength (congrArg List.length heq)

/-- So from some level on, they are compared to the end with the answer of equality, whether or
not elements of a tuple are compared with themselves. -/
theorem compareTo_of_unfolds (hv : v.Unfolds store t) (hw : w.Unfolds store u) :
    ∃ depth, ∀ more > depth, ∀ shortcut,
      v.compareTo shortcut store more w = some (v.equal store w) ∧
        (v.equal store w = true ↔ t = u) := by
  rcases hv with ⟨d, hd⟩
  rcases hw with ⟨d', hd'⟩
  refine ⟨max d d', fun more hmore shortcut => ?_⟩
  rcases exists_compareTo_unfolded shortcut (unfoldTo_mono hd (Nat.le_max_left d d'))
    (unfoldTo_mono hd' (Nat.le_max_right d d')) hmore with ⟨b, hb, hiff⟩
  rw [equal_of_compareTo hb]
  exact ⟨hb, hiff⟩

/-- Values that unfold are equal exactly if their trees are. -/
theorem equal_iff_of_unfolds (hv : v.Unfolds store t) (hw : w.Unfolds store u) :
    v.equal store w = true ↔ t = u := by
  rcases compareTo_of_unfolds hv hw with ⟨depth, h⟩
  exact (h (depth + 1) (Nat.lt_succ_self depth) true).2

/-- Equality of values without a cycle is an equivalence, being equality of trees. -/
theorem equivalence_equal (store : Store) :
    Equivalence fun v w : { v : Value // v.Acyclic store } => v.1.equal store w.1 = true where
  refl v := by
    rcases acyclic_iff_unfolds.mp v.2 with ⟨t, ht⟩
    exact (equal_iff_of_unfolds ht ht).mpr rfl
  symm {v w} h := by
    rcases acyclic_iff_unfolds.mp v.2 with ⟨t, ht⟩
    rcases acyclic_iff_unfolds.mp w.2 with ⟨u, hu⟩
    exact (equal_iff_of_unfolds hu ht).mpr ((equal_iff_of_unfolds ht hu).mp h).symm
  trans {v w x} h h' := by
    rcases acyclic_iff_unfolds.mp v.2 with ⟨t, ht⟩
    rcases acyclic_iff_unfolds.mp w.2 with ⟨u, hu⟩
    rcases acyclic_iff_unfolds.mp x.2 with ⟨s, hs⟩
    refine (equal_iff_of_unfolds ht hs).mpr ?_
    rw [(equal_iff_of_unfolds ht hu).mp h, (equal_iff_of_unfolds hu hs).mp h']

/-- A closure is a leaf, and so is one under the fixed-point operator.  Two of a kind are equal
if they share their block and their environment, two of different kinds are not. -/
theorem closures_equal_iff (store : Store) (c d : Closure) :
    (closure c).Unfolds store (.leaf (.closure c.block.id c.env)) ∧
    (eta c).Unfolds store (.leaf (.eta c.block.id c.env)) ∧
    ((closure c).equal store (.closure d) = true ↔
      c.block.id = d.block.id ∧ c.env = d.env) ∧
    ((eta c).equal store (.eta d) = true ↔ c.block.id = d.block.id ∧ c.env = d.env) ∧
    (closure c).equal store (.eta d) = false := by
  refine ⟨⟨0, rfl⟩, ⟨0, rfl⟩, ?_, ?_, ?_⟩
  · rw [equal_atom store ⟨closure c, rfl⟩]
    simp [leaf?]
  · rw [equal_atom store ⟨eta c, rfl⟩]
    simp [leaf?]
  · rw [equal_atom store ⟨closure c, rfl⟩]
    simp [leaf?]

/-- Equality is structural, for all sharing among tuples.

Comparing two values ends exactly if some number of levels is enough for it.  So it does for
two values without a cycle: they are compared to the end, alike with and without the look at
whether two tuples are the same, and found equal exactly if they unfold to the same tree.  A
function is a leaf of such a tree, the same leaf as another one of its kind exactly if the two
share one block, not only one like it, and one environment.  So this is an equivalence, and
equal values have the same text.  A tuple is equal to itself even if it has a cycle, and found
to be at once. -/
theorem equal_structural (store : Store) :
    (∀ (v w : Value) (b : Bool),
      v.compare? store w = some b ↔ ∃ depth, v.compareTo true store depth w = some b) ∧
    (∀ v w : Value, v.Acyclic store → w.Acyclic store →
      v.compare? store w = some (v.equal store w) ∧
      (∃ depth, ∀ more > depth, ∀ shortcut,
        v.compareTo shortcut store more w = some (v.equal store w)) ∧
      (∃ t u, v.Unfolds store t ∧ w.Unfolds store u ∧ (v.equal store w = true ↔ t = u)) ∧
      (v.equal store w = true → v.display store = w.display store)) ∧
    (∀ c d : Closure,
      (Value.closure c).Unfolds store (.leaf (.closure c.block.id c.env)) ∧
      (Value.eta c).Unfolds store (.leaf (.eta c.block.id c.env)) ∧
      ((Value.closure c).equal store (.closure d) = true ↔
        c.block.id = d.block.id ∧ c.env = d.env) ∧
      ((Value.eta c).equal store (.eta d) = true ↔ c.block.id = d.block.id ∧ c.env = d.env) ∧
      (Value.closure c).equal store (.eta d) = false) ∧
    Equivalence (fun v w : { v : Value // v.Acyclic store } => v.1.equal store w.1 = true) ∧
    ∀ ref : Nat, (Value.tuple ref).equal store (.tuple ref) = true ∧
      ∀ depth, (Value.tuple ref).compareTo true store (depth + 1) (.tuple ref) = some true := by
  refine ⟨fun v w b => compare?_eq_some_iff, fun v w hv hw => ?_, closures_equal_iff store,
    equivalence_equal store,
    fun ref => ⟨equal_tuple_self store ref, fun depth => compareTo_shortcut_self store depth ref⟩⟩
  rcases acyclic_iff_unfolds.mp hv with ⟨t, ht⟩
  rcases acyclic_iff_unfolds.mp hw with ⟨u, hu⟩
  rcases compareTo_of_unfolds ht hu with ⟨depth, hcompare⟩
  have hiff := equal_iff_of_unfolds ht hu
  have hends := hcompare (depth + 1) (Nat.lt_succ_self depth) true
  refine ⟨compare?_of_compareTo hends.1,
    ⟨depth, fun more hmore shortcut => (hcompare more hmore shortcut).1⟩,
    ⟨t, u, ht, hu, hiff⟩, fun hequal => ?_⟩
  rw [display_eq_text ht, display_eq_text hu, hiff.mp hequal]

end Value

/-- Pairs of a tuple with itself, and of that tuple with another one of the same elements. -/
def Store.twins : Store :=
  ⟨#[#[.str "a"], #[.str "a"], #[.tuple 0, .tuple 0], #[.tuple 0, .tuple 1]], #[]⟩

/-- The pairs are equal, although one of them holds a tuple twice and the other one does not.
Closures of two blocks that are alike in everything are not equal. -/
theorem Value.equal_structural_twins :
    let first : Closure := ⟨⟨⟨1, 0⟩, [], []⟩, ⟨0, []⟩⟩
    let second : Closure := ⟨⟨⟨1, 1⟩, [], []⟩, ⟨0, []⟩⟩
    (Value.tuple 2).Acyclic Store.twins ∧ (Value.tuple 3).Acyclic Store.twins ∧
      (Value.tuple 2).equal Store.twins (.tuple 3) = true ∧
      (Value.tuple 2).display Store.twins = (Value.tuple 3).display Store.twins ∧
      (Value.closure first).equal Store.twins (.closure first) = true ∧
      (Value.closure first).equal Store.twins (.closure second) = false := by
  intro first second
  have hleft : (Value.tuple 2).Acyclic Store.twins :=
    acyclic_iff_unfolds.mpr ⟨_, 2, rfl⟩
  have hright : (Value.tuple 3).Acyclic Store.twins :=
    acyclic_iff_unfolds.mpr ⟨_, 2, rfl⟩
  rcases equal_structural Store.twins with ⟨-, htuples, hclosures, -⟩
  rcases htuples (.tuple 2) (.tuple 3) hleft hright with ⟨-, -, ⟨t, u, ht, hu, hiff⟩, htext⟩
  have hequal : (Value.tuple 2).equal Store.twins (.tuple 3) = true :=
    hiff.mpr ((unfolds_unique ht ⟨2, rfl⟩).trans (unfolds_unique hu ⟨2, rfl⟩).symm)
  have hsame := (hclosures first first).2.2.1
  have hapart := (hclosures first second).2.2.1
  refine ⟨hleft, hright, hequal, htext hequal, hsame.mpr ⟨rfl, rfl⟩, ?_⟩
  rw [← Bool.not_eq_true, hapart]
  decide

end CSEMachine
