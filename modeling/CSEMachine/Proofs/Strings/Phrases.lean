import CSEMachine.Proofs.DepthLimit
import CSEMachine.Proofs.Direct.Simulation
import CSEMachine.Proofs.Nesting.Maps
import CSEMachine.Proofs.Strings.Numerals

/-!
# Strings taken apart and put together

The built-in functions on strings can be nested in any way.  Whatever the lines that a tree of
them is on and the names that its program is given, the machine evaluates it to one string,
prints nothing and does not need more than the activation of the program itself.

Main results:

- Theorem `Phrase.leads`: the code of a phrase leaves its string on the stack.
- Theorem `Phrase.means_iff`: a phrase means one string.
- Theorem `Phrase.strings_run`: the laws that these strings obey.
-/

namespace CSEMachine

/-! ## What a tree gives -/

/-- Whatever its names and in every session, the program of a tree evaluates to a value and
prints texts, if a machine may have an activation at all. -/
def Term.Gives (t : Term) (v : Value) (texts : List String) : Prop :=
  ∀ table : NameTable, ∃ p table', Program.ofTerm t true table = (.ok p, table') ∧
    ∀ m : Machine, table'.Grows m.names → m.maxDepth ≠ some 0 → ∀ session : Session,
      ∃ fuel store, m.evaluate fuel p session =
        some (.ok ⟨texts.getLast?, some v⟩, ⟨store, session.sink.writeAll texts⟩)

namespace Machine

variable {m : Machine} {env : Env} {code : List Instr} {callers : List Frame}
  {stack : List Value} {store : Store} {printed : Array String}

/-- The state in which the code of a whole tree begins to run. -/
def opening (m : Machine) (t : Term) (store : Store) : State :=
  ⟨[⟨(Env.root store).1, (t.named m.names.nameOf 1).flatten []⟩], [], (Env.root store).2, #[]⟩

/-- A program is run from there unless the machine may have no activation. -/
theorem start_program (hdepth : m.maxDepth ≠ some 0) (t : Term) (store : Store) :
    m.start (t.program true m.names).root store = .next (m.opening t store) := by
  have hlimit : m.limitAbove? [] = none := by
    rw [limitAbove?]
    split
    · rename_i limit hmax
      have hpos : limit ≠ 0 := fun heq => hdepth (heq ▸ hmax)
      exact if_neg (by simpa using hpos)
    · rfl
  simp only [start, hlimit]
  rfl

/-- A name that is not bound gives the built-in that its text spells. -/
theorem step_builtin (hroot : ∀ x, env.lookup store x = none) {b : Builtin} (line : Nat)
    (hlisted : b.spelling ∈ m.names.texts) :
    m.step ⟨⟨env, .ident line (m.names.nameOf b.spelling) :: code⟩ :: callers, stack, store,
        printed⟩ =
      .next ⟨⟨env, code⟩ :: callers, .builtin b :: stack, store, printed⟩ := by
  have htext := (NameTable.Grows.refl m.names).text_nameOf hlisted
  have hspelled : Builtin.ofSpelling? b.spelling = some b :=
    Builtin.ofSpelling?_eq_some_iff.mpr List.mem_cons_self
  simp only [step_cons_cons, Instr.perform_eq, Focus.ident_eq, hroot, htext, hspelled]
  rfl

/-- A built-in of one operand gives what it gives. -/
theorem step_applied {b : Builtin} (hprint : b ≠ .print) (hconc : b ≠ .conc) {u v : Value}
    (happly : b.apply store u = .ok v) (line : Nat) :
    m.step ⟨⟨env, .apply line :: code⟩ :: callers, .builtin b :: u :: stack, store, printed⟩ =
      .next ⟨⟨env, code⟩ :: callers, v :: stack, store, printed⟩ := by
  simp only [step_cons_cons, Instr.perform_eq, Focus.apply_eq, Focus.applyValue_eq,
    Focus.applyBuiltin_of_ne hprint hconc, happly]
  rfl

end Machine

/-- A tree gives what running its code leads to. -/
theorem Term.gives_of_leads {t : Term} (ht : t.WellBound) {v : Value} {texts : List String}
    (h : ∀ (m : Machine) (store : Store), m.names.Lists t.texts →
      ∃ env store', m.Leads (m.opening t store)
        ⟨[⟨env, []⟩], [v], store', texts.toArray⟩) : t.Gives v texts := by
  intro table
  refine Machine.exists_program ht table fun m hlists hdepth session => ?_
  rcases h m session.store hlists with ⟨env, store', n, hn⟩
  refine ⟨2 + n, store', ?_⟩
  rw [Machine.evaluate, m.refusal?_program t]
  simp only [Machine.start_program hdepth t, Machine.finish_add_of_after hn]
  simp [Machine.finish, Machine.Ending.toResult, Except.map]

/-- It gives nothing else. -/
theorem Term.Gives.unique {t : Term} {v v' : Value} {texts texts' : List String}
    (h : t.Gives v texts) (h' : t.Gives v' texts') : v = v' := by
  rcases h ⟨0, []⟩ with ⟨p, table, hp, hgives⟩
  rcases h' ⟨0, []⟩ with ⟨p', table', hp', hgives'⟩
  rw [hp] at hp'
  cases hp'
  let m : Machine := ⟨table, none, true⟩
  rcases hgives m (.refl _) nofun (.fresh .silent) with ⟨fuel, store, hevaluate⟩
  rcases hgives' m (.refl _) nofun (.fresh .silent) with ⟨fuel', store', hevaluate'⟩
  have hsame := Machine.evaluate_unique hevaluate hevaluate'
  simp only [Prod.mk.injEq, Except.ok.injEq, Evaluation.mk.injEq, Option.some.injEq] at hsame
  exact hsame.1.2

/-! ## First characters -/

namespace Builtin

/-- A string that is not empty has a first character. -/
theorem length_stemText (s : String) : (stemText s).length = if s = "" then 0 else 1 := by
  rw [← String.length_toList, stemText, String.toList_ofList, List.length_take]
  split
  · rename_i hs
    rw [hs]
    rfl
  · rename_i hs
    rw [← String.toList_eq_nil_iff] at hs
    have hpos := List.length_pos_iff.mpr hs
    omega

variable {s : String}

/-- It is the first one of what the string begins. -/
theorem stemText_append (hs : s ≠ "") (t : String) : stemText (s ++ t) = stemText s := by
  rw [ne_eq, ← String.toList_eq_nil_iff] at hs
  rw [stemText, stemText, String.toList_append,
    List.take_append_of_le_length (List.length_pos_iff.mpr hs)]

/-- What comes after it comes before the rest of what the string begins. -/
theorem sternText_append (hs : s ≠ "") (t : String) :
    sternText (s ++ t) = sternText s ++ t := by
  rw [ne_eq, ← String.toList_eq_nil_iff] at hs
  apply String.toList_injective
  rw [sternText, sternText, String.toList_append, String.toList_append, String.toList_ofList,
    String.toList_ofList, List.drop_append_of_le_length (List.length_pos_iff.mpr hs)]

end Builtin

/-! ## Phrases -/

/-- Strings, numerals, and what the built-in functions on strings make of them. -/
inductive Phrase where
  | text (s : String)
  | numeral (n : Int64)
  | stem (p : Phrase)
  | stern (p : Phrase)
  | conc (p q : Phrase)

namespace Phrase

/-- The string that a phrase stands for. -/
def value : Phrase → String
  | text s => s
  | numeral n => toString n
  | stem p => Builtin.stemText p.value
  | stern p => Builtin.sternText p.value
  | conc p q => p.value ++ q.value

/-- The application of a built-in function.  The line of a node goes by the way to it from the
outermost one, to the operator or to the operand. -/
def call (line : List Bool → Nat) (b : Builtin) (operand : Term) : Term :=
  .app (line []) (.ident (line [true]) b.spelling) operand

/-- The tree of a phrase, every node of it on a line of its own. -/
def term : Phrase → (List Bool → Nat) → Term
  | text s, line => .literal (line []) (.str s)
  | numeral n, line => call line .itoS (.literal (line [false]) (.int n))
  | stem p, line => call line .stem (p.term fun way => line (false :: way))
  | stern p, line => call line .stern (p.term fun way => line (false :: way))
  | conc p q, line =>
    .app (line []) (call (fun way => line (true :: way)) .conc
      (p.term fun way => line (true :: false :: way))) (q.term fun way => line (false :: way))

theorem wellBound_term (p : Phrase) (line : List Bool → Nat) : (p.term line).WellBound := by
  induction p generalizing line with
  | text s => trivial
  | numeral n => exact ⟨trivial, trivial⟩
  | stem p ih => exact ⟨trivial, ih _⟩
  | stern p ih => exact ⟨trivial, ih _⟩
  | conc p q ihp ihq => exact ⟨⟨trivial, ihp _⟩, ihq _⟩

/-! ## Runs of phrases -/

section Runs

variable {m : Machine} {env : Env} {callers : List Frame} {store : Store}
  {printed : Array String}

/-- After the code of its operand, that of a built-in function leaves its value. -/
theorem leads_call (hroot : ∀ x, env.lookup store x = none) {b : Builtin} (hprint : b ≠ .print)
    (hconc : b ≠ .conc) {line : List Bool → Nat} {t : Term} {u v : Value}
    (hlists : m.names.Lists (call line b t).texts) (happly : b.apply store u = .ok v)
    (hoperand : ∀ (n : Nat) (code : List Instr) (stack : List Value), m.Leads
      ⟨⟨env, (t.named m.names.nameOf n).flatten code⟩ :: callers, stack, store, printed⟩
      ⟨⟨env, code⟩ :: callers, u :: stack, store, printed⟩)
    (n : Nat) (code : List Instr) (stack : List Value) :
    m.Leads
      ⟨⟨env, ((call line b t).named m.names.nameOf n).flatten code⟩ :: callers, stack, store,
        printed⟩
      ⟨⟨env, code⟩ :: callers, v :: stack, store, printed⟩ := by
  have hlisted := hlists b.spelling List.mem_cons_self
  simp only [call, Term.named, Expr.flatten]
  refine (hoperand _ _ _).trans ?_
  exact (Machine.Leads.of_step (Machine.step_builtin hroot _ hlisted)).trans
    (.of_step (Machine.step_applied hprint hconc happly _))

/-- The code of a phrase leaves its string on the stack and changes nothing else. -/
theorem leads (hroot : ∀ x, env.lookup store x = none) (p : Phrase) (line : List Bool → Nat)
    (hlists : m.names.Lists (p.term line).texts) (n : Nat) (code : List Instr)
    (stack : List Value) :
    m.Leads
      ⟨⟨env, ((p.term line).named m.names.nameOf n).flatten code⟩ :: callers, stack, store,
        printed⟩
      ⟨⟨env, code⟩ :: callers, .str p.value :: stack, store, printed⟩ := by
  induction p generalizing line n code stack with
  | text s => exact .of_step rfl
  | numeral k =>
      have hoperand : ∀ (n : Nat) (code : List Instr) (stack : List Value), m.Leads
          ⟨⟨env, .literal (line [false]) (.int k) :: code⟩ :: callers, stack, store, printed⟩
          ⟨⟨env, code⟩ :: callers, .int k :: stack, store, printed⟩ :=
        fun _ _ _ => .of_step rfl
      exact leads_call hroot (b := .itoS) nofun nofun hlists rfl hoperand n code stack
  | stem p ih =>
      have hoperand := ih (fun way => line (false :: way)) hlists.right
      exact leads_call hroot (b := .stem) nofun nofun hlists rfl hoperand n code stack
  | stern p ih =>
      have hoperand := ih (fun way => line (false :: way)) hlists.right
      exact leads_call hroot (b := .stern) nofun nofun hlists rfl hoperand n code stack
  | conc p q ihp ihq =>
      have hlisted := hlists.left.left Builtin.conc.spelling List.mem_cons_self
      simp only [term, call, Term.named, Expr.flatten]
      -- the operands from right to left, then `Conc` with both applications at once
      refine (ihq _ hlists.right _ _ _).trans ?_
      refine (ihp _ hlists.left.right _ _ _).trans ?_
      refine (Machine.Leads.of_step (Machine.step_builtin hroot _ hlisted)).trans ?_
      exact .of_step rfl

end Runs

/-- The root of a program binds nothing. -/
theorem lookup_root (store : Store) (x : Name) :
    (Env.root store).1.lookup (Env.root store).2 x = none :=
  (Env.Nests.root store).lookup_eq x

/-! ## What phrases mean -/

/-- A phrase means a string if its tree gives that and prints nothing, whatever the lines. -/
def Means (p : Phrase) (s : String) : Prop :=
  ∀ line, (p.term line).Gives (.str s) []

/-- Two phrases mean the same string. -/
def SameMeaning (p q : Phrase) : Prop :=
  ∃ s, p.Means s ∧ q.Means s

/-- A phrase means the string that it stands for. -/
theorem means_value (p : Phrase) : p.Means p.value := by
  intro line
  refine Term.gives_of_leads (p.wellBound_term line) ?_
  intro m store hlists
  exact ⟨_, _, leads (lookup_root store) p line hlists 1 [] []⟩

/-- It means no other one. -/
theorem means_iff {p : Phrase} {s : String} : p.Means s ↔ p.value = s := by
  constructor
  · intro h
    have hsame := (p.means_value fun _ => 0).unique (h fun _ => 0)
    exact Value.str.inj hsame
  · rintro rfl
    exact p.means_value

theorem sameMeaning_iff {p q : Phrase} : p.SameMeaning q ↔ p.value = q.value := by
  constructor
  · rintro ⟨s, hp, hq⟩
    rw [means_iff.mp hp, means_iff.mp hq]
  · intro h
    exact ⟨q.value, means_iff.mpr h, q.means_value⟩

/-- `Print` records the text of an integer. -/
theorem gives_print (line : List Bool → Nat) (n : Int64) :
    (call line .print (.literal (line [false]) (.int n))).Gives .dummy [toString n] := by
  have hwell : (call line .print (.literal (line [false]) (.int n))).WellBound :=
    ⟨trivial, trivial⟩
  refine Term.gives_of_leads hwell ?_
  intro m store hlists
  have hlisted := hlists Builtin.print.spelling List.mem_cons_self
  refine ⟨(Env.root store).1, (Env.root store).2, ?_⟩
  refine (Machine.Leads.of_step rfl).trans ?_
  refine (Machine.Leads.of_step (Machine.step_builtin (lookup_root store) _ hlisted)).trans ?_
  refine .of_step ?_
  rw [← Value.printed_int (Env.root store).2 n]
  rfl

/-- Taking the first character away several times takes as many characters away. -/
theorem toList_stern_iterate (p : Phrase) (k : Nat) :
    (stern^[k] p).value.toList = p.value.toList.drop k := by
  induction k with
  | zero => rfl
  | succ k ih =>
      rw [Function.iterate_succ_apply', value, Builtin.sternText, String.toList_ofList, ih,
        List.drop_drop]

/-- The built-in functions take every string apart and put it together again: the first
character and the rest make up the string, and nothing is left after as many rests as there
are characters, but not before.  Joining strings is associative, has the empty string for its
unit and does not change the first character of a string that has one.  The numeral of an
integer is what is printed for it, has no superfluous digit or sign, and is read back as the
integer, so that different integers have different numerals. -/
theorem strings_run :
    (∀ s, (text s).Means s) ∧
    (∀ p s, p.Means s →
      (conc (stem p) (stern p)).Means s ∧
      (∃ first, (stem p).Means first ∧ first.length = if s = "" then 0 else 1) ∧
      ∀ k, (stern^[k] p).Means "" ↔ s.length ≤ k) ∧
    (∀ p q r, (conc (conc p q) r).SameMeaning (conc p (conc q r))) ∧
    (∀ p, (conc p (text "")).SameMeaning p ∧ (conc (text "") p).SameMeaning p) ∧
    (∀ p q s, p.Means s → s ≠ "" →
      (stem (conc p q)).SameMeaning (stem p) ∧
      (stern (conc p q)).SameMeaning (conc (stern p) q)) ∧
    (∀ n : Int64, ∃ s, (numeral n).Means s ∧
      (∀ line, (call line .print (.literal (line [false]) (.int n))).Gives .dummy [s]) ∧
      Text.IsNumeral s.toList ∧ s.toInt? = some n.toInt) ∧
    ∀ n n', (numeral n).SameMeaning (numeral n') → n = n' := by
  simp only [means_iff, sameMeaning_iff]
  refine ⟨fun _ => rfl, ?_, fun p q r => ?_, fun p => ?_, ?_, fun n => ?_, ?_⟩
  · rintro p s rfl
    refine ⟨Builtin.stem_append_stern p.value, ⟨_, rfl, Builtin.length_stemText _⟩, fun k => ?_⟩
    rw [← String.toList_eq_nil_iff, toList_stern_iterate, List.drop_eq_nil_iff,
      String.length_toList]
  · simp only [value, String.append_assoc]
  · simp only [value, String.append_empty, String.empty_append, and_self]
  · rintro p q s rfl hs
    exact ⟨Builtin.stemText_append hs q.value, Builtin.sternText_append hs q.value⟩
  · exact ⟨_, rfl, fun line => gives_print line n, Text.isNumeral_toString n,
      Text.toInt?_toString n⟩
  · intro n n' h
    have hread := congrArg String.toInt? h
    simp only [value, Text.toInt?_toString, Option.some.injEq] at hread
    exact Int64.toInt_inj.mp hread

/-- Two rests leave nothing of a string of two characters, whatever their encoding. -/
theorem strings_run_greek :
    (conc (stem (text "λx")) (stern (text "λx"))).Means "λx" ∧
      (stern (stern (text "λx"))).Means "" ∧ ¬ (stern (text "λx")).Means "" ∧
      (stem (conc (text "λx") (text "y"))).SameMeaning (stem (text "λx")) := by
  rcases strings_run with ⟨htext, hparts, -, -, hjoined, -⟩
  rcases hparts _ _ (htext "λx") with ⟨hwhole, -, hrests⟩
  have hjoined := hjoined _ (text "y") _ (htext "λx") (by decide)
  exact ⟨hwhole, (hrests 2).mpr (by decide), fun h => absurd ((hrests 1).mp h) (by decide),
    hjoined.1⟩

end Phrase

end CSEMachine
