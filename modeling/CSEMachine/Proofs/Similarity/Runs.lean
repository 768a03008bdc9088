import CSEMachine.Proofs.Observation
import CSEMachine.Proofs.Similarity.Trees

/-!
# Runs of similar trees

Two machines that run the code of similar trees go step by step through corresponding
states.  The scopes of corresponding environments bind the variables of one context, so
that a name finds corresponding values on both sides, and a variable that is known to be
bound to a constant has that constant for its value.

Main results:

- Theorem `Scopes.Match.lookup_linked`: texts that stand for the same variable are looked
  up alike.
- Theorem `Correspondence.similar_lawful`: machines respect the similarity of code.
- Theorem `Machine.observe_similar`: programs of similar trees cannot be told apart.
-/

namespace CSEMachine

/-! ## Scopes of a context -/

section Scopes

variable (T T' : NameTable)

/-- The bindings of two scopes that bind the variables of a list. -/
structure Bindings.Match (vs : List Variable) (b b' : Bindings) : Prop where
  left : List.Forall₂ (fun v p => p.1 = T.nameOf v.left ∧
    ∀ k, v.constant = some k → p.2 = k.value) vs b
  right : List.Forall₂ (fun v p => p.1 = T'.nameOf v.right) vs b'

/-- Chains of scopes that bind the variables of a context. -/
inductive Scopes.Match (σ σ' : Array Bindings) : Context → List Nat → List Nat → Prop
  | nil : Match σ σ' [] [] []
  | cons {ctx : Context} {vs : List Variable} {n n' : Nat} {ns ns' : List Nat}
      (h : Bindings.Match T T' vs (σ[n]?.getD []) (σ'[n']?.getD []))
      (hrest : Match σ σ' ctx ns ns') : Match σ σ' (vs :: ctx) (n :: ns) (n' :: ns')

end Scopes

namespace Bindings.Match

variable {T T' : NameTable} {vs : List Variable} {b b' : Bindings}

/-- A scope binds a text when it has a variable of that text, to the constant that is
known of it. -/
theorem find?_left (h : Bindings.Match T T' vs b b') {x : String} (hx : x ∈ T.texts) :
    Option.Rel (fun v p => ∀ k, v.constant = some k → p = k.value)
      (vs.find? fun v => v.left = x) (b.find? (T.nameOf x)) := by
  have hleft := h.left
  clear h
  induction hleft with
  | nil => exact .none
  | @cons v p vs b hp _ ih =>
      rcases p with ⟨y, w⟩
      rcases hp with ⟨rfl, hconstant⟩
      have hname : T.nameOf x = T.nameOf v.left ↔ v.left = x :=
        (NameTable.nameOf_inj hx).trans eq_comm
      simp only [List.find?_cons, Bindings.find?, hname]
      by_cases heq : v.left = x
      · simp only [heq, decide_true, if_true]
        exact .some hconstant
      · simp only [heq, decide_false, if_false]
        exact ih

/-- Texts that stand for the same variable of a scope find corresponding values. -/
theorem find?_linked (h : Bindings.Match T T' vs b b') {V : Value → Value → Prop}
    (hlinked : List.Forall₂ (fun p p' => V p.2 p'.2) b b') {x x' : String}
    (hx : x ∈ T.texts) (hx' : x' ∈ T'.texts)
    (hsame : vs.find? (fun v => v.left = x) = vs.find? (fun v => v.right = x')) :
    Option.Rel V (b.find? (T.nameOf x)) (b'.find? (T'.nameOf x')) := by
  rcases h with ⟨hleft, hright⟩
  induction hleft generalizing b' with
  | nil =>
      cases hright
      exact .none
  | @cons v p vs b hp _ ih =>
      cases hright with
      | @cons _ p' _ b' hp' hright =>
      cases hlinked with
      | cons hv hlinked =>
      rcases p with ⟨y, w⟩
      rcases p' with ⟨y', w'⟩
      rcases hp with ⟨rfl, _⟩
      obtain rfl : y' = T'.nameOf v.right := hp'
      have hname : T.nameOf x = T.nameOf v.left ↔ v.left = x :=
        (NameTable.nameOf_inj hx).trans eq_comm
      have hname' : T'.nameOf x' = T'.nameOf v.right ↔ v.right = x' :=
        (NameTable.nameOf_inj hx').trans eq_comm
      simp only [List.find?_cons] at hsame
      simp only [Bindings.find?, hname, hname']
      by_cases heq : v.left = x
      · by_cases heq' : v.right = x'
        · simp only [heq, heq', if_true]
          exact .some hv
        · -- the right finds this variable too, and so has its text
          simp only [heq, heq', decide_true, decide_false] at hsame
          exact absurd (by simpa using List.find?_some hsame.symm) heq'
      · by_cases heq' : v.right = x'
        · simp only [heq, heq', decide_true, decide_false] at hsame
          exact absurd (by simpa using List.find?_some hsame) heq
        · simp only [heq, heq', decide_false] at hsame
          simp only [heq, heq', if_false]
          exact ih hlinked hsame hright

end Bindings.Match

namespace Scopes.Match

variable {T T' : NameTable} {σ σ' : Array Bindings} {ctx : Context} {ns ns' : List Nat}

/-- A variable that is known to be bound to a constant is. -/
theorem lookup_left (h : Scopes.Match T T' σ σ' ctx ns ns') {x : String} (hx : x ∈ T.texts) :
    Option.Rel (fun v p => ∀ k, v.constant = some k → p = k.value)
      (ctx.find? Variable.left x)
      (ns.findSome? fun n => Bindings.find? (T.nameOf x) (σ[n]?.getD [])) := by
  induction h with
  | nil => exact .none
  | @cons ctx vs n n' ns ns' h _ ih =>
      have hfind := h.find?_left hx
      simp only [Context.find?, List.findSome?_cons] at ih ⊢
      generalize vs.find? (fun v => v.left = x) = found at hfind ⊢
      generalize Bindings.find? (T.nameOf x) (σ[n]?.getD []) = bound at hfind ⊢
      cases hfind with
      | none => exact ih
      | some hconstant => exact .some hconstant

/-- Texts that stand for the same variable are looked up alike. -/
theorem lookup_linked (h : Scopes.Match T T' σ σ' ctx ns ns') {V : Value → Value → Prop}
    (hlinked : List.Forall₂ (fun n n' =>
      List.Forall₂ (fun p p' => V p.2 p'.2) (σ[n]?.getD []) (σ'[n']?.getD [])) ns ns')
    {x x' : String} (hx : x ∈ T.texts) (hx' : x' ∈ T'.texts)
    (hsame : ctx.find? Variable.left x = ctx.find? Variable.right x') :
    Option.Rel V (ns.findSome? fun n => Bindings.find? (T.nameOf x) (σ[n]?.getD []))
      (ns'.findSome? fun n => Bindings.find? (T'.nameOf x') (σ'[n]?.getD [])) := by
  induction h with
  | nil => exact .none
  | @cons ctx vs n n' ns ns' h _ ih =>
      cases hlinked with
      | cons hscope hlinked =>
      rcases Context.find?_cons_eq hsame with ⟨hfind, hrest⟩
      have hvalue := h.find?_linked hscope hx hx' hfind
      have hbound := h.find?_left hx
      simp only [List.findSome?_cons]
      generalize Bindings.find? (T.nameOf x) (σ[n]?.getD []) = found at hvalue hbound ⊢
      generalize Bindings.find? (T'.nameOf x') (σ'[n']?.getD []) = found' at hvalue ⊢
      cases hvalue with
      | some hv => exact .some hv
      | none =>
          refine ih hlinked (hrest ?_)
          generalize vs.find? (fun v => v.left = x) = known at hbound ⊢
          cases hbound
          rfl

/-- Adding scopes leaves the ones that exist as they are. -/
theorem push (h : Scopes.Match T T' σ σ' ctx ns ns') (hlt : ∀ n ∈ ns, n < σ.size)
    (hlt' : ∀ n ∈ ns', n < σ'.size) (b b' : Bindings) :
    Scopes.Match T T' (σ.push b) (σ'.push b') ctx ns ns' := by
  induction h with
  | nil => exact .nil
  | @cons ctx vs n n' ns ns' h _ ih =>
      have hn : n ≠ σ.size := Nat.ne_of_lt (hlt n List.mem_cons_self)
      have hn' : n' ≠ σ'.size := Nat.ne_of_lt (hlt' n' List.mem_cons_self)
      refine .cons ?_ (ih ?_ ?_)
      · rwa [Array.getElem?_push, if_neg hn, Array.getElem?_push, if_neg hn']
      · exact fun k hk => hlt k (List.mem_cons_of_mem _ hk)
      · exact fun k hk => hlt' k (List.mem_cons_of_mem _ hk)

end Scopes.Match

/-! ## The correspondence of similar trees -/

namespace Correspondence

/-- Code corresponds when it is that of similar trees in the context of its scopes. -/
def similar (T T' : NameTable) (s s' : Store) : Correspondence where
  tuples := (s.tuples.size, s'.tuples.size)
  scopes := (s.scopes.size, s'.scopes.size)
  name _ _ := True
  closure σ σ' c d := ∃ ctx, Scopes.Match T T' σ σ' ctx c.env.scopes d.env.scopes ∧
    Block.Similar T T' ctx c.block d.block
  instr σ σ' env env' i i' := ∃ ctx, Scopes.Match T T' σ σ' ctx env.scopes env'.scopes ∧
    Instr.Similar T T' ctx i i'
  index_eq := by
    rintro σ σ' c d ⟨ctx, _, h⟩
    generalize c.block = b at h ⊢
    generalize d.block = b' at h ⊢
    cases h
    rfl

variable {m m' : Machine} {s s' : Store}

/-- Texts that stand for the same push corresponding values. -/
theorem paired_alike {σ σ' : Array Bindings} {env env' : Env}
    (henv : (similar m.names m'.names s s').EnvLinked σ σ' env env') {ctx : Context}
    (hctx : Scopes.Match m.names m'.names σ σ' ctx env.scopes env'.scopes) (line : Nat)
    {x x' : String} (h : ctx.Alike x x') (hx : x ∈ m.names.texts) (hx' : x' ∈ m'.names.texts) :
    (similar m.names m'.names s s').Paired m m' σ σ' env env'
      (.ident line (m.names.nameOf x)) (.ident line (m'.names.nameOf x')) := by
  refine .pushes rfl ?_
  rintro t t' rfl rfl ht
  have hlinked := List.Forall₂.imp (fun n n' hn =>
    List.Forall₂.imp (fun _ _ hp => hp.2) (ht.scopes hn.1)) henv
  have hlookup : Option.Rel _ (env.lookup t (m.names.nameOf x))
      (env'.lookup t' (m'.names.nameOf x')) := hctx.lookup_linked hlinked hx hx' h.1
  have hknown : Option.Rel _ (ctx.find? Variable.left x) (env.lookup t (m.names.nameOf x)) :=
    hctx.lookup_left hx
  have htext : m.names.text (m.names.nameOf x) = x := (NameTable.Grows.refl _).text_nameOf hx
  have htext' : m'.names.text (m'.names.nameOf x') = x' :=
    (NameTable.Grows.refl _).text_nameOf hx'
  simp only [Instr.pushed?, htext, htext']
  generalize env.lookup t (m.names.nameOf x) = found at hlookup hknown ⊢
  generalize env'.lookup t' (m'.names.nameOf x') = found' at hlookup ⊢
  cases hlookup with
  | some hv => exact ⟨_, _, rfl, rfl, .ok hv⟩
  | none =>
      have hfree : ctx.find? Variable.left x = none := by
        generalize ctx.find? Variable.left x = known at hknown ⊢
        cases hknown
        rfl
      obtain rfl := h.2 hfree
      cases Builtin.ofSpelling? x with
      | some b => exact ⟨_, _, rfl, rfl, .ok (.builtin b)⟩
      | none => exact ⟨_, _, rfl, rfl, .error _⟩

/-- A variable that is known to be bound to a constant pushes what the constant does. -/
theorem paired_known {σ σ' : Array Bindings} {env env' : Env} {ctx : Context}
    (hctx : Scopes.Match m.names m'.names σ σ' ctx env.scopes env'.scopes) (line : Nat)
    {x : String} {k : Constant} (h : ctx.Knows x k) (hx : x ∈ m.names.texts) :
    (similar m.names m'.names s s').Paired m m' σ σ' env env'
      (.ident line (m.names.nameOf x)) (k.instr line) := by
  have hline : (k.instr line).line = line := by cases k <;> rfl
  refine .pushes hline.symm ?_
  rintro t t' rfl rfl _
  have hknown : Option.Rel _ (ctx.find? Variable.left x) (env.lookup t (m.names.nameOf x)) :=
    hctx.lookup_left hx
  rcases h with ⟨v, hv, hconstant⟩
  rw [hv] at hknown
  simp only [Instr.pushed?]
  generalize env.lookup t (m.names.nameOf x) = found at hknown ⊢
  cases hknown with
  | some hvalue =>
      obtain rfl := hvalue k hconstant
      cases k with
      | literal v => exact ⟨_, _, rfl, rfl, .ok (.literal v)⟩
      | fixpoint => exact ⟨_, _, rfl, rfl, .ok .fixpoint⟩

/-- Code of similar trees corresponds in the scopes of their context. -/
theorem similar_code {σ σ' : Array Bindings} {env env' : Env} {ctx : Context} {T T' : NameTable}
    (hctx : Scopes.Match T T' σ σ' ctx env.scopes env'.scopes) {code code' : List Instr}
    (h : List.Forall₂ (Instr.Similar T T' ctx) code code') :
    List.Forall₂ ((similar T T' s s').instr σ σ' env env') code code' :=
  List.Forall₂.imp (fun _ _ hi => ⟨ctx, hctx, hi⟩) h

/-- A scope that binds the names of variables of which nothing is known matches them. -/
theorem match_names {T T' : NameTable} {vs : List Variable} {b b' : Bindings}
    (hunknown : ∀ v ∈ vs, v.constant = none)
    (hb : b.map Prod.fst = (vs.map Variable.left).map T.nameOf)
    (hb' : b'.map Prod.fst = (vs.map Variable.right).map T'.nameOf) :
    Bindings.Match T T' vs b b' := by
  constructor
  · clear hb'
    induction vs generalizing b with
    | nil =>
        obtain rfl : b = [] := by simpa using hb
        exact .nil
    | cons v vs ih =>
        cases b with
        | nil => simp at hb
        | cons p b =>
            simp only [List.map_cons, List.cons.injEq] at hb
            have hv := hunknown v List.mem_cons_self
            refine .cons ⟨hb.1, by simp [hv]⟩ (ih ?_ hb.2)
            exact fun w hw => hunknown w (List.mem_cons_of_mem _ hw)
  · rw [List.map_map, ← List.forall₂_eq_eq_eq, List.forall₂_map_left_iff,
      List.forall₂_map_right_iff] at hb'
    exact hb'.flip

/-- Machines respect the similarity of code. -/
theorem similar_lawful (hlimit : m.maxDepth = m'.maxDepth)
    (hdrops : m.dropsCallers = m'.dropsCallers) (s s' : Store) :
    (similar m.names m'.names s s').Lawful m m' where
  limit_eq := hlimit
  drops_eq := hdrops
  closure_push := by
    rintro σ σ' c d b b' henv ⟨ctx, hctx, h⟩
    exact ⟨ctx, hctx.push henv.lt_size.1 henv.lt_size.2 b b', h⟩
  instr_push := by
    rintro σ σ' env env' i i' b b' henv ⟨ctx, hctx, h⟩
    exact ⟨ctx, hctx.push henv.lt_size.1 henv.lt_size.2 b b', h⟩
  paired := by
    rintro σ σ' env env' i i' henv ⟨ctx, hctx, h⟩
    cases h with
    | ident line h hx hx' => exact paired_alike henv hctx line h hx hx'
    | constant line h hx => exact paired_known hctx line h hx
    | literal line v => exact paired_literal σ σ' env env' line v
    | fixpoint line => exact paired_fixpoint σ σ' env env' line
    | lambda line h => exact paired_lambda henv line ⟨ctx, hctx, h⟩
    | binary line op => exact .binary line op
    | unary line op => exact .unary line op
    | tuple line arity => exact .tuple line arity
    | apply line => exact .apply line
    | branch line n k ht he hlists hlists' =>
        refine .branch line (similar_code hctx ?_) (similar_code hctx ?_)
        · exact ht.flatten hlists.left hlists'.left n .nil
        · exact he.flatten hlists.right hlists'.right k .nil
  params := by
    rintro σ σ' c d ⟨ctx, _, h⟩
    generalize c.block = b at h ⊢
    generalize d.block = b' at h ⊢
    cases h with
    | mk n vs hleft hright hunknown hbody hlists hlists' =>
        refine ⟨fun x x' => ∃ v ∈ vs, x = m.names.nameOf v.left ∧ x' = m'.names.nameOf v.right,
          ?_, fun _ => trivial, ?_⟩
        · rintro x x' y y' ⟨v, hv, rfl, rfl⟩ ⟨w, hw, rfl, rfl⟩
          have hlisted := hlists.left v.left (List.mem_map_of_mem hv)
          have hlisted' := hlists'.left v.right (List.mem_map_of_mem hv)
          rw [NameTable.nameOf_inj hlisted, NameTable.nameOf_inj hlisted']
          constructor
          · intro heq
            rw [List.inj_on_of_nodup_map hleft hv hw heq]
          · intro heq
            rw [List.inj_on_of_nodup_map hright hv hw heq]
        · simp only [Block.ofLambda, List.map_map, List.forall₂_map_left_iff,
            List.forall₂_map_right_iff, List.forall₂_same]
          exact fun v hv => ⟨v, hv, rfl, rfl⟩
  code := by
    rintro σ σ' ⟨block, env⟩ ⟨block', env'⟩ b b' henv ⟨ctx, hctx, h⟩ _ hkeys hkeys'
    cases h with
    | mk n vs hleft hright hunknown hbody hlists hlists' =>
        have hb := hkeys (hlists.left.nodup_map_nameOf hleft)
        have hb' := hkeys' (hlists'.left.nodup_map_nameOf hright)
        have hmatch : Scopes.Match m.names m'.names (σ.push b) (σ'.push b') (vs :: ctx)
            (σ.size :: env.scopes) (σ'.size :: env'.scopes) := by
          refine .cons ?_ (hctx.push henv.lt_size.1 henv.lt_size.2 b b')
          simpa using match_names hunknown hb hb'
        exact similar_code hmatch (hbody.flatten hlists.right hlists'.right (n + 1) .nil)

end Correspondence

/-! ## Programs of similar trees -/

namespace Machine

variable {m m' : Machine}

/-- Runs of similar trees begin in correspondence. -/
theorem start_similar (hlimit : m.maxDepth = m'.maxDepth)
    (hdrops : m.dropsCallers = m'.dropsCallers) {t t' : Term} (h : Term.Similar [[]] t t')
    (hlists : m.names.Lists t.texts) (hlists' : m'.names.Lists t'.texts) (standardized : Bool)
    (s s' : Store) :
    Transition.Related (Correspondence.similar m.names m'.names s s').Related
      (m.start (t.program standardized m.names).root s)
      (m'.start (t'.program standardized m'.names).root s') := by
  have hC := Correspondence.similar_lawful hlimit hdrops s s'
  have hbegins : (Correspondence.similar m.names m'.names s s').BeginsWith s s' := ⟨rfl, rfl⟩
  -- the root scope binds nothing
  have hroot : Scopes.Match m.names m'.names (s.scopes.push []) (s'.scopes.push []) [[]]
      [s.scopes.size] [s'.scopes.size] := by
    refine .cons ?_ .nil
    rw [Array.getElem?_push_size, Array.getElem?_push_size]
    exact ⟨.nil, .nil⟩
  refine Correspondence.start_related hC hbegins ?_
  exact Correspondence.similar_code hroot (h.flatten hlists hlists' 1 .nil)

/-- Programs of similar trees cannot be told apart: they show the same after any number of
steps, and have printed the same, whatever tables their names come from and whatever
happened before. -/
theorem observe_similar {t t' : Term} (h : Term.Similar [[]] t t') (ht : t.WellBound)
    (standardized : Bool) (table table' : NameTable) :
    ∃ p p' table₁ table₁', Program.ofTerm t standardized table = (.ok p, table₁) ∧
      Program.ofTerm t' standardized table' = (.ok p', table₁') ∧
      ∀ (m m' : Machine) (session session' : Session), table₁.Grows m.names →
        table₁'.Grows m'.names → m.maxDepth = m'.maxDepth → m.dropsCallers = m'.dropsCallers →
        ∀ fuel, m.observe fuel p session = m'.observe fuel p' session' ∧
          (m.after fuel (m.start p.root session.store)).printed =
            (m'.after fuel (m'.start p'.root session'.store)).printed := by
  have hp := Program.ofTerm_of_wellBound ht standardized table (NameTable.Grows.refl _)
  have hp' := Program.ofTerm_of_wellBound (h.wellBound ht) standardized table'
    (NameTable.Grows.refl _)
  refine ⟨_, _, _, _, hp, hp', ?_⟩
  intro m m' session session' hgrows hgrows' hlimit hdrops fuel
  rcases Program.of_ofTerm hp hgrows with ⟨_, heq, hlists⟩
  rcases Program.of_ofTerm hp' hgrows' with ⟨_, heq', hlists'⟩
  rw [heq, heq']
  have hC := Correspondence.similar_lawful hlimit hdrops session.store session'.store
  have hrelated := Correspondence.after_related hC
    (start_similar hlimit hdrops h hlists hlists' standardized session.store session'.store) fuel
  refine ⟨?_, Correspondence.printed_eq hrelated⟩
  cases standardized with
  | true =>
      rw [observe_of_not_refused (m.refusal?_program _),
        observe_of_not_refused (m'.refusal?_program _)]
      exact Correspondence.observation?_eq hrelated
  | false => rfl

end Machine

end CSEMachine
