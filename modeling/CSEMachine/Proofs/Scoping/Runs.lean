import CSEMachine.Proofs.Correspondence.Runs
import CSEMachine.Proofs.Failures
import CSEMachine.Proofs.Frames
import CSEMachine.Proofs.Scoping.Places

/-!
# Lexical scoping

While the program of a tree runs, the scopes that an activation sees are exactly those
of the lambdas around the code that it runs, and the scopes that a closure was made in
those of the lambdas around its lambda.  So a name is undeclared only where no lambda
around it binds it.

Main results:

- Theorem `Correspondence.nested_lawful`: every machine respects the nesting of a tree.
- Theorem `Machine.binds_of_active`: what environment every activation runs in.
- Theorem `Machine.block_eq_of_id_eq`: the closures that are held share a block if they share
  its identity.
- Theorem `Machine.scoped_run`: what this means for whole evaluations.
-/

namespace CSEMachine

/-! ## Environments of a place -/

/-- A scope that binds exactly the given texts, in that order. -/
def Bindings.Bind (names : NameTable) (σ : Array Bindings) (n : Nat) (xs : List String) : Prop :=
  ∃ b, σ[n]? = some b ∧ b.map Prod.fst = xs.map names.nameOf

/-- The scopes of an environment, the innermost first, bind exactly the parameters of the
lambdas of a path, and the root below them binds nothing. -/
def Env.Binds (names : NameTable) (σ : Array Bindings) (path : List (List String)) (env : Env) :
    Prop :=
  List.Forall₂ (Bindings.Bind names σ) env.scopes (path ++ [[]])

/-- Adding a scope changes none that exists. -/
theorem Bindings.Bind.push {names : NameTable} {σ : Array Bindings} {n : Nat} {xs : List String}
    (h : Bindings.Bind names σ n xs) (b : Bindings) : Bindings.Bind names (σ.push b) n xs := by
  rcases h with ⟨b₀, hb₀, hkeys⟩
  have hne : n ≠ σ.size := by
    rintro rfl
    simp at hb₀
  exact ⟨b₀, by rwa [Array.getElem?_push, if_neg hne], hkeys⟩

namespace Env.Binds

variable {names : NameTable} {σ : Array Bindings} {path : List (List String)} {env : Env}

/-- Such an environment is as deep as the path is long. -/
theorem depth_eq (h : env.Binds names σ path) : env.depth = path.length := by
  have hlength := h.length_eq
  simpa [scopes, depth] using hlength

/-- Adding a scope changes no environment that exists. -/
theorem push (h : env.Binds names σ path) (b : Bindings) : env.Binds names (σ.push b) path :=
  List.Forall₂.imp (fun _ _ hn => hn.push b) h

/-- A new root binds nothing. -/
theorem root (names : NameTable) (σ : Array Bindings) :
    Env.Binds names (σ.push []) [] ⟨σ.size, []⟩ :=
  List.Forall₂.cons ⟨[], by simp, rfl⟩ .nil

/-- A new scope that binds the parameters of a lambda goes one lambda deeper. -/
theorem cons (h : env.Binds names σ path) {b : Bindings} {xs : List String}
    (hb : b.map Prod.fst = xs.map names.nameOf) :
    Env.Binds names (σ.push b) (xs :: path) ⟨σ.size, env.scopes⟩ :=
  List.Forall₂.cons ⟨b, by simp, hb⟩ (h.push b)

/-- A text is bound when a lambda of the path binds it. -/
theorem lookup_eq_none_iff {store : Store} (h : env.Binds names store.scopes path) {x : String}
    (hx : x ∈ names.texts) :
    env.lookup store (names.nameOf x) = none ↔ ∀ xs ∈ path, x ∉ xs := by
  have hlists : ∀ (ns : List Nat) (lists : List (List String)),
      List.Forall₂ (Bindings.Bind names store.scopes) ns lists →
      (ns.findSome? (fun n => (store.bindings n).find? (names.nameOf x)) = none ↔
        ∀ xs ∈ lists, x ∉ xs) := by
    intro ns lists hforall
    induction hforall with
    | nil => simp
    | @cons n xs ns lists hn _ ih =>
        rcases hn with ⟨b, hb, hkeys⟩
        have hscope : store.bindings n = b := by rw [Store.bindings, hb, Option.getD_some]
        have hmem : names.nameOf x ∈ xs.map names.nameOf ↔ x ∈ xs := by
          constructor
          · intro hmem
            rcases List.mem_map.mp hmem with ⟨y, hy, heq⟩
            exact (NameTable.nameOf_inj hx).mp heq.symm ▸ hy
          · exact List.mem_map_of_mem
        simp only [List.findSome?_cons, List.forall_mem_cons, ← ih, ← hmem, ← hkeys,
          ← Bindings.find?_eq_none_iff, hscope]
        cases b.find? (names.nameOf x) <;> simp
  have hpath := hlists env.scopes (path ++ [[]]) h
  rw [Env.lookup, hpath]
  simp [or_imp, forall_and]

end Env.Binds

/-- The parameters of a lambda in a well-bound tree have distinct names. -/
theorem Place.Inside.nodup_params {names : NameTable} {root : Place}
    (hwell : root.tree.WellBound) (hlisted : ∀ x ∈ root.tree.texts, x ∈ names.texts)
    {path : List (List String)} {n line : Nat} {xs : List String} {body : Term}
    (h : Place.Inside root ⟨path, n, .lambda line xs body⟩) :
    (xs.map names.nameOf).Nodup := by
  have hlists : names.Lists xs := fun x hx => hlisted x (h.texts (List.mem_append_left _ hx))
  exact hlists.nodup_map_nameOf (h.wellBound hwell).2.1

/-- The body of a lambda is inside what the lambda is inside. -/
theorem Place.Inside.body {root : Place} {path : List (List String)} {n line : Nat}
    {xs : List String} {body : Term} (h : Place.Inside root ⟨path, n, .lambda line xs body⟩) :
    Place.Inside root ⟨xs :: path, n + 1, body⟩ :=
  h.child List.mem_cons_self

/-! ## The correspondence of a tree with itself -/

/-- A closure of a lambda inside a place, made in the scopes of the lambdas around it. -/
def Closure.Scoped (names : NameTable) (root : Place) (σ : Array Bindings) (c : Closure) : Prop :=
  ∃ (path : List (List String)) (n line : Nat) (xs : List String) (body : Term),
    Place.Inside root ⟨path, n, .lambda line xs body⟩ ∧
      c.block = Block.ofLambda names n xs body ∧ c.env.Binds names σ path

namespace Correspondence

/-- The correspondence of a run with itself in which closures and code are in the scopes
of the lambdas around them. -/
def nested (names : NameTable) (root : Place) (store : Store) : Correspondence where
  tuples := (store.tuples.size, store.tuples.size)
  scopes := (store.scopes.size, store.scopes.size)
  name := Eq
  closure σ _ c d := c.block = d.block ∧ c.Scoped names root σ
  instr σ _ env _ i j := i = j ∧ ∃ path, env.Binds names σ path ∧ Instr.From names root path i
  index_eq h := by rw [h.1]

variable {names : NameTable} {root : Place} {store : Store}

/-- Code that comes from a tree stands for itself in the scopes around it. -/
theorem nested_code {σ : Array Bindings} {env : Env} {path : List (List String)}
    (henv : env.Binds names σ path) {code : List Instr}
    (h : ∀ i ∈ code, Instr.From names root path i) (σ' : Array Bindings) (env' : Env) :
    List.Forall₂ ((nested names root store).instr σ σ' env env') code code := by
  rw [List.forall₂_same]
  intro i hi
  exact ⟨rfl, path, henv, h i hi⟩

/-- Every machine respects the nesting of a tree. -/
theorem nested_lawful (m : Machine) {root : Place} (hwell : root.tree.WellBound)
    (hlisted : ∀ x ∈ root.tree.texts, x ∈ m.names.texts) (store : Store) :
    (nested m.names root store).Lawful m m where
  limit_eq := rfl
  drops_eq := rfl
  closure_push := by
    rintro σ σ' c d b b' _ ⟨hblock, path, n, line, xs, body, hinside, heq, hbinds⟩
    exact ⟨hblock, path, n, line, xs, body, hinside, heq, hbinds.push b⟩
  instr_push := by
    rintro σ σ' env env' i i' b b' _ ⟨rfl, path, hbinds, hfrom⟩
    exact ⟨rfl, path, hbinds.push b, hfrom⟩
  paired := by
    rintro σ σ' env env' i i' henv ⟨rfl, path, hbinds, hfrom⟩
    cases hfrom with
    | ident h => exact paired_ident (fun h => h) rfl henv _ _
    | lambda h => exact paired_lambda henv _ ⟨rfl, path, _, _, _, _, h, rfl, hbinds⟩
    | literal line v => exact paired_literal σ σ' env env' line v
    | fixpoint line => exact paired_fixpoint σ σ' env env' line
    | binary line op => exact .binary line op
    | unary line op => exact .unary line op
    | tuple line arity => exact .tuple line arity
    | apply line => exact .apply line
    | branch line ht he =>
        refine .branch line (nested_code hbinds ?_ _ _) (nested_code hbinds ?_ _ _)
        · exact Term.flatten_from _ _ ht nofun
        · exact Term.flatten_from _ _ he nofun
  params := by
    rintro σ σ' c d ⟨hblock, _⟩
    refine ⟨Eq, ?_, fun h => h, ?_⟩
    · rintro x x' y y' rfl rfl
      exact Iff.rfl
    · rw [hblock, List.forall₂_eq_eq_eq]
  code := by
    rintro σ σ' c d b b' _ ⟨hblock, path, n, line, xs, body, hinside, heq, hbinds⟩ _ hkeys _
    have hnodup : c.block.params.Nodup := heq ▸ hinside.nodup_params hwell hlisted
    have hb : b.map Prod.fst = xs.map m.names.nameOf := by
      rw [hkeys hnodup, heq]
      rfl
    rw [← hblock]
    refine nested_code (hbinds.cons hb) ?_ _ _
    rw [heq]
    exact Term.flatten_from body (n + 1) hinside.body nofun

end Correspondence

/-! ## Reachable states -/

namespace Machine

/-- The block that a frame activates is that of the root, in an environment that binds
nothing, or that of a lambda, in an environment that binds the parameters of the lambda
and of those around it. -/
def FrameScoped (names : NameTable) (root : Place) (block : Block) (σ : Array Bindings)
    (f : Frame) (label : Block) : Prop :=
  (label = block ∧ f.env.Binds names σ []) ∨
    ∃ (path : List (List String)) (n line : Nat) (xs : List String) (body : Term),
      Place.Inside root ⟨path, n, .lambda line xs body⟩ ∧
        label = Block.ofLambda names n xs body ∧ f.env.Binds names σ (xs :: path)

theorem FrameScoped.push {names : NameTable} {root : Place} {block label : Block}
    {σ : Array Bindings} {f : Frame} (h : FrameScoped names root block σ f label)
    (b : Bindings) : FrameScoped names root block (σ.push b) f label := by
  rcases h with ⟨hlabel, hbinds⟩ | ⟨path, n, line, xs, body, hinside, hlabel, hbinds⟩
  · exact Or.inl ⟨hlabel, hbinds.push b⟩
  · exact Or.inr ⟨path, n, line, xs, body, hinside, hlabel, hbinds.push b⟩

variable {m : Machine} {t : Term} {store : Store}

/-- The code of a tree in the root scope stands for itself. -/
theorem related_of_reachable (hwell : t.WellBound)
    (hlisted : ∀ x ∈ t.texts, x ∈ m.names.texts) {s : State}
    (hs : m.Reachable (t.program true m.names).root store s) :
    (Correspondence.nested m.names (.top t) store).Related s s := by
  have hlawful : (Correspondence.nested m.names (.top t) store).Lawful m m :=
    Correspondence.nested_lawful m hwell hlisted store
  refine Correspondence.related_of_reachable hlawful ⟨rfl, rfl⟩ ?_ hs
  have hroot := Env.Binds.root m.names store.scopes
  have hcode : ∀ i ∈ (t.program true m.names).root.code,
      Instr.From m.names (.top t) [] i := Term.flatten_from t 1 .root nofun
  exact Correspondence.nested_code hroot hcode _ _

/-- What environment every activation runs in. -/
theorem binds_of_active (hwell : t.WellBound) (hlisted : ∀ x ∈ t.texts, x ∈ m.names.texts)
    {s : State} {labels : List Block}
    (h : m.Active (t.program true m.names).root store s labels) :
    List.Forall₂ (FrameScoped m.names (.top t) (t.program true m.names).root s.store.scopes)
      s.frames labels := by
  induction h with
  | start h =>
      unfold start at h
      split at h
      · cases h
      · cases h
        exact .cons (Or.inl ⟨rfl, Env.Binds.root m.names store.scopes⟩) .nil
  | @step s s' labels hactive hstep ih =>
      rcases step_cases hstep with ⟨env, hframes, hscopes⟩ |
        ⟨env, i, code, code', callers, hframes, hframes', hcallee, hscopes⟩ |
        ⟨f, line, c, hframes, hstore, hmem, hcallee, hactivates⟩
      · rw [hframes] at ih
        cases ih with
        | cons _ hrest =>
            simp only [relabel, hframes, hscopes]
            exact hrest
      · rw [hframes] at ih
        cases ih with
        | cons htop hrest =>
            simp only [relabel, hframes, hcallee, hframes', hscopes]
            exact .cons htop hrest
      · rcases hactivates.scopes with ⟨vs, hlength, hscopes⟩
        have hframes' := hactivates.frames
        rw [hstore] at hframes' hscopes
        have hrelated := related_of_reachable hwell hlisted hactive.reachable
        have hstack := List.forall₂_same.mp hrelated.stack _ hmem
        cases hstack with
        | closure hc =>
            rcases hc.2.2 with ⟨path, n, line', xs, body, hinside, hblock, hbinds⟩
            have hnodup : c.block.params.Nodup := hblock ▸ hinside.nodup_params hwell hlisted
            have hkeys : (c.env.extend.bindEach c.block.params vs).bindings.map Prod.fst =
                xs.map m.names.nameOf := by
              rw [Correspondence.map_fst_bindEach hlength hnodup, hblock]
              rfl
            rw [hframes', hscopes]
            generalize (c.env.extend.bindEach c.block.params vs).bindings = b at hkeys
            have hcallee' : FrameScoped m.names (.top t) (t.program true m.names).root
                (s.store.scopes.push b)
                ⟨⟨s.store.scopes.size, c.env.scopes⟩, c.block.code⟩ c.block :=
              Or.inr ⟨path, n, line', xs, body, hinside, hblock, hbinds.cons hkeys⟩
            have hold := List.Forall₂.imp (fun _ _ hframe => FrameScoped.push hframe b) ih
            rw [hframes] at hold
            cases hold with
            | cons htop hrest =>
                simp only [relabel, hframes, hcallee, Focus.callersBelow_eq]
                split
                · exact .cons hcallee' hrest
                · exact .cons hcallee' (.cons htop hrest)

/-- What closures are held. -/
theorem scoped_of_holds (hwell : t.WellBound) (hlisted : ∀ x ∈ t.texts, x ∈ m.names.texts)
    {s : State} (hs : m.Reachable (t.program true m.names).root store s) {c : Closure}
    (hc : s.Holds (.closure c) ∨ s.Holds (.eta c)) :
    c.Scoped m.names (.top t) s.store.scopes := by
  have hrelated := related_of_reachable hwell hlisted hs
  rcases hc with hc | hc
  · cases hrelated.of_holds hc with
    | closure hlinked => exact hlinked.2.2
  · cases hrelated.of_holds hc with
    | eta hlinked => exact hlinked.2.2

/-- The closures that are held share a block if they share its identity. -/
theorem block_eq_of_id_eq (hwell : t.WellBound) (hlisted : ∀ x ∈ t.texts, x ∈ m.names.texts)
    {s : State} (hs : m.Reachable (t.program true m.names).root store s) {c d : Closure}
    (hc : s.Holds (.closure c) ∨ s.Holds (.eta c)) (hd : s.Holds (.closure d) ∨ s.Holds (.eta d))
    (hid : c.block.id = d.block.id) : c.block = d.block := by
  rcases scoped_of_holds hwell hlisted hs hc with ⟨_, n, _, _, _, hinside, hblock, -⟩
  rcases scoped_of_holds hwell hlisted hs hd with ⟨_, n', _, _, _, hinside', hblock', -⟩
  have hnumber : n = n' := by
    rw [hblock, hblock'] at hid
    exact congrArg BlockId.index hid
  cases hinside.eq_of_index_eq hinside' rfl rfl hnumber
  rw [hblock, hblock']

/-- An identifier that no lambda around it binds and that spells no built-in. -/
def FreeIdentifier (t : Term) (line : Nat) (x : String) : Prop :=
  ∃ (path : List (List String)) (n : Nat), Place.Inside (.top t) ⟨path, n, .ident line x⟩ ∧
    (∀ xs ∈ path, x ∉ xs) ∧ x ∉ Builtin.allSpellings

/-- A text that spells no built-in is no spelling. -/
theorem not_mem_allSpellings {x : String} (h : Builtin.ofSpelling? x = none) :
    x ∉ Builtin.allSpellings := by
  intro hmem
  rcases List.mem_flatMap.mp hmem with ⟨b, _, hb⟩
  rw [Builtin.ofSpelling?_eq_some_iff.mpr hb] at h
  cases h

/-- A step from a reachable state finds a name undeclared only at a free identifier. -/
theorem free_of_step_undeclared (hwell : t.WellBound)
    (hlisted : ∀ x ∈ t.texts, x ∈ m.names.texts) {s s' : State}
    (hs : m.Reachable (t.program true m.names).root store s) {fault : Fault} {text : String}
    (hstep : m.step s = .failed fault s') (hcause : fault.cause = .undeclared text) :
    ∃ line, fault.line = some line ∧ FreeIdentifier t line text := by
  have hrelated := related_of_reachable hwell hlisted hs
  rcases step_undeclared hstep hcause with
    ⟨env, line, x, code, callers, hframes, hline, htext, hlookup, hspelling⟩
  have hframe := List.forall₂_same.mp hrelated.frames ⟨env, .ident line x :: code⟩
    (by rw [hframes]; exact List.mem_cons_self)
  rcases List.forall₂_same.mp hframe.2 (.ident line x) List.mem_cons_self with
    ⟨_, path, hbinds, hfrom⟩
  cases hfrom with
  | @ident n _ y hinside =>
      have hy : y ∈ m.names.texts := hlisted y (hinside.texts (by simp [Term.texts]))
      have hname : m.names.text (m.names.nameOf y) = y :=
        (NameTable.Grows.refl m.names).text_nameOf hy
      rw [hname] at htext hspelling
      subst htext
      exact ⟨line, hline, path, n, hinside, (hbinds.lookup_eq_none_iff hy).mp hlookup,
        not_mem_allSpellings hspelling⟩

/-- While the program of a tree runs, under any limit: every live frame activates the
root, in an environment that binds nothing, or a lambda of the tree, in an environment
that binds its parameters and those of the lambdas around it, one scope for each; and
every closure that is held anywhere is one of a lambda of the tree, made in an environment
that binds the parameters of the lambdas around it.  A lambda is known by its number, and
so by its block.  An evaluation finds a name undeclared only at a free identifier. -/
theorem scoped_run {t : Term} {table table' : NameTable} {p : Program}
    (h : Program.ofTerm t true table = (.ok p, table')) (m : Machine)
    (hnames : table'.Grows m.names) (session : Session) :
    (∀ q r : Place, Place.Inside (.top t) q → Place.Inside (.top t) r →
      (∃ line xs body, q.tree = .lambda line xs body) →
      (∃ line xs body, r.tree = .lambda line xs body) → q.index = r.index → q = r) ∧
    (∀ s, m.Reachable p.root session.store s → ∃ labels, m.Active p.root session.store s labels) ∧
    (∀ s labels, m.Active p.root session.store s labels →
      List.Forall₂ (fun f label =>
        (label = p.root ∧ f.env.depth = 0 ∧ f.env.Binds m.names s.store.scopes []) ∨
          ∃ path n line xs body, Place.Inside (.top t) ⟨path, n, .lambda line xs body⟩ ∧
            label = Block.ofLambda m.names n xs body ∧ f.env.depth = path.length + 1 ∧
              f.env.Binds m.names s.store.scopes (xs :: path)) s.frames labels) ∧
    (∀ s c, m.Reachable p.root session.store s → s.Holds (.closure c) ∨ s.Holds (.eta c) →
      ∃ path n line xs body, Place.Inside (.top t) ⟨path, n, .lambda line xs body⟩ ∧
        c.block = Block.ofLambda m.names n xs body ∧ c.env.depth = path.length ∧
          c.env.Binds m.names s.store.scopes path) ∧
    (∀ fuel fault session' x, m.evaluate fuel p session = some (.error fault, session') →
      fault.cause = .undeclared x →
        ∃ line, fault.line = some line ∧ FreeIdentifier t line x) ∧
    ((∀ line x, ¬ FreeIdentifier t line x) → ∀ fuel fault session' x,
      m.evaluate fuel p session = some (.error fault, session') → fault.cause ≠ .undeclared x) := by
  rcases Program.of_ofTerm h hnames with ⟨hwell, rfl, hlisted⟩
  have hundeclared : ∀ fuel fault session' x,
      m.evaluate fuel (t.program true m.names) session = some (.error fault, session') →
      fault.cause = .undeclared x → ∃ line, fault.line = some line ∧ FreeIdentifier t line x := by
    intro fuel fault session' x hevaluate hcause
    rcases after_of_evaluate_error (m.refusal?_program t) hevaluate with ⟨s, hafter, _⟩
    rcases failed_of_after hafter with hstart | ⟨s₀, hs₀, hstep⟩
    · unfold start at hstart
      split at hstart
      · cases hstart
        cases hcause
      · cases hstart
    · exact free_of_step_undeclared hwell hlisted hs₀ hstep hcause
  refine ⟨?_, fun s hs => Active.of_reachable hs, ?_, ?_, hundeclared, ?_⟩
  · rintro q r hq hr ⟨line, xs, body, htree⟩ ⟨line', xs', body', htree'⟩ hindex
    exact hq.eq_of_index_eq hr htree htree' hindex
  · intro s labels hactive
    refine List.Forall₂.imp ?_ (binds_of_active hwell hlisted hactive)
    rintro f label (⟨hlabel, hbinds⟩ | ⟨path, n, line, xs, body, hinside, hlabel, hbinds⟩)
    · exact Or.inl ⟨hlabel, hbinds.depth_eq, hbinds⟩
    · exact Or.inr ⟨path, n, line, xs, body, hinside, hlabel, hbinds.depth_eq, hbinds⟩
  · intro s c hs hc
    rcases scoped_of_holds hwell hlisted hs hc with ⟨path, n, line, xs, body, hinside, hblock, hbinds⟩
    exact ⟨path, n, line, xs, body, hinside, hblock, hbinds.depth_eq, hbinds⟩
  · intro hclosed fuel fault session' x hevaluate hcause
    rcases hundeclared fuel fault session' x hevaluate hcause with ⟨line, _, hfree⟩
    exact hclosed line x hfree

/-- In `(fn x. z) 7` the name `z` is undeclared, and free. -/
theorem scoped_run_undeclared :
    let t : Term := .app 1 (.lambda 1 ["x"] (.ident 2 "z")) (.literal 1 (.int 7))
    let p : Program := t.program true ⟨0, ["x", "z"]⟩
    Program.ofTerm t true ⟨0, []⟩ = (.ok p, ⟨0, ["x", "z"]⟩) ∧
      (∃ session', Machine.evaluate ⟨⟨0, ["x", "z"]⟩, none, true⟩ 4 p (.fresh .silent) =
        some (.error ⟨.undeclared "z", some 2, []⟩, session')) ∧
      FreeIdentifier t 2 "z" := by
  intro t p
  have hlowered : Program.ofTerm t true ⟨0, []⟩ = (.ok p, ⟨0, ["x", "z"]⟩) := rfl
  have hevaluate : Machine.evaluate ⟨⟨0, ["x", "z"]⟩, none, true⟩ 4 p (.fresh .silent) =
      some (.error ⟨.undeclared "z", some 2, []⟩, ⟨⟨#[], #[[], [(⟨0⟩, .int 7)]]⟩, .silent⟩) := rfl
  have hscoped := scoped_run hlowered ⟨⟨0, ["x", "z"]⟩, none, true⟩ (.refl _) (.fresh .silent)
  rcases hscoped.2.2.2.2.1 4 _ _ "z" hevaluate rfl with ⟨line, hline, hfree⟩
  cases hline
  exact ⟨hlowered, ⟨_, hevaluate⟩, hfree⟩

end Machine

end CSEMachine
