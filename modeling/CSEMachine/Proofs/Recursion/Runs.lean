import CSEMachine.Proofs.FrameStack
import CSEMachine.Proofs.Naming
import CSEMachine.Proofs.Recursion.Steps

/-!
# Runs of recursive functions

`let rec f n = n eq 0 -> z | n op f (n - 1) in f N` folds an operator over the numbers up to
`N`.  Every level waits for the one below it, so the frames pile up, and a limit is exceeded
on the way down, before the operator has been applied at all.  In
`let rec f n = n eq 0 -> 'done' | f (n - 1) in f N` nothing waits: the last frame is dropped at
every call, and the frames and values do not pile up.

Main results:

- Theorem `Recursion.yields_fold`: a level that has room for all levels below it yields the
  fold.
- Theorem `Recursion.fails_fold`: one that has not exceeds the limit.
- Theorem `Recursion.passes_loop`: a loop needs room for two frames and three values.
- Theorem `Machine.recursion_run`: what this means for evaluations.
-/

namespace CSEMachine

/-! ## Recursive definitions -/

namespace Term

/-- The tree of `let rec f n = n eq 0 -> stop | more in f count`, each node on a line of its
own. -/
def letRec (line : Nat → Nat) (f n : String) (stop : Literal) (more : Term) (count : Int64) :
    Term :=
  .app (line 0)
    (.lambda (line 1) [f]
      (.app (line 2) (.ident (line 3) f) (.literal (line 4) (.int count))))
    (.app (line 5) (.fixpoint (line 6))
      (.lambda (line 7) [f] (.lambda (line 8) [n]
        (.cond (line 9)
          (.binary (line 10) .eq (.ident (line 11) n) (.literal (line 12) (.int 0)))
          (.literal (line 13) stop) more))))

/-- The tree of `f (n - 1)`. -/
def recur (line : Nat → Nat) (f n : String) : Term :=
  .app (line 14) (.ident (line 15) f)
    (.binary (line 16) .sub (.ident (line 17) n) (.literal (line 18) (.int 1)))

/-- The tree of `let rec f n = n eq 0 -> z | n op f (n - 1) in f count`. -/
def foldRec (line : Nat → Nat) (f n : String) (op : BinaryOp) (z count : Int64) : Term :=
  letRec line f n (.int z) (.binary (line 19) op (.ident (line 20) n) (recur line f n)) count

/-- The tree of `let rec f n = n eq 0 -> 'done' | f (n - 1) in f count`. -/
def loopRec (line : Nat → Nat) (f n : String) (count : Int64) : Term :=
  letRec line f n (.str "done") (recur line f n) count

end Term

/-- The function that a `let rec` defines, closed over the root environment of a run. -/
def Recursion.ofLetRec (name : String → Name) (line : Nat → Nat) (f n : String) (stop : Literal)
    (more : Term) (store : Store) : Recursion :=
  ⟨line, name f, name n, stop, (more.named name 4).flatten [], ⟨store.scopes.size, []⟩⟩

/-! ## Folds -/

/-- The fold of an operator over the numbers from one on, each with what the smaller ones gave
on its right.  The first failure ends it.  No tuple is involved, so any store will do. -/
def BinaryOp.fold (op : BinaryOp) (z : Int64) : Nat → Except Cause Value
  | 0 => .ok (.int z)
  | k + 1 => (op.fold z k).bind fun v => (op.apply (.int (.ofNat (k + 1))) v .empty).1

/-- Numbers and truth values. -/
def Value.Plain : Value → Prop
  | .int _ | .bool _ => True
  | _ => False

theorem Value.Plain.cite_eq {v : Value} (h : v.Plain) (store store' : Store) :
    v.cite store = v.cite store' := by
  cases v with
  | int n => simp [cite, display, displayWithin]
  | bool b => simp [cite, display, displayWithin]
  | _ => exact h.elim

namespace BinaryOp

variable {op : BinaryOp} {n : Int64} {v w : Value} {store : Store}

/-- An operator does nothing to the store for a number on its left. -/
theorem apply_int (op : BinaryOp) (n : Int64) (v : Value) (store : Store) :
    op.apply (.int n) v store = (op.result store (.int n) v, store) := by
  cases op <;> rfl

/-- What it gives for a number and a plain value does not depend on the store. -/
theorem apply_of_plain (op : BinaryOp) (n : Int64) (hv : v.Plain) (store : Store) :
    op.apply (.int n) v store = ((op.apply (.int n) v .empty).1, store) := by
  have hleft := Value.Plain.cite_eq (v := .int n) trivial store .empty
  have hright := hv.cite_eq store .empty
  rw [apply_int, apply_int]
  cases op with
  | aug => simp only [result, hleft]
  | _ =>
      simp only [result, arithmetic, ordering, onIntegers, equality, logical, Value.citePair,
        hleft, hright]

theorem plain_of_map {α : Type} {f : α → Value} (hf : ∀ a, (f a).Plain) {x : Except Cause α}
    (h : x.map f = .ok w) : w.Plain := by
  cases x with
  | error cause => cases h
  | ok a =>
      cases h
      exact hf a

theorem plain_of_onIntegers {left right : Value} {f : Int64 → Int64 → Except Cause Value}
    (hf : ∀ a b, f a b = .ok w → w.Plain) (h : onIntegers store left right f = .ok w) :
    w.Plain := by
  unfold onIntegers at h
  split at h
  · exact hf _ _ h
  · cases h

/-- An operator gives a plain value if it has a number on its left. -/
theorem plain_of_apply (h : (op.apply (.int n) v store).1 = .ok w) : w.Plain := by
  rw [apply_int] at h
  cases op with
  | add | sub | mul | div | pow =>
      exact plain_of_onIntegers (fun _ _ hmap => plain_of_map (f := .int) (fun _ => trivial) hmap) h
  | lt | le | gt | ge =>
      refine plain_of_onIntegers (fun _ _ hbool => ?_) h
      cases hbool
      trivial
  | eq => exact plain_of_map (f := .bool) (fun _ => trivial) h
  | ne => exact plain_of_map (f := fun same => .bool !same) (fun _ => trivial) h
  | or | and => simp [result, logical] at h
  | aug => cases h

theorem plain_of_fold {z : Int64} {k : Nat} (h : op.fold z k = .ok v) : v.Plain := by
  cases k with
  | zero =>
      cases h
      trivial
  | succ k =>
      rw [fold] at h
      cases hk : op.fold z k with
      | error cause =>
          rw [hk] at h
          cases h
      | ok w =>
          rw [hk] at h
          exact plain_of_apply h

end BinaryOp

/-! ## Levels of a recursion -/

namespace Machine

/-- A state from which a run takes a value, or a failure, to the frames below. -/
def Yields (m : Machine) (s : State) (callers : List Frame) (stack : List Value)
    (printed : Array String) : Except Cause Value → Prop
  | .ok v => ∃ store, m.Leads s ⟨callers, v :: stack, store, printed⟩
  | .error cause => m.Fails s cause

theorem Leads.yields {m : Machine} {s s' : State} {callers : List Frame} {stack : List Value}
    {printed : Array String} {result : Except Cause Value} (h : m.Leads s s')
    (hyields : m.Yields s' callers stack printed result) :
    m.Yields s callers stack printed result := by
  cases result with
  | ok v =>
      rcases hyields with ⟨store, hleads⟩
      exact ⟨store, h.trans hleads⟩
  | error cause => exact h.fails hyields

end Machine

namespace Recursion

variable {r : Recursion} {m : Machine} {env : Env} {store : Store}

/-- An operator is applied to the operand and the value of the level below. -/
theorem At.yields_binary {n : Int64} (h : r.At (.int n) env store) {op : BinaryOp} {v : Value}
    (hv : v.Plain) {line line' : Nat} {callers : List Frame} {stack : List Value}
    {printed : Array String} :
    m.Yields ⟨⟨env, [.ident line r.param, .binary line' op]⟩ :: callers, v :: stack, store,
      printed⟩ callers stack printed (op.apply (.int n) v .empty).1 := by
  have happly := op.apply_of_plain n hv store
  refine (Machine.Leads.of_step (Machine.step_ident h.param)).yields ?_
  cases hresult : (op.apply (.int n) v .empty).1 with
  | ok w =>
      rw [hresult] at happly
      exact ⟨store, (Machine.Leads.of_step (Machine.step_binary happly)).trans (.of_step rfl)⟩
  | error cause =>
      rw [hresult] at happly
      exact Machine.fails_of_step (Machine.step_binary_failed happly)

section

variable {callers : List Frame} {stack : List Value} {printed : Array String}

/-- A level that has room for all levels below it yields the fold. -/
theorem yields_fold (hne : r.self ≠ r.param) (hdrops : m.dropsCallers = true) {op : BinaryOp}
    {z : Int64} {line line' : Nat} (hstop : r.stop = .int z)
    (hmore : r.more = r.again [.ident line r.param, .binary line' op]) {k : Nat}
    (hk : (Int64.ofNat k).toInt = k) (hroom : Machine.AtMost (some (callers.length + 1 + k)) m.maxDepth)
    (h : r.At (.int (.ofNat k)) env store) :
    m.Yields ⟨⟨env, r.body⟩ :: callers, stack, store, printed⟩ callers stack printed
      (op.fold z k) := by
  induction k generalizing env store callers stack with
  | zero =>
      have hvalue : r.stop.value = .int z := by rw [hstop]; rfl
      have hstops := @At.stops r m env callers stack store printed h
      rw [hvalue] at hstops
      exact ⟨store, hstops.leads⟩
  | succ k ih =>
      have hnext : Machine.AtMost (some (callers.length + 2)) m.maxDepth :=
        hroom.of_le (by omega)
      rcases h.recurs hk hmore hne hdrops rfl hnext stack printed with
        ⟨env', store', hat, hrecurs⟩
      let waiting : Frame := ⟨env, [.ident line r.param, .binary line' op]⟩
      have hrest : Machine.AtMost (some ((waiting :: callers).length + 1 + k)) m.maxDepth :=
        hroom.of_le (by simp only [List.length_cons]; omega)
      have hbelow : m.Yields ⟨⟨env', r.body⟩ :: waiting :: callers, stack, store', printed⟩
          (waiting :: callers) stack printed (op.fold z k) :=
        ih (toInt_ofNat_of_succ hk) hrest hat
      rw [BinaryOp.fold]
      cases hfold : op.fold z k with
      | error cause =>
          rw [hfold] at hbelow
          exact hrecurs.leads.fails hbelow
      | ok v =>
          rw [hfold] at hbelow
          rcases hbelow with ⟨store'', hleads⟩
          have hback := hrecurs.leads.trans hleads
          exact hback.yields
            ((h.keeps hback.keeps).yields_binary (BinaryOp.plain_of_fold hfold))

/-- A level that has no room for all levels below it exceeds the limit. -/
theorem fails_fold (hne : r.self ≠ r.param) (hdrops : m.dropsCallers = true) {i : Instr}
    {rest : List Instr} (hmore : r.more = r.again (i :: rest)) {limit : Nat}
    (hmax : m.maxDepth = some limit) {k : Nat} (hk : (Int64.ofNat k).toInt = k)
    (hlow : callers.length < limit) (hhigh : limit ≤ callers.length + k)
    (h : r.At (.int (.ofNat k)) env store) :
    m.Fails ⟨⟨env, r.body⟩ :: callers, stack, store, printed⟩ (.depthExceeded limit) := by
  induction k generalizing env store callers stack with
  | zero => omega
  | succ k ih =>
      by_cases hlast : limit ≤ callers.length + 1
      · exact (h.descends hk hmore).leads.fails (exceeds hdrops hmax hlast)
      · have hroom : Machine.AtMost (some (callers.length + 2)) m.maxDepth := by
          rw [hmax]
          exact Nat.lt_of_not_le hlast
        rcases h.recurs hk hmore hne hdrops rfl hroom stack printed with
          ⟨env', store', hat, hrecurs⟩
        refine hrecurs.leads.fails (ih (toInt_ofNat_of_succ hk) ?_ ?_ hat)
        · simp
          omega
        · simp
          omega

/-- A loop needs room for two frames above its callers and for three values. -/
theorem passes_loop (hne : r.self ≠ r.param) (hdrops : m.dropsCallers = true)
    (hmore : r.more = r.again []) {k : Nat} (hk : (Int64.ofNat k).toInt = k)
    (hroom : Machine.AtMost (some (callers.length + 2)) m.maxDepth)
    (h : r.At (.int (.ofNat k)) env store) :
    ∃ store', m.Passes (callers.length + 2) (stack.length + 3)
      ⟨⟨env, r.body⟩ :: callers, stack, store, printed⟩
      ⟨callers, r.stop.value :: stack, store', printed⟩ := by
  induction k generalizing env store with
  | zero => exact ⟨store, At.stops h⟩
  | succ k ih =>
      rcases h.recurs hk hmore hne hdrops rfl hroom stack printed with
        ⟨env', store', hat, hrecurs⟩
      rcases ih (toInt_ofNat_of_succ hk) hat with ⟨store'', hpasses⟩
      exact ⟨store'', hrecurs.trans hpasses⟩

end

end Recursion

/-! ## Evaluations -/

namespace Machine

/-- An evaluation ends with a value and has printed nothing, or it fails for a cause. -/
def Answers (m : Machine) (p : Program) (session : Session) : Except Cause Value → Prop
  | .ok v => ∃ fuel session', m.evaluate fuel p session = some (.ok ⟨none, some v⟩, session')
  | .error cause =>
    ∃ fuel fault session', m.evaluate fuel p session = some (.error fault, session') ∧
      fault.cause = cause

variable {m : Machine} {p : Program} {session : Session} {s s' : State}

/-- A run that yields a result makes the evaluation answer with it. -/
theorem Yields.answers (hrefusal : m.refusal? p = none)
    (hstart : m.start p.root session.store = .next s) {result : Except Cause Value}
    (h : m.Yields s [] [] #[] result) : m.Answers p session result := by
  cases result with
  | ok v =>
      rcases h with ⟨store, k, hk⟩
      have hevaluate := evaluate_of_not_refused hrefusal (k + 1) session
      rw [hstart, after_succ, hk] at hevaluate
      exact ⟨k + 1, _, hevaluate⟩
  | error cause =>
      rcases h with ⟨k, fault, s', hk, hcause⟩
      have hevaluate := evaluate_of_not_refused hrefusal k session
      rw [hstart, hk] at hevaluate
      exact ⟨k, fault, _, hevaluate, hcause⟩

/-- A run that ends with a bounded passage stays within its bounds. -/
theorem Passes.bounds {frames values : Nat} {stack : List Value} {store : Store}
    {printed : Array String} (h : m.Passes frames values s ⟨[], stack, store, printed⟩)
    (hvalues : stack.length ≤ values) {n : Nat} (hn : m.after n (.next s) = .next s') :
    s'.frames.length ≤ frames ∧ s'.stack.length ≤ values := by
  generalize hlast : (⟨[], stack, store, printed⟩ : State) = last at h
  induction h generalizing n with
  | refl s =>
      subst hlast
      cases n with
      | zero =>
          cases hn
          exact ⟨Nat.zero_le _, hvalues⟩
      | succ n => simp at hn
  | step hframes hstack hstep _ ih =>
      cases n with
      | zero =>
          cases hn
          exact ⟨hframes, hstack⟩
      | succ n =>
          rw [after_succ_next, hstep] at hn
          exact ih hn hlast

section

variable {line : Nat → Nat} {f n : String} {stop : Literal} {more : Term} {count : Int64}
  {store : Store}

/-- `let rec` comes to apply the fixed point to the operand, in its only frame. -/
theorem starts_letRec (hdrops : m.dropsCallers = true) (hroom : AtMost (some 1) m.maxDepth) :
    let r := Recursion.ofLetRec m.names.nameOf line f n stop more store
    ∃ s env store',
      m.start ((Term.letRec line f n stop more count).program true m.names).root store =
        .next s ∧
      (∀ i ∈ r.env.scopes, i < store'.scopes.size) ∧
      m.Passes 2 3 s
        ⟨[⟨env, [.apply (line 2)]⟩], [.eta r.closure, .int count], store', #[]⟩ := by
  intro r
  have hlimit : m.limitAbove? [] = none := limitAbove?_eq_none_iff.mpr hroom
  let entered : List Instr :=
    [.literal (line 4) (.int count), .ident (line 3) r.self, .apply (line 2)]
  have hstart : m.start ((Term.letRec line f n stop more count).program true m.names).root
      store = .next ⟨[⟨r.env, [.lambda (line 7) r.closure.block, .fixpoint (line 6),
        .apply (line 5), .lambda (line 1) ⟨1, [r.self], entered⟩, .apply (line 0)]⟩], [],
        (store.addScope []).2, #[]⟩ := by
    simp only [start, hlimit]
    rfl
  have hroot : ∀ i ∈ r.env.scopes, i < (store.addScope []).2.scopes.size := by
    intro i hi
    obtain rfl : i = store.scopes.size := List.mem_singleton.mp hi
    simp [Store.addScope]
  have hself := (Env.lookup_activated hroot r.self r.self (.eta r.closure)).trans (if_pos rfl)
  have hvalid := Env.lt_size_activated hroot [(r.self, .eta r.closure)]
  refine ⟨_, ⟨(store.addScope []).2.scopes.size, r.env.scopes⟩, _, hstart,
    fun i hi => hvalid i (List.mem_cons_of_mem _ hi), ?_⟩
  -- the fixed point is taken, and the definition's body is activated on it
  refine .step (by simp) (by simp) rfl ?_
  refine .step (by simp) (by simp) rfl ?_
  refine .step (by simp) (by simp) rfl ?_
  refine .step (by simp) (by simp) rfl ?_
  refine .step (by simp) (by simp) (step_call_one hdrops hlimit rfl) ?_
  -- that gets at the operand and the fixed point
  refine .step (by simp) (by simp) rfl ?_
  refine .step (by simp) (by simp) (step_ident hself) ?_
  exact .refl _

/-- With room for two frames, `let rec` enters the body of the function, in its only frame. -/
theorem enters_letRec (hdrops : m.dropsCallers = true) (hroom : AtMost (some 2) m.maxDepth)
    (hne : m.names.nameOf f ≠ m.names.nameOf n) (line : Nat → Nat) (stop : Literal) (more : Term)
    (count : Int64) (store : Store) :
    let r := Recursion.ofLetRec m.names.nameOf line f n stop more store
    ∃ s env store',
      m.start ((Term.letRec line f n stop more count).program true m.names).root store =
        .next s ∧
      r.At (.int count) env store' ∧ m.Passes 2 3 s ⟨[⟨env, r.body⟩], [], store', #[]⟩ := by
  intro r
  rcases starts_letRec hdrops (hroom.of_le (Nat.le_succ 1)) with
    ⟨s, env, store', hstart, hvalid, hpasses⟩
  have hbelow : (if ([] : List Instr).isEmpty then [] else [(⟨env, []⟩ : Frame)]) = [] := rfl
  rcases Recursion.enters hne hdrops hvalid hbelow hroom (.int count) [] #[] with
    ⟨env', store'', hat, henters⟩
  exact ⟨s, env', store'', hstart, hat, hpasses.trans henters⟩

/-- A limit of less than two frames is exceeded. -/
theorem exceeds_letRec (hdrops : m.dropsCallers = true) {limit : Nat}
    (hmax : m.maxDepth = some limit) (hlt : limit < 2) (session : Session) :
    m.Answers ((Term.letRec line f n stop more count).program true m.names) session
      (.error (.depthExceeded limit)) := by
  have hrefusal := m.refusal?_program (Term.letRec line f n stop more count)
  by_cases hzero : limit = 0
  · exact (evaluate_exceeds_iff hdrops hrefusal limit).mpr ⟨hmax, Or.inl hzero⟩
  · have hroom : AtMost (some 1) m.maxDepth := by
      rw [hmax]
      exact Nat.pos_of_ne_zero hzero
    rcases starts_letRec hdrops hroom with ⟨s, env, store', hstart, _, hpasses⟩
    have hfails : m.Fails s (.depthExceeded limit) :=
      hpasses.leads.fails (Recursion.exceeds hdrops hmax (Nat.le_of_lt_succ hlt))
    exact Yields.answers hrefusal hstart hfails

/-- A recursion answers with the fold, if there is room for all levels. -/
theorem answers_foldRec (hdrops : m.dropsCallers = true) (op : BinaryOp) (z : Int64) {k : Nat}
    (hk : (Int64.ofNat k).toInt = k) (hne : m.names.nameOf f ≠ m.names.nameOf n)
    (hroom : AtMost (some (max 2 (k + 1))) m.maxDepth) (session : Session) :
    m.Answers ((Term.foldRec line f n op z (.ofNat k)).program true m.names) session
      (op.fold z k) := by
  rcases enters_letRec hdrops (hroom.of_le (Nat.le_max_left _ _)) hne line _ _ _ _ with
    ⟨s, env, store, hstart, hat, hpasses⟩
  have hlevels : AtMost (some (([] : List Frame).length + 1 + k)) m.maxDepth :=
    hroom.of_le (by simp; omega)
  refine Yields.answers (m.refusal?_program _) hstart ?_
  exact hpasses.leads.yields (Recursion.yields_fold hne hdrops rfl rfl hk hlevels hat)

/-- It exceeds the limit, if there is not. -/
theorem exceeds_foldRec (hdrops : m.dropsCallers = true) (op : BinaryOp) (z : Int64) {k : Nat}
    (hk : (Int64.ofNat k).toInt = k) (hne : m.names.nameOf f ≠ m.names.nameOf n) {limit : Nat}
    (hmax : m.maxDepth = some limit) (hlt : limit < max 2 (k + 1)) (session : Session) :
    m.Answers ((Term.foldRec line f n op z (.ofNat k)).program true m.names) session
      (.error (.depthExceeded limit)) := by
  by_cases htwo : limit < 2
  · exact exceeds_letRec hdrops hmax htwo session
  · have hroom : AtMost (some 2) m.maxDepth := by
      rw [hmax]
      exact Nat.le_of_not_lt htwo
    rcases enters_letRec hdrops hroom hne line _ _ _ _ with
      ⟨s, env, store, hstart, hat, hpasses⟩
    refine Yields.answers (m.refusal?_program _) hstart ?_
    exact hpasses.leads.fails (Recursion.fails_fold hne hdrops rfl hmax hk (by simp; omega)
      (by simp; omega) hat)

/-- A loop answers that it is done, with room for two frames and three values. -/
theorem answers_loopRec (hdrops : m.dropsCallers = true) {k : Nat} (hk : (Int64.ofNat k).toInt = k)
    (hne : m.names.nameOf f ≠ m.names.nameOf n) (hroom : AtMost (some 2) m.maxDepth)
    (session : Session) :
    let p := (Term.loopRec line f n (.ofNat k)).program true m.names
    m.Answers p session (.ok (.str "done")) ∧
      ∀ s, m.Reachable p.root session.store s → s.frames.length ≤ 2 ∧ s.stack.length ≤ 3 := by
  intro p
  rcases enters_letRec hdrops hroom hne line (.str "done") (.recur line f n) (.ofNat k)
    session.store with ⟨s, env, store, hstart, hat, hpasses⟩
  rcases @Recursion.passes_loop _ m env store [] [] #[] hne hdrops rfl k hk hroom hat with
    ⟨store', hloop⟩
  have hrun : m.Passes 2 3 s ⟨[], [.str "done"], store', #[]⟩ := hpasses.trans hloop
  have hstart' : m.start p.root session.store = .next s := hstart
  refine ⟨Yields.answers (m.refusal?_program _) hstart' ⟨store', hrun.leads⟩, ?_⟩
  rintro s' ⟨k, hreachable⟩
  rw [hstart'] at hreachable
  exact hrun.bounds (by simp) hreachable

end

/-- Recursion with a fixed point computes the fold, and a tail-recursive loop takes no room.
`let rec f n = n eq 0 -> z | n op f (n - 1) in f N` has `N` calls waiting for each other, so it
exceeds every limit below `N + 1`, and below two, which it takes to unroll the fixed point;
within the limit it gives the fold or its first failure.  Under any limit from two on,
`let rec f n = n eq 0 -> 'done' | f (n - 1) in f N` is done with two frames and three values. -/
theorem recursion_run (line : Nat → Nat) {f n : String} (hne : f ≠ n) (op : BinaryOp)
    (z count : Int64) (hcount : 0 ≤ count) (table : NameTable) :
    let k := count.toInt.toNat
    (∃ p table₁, Program.ofTerm (.foldRec line f n op z count) true table = (.ok p, table₁) ∧
      ∀ m : Machine, table₁.Grows m.names → m.dropsCallers = true → ∀ session,
        (∀ limit, m.maxDepth = some limit → limit < max 2 (k + 1) →
          m.Answers p session (.error (.depthExceeded limit))) ∧
        (AtMost (some (max 2 (k + 1))) m.maxDepth → m.Answers p session (op.fold z k))) ∧
    ∃ p table₁, Program.ofTerm (.loopRec line f n count) true table = (.ok p, table₁) ∧
      ∀ m : Machine, table₁.Grows m.names → m.dropsCallers = true → ∀ session,
        AtMost (some 2) m.maxDepth →
          m.Answers p session (.ok (.str "done")) ∧
          ∀ s, m.Reachable p.root session.store s →
            s.frames.length ≤ 2 ∧ s.stack.length ≤ 3 := by
  intro k
  have hnonneg : 0 ≤ count.toInt := by
    simpa using Int64.le_iff_toInt_le.mp hcount
  have hk : (Int64.ofNat k).toInt = k := by
    have hlt := count.toInt_lt
    exact Int64.toInt_ofNat_of_lt (by omega)
  have hofNat : count = .ofNat k := by
    rw [← Int64.toInt_inj, hk, Int.toNat_of_nonneg hnonneg]
  clear_value k
  subst hofNat
  have hnames : ∀ {m : Machine} {texts : List String}, m.names.Lists texts → f ∈ texts →
      m.names.nameOf f ≠ m.names.nameOf n := by
    intro m texts hlists hmem heq
    exact hne ((NameTable.nameOf_inj (hlists f hmem)).mp heq)
  refine ⟨exists_program ?_ table ?_, exists_program ?_ table ?_⟩
  · simp [Term.foldRec, Term.letRec, Term.recur, Term.WellBound]
  · intro m hlists hdrops session
    have hne' := hnames hlists (by simp [Term.foldRec, Term.letRec, Term.texts])
    exact ⟨fun limit hmax hlt => exceeds_foldRec hdrops op z hk hne' hmax hlt session,
      fun hroom => answers_foldRec hdrops op z hk hne' hroom session⟩
  · simp [Term.loopRec, Term.letRec, Term.recur, Term.WellBound]
  · intro m hlists hdrops session hroom
    have hne' := hnames hlists (by simp [Term.loopRec, Term.letRec, Term.texts])
    exact answers_loopRec hdrops hk hne' hroom session

/-- The product of the first 21 numbers does not fit a word, which is found out with 22 frames
at a time; with 21 the limit is exceeded before.  Two are enough to count down from 21. -/
theorem recursion_run_factorial :
    "f" ≠ "n" ∧ (0 : Int64) ≤ 21 ∧
    (∃ p table, Program.ofTerm (.foldRec id "f" "n" .mul 1 21) true ⟨0, []⟩ = (.ok p, table) ∧
      Answers ⟨table, some 22, true⟩ p (.fresh .silent)
        (.error (.integerOverflow "multiplication")) ∧
      Answers ⟨table, some 21, true⟩ p (.fresh .silent) (.error (.depthExceeded 21))) ∧
    ∃ p table, Program.ofTerm (.loopRec id "f" "n" 21) true ⟨0, []⟩ = (.ok p, table) ∧
      Answers ⟨table, some 2, true⟩ p (.fresh .silent) (.ok (.str "done")) := by
  have hne : "f" ≠ "n" := by decide
  have hcount : (0 : Int64) ≤ 21 := by decide
  rcases recursion_run id hne .mul 1 21 hcount ⟨0, []⟩ with
    ⟨⟨p, table, hp, hfold⟩, p', table', hp', hloop⟩
  refine ⟨hne, hcount, ⟨p, table, hp, ?_, ?_⟩, p', table', hp', ?_⟩
  · have hroom : max 2 ((21 : Int64).toInt.toNat + 1) ≤ 22 := by decide
    exact (hfold ⟨table, some 22, true⟩ (.refl _) rfl _).2 hroom
  · exact (hfold ⟨table, some 21, true⟩ (.refl _) rfl _).1 21 rfl (by decide)
  · exact (hloop ⟨table', some 2, true⟩ (.refl _) rfl _ (Nat.le_refl 2)).1

end Machine

end CSEMachine
