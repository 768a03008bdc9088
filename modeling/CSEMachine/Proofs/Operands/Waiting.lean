import CSEMachine.Proofs.Focus
import CSEMachine.Proofs.Operands.Seats

/-!
# What waits behind an expression

While an activation evaluates an expression, what waits behind it is known from the seat of
the expression: the operands of the node above that are still left, the own instruction of
that node, and then what waits behind that node in turn.  Below on the stack lie the values
of the operands that have been evaluated, and each of them has been there since this very
activation evaluated that operand.

Whatever has been said of a moment of a run is about what has happened up to then, so it
stays true as long as the activation is live.

Main results:

- Theorem `Waits.of_some`: in operator position of an application, that application waits,
  with the value of its operand on top of the stack.
- Theorem `Waits.ne_apply_of_none`: in operator position of nothing, no application waits.
- Theorem `Stands.enter`: where a run stands when it begins to evaluate a node.
- Theorem `Stands.settle`: where it stands when a value has been found.
-/

namespace CSEMachine

/-! ## Live activations -/

/-- An activation is live in a state when its frame is there, with some code behind what it is
running and some values below what has come onto the stack. -/
def State.Keeps (s : State) (env : Env) (callers : List Frame) (code : List Instr)
    (stack : List Value) : Prop :=
  ∃ newer front above, s.frames = newer ++ ⟨env, front ++ code⟩ :: callers ∧
    s.stack = above ++ stack

namespace State.Keeps

variable {s : State} {env : Env} {callers : List Frame} {code : List Instr} {stack : List Value}

/-- What has been kept includes what is behind it. -/
theorem of_append (front : List Instr) (above : List Value)
    (h : s.Keeps env callers (front ++ code) (above ++ stack)) :
    s.Keeps env callers code stack := by
  rcases h with ⟨newer, front', above', hframes, hstack⟩
  refine ⟨newer, front' ++ front, above' ++ above, ?_, ?_⟩
  · rw [hframes, List.append_assoc]
  · rw [hstack, List.append_assoc]

/-- The activation of the top frame is live. -/
theorem of_top {front : List Instr} (hframes : s.frames = ⟨env, front ++ code⟩ :: callers)
    (hstack : s.stack = stack) : s.Keeps env callers code stack :=
  ⟨[], front, [], hframes, hstack⟩

end State.Keeps

/-- From one moment to another an activation has been evaluating an expression: it began with
the code of the expression in front of `rest`, and has kept `rest` and the values that were on
the stack. -/
structure Evaluating (states : Nat → State) (env : Env) (callers : List Frame) (e : Expr)
    (rest : List Instr) (stack : List Value) (first last : Nat) : Prop where
  le : first ≤ last
  frames_eq : (states first).frames = ⟨env, e.flatten rest⟩ :: callers
  stack_eq : (states first).stack = stack
  keeps : ∀ k, first ≤ k → k ≤ last → (states k).Keeps env callers rest stack

/-- By a moment an activation has evaluated an expression to a value, which has been on the
stack ever since, while the activation has been live. -/
def Evaluated (states : Nat → State) (env : Env) (callers : List Frame) (e : Expr)
    (rest : List Instr) (v : Value) (stack : List Value) (n : Nat) : Prop :=
  ∃ first last, Evaluating states env callers e rest stack first last ∧
    (states last).frames = ⟨env, rest⟩ :: callers ∧ (states last).stack = v :: stack ∧
    last ≤ n ∧ ∀ k, last ≤ k → k ≤ n → (states k).Keeps env callers [] (v :: stack)

section Moments

variable {states : Nat → State} {env : Env} {callers : List Frame} {e : Expr}
  {rest : List Instr} {v : Value} {stack : List Value} {first n : Nat}

/-- What begins now is being evaluated. -/
theorem Evaluating.now (hframes : (states n).frames = ⟨env, e.flatten rest⟩ :: callers)
    (hstack : (states n).stack = stack) :
    Evaluating states env callers e rest stack n n := by
  refine ⟨Nat.le_refl n, hframes, hstack, fun k hk hk' => ?_⟩
  rw [Nat.le_antisymm hk' hk]
  rw [e.flatten_append rest] at hframes
  exact .of_top hframes hstack

/-- What is being evaluated still is so at the next moment, if the activation is live then. -/
theorem Evaluating.later (h : Evaluating states env callers e rest stack first n)
    (hkeeps : (states (n + 1)).Keeps env callers rest stack) :
    Evaluating states env callers e rest stack first (n + 1) where
  le := Nat.le_succ_of_le h.le
  frames_eq := h.frames_eq
  stack_eq := h.stack_eq
  keeps := by
    intro k hk hk'
    rcases Nat.le_succ_iff.mp hk' with hk' | rfl
    · exact h.keeps k hk hk'
    · exact hkeeps

/-- A value that has just been found. -/
theorem Evaluated.now (h : Evaluating states env callers e rest stack first n)
    (hframes : (states n).frames = ⟨env, rest⟩ :: callers)
    (hstack : (states n).stack = v :: stack) :
    Evaluated states env callers e rest v stack n := by
  refine ⟨first, n, h, hframes, hstack, Nat.le_refl n, fun k hk hk' => ?_⟩
  rw [Nat.le_antisymm hk' hk]
  rw [← List.append_nil rest] at hframes
  exact .of_top hframes hstack

/-- A value that has been found is still there at the next moment, if the activation is live
then and has kept it. -/
theorem Evaluated.later (h : Evaluated states env callers e rest v stack n)
    (hkeeps : (states (n + 1)).Keeps env callers [] (v :: stack)) :
    Evaluated states env callers e rest v stack (n + 1) := by
  rcases h with ⟨first, last, h, hframes, hstack, hle, hkept⟩
  refine ⟨first, last, h, hframes, hstack, Nat.le_succ_of_le hle, fun k hk hk' => ?_⟩
  rcases Nat.le_succ_iff.mp hk' with hk' | rfl
  · exact hkept k hk hk'
  · exact hkeeps

end Moments

/-! ## What waits -/

section Waiting

variable (states : Nat → State) (t : Term) (name : String → Name) (n : Nat)

section Activation

variable (env : Env) (callers : List Frame)

/-- The values of the operands of a node that have been evaluated, on top of the values that
were there when the node was begun.  An operator is left out, since the unrolling of a fixed
point finds one operator after the other. -/
inductive Values (q : Term) (i : Nat) (k : List Instr) (below : List Value) :
    List Seat → List Value → Prop
  | nil : Values q i k below [] below
  | cons {todo fin : List Seat} {s : Seat} {v : Value} {stack : List Value}
      (hsplit : q.operands = todo ++ s :: fin)
      (hv : s.app? = none → ∃ j, Evaluated states env callers (s.node.named name j)
        (q.remaining name i todo k) v stack n)
      (h : Values q i k below fin stack) : Values q i k below (s :: fin) (v :: stack)

/-- What waits for the value of a node in an activation, given its seat: nothing, behind the
body of a lambda or the whole tree; else the rest of the node whose operand it is. -/
inductive Waits (base : List Value) : Option Term → List Instr → List Value → Prop
  | done : Waits base none [] base
  | operand {u s : Seat} {todo fin : List Seat} {i : Nat} {k : List Instr}
      {stack below : List Value} (hu : u ∈ t.seats) (hsplit : u.node.operands = todo ++ s :: fin)
      (hbegan : s.app? = none → ∃ first j, Evaluating states env callers (s.node.named name j)
        (u.node.remaining name i todo k) stack first n)
      (hvalues : Values states name n env callers u.node i k below fin stack)
      (h : Waits base u.app? k below) :
      Waits base s.app? (u.node.remaining name i todo k) stack

end Activation

/-- What waits in the frames below a value. -/
inductive FramesWait : List Frame → List Value → Prop
  | nil : FramesWait [] []
  | cons {env : Env} {callers : List Frame} {g : Option Term} {code : List Instr}
      {stack base : List Value} (h : Waits states t name n env callers base g code stack)
      (hcallers : FramesWait callers base) : FramesWait (⟨env, code⟩ :: callers) stack

/-- Where a run of the code of a tree stands: no activation is left, the top one has found its
value, it is about to perform the own instruction of a node on the values of its operands, or
it has just unrolled a fixed point. -/
inductive Stands : Prop
  | ended (h : (states n).frames = [])
  | returned {env : Env} {callers : List Frame} {v : Value} {base : List Value}
      (hframes : (states n).frames = ⟨env, []⟩ :: callers) (hstack : (states n).stack = v :: base)
      (hcallers : FramesWait states t name n callers base)
  | ready {s : Seat} {i : Nat} {env : Env} {k : List Instr} {callers : List Frame}
      {values below base : List Value} (hs : s ∈ t.seats)
      (hframes : (states n).frames = ⟨env, (s.node.named name i).instr :: k⟩ :: callers)
      (hstack : (states n).stack = values)
      (hvalues : Values states name n env callers s.node i k below s.node.operands values)
      (hk : Waits states t name n env callers base s.app? k below)
      (hcallers : FramesWait states t name n callers base)
  | unrolled {env : Env} {line : Nat} {k : List Instr} {callers : List Frame} {c : Closure}
      {operand : Value} {rest : List Value}
      (hframes : (states n).frames = ⟨env, .apply line :: .apply line :: k⟩ :: callers)
      (hstack : (states n).stack = .closure c :: .eta c :: operand :: rest)
      (h : FramesWait states t name n (⟨env, .apply line :: k⟩ :: callers) (operand :: rest))

end Waiting

variable {states : Nat → State} {t : Term} {name : String → Name} {n : Nat} {env : Env}
  {callers : List Frame} {g : Option Term} {code : List Instr} {stack base : List Value}

/-! ## Looking at what waits -/

/-- The values of operands lie on top of what was there before. -/
theorem Values.exists_eq_append {q : Term} {i : Nat} {k : List Instr} {below : List Value}
    {fin : List Seat} (h : Values states name n env callers q i k below fin stack) :
    ∃ above, above.length = fin.length ∧ stack = above ++ below := by
  induction h with
  | nil => exact ⟨[], rfl, rfl⟩
  | @cons _ _ _ v _ _ _ _ ih =>
      rcases ih with ⟨above, hlength, rfl⟩
      exact ⟨v :: above, congrArg (· + 1) hlength, rfl⟩

/-- What waits in an activation keeps the values that were there before it. -/
theorem Waits.exists_eq_append (h : Waits states t name n env callers base g code stack) :
    ∃ above, stack = above ++ base := by
  induction h with
  | done => exact ⟨[], rfl⟩
  | operand _ _ _ hvalues _ ih =>
      rcases hvalues.exists_eq_append with ⟨above, _, rfl⟩
      rcases ih with ⟨above', rfl⟩
      exact ⟨above ++ above', (List.append_assoc _ _ _).symm⟩

/-- Where no code waits, no values do. -/
theorem Waits.stack_eq_of_nil (h : Waits states t name n env callers base g [] stack) :
    stack = base := by
  generalize hcode : ([] : List Instr) = code at h
  cases h with
  | done => rfl
  | @operand u _ todo _ i k _ _ _ _ _ _ _ =>
      rcases u.node.exists_remaining_eq_append name i todo k with ⟨front, hfront⟩
      simp [hfront] at hcode

/-- In operator position of nothing, no application waits. -/
theorem Waits.ne_apply_of_none (h : Waits states t name n env callers base none code stack)
    (line : Nat) (rest : List Instr) : code ≠ .apply line :: rest := by
  generalize hg : (none : Option Term) = g at h
  cases h with
  | done => exact nofun
  | operand hu hsplit => exact Term.remaining_ne_apply name hsplit hg.symm _ line rest

/-- In operator position of an application, that application waits, with the value of its
operand on top of the stack. -/
theorem Waits.of_some {app : Term}
    (h : Waits states t name n env callers base (some app) code stack) :
    ∃ g line rator rand i j k v below, app = .app line rator rand ∧ ⟨g, app⟩ ∈ t.seats ∧
      code = .apply line :: k ∧ stack = v :: below ∧
      Evaluated states env callers (rand.named name j)
        ((rator.named name i).flatten (.apply line :: k)) v below n ∧
      Waits states t name n env callers base g k below := by
  generalize hg : some app = g at h
  cases h with
  | done => cases hg
  | @operand u s todo fin i k stack below hu hsplit _ hvalues hk =>
      rcases Term.of_operands_eq_append hsplit hg.symm with ⟨rfl, rfl, line, rand, happ, rfl⟩
      rcases u with ⟨g', _⟩
      subst happ
      rw [Term.operands, List.nil_append] at hsplit
      cases hvalues with
      | @cons todo _ _ v _ hsplit' hv hnil =>
          cases hnil
          have hlast : [⟨some (.app line s.node rand), s.node⟩] ++ [⟨none, rand⟩] =
              todo ++ [⟨none, rand⟩] := hsplit'
          rcases List.append_cancel_right hlast with rfl
          rcases hv rfl with ⟨j, hv⟩
          exact ⟨g', line, _, rand, i, j, k, v, _, rfl, hu, rfl, rfl, hv, hk⟩

/-- Behind an operator its application waits, above the value of the operand. -/
theorem Waits.rator {line i : Nat} {rator rand : Term} {k : List Instr} {below : List Value}
    (hs : ⟨g, .app line rator rand⟩ ∈ t.seats)
    (hvalues : Values states name n env callers (.app line rator rand) i k below [⟨none, rand⟩]
      stack)
    (hk : Waits states t name n env callers base g k below) :
    Waits states t name n env callers base (some (.app line rator rand)) (.apply line :: k)
      stack := by
  have hsplit : (Term.app line rator rand).operands =
      [] ++ ⟨some (.app line rator rand), rator⟩ :: [⟨none, rand⟩] := rfl
  exact .operand hs hsplit nofun hvalues hk

/-! ## From one moment to the next -/

theorem Values.later {q : Term} {i : Nat} {k : List Instr} {below : List Value}
    {fin : List Seat} (h : Values states name n env callers q i k below fin stack)
    (hkeeps : (states (n + 1)).Keeps env callers [] stack) :
    Values states name (n + 1) env callers q i k below fin stack := by
  induction h with
  | nil => exact .nil
  | @cons _ _ _ v _ hsplit hv _ ih =>
      refine .cons hsplit (fun hs => ?_) (ih (.of_append [] [v] hkeeps))
      rcases hv hs with ⟨j, hv⟩
      exact ⟨j, hv.later hkeeps⟩

/-- What waits in an activation goes on waiting as long as the activation is live. -/
theorem Waits.later (h : Waits states t name n env callers base g code stack)
    (hkeeps : (states (n + 1)).Keeps env callers code stack) :
    Waits states t name (n + 1) env callers base g code stack := by
  induction h with
  | done => exact .done
  | @operand u s todo fin i k stack below hu hsplit hbegan hvalues _ ih =>
      have hstack : (states (n + 1)).Keeps env callers [] stack :=
        .of_append (u.node.remaining name i todo k) [] (by rwa [List.append_nil])
      have hk : (states (n + 1)).Keeps env callers k below := by
        rcases u.node.exists_remaining_eq_append name i todo k with ⟨front, hfront⟩
        rcases hvalues.exists_eq_append with ⟨above, _, rfl⟩
        rw [hfront, List.append_cons] at hkeeps
        exact .of_append _ above hkeeps
      refine .operand hu hsplit (fun hs => ?_) (hvalues.later hstack) (ih hk)
      rcases hbegan hs with ⟨first, j, hbegan⟩
      exact ⟨first, j, hbegan.later hkeeps⟩

/-- What waits in frames goes on waiting as long as they are there. -/
theorem FramesWait.later {frames : List Frame} (h : FramesWait states t name n frames stack)
    (newer : List Frame) (above : List Value)
    (hframes : (states (n + 1)).frames = newer ++ frames)
    (hstack : (states (n + 1)).stack = above ++ stack) :
    FramesWait states t name (n + 1) frames stack := by
  induction h generalizing newer above with
  | nil => exact .nil
  | @cons env callers g code stack base h _ ih =>
      refine .cons (h.later ⟨newer, [], above, hframes, hstack⟩) ?_
      rcases h.exists_eq_append with ⟨above', rfl⟩
      rw [List.append_cons] at hframes
      rw [← List.append_assoc] at hstack
      exact ih _ _ hframes hstack

/-! ## Nodes and values -/

/-- Where a run stands when it begins to evaluate a node. -/
theorem Stands.enter {s : Seat} {i : Nat} {k : List Instr} (hs : s ∈ t.seats)
    (hframes : (states n).frames = ⟨env, (s.node.named name i).flatten k⟩ :: callers)
    (hstack : (states n).stack = stack)
    (hk : Waits states t name n env callers base s.app? k stack)
    (hcallers : FramesWait states t name n callers base) : Stands states t name n := by
  generalize hx : s.node = x
  induction x using Term.induction_subtrees generalizing s i k with
  | node x ih =>
      subst hx
      rw [Term.flatten_named] at hframes
      rcases List.eq_nil_or_concat s.node.operands with hnil | ⟨todo, u, hconcat⟩
      · rw [hnil] at hframes
        exact .ready hs hframes hstack (hnil ▸ .nil) hk hcallers
      · -- the last operand is evaluated first
        rw [List.concat_eq_append] at hconcat
        have hu : u ∈ s.node.operands := by simp [hconcat]
        rcases s.node.exists_remaining_concat name i todo u k with ⟨j, hj⟩
        rw [hconcat, hj] at hframes
        refine ih u.node ?_ (Term.mem_seats_of_mem_operands hs hu) hframes ?_ rfl
        · exact Seat.mem_subtrees_of_mem_inner (List.mem_append_left _ hu)
        · exact .operand hs hconcat (fun _ => ⟨n, j, .now hframes hstack⟩) .nil hk

/-- Where a run stands when a value has been found. -/
theorem Stands.settle {v : Value} (hframes : (states n).frames = ⟨env, code⟩ :: callers)
    (hstack : (states n).stack = v :: stack)
    (h : Waits states t name n env callers base g code stack)
    (hcallers : FramesWait states t name n callers base) : Stands states t name n := by
  cases h with
  | done => exact .returned hframes hstack hcallers
  | @operand u s todo fin i k _ below hu hsplit hbegan hvalues hk =>
      have hfound : Values states name n env callers u.node i k below (s :: fin) (v :: stack) := by
        refine .cons hsplit (fun hs => ?_) hvalues
        rcases hbegan hs with ⟨first, j, hbegan⟩
        exact ⟨j, .now hbegan hframes hstack⟩
      rcases List.eq_nil_or_concat todo with rfl | ⟨todo, w, rfl⟩
      · rw [List.nil_append] at hsplit
        exact .ready hu hframes hstack (hsplit ▸ hfound) hk hcallers
      · rw [List.concat_eq_append] at hframes hsplit
        rcases u.node.exists_remaining_concat name i todo w k with ⟨j, hj⟩
        rw [hj] at hframes
        rw [List.append_assoc, List.singleton_append] at hsplit
        have hw : w ∈ u.node.operands := by simp [hsplit]
        refine .enter (Term.mem_seats_of_mem_operands hu hw) hframes hstack ?_ hcallers
        exact .operand hu hsplit (fun _ => ⟨n, j, .now hframes hstack⟩) hfound hk

end CSEMachine
