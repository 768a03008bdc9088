import CSEMachine.Proofs.DepthLimit
import CSEMachine.Proofs.Positions
import Mathlib.Order.Interval.Finset.Nat

/-!
# Calls and tail positions

The machine drops a caller whose code has run out.  In a run of the code of a tree that is
the case exactly when the application stands in tail position: an application is the last
instruction of its code exactly then, and what a run does to code preserves this.  The one
exception are the two applications of an unrolled fixed point, of which only the second one
stands for the node.

Main results:

- Theorem `State.Placed.step`: a step preserves that what is left of the code of a frame
  comes from nodes.
- Theorem `Machine.placed_of_after`: every state of a run is of this kind.
- Theorem `Machine.exists_open_call`: every frame but the first goes back to a call that is
  still in progress and has kept its caller.
- Theorem `Machine.tail_positions_run`: which calls drop their callers, and how many frames
  there are.
-/

namespace CSEMachine

/-! ## Calls of a state -/

/-- Whether the next instruction unrolls a fixed point. -/
def State.unrolls (s : State) : Bool :=
  match s.frames, s.stack with
  | ⟨_, .apply _ :: _⟩ :: _, .eta _ :: _ :: _ => true
  | _, _ => false

/-- The line of the next instruction, if it applies a closure. -/
def State.callLine? (s : State) : Option Nat :=
  match s.frames, s.stack with
  | ⟨_, .apply line :: _⟩ :: _, .closure _ :: _ :: _ => some line
  | _, _ => none

/-- A closure that is applied stands on top of the stack, at an application. -/
theorem State.of_callee? {s : State} {c : Closure} (h : s.callee? = some c) :
    ∃ env line code callers operand rest,
      s.frames = ⟨env, .apply line :: code⟩ :: callers ∧
        s.stack = .closure c :: operand :: rest := by
  unfold State.callee? at h
  split at h
  · rename_i env line code callers _ operand rest hframes hstack
    cases h
    exact ⟨env, line, code, callers, operand, rest, hframes, hstack⟩
  · cases h

/-- A call puts a frame for the closure on top, and drops the caller if nothing is left of
its code. -/
theorem Machine.frames_of_call {m : Machine} {s s' : State} {env : Env} {line : Nat}
    {code : List Instr} {callers : List Frame} {c : Closure} {operand : Value}
    {rest : List Value} (hframes : s.frames = ⟨env, .apply line :: code⟩ :: callers)
    (hstack : s.stack = .closure c :: operand :: rest) (h : m.step s = .next s') :
    ∃ env', s'.frames = ⟨env', c.block.code⟩ ::
      if m.dropsCallers && code.isEmpty then callers else ⟨env, code⟩ :: callers := by
  rcases s with ⟨frames, stack, store, printed⟩
  cases hframes
  cases hstack
  have hcall : Focus.call ⟨env, code, callers, rest, store, printed⟩ m c operand = .next s' :=
    Transition.eq_next_of_atLine h
  exact ⟨_, (Focus.activates_of_call hcall).frames⟩

/-- Unrolling a fixed point leaves two applications on one line, the first of which applies
the closure to the eta closure. -/
theorem Machine.of_unrolls {m : Machine} {s s' : State} (h : s.unrolls = true)
    (hstep : m.step s = .next s') :
    ∃ env line code callers c operand rest,
      s.frames = ⟨env, .apply line :: code⟩ :: callers ∧ s.stack = .eta c :: operand :: rest ∧
        s'.frames = ⟨env, .apply line :: .apply line :: code⟩ :: callers ∧
        s'.stack = .closure c :: .eta c :: operand :: rest := by
  rcases s with ⟨frames, stack, store, printed⟩
  unfold State.unrolls at h
  split at h
  · rename_i env line code callers c operand rest hframes hstack
    cases hframes
    cases hstack
    cases hstep
    exact ⟨env, line, code, callers, c, operand, rest, rfl, rfl, rfl, rfl⟩
  · cases h

/-! ## Placed states -/

/-- A state the code of whose frames comes from nodes of a tree.  The flag tells the states
right after a fixed point has been unrolled, which have one more application. -/
inductive State.Placed (name : String → Name) (t : Term) : Bool → State → Prop
  | settled {s : State} (h : ∀ frame ∈ s.frames, Instr.Placed name t true frame.code) :
      Placed name t false s
  | unrolled {s : State} {env : Env} {line : Nat} {code : List Instr} {callers : List Frame}
      {c : Closure} {operand : Value} {rest : List Value}
      (hframes : s.frames = ⟨env, .apply line :: .apply line :: code⟩ :: callers)
      (hstack : s.stack = .closure c :: .eta c :: operand :: rest)
      (hcode : Instr.Placed name t true (.apply line :: code))
      (hcallers : ∀ frame ∈ callers, Instr.Placed name t true frame.code) :
      Placed name t true s

/-- The node of an application, which stands in tail position if no code is left. -/
theorem Instr.Placed.app {name : String → Name} {t : Term} {line : Nat} {code : List Instr}
    (h : Instr.Placed name t true (.apply line :: code)) :
    ∃ p ∈ t.positions, p.node.line = line ∧ (∃ rator rand, p.node = .app line rator rand) ∧
      p.tail = code.isEmpty := by
  generalize hall : Instr.apply line :: code = all at h
  cases h with
  | nil => cases hall
  | @cons p _ n hp htail _ =>
      rcases List.cons.inj hall with ⟨hinstr, rfl⟩
      refine ⟨p, hp, ?_, ?_, by rw [htail, Bool.and_true]⟩
      · rw [← Term.line_instr_named p.node name n, ← hinstr]
        rfl
      · rcases p with ⟨tail, node⟩
        cases node with
        | app line' rator rand =>
            cases hinstr
            exact ⟨rator, rand, rfl⟩
        | _ => cases hinstr

section Step

variable {m : Machine} {name : String → Name} {t : Term} {s s' : State}

/-- What is left of the code of a frame comes from nodes after any instruction that stays in
the frame and unrolls nothing. -/
theorem Instr.perform_placed {i : Instr} {f : Focus}
    (hcode : Instr.Placed name t true (i :: f.code))
    (hcall : ∀ line c operand rest, i = .apply line → f.stack ≠ .closure c :: operand :: rest)
    (hunroll : ∀ line c operand rest, i = .apply line → f.stack ≠ .eta c :: operand :: rest) :
    (i.perform m f).Stays f (Instr.Placed name t true) := by
  refine Instr.perform_stays m hcall hcode.tail ?_ ?_ ?_
  · rintro line thenArm elseArm rfl
    generalize hall : Instr.branch line thenArm elseArm :: f.code = all at hcode
    cases hcode with
    | nil => cases hall
    | cons n hp htail hrest =>
        rcases List.cons.inj hall with ⟨hinstr, rfl⟩
        rcases Instr.Placed.of_branch hp hinstr.symm with ⟨hthen, helse⟩
        rw [htail] at hthen helse
        exact ⟨hthen.append hrest, helse.append hrest⟩
  · intro line code hf
    have hrest := hcode.tail
    rw [hf] at hrest
    exact hrest.tail
  · intro line c operand rest hi hstack
    exact absurd hstack (hunroll line c operand rest hi)

/-- A call leaves behind code that comes from nodes. -/
theorem State.Placed.call {env : Env} {line : Nat} {code : List Instr} {callers : List Frame}
    {c : Closure} {operand : Value} {rest : List Value}
    (hframes : s.frames = ⟨env, .apply line :: code⟩ :: callers)
    (hstack : s.stack = .closure c :: operand :: rest)
    (hcode : Instr.Placed name t true code)
    (hcallers : ∀ frame ∈ callers, Instr.Placed name t true frame.code)
    (hbody : Instr.Placed name t true c.block.code) (h : m.step s = .next s') :
    s'.Placed name t false := by
  rcases m.frames_of_call hframes hstack h with ⟨env', hframes'⟩
  refine .settled ?_
  rw [hframes', List.forall_mem_cons]
  refine ⟨hbody, ?_⟩
  split
  · exact hcallers
  · exact List.forall_mem_cons.mpr ⟨hcode, hcallers⟩

/-- A step preserves that what is left of the code of a frame comes from nodes. -/
theorem State.Placed.step {b : Bool} (h : s.Placed name t b)
    (hclosures : ∀ c, .closure c ∈ s.stack → Instr.Placed name t true c.block.code)
    (hstep : m.step s = .next s') : s'.Placed name t s.unrolls := by
  cases h with
  | unrolled hframes hstack hcode hcallers =>
      have hunrolls : s.unrolls = false := by
        simp [State.unrolls, hframes, hstack]
      rw [hunrolls]
      exact .call hframes hstack hcode hcallers
        (hclosures _ (by rw [hstack]; exact List.mem_cons_self)) hstep
  | settled hplaced =>
      rcases s with ⟨frames, stack, store, printed⟩
      match frames with
      | [] => cases hstep
      | ⟨env, []⟩ :: callers =>
          cases hstep
          exact .settled (List.forall_mem_cons.mp hplaced).2
      | ⟨env, i :: code⟩ :: callers =>
          rcases List.forall_mem_cons.mp hplaced with ⟨hcode, hcallers⟩
          by_cases hcall : ∃ line c operand rest, i = .apply line ∧
              stack = .closure c :: operand :: rest
          · rcases hcall with ⟨line, c, operand, rest, rfl, rfl⟩
            exact .call rfl rfl hcode.tail hcallers (hclosures c List.mem_cons_self) hstep
          by_cases hunroll : ∃ line c operand rest, i = .apply line ∧
              stack = .eta c :: operand :: rest
          · rcases hunroll with ⟨line, c, operand, rest, rfl, rfl⟩
            cases hstep
            exact .unrolled rfl rfl hcode hcallers
          have hunrolls : State.unrolls ⟨⟨env, i :: code⟩ :: callers, stack, store, printed⟩ =
              false := by
            unfold State.unrolls
            split
            · rename_i hframes hstack
              cases hframes
              exact absurd ⟨_, _, _, _, rfl, hstack⟩ hunroll
            · rfl
          rw [hunrolls]
          have hstays := Instr.perform_placed (m := m)
            (f := ⟨env, code, callers, stack, store, printed⟩) hcode
            (fun line c operand rest hi hstack => hcall ⟨line, c, operand, rest, hi, hstack⟩)
            (fun line c operand rest hi hstack => hunroll ⟨line, c, operand, rest, hi, hstack⟩)
          rcases hstays s' (Transition.eq_next_of_atLine hstep) with ⟨⟨code', hframes', hcode'⟩, _⟩
          refine .settled ?_
          rw [hframes', List.forall_mem_cons]
          exact ⟨hcode', hcallers⟩

end Step

/-! ## Runs -/

namespace Machine

variable (m : Machine) (root : Block) (store : Store)

/-- The state that a run is in after a number of steps, or has ended in before. -/
def stateAt (n : Nat) : State :=
  (m.after n (m.start root store)).state

/-- Number of live activations after a number of steps. -/
def depthAt (n : Nat) : Nat :=
  (m.stateAt root store n).frames.length

/-- Whether the application that is next is the first of the two that an unrolled fixed
point has. -/
def firstHalf : Nat → Bool
  | 0 => false
  | n + 1 => (m.stateAt root store n).unrolls

/-- Whether the next step calls a closure by an application that is not in tail position, or
is the first half of an unrolling. -/
def callsInside (t : Term) (n : Nat) : Bool :=
  match (m.stateAt root store n).callLine? with
  | some line => m.firstHalf root store n || !t.tailAt line
  | none => false

/-- A call is in progress as long as the activations that it was made on top of, and one
more, are live: its own, or the one that has taken its place. -/
def InProgress (n k : Nat) : Prop :=
  ∀ j ≤ k, n < j → m.depthAt root store (n + 1) ≤ m.depthAt root store j

instance (n k : Nat) : Decidable (m.InProgress root store n k) :=
  inferInstanceAs (Decidable (∀ j ≤ k, n < j → _))

/-- The calls still in progress after `k` steps that are not in tail position, or are the
first half of an unrolling. -/
def openCalls (t : Term) (k : Nat) : Finset Nat :=
  (Finset.range k).filter fun n => m.callsInside root store t n ∧ m.InProgress root store n k

variable {m root store}

theorem stateAt_eq {n : Nat} {s : State} (h : m.after n (m.start root store) = .next s) :
    m.stateAt root store n = s := by
  rw [stateAt, h]
  rfl

/-- A run that goes on after a further step went on before it. -/
theorem before_of_after_succ {n : Nat} {s : State}
    (h : m.after (n + 1) (m.start root store) = .next s) :
    ∃ s₀, m.after n (m.start root store) = .next s₀ ∧ m.step s₀ = .next s := by
  rw [after_succ] at h
  cases hafter : m.after n (m.start root store) with
  | next s₀ =>
      rw [hafter, advance] at h
      exact ⟨s₀, rfl, h⟩
  | halted s₀ => simp [hafter, advance] at h
  | failed fault s₀ => simp [hafter, advance] at h

/-- The first half of an unrolling comes right after the application of the eta closure. -/
theorem of_firstHalf {n : Nat} {s : State} (h : m.after n (m.start root store) = .next s)
    (hhalf : m.firstHalf root store n = true) :
    ∃ env line code callers c operand rest,
      (m.stateAt root store (n - 1)).frames = ⟨env, .apply line :: code⟩ :: callers ∧
        (m.stateAt root store (n - 1)).stack = .eta c :: operand :: rest ∧
        s.frames = ⟨env, .apply line :: .apply line :: code⟩ :: callers ∧
        s.stack = .closure c :: .eta c :: operand :: rest := by
  cases n with
  | zero => cases hhalf
  | succ n =>
      rcases before_of_after_succ h with ⟨s₀, hafter, hstep⟩
      rw [firstHalf, stateAt_eq hafter] at hhalf
      rw [Nat.add_sub_cancel, stateAt_eq hafter]
      exact of_unrolls hhalf hstep

/-- A run begins with one frame. -/
theorem frames_of_start {s : State} (h : m.start root store = .next s) :
    ∃ env, s.frames = [⟨env, root.code⟩] := by
  unfold start at h
  split at h
  · cases h
  · cases h
    exact ⟨_, rfl⟩

section Tree

variable {t : Term} {name : String → Name} {i : Nat}

/-- In every state of a run of a tree, what is left of the code of a frame comes from
nodes. -/
theorem placed_of_after {n : Nat} {s : State}
    (h : m.after n (m.start (t.named name i).toBlock store) = .next s) :
    s.Placed name t (m.firstHalf (t.named name i).toBlock store n) := by
  induction n generalizing s with
  | zero =>
      rcases frames_of_start h with ⟨env, hframes⟩
      refine .settled ?_
      rw [hframes, List.forall_mem_singleton]
      exact Instr.Placed.of_root name t i
  | succ n ih =>
      rcases before_of_after_succ h with ⟨s₀, hafter, hstep⟩
      have hclosures := (Machine.Reachable.stems ⟨n, hafter⟩).2
      rw [firstHalf, stateAt_eq hafter]
      exact (ih hafter).step (fun c hc => hclosures c (Or.inl (.stack hc))) hstep

/-- The node of a call, by which the caller is dropped or kept. -/
theorem node_of_call (hdrops : m.dropsCallers = true) {n : Nat} {s s' : State} {c : Closure}
    (h : m.after n (m.start (t.named name i).toBlock store) = .next s)
    (hcallee : s.callee? = some c) (hstep : m.step s = .next s') :
    ∃ env env' line code callers, ∃ p ∈ t.positions,
      s.frames = ⟨env, .apply line :: code⟩ :: callers ∧ s.callLine? = some line ∧
        p.node.line = line ∧ (∃ rator rand, p.node = .app line rator rand) ∧
        s'.frames = ⟨env', c.block.code⟩ ::
          if !m.firstHalf (t.named name i).toBlock store n && p.tail then callers
          else ⟨env, code⟩ :: callers := by
  rcases State.of_callee? hcallee with ⟨env, line, code, callers, operand, rest, hframes, hstack⟩
  rcases m.frames_of_call hframes hstack hstep with ⟨env', hframes'⟩
  rw [hdrops, Bool.true_and] at hframes'
  have hline : s.callLine? = some line := by
    simp [State.callLine?, hframes, hstack]
  have hplaced := placed_of_after h
  generalize m.firstHalf (t.named name i).toBlock store n = half at hplaced ⊢
  cases hplaced with
  | settled hplaced =>
      rw [hframes, List.forall_mem_cons] at hplaced
      rcases hplaced.1.app with ⟨p, hp, hpline, happ, htail⟩
      refine ⟨env, env', line, code, callers, p, hp, hframes, hline, hpline, happ, ?_⟩
      rw [hframes', htail, Bool.not_false, Bool.true_and]
  | unrolled hframes₀ _ hcode _ =>
      -- an application is left, so the caller is not finished
      rw [hframes] at hframes₀
      cases hframes₀
      rcases hcode.app with ⟨p, hp, hpline, happ, _⟩
      exact ⟨env, env', line, _, callers, p, hp, hframes, hline, hpline, happ, hframes'⟩

/-- A step that adds a frame is a call that is not in tail position, or is the first half of
an unrolling. -/
theorem callsInside_of_lt (hdrops : m.dropsCallers = true) (hnodup : t.lines.Nodup) {n : Nat}
    {s s' : State} (h : m.after n (m.start (t.named name i).toBlock store) = .next s)
    (hstep : m.step s = .next s') (hlt : s.frames.length < s'.frames.length) :
    m.callsInside (t.named name i).toBlock store t n = true := by
  rcases step_cases hstep with ⟨env, hframes, _⟩ |
    ⟨env, i, code, code', callers, hframes, hframes', _⟩ | ⟨_, _, c, _, _, _, hcallee, _⟩
  · rw [hframes, List.length_cons] at hlt
    omega
  · rw [hframes, hframes', List.length_cons, List.length_cons] at hlt
    omega
  · rcases node_of_call hdrops h hcallee hstep with
      ⟨env, env', line, code, callers, p, hp, hframes, hline, hpline, _, hframes'⟩
    rw [callsInside, stateAt_eq h, hline]
    simp only []
    rw [← hpline, Term.tailAt_line hnodup hp]
    by_cases hdropped : (!m.firstHalf (t.named name i).toBlock store n && p.tail) = true
    · rw [if_pos hdropped] at hframes'
      rw [hframes, hframes', List.length_cons, List.length_cons] at hlt
      omega
    · rw [Bool.not_eq_true, Bool.and_eq_false_iff, Bool.not_eq_false'] at hdropped
      simpa using hdropped

/-- Every frame but the first goes back to a call that is still in progress and has kept its
caller. -/
theorem exists_open_call (hdrops : m.dropsCallers = true) (hnodup : t.lines.Nodup) {k : Nat}
    {s : State} (h : m.after k (m.start (t.named name i).toBlock store) = .next s) {d : Nat}
    (htwo : 2 ≤ d) (hd : d ≤ s.frames.length) :
    ∃ n ∈ m.openCalls (t.named name i).toBlock store t k,
      m.depthAt (t.named name i).toBlock store (n + 1) = d := by
  induction k generalizing s with
  | zero =>
      rcases frames_of_start h with ⟨env, hframes⟩
      rw [hframes, List.length_singleton] at hd
      omega
  | succ k ih =>
      rcases before_of_after_succ h with ⟨s₀, hafter, hstep⟩
      have hdepth : m.depthAt (t.named name i).toBlock store (k + 1) = s.frames.length := by
        rw [depthAt, stateAt_eq h]
      by_cases hbefore : d ≤ s₀.frames.length
      · -- the call that the frame went back to is still in progress
        rcases ih hafter hbefore with ⟨n, hn, hdn⟩
        refine ⟨n, ?_, hdn⟩
        simp only [openCalls, Finset.mem_filter, Finset.mem_range] at hn ⊢
        rcases hn with ⟨hlt, hinside, hprogress⟩
        refine ⟨Nat.lt_succ_of_lt hlt, hinside, ?_⟩
        intro j hj hnj
        rcases Nat.le_succ_iff.mp hj with hj | rfl
        · exact hprogress j hj hnj
        · rw [hdn, hdepth]
          exact hd
      · -- the frame is new
        have hgrown := length_frames_step hstep
        have hlength : s.frames.length = d := by omega
        refine ⟨k, ?_, hdepth.trans hlength⟩
        simp only [openCalls, Finset.mem_filter, Finset.mem_range]
        refine ⟨Nat.lt_succ_self k, ?_, ?_⟩
        · exact callsInside_of_lt hdrops hnodup hafter hstep (by omega)
        · intro j hj hkj
          rcases Nat.le_antisymm hj hkj with rfl
          exact Nat.le_refl _

/-- There is at most one frame more than there are calls still in progress that have kept
their callers. -/
theorem length_frames_le_openCalls (hdrops : m.dropsCallers = true) (hnodup : t.lines.Nodup)
    {k : Nat} {s : State} (h : m.after k (m.start (t.named name i).toBlock store) = .next s) :
    s.frames.length ≤ (m.openCalls (t.named name i).toBlock store t k).card + 1 := by
  have hsub : Finset.Icc 2 s.frames.length ⊆
      (m.openCalls (t.named name i).toBlock store t k).image
        fun n => m.depthAt (t.named name i).toBlock store (n + 1) := by
    intro d hd
    rcases Finset.mem_Icc.mp hd with ⟨htwo, hd⟩
    exact Finset.mem_image.mpr (exists_open_call hdrops hnodup h htwo hd)
  have hcard := (Finset.card_le_card hsub).trans Finset.card_image_le
  rw [Nat.card_Icc] at hcard
  omega

end Tree

/-- In the run of a tree no two nodes of which share a line, the line of a call leads to one
application.  If the call is the first half of an unrolling of that application, that of the
inner closure to the eta closure, it keeps its caller; otherwise it drops its caller exactly
when the application stands in tail position.  So there is at most one frame more than there
are calls still in progress that are not in tail position, or are the first half of an
unrolling. -/
theorem tail_positions_run (t : Term) (standardized : Bool) (table table' : NameTable)
    (p : Program) (hlowered : Program.ofTerm t standardized table = (.ok p, table'))
    (hnodup : t.lines.Nodup) (m : Machine) (hdrops : m.dropsCallers = true) (store : Store) :
    (∀ (n : Nat) (s s' : State) (c : Closure),
      m.after n (m.start p.root store) = .next s → s.callee? = some c → m.step s = .next s' →
        ∃ env env' line code callers, ∃ q ∈ t.positions,
          s.frames = ⟨env, .apply line :: code⟩ :: callers ∧ q.node.line = line ∧
          (∃ rator rand, q.node = .app line rator rand) ∧
          (∀ r ∈ t.positions, r.node.line = line → r = q) ∧
          (m.firstHalf p.root store n = true →
            (∃ operand rest code', s.stack = .closure c :: .eta c :: operand :: rest ∧
              code = .apply line :: code' ∧
              (m.stateAt p.root store (n - 1)).stack = .eta c :: operand :: rest ∧
              (m.stateAt p.root store (n - 1)).frames =
                ⟨env, .apply line :: code'⟩ :: callers) ∧
            s'.frames = ⟨env', c.block.code⟩ :: ⟨env, code⟩ :: callers) ∧
          (m.firstHalf p.root store n = false →
            s'.frames = ⟨env', c.block.code⟩ ::
              if q.tail then callers else ⟨env, code⟩ :: callers)) ∧
    ∀ (k : Nat) (s : State), m.after k (m.start p.root store) = .next s →
      s.frames.length ≤ (m.openCalls p.root store t k).card + 1 := by
  have hroot : p.root = (t.named table'.nameOf 1).toBlock := by
    rw [(Program.of_ofTerm hlowered (.refl table')).2.1]
    rfl
  rw [hroot]
  refine ⟨?_, ?_⟩
  · intro n s s' c h hcallee hstep
    rcases node_of_call hdrops h hcallee hstep with
      ⟨env, env', line, code, callers, q, hq, hframes, _, hline, happ, hframes'⟩
    refine ⟨env, env', line, code, callers, q, hq, hframes, hline, happ, ?_, ?_, ?_⟩
    · intro r hr hrline
      exact Term.eq_of_line_eq hnodup hr hq (hrline.trans hline.symm)
    · intro hhalf
      rcases State.of_callee? hcallee with ⟨_, _, _, _, _, _, _, hstack⟩
      rcases of_firstHalf h hhalf with
        ⟨_, _, code', _, _, operand, rest, hbefore, hstackBefore, hframes₀, hstack₀⟩
      rw [hframes] at hframes₀
      rw [hstack] at hstack₀
      cases hframes₀
      cases hstack₀
      rw [hhalf] at hframes'
      exact ⟨⟨operand, rest, code', hstack, rfl, hstackBefore, hbefore⟩, hframes'⟩
    · intro hhalf
      rw [hhalf] at hframes'
      exact hframes'
  · intro k s h
    exact length_frames_le_openCalls hdrops hnodup h

/-- In `Y* (fn f. fn n. f n) 1` the first half of the unrolling on line 1 keeps the first
frame, and the second half drops it. -/
theorem tail_positions_run_loop :
    let t : Term := .app 1 (.app 2 (.fixpoint 3) (.lambda 4 ["f"] (.lambda 5 ["n"]
      (.app 6 (.ident 7 "f") (.ident 8 "n"))))) (.literal 9 (.int 1))
    let table : NameTable := ⟨0, ["f", "n"]⟩
    let root := (t.program true table).root
    let m : Machine := ⟨table, some 2, true⟩
    Program.ofTerm t true ⟨0, []⟩ = (.ok (t.program true table), table) ∧ t.lines.Nodup ∧
      m.firstHalf root .empty 5 = true ∧ m.depthAt root .empty 6 = 2 ∧
      2 ≤ (m.openCalls root .empty t 6).card + 1 ∧
      m.firstHalf root .empty 8 = false ∧ m.depthAt root .empty 9 = 1 := by
  intro t table root m
  have hlowered : Program.ofTerm t true ⟨0, []⟩ = (.ok (t.program true table), table) := rfl
  have hnodup : t.lines.Nodup := by decide
  have hrun := tail_positions_run t true _ _ _ hlowered hnodup m rfl .empty
  have hstate : ∀ n ∈ [5, 6, 8, 9], m.after n (m.start root .empty) =
      .next (m.stateAt root .empty n) := by decide
  have hfirst : m.firstHalf root .empty 5 = true := rfl
  have hsecond : m.firstHalf root .empty 8 = false := rfl
  have hkept : m.depthAt root .empty 6 = 2 := by
    rcases hrun.1 5 _ (m.stateAt root .empty 6) _ (hstate 5 (by simp)) rfl rfl with
      ⟨_, _, _, _, callers, _, _, hframes, _, _, _, hkeeps, _⟩
    have hcallers : callers = [] := (List.cons.inj hframes).2.symm
    rw [depthAt, (hkeeps hfirst).2, hcallers]
    rfl
  have hdropped : m.depthAt root .empty 9 = 1 := by
    rcases hrun.1 8 _ (m.stateAt root .empty 9) _ (hstate 8 (by simp)) rfl rfl with
      ⟨_, _, line, _, callers, q, _, hframes, _, _, hunique, _, hdrops⟩
    rcases List.cons.inj hframes with ⟨hframe, rfl⟩
    cases hframe
    have hq := hunique ⟨true, t⟩ (t.self_mem_positionsIn true) rfl
    rw [depthAt, hdrops hsecond, ← hq]
    rfl
  refine ⟨hlowered, hnodup, hfirst, hkept, ?_, hsecond, hdropped⟩
  have hle := hrun.2 6 _ (hstate 6 (by simp))
  rw [← hkept]
  exact hle

end Machine

end CSEMachine
