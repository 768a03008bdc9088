import CSEMachine.Proofs.Effects
import CSEMachine.Proofs.Failures
import CSEMachine.Proofs.Frames
import Mathlib.Data.Nat.Find

/-!
# The limit on activations

The limit on live activations is looked at in one place only, when a closure is activated,
and there it either stops the run or changes nothing.  So a run under a limit goes on
exactly as it does under any larger limit, until it exceeds its own.

Main results:

- Theorem `Machine.step_withLimit`: a step exceeds its limit or is the step under any
  larger limit.
- Theorem `Machine.after_withLimit`: so is a whole run, and what it has printed when it is
  cut short is a prefix of what the other one prints.
- Theorem `Machine.length_frames_after`: every step adds at most one activation.
- Theorem `Machine.exists_least_limit`: a program whose run ends has a least sufficient
  limit.
- Theorem `Machine.evaluate_withLimit`: what this means for evaluations.
-/

namespace CSEMachine

/-! ## Limits -/

/-- One limit is at most another.  To have no limit is more than any limit. -/
def Machine.AtMost : Option Nat → Option Nat → Prop
  | _, none => True
  | some limit, some limit' => limit ≤ limit'
  | none, some _ => False

/-- The same machine with another limit. -/
def Machine.withLimit (m : Machine) (limit : Option Nat) : Machine :=
  { m with maxDepth := limit }

/-- A transition that has failed because a limit was exceeded. -/
def Transition.Exceeds (limit : Option Nat) (t : Transition) : Prop :=
  ∃ n fault s, limit = some n ∧ t = .failed fault s ∧ fault.cause = .depthExceeded n

/-- A result that reports that a limit was exceeded. -/
def Result.Exceeds (limit : Option Nat) (r : Result) : Prop :=
  ∃ n fault, limit = some n ∧ r = .error fault ∧ fault.cause = .depthExceeded n

theorem Transition.Exceeds.atLine {limit : Option Nat} {t : Transition} (h : t.Exceeds limit)
    (line : Nat) : (t.atLine line).Exceeds limit := by
  rcases h with ⟨n, fault, s, hlimit, rfl, hcause⟩
  exact ⟨n, fault.atLine line, s, hlimit, rfl, hcause⟩

/-- What fails for other reasons than a limit exceeds none. -/
theorem Transition.FailsFor.not_exceeds {t : Transition} (h : t.FailsFor (· ≠ .depth))
    (limit : Option Nat) : ¬ t.Exceeds limit := by
  rintro ⟨n, fault, s, _, rfl, hcause⟩
  have horigin := h fault s rfl
  rw [hcause] at horigin
  exact horigin rfl

namespace Machine

variable {limit limit' : Option Nat}

theorem AtMost.refl (limit : Option Nat) : AtMost limit limit := by
  cases limit with
  | none => exact trivial
  | some n => exact Nat.le_refl n

theorem AtMost.top (limit : Option Nat) : AtMost limit none := by
  cases limit with
  | none => exact trivial
  | some n => exact trivial

/-- A smaller number of activations is allowed, too. -/
theorem AtMost.of_le {n k : Nat} (h : AtMost (some n) limit) (hle : k ≤ n) :
    AtMost (some k) limit := by
  cases limit with
  | none => exact trivial
  | some limit => exact Nat.le_trans hle h

/-- A limit forbids a further activation once there are as many as it allows. -/
theorem limitAbove?_eq_some {m : Machine} {frames : List Frame} {n : Nat} :
    m.limitAbove? frames = some n ↔ m.maxDepth = some n ∧ n ≤ frames.length := by
  unfold limitAbove?
  cases m.maxDepth with
  | none => simp
  | some k =>
      simp only [Option.ite_none_right_eq_some, Option.some.injEq]
      grind

/-- There is room for one more activation if the limit allows it. -/
theorem limitAbove?_eq_none_iff {m : Machine} {frames : List Frame} :
    m.limitAbove? frames = none ↔ AtMost (some (frames.length + 1)) m.maxDepth := by
  rw [Option.eq_none_iff_forall_ne_some]
  constructor
  · intro h
    cases hmax : m.maxDepth with
    | none => exact trivial
    | some limit =>
        refine Nat.lt_of_not_le fun hle => ?_
        exact h limit (limitAbove?_eq_some.mpr ⟨hmax, hle⟩)
  · intro h limit hsome
    rcases limitAbove?_eq_some.mp hsome with ⟨hmax, hle⟩
    rw [hmax] at h
    exact Nat.not_le_of_lt h hle

/-- What a larger limit forbids a smaller one forbids too. -/
theorem AtMost.limitAbove? (h : AtMost limit limit') {m : Machine} {frames : List Frame}
    (hnone : (m.withLimit limit).limitAbove? frames = none) :
    (m.withLimit limit').limitAbove? frames = none := by
  rw [Option.eq_none_iff_forall_ne_some] at hnone ⊢
  intro n' hn'
  rcases limitAbove?_eq_some.mp hn' with ⟨rfl, hle'⟩
  cases limit with
  | none => exact h
  | some n =>
      have hle : n ≤ n' := h
      exact hnone n (limitAbove?_eq_some.mpr ⟨rfl, Nat.le_trans hle hle'⟩)

end Machine

/-! ## Steps -/

/-- A transition under a limit against the one under a larger limit: the same, or cut
short. -/
def Transition.Cut (limit : Option Nat) (t t' : Transition) : Prop :=
  t = t' ∧ t.FailsFor (· ≠ .depth) ∨ t.Exceeds limit ∧ t.printed.toList <+: t'.printed.toList

section Steps

variable {limit limit' : Option Nat}

/-- A call exceeds its limit or is the call under any larger limit. -/
theorem Focus.call_withLimit (h : Machine.AtMost limit limit') (m : Machine) (f : Focus)
    (c : Closure) (operand : Value) :
    (f.call (m.withLimit limit) c operand = f.call (m.withLimit limit') c operand ∧
        (f.call (m.withLimit limit) c operand).FailsFor (· ≠ .depth)) ∨
      (f.call (m.withLimit limit) c operand).Exceeds limit ∧
        ∀ n, limit = some n → n ≤ f.callers.length + 1 := by
  have hsound := c.bindOperand_sound f.store operand
  have hbelow : f.callersBelow (m.withLimit limit) = f.callersBelow (m.withLimit limit') := rfl
  rw [call_eq, call_eq, ← hbelow]
  cases hbind : c.bindOperand f.store operand with
  | error cause =>
      rw [hbind] at hsound
      have hcause : (Fault.of cause).cause.origin = .operands := hsound _ rfl
      refine Or.inl ⟨rfl, fail_failsFor ?_⟩
      rw [hcause]
      decide
  | ok scope =>
      simp only []
      cases hlimit : (m.withLimit limit).limitAbove? (f.callersBelow (m.withLimit limit)) with
      | none =>
          rw [h.limitAbove? hlimit]
          exact Or.inl ⟨rfl, by rintro fault s ⟨⟩⟩
      | some n =>
          rcases Machine.limitAbove?_eq_some.mp hlimit with ⟨rfl, hle⟩
          refine Or.inr ⟨⟨n, _, _, rfl, rfl, rfl⟩, ?_⟩
          rintro _ ⟨⟩
          refine Nat.le_trans hle ?_
          rw [callersBelow_eq]
          split
          · exact Nat.le_succ _
          · exact Nat.le_refl _

/-- An instruction other than the application of a closure never looks at the limit. -/
theorem Instr.perform_withLimit {i : Instr} {f : Focus} (m : Machine) (limit limit' : Option Nat)
    (h : ∀ line c operand rest, i = .apply line → f.stack ≠ .closure c :: operand :: rest) :
    i.perform (m.withLimit limit) f = i.perform (m.withLimit limit') f ∧
      (i.perform (m.withLimit limit) f).FailsFor (· ≠ .depth) := by
  refine ⟨?_, ?_⟩
  · cases i with
    | apply line =>
        rcases f with ⟨env, code, callers, stack, store, printed⟩
        match stack with
        | [] => rfl
        | [v] => rfl
        | operator :: operand :: rest =>
            cases operator with
            | closure c => exact absurd rfl (h line c operand rest rfl)
            | _ => rfl
    | _ => rfl
  · refine Instr.perform_failsFor _ ?_ ?_ ?_ ?_
    · decide
    · decide
    · exact fun _ _ _ => by decide
    · exact fun line c operand rest hi hstack => absurd hstack (h line c operand rest hi)

namespace Machine

/-- A step exceeds its limit or is the step under any larger limit. -/
theorem step_withLimit (h : AtMost limit limit') (m : Machine) (s : State) :
    ((m.withLimit limit).step s = (m.withLimit limit').step s ∧
        ((m.withLimit limit).step s).FailsFor (· ≠ .depth)) ∨
      ((m.withLimit limit).step s).Exceeds limit ∧
        ∀ n, limit = some n → n ≤ s.frames.length := by
  rcases s with ⟨frames, stack, store, printed⟩
  match frames with
  | [] => exact Or.inl ⟨rfl, by rintro fault s ⟨⟩⟩
  | ⟨env, []⟩ :: callers => exact Or.inl ⟨rfl, by rintro fault s ⟨⟩⟩
  | ⟨env, i :: code⟩ :: callers =>
      simp only [step_cons_cons]
      by_cases hcall : ∃ line c operand rest, i = .apply line ∧ stack = .closure c :: operand :: rest
      · rcases hcall with ⟨line, c, operand, rest, rfl, rfl⟩
        rcases Focus.call_withLimit h m ⟨env, code, callers, rest, store, printed⟩ c operand with
          ⟨hsame, hfails⟩ | ⟨hexceeds, hle⟩
        · exact Or.inl ⟨congrArg _ hsame, hfails.atLine line⟩
        · exact Or.inr ⟨hexceeds.atLine line, hle⟩
      · have hperform := Instr.perform_withLimit (i := i)
          (f := ⟨env, code, callers, stack, store, printed⟩) m limit limit'
          fun line c operand rest hi hstack => hcall ⟨line, c, operand, rest, hi, hstack⟩
        exact Or.inl ⟨congrArg _ hperform.1, hperform.2.atLine i.line⟩

/-! ## Runs -/

/-- The first activation exceeds a limit of zero only. -/
theorem start_withLimit (h : AtMost limit limit') (m : Machine) (root : Block) (store : Store) :
    Transition.Cut limit ((m.withLimit limit).start root store)
      ((m.withLimit limit').start root store) := by
  unfold start
  cases hlimit : (m.withLimit limit).limitAbove? [] with
  | none =>
      rw [h.limitAbove? hlimit]
      exact Or.inl ⟨rfl, by rintro fault s ⟨⟩⟩
  | some n =>
      rcases limitAbove?_eq_some.mp hlimit with ⟨rfl, _⟩
      exact Or.inr ⟨⟨n, _, _, rfl, rfl, rfl⟩, List.nil_prefix⟩

/-- A run is cut short by its limit or goes on as under any larger limit. -/
theorem after_withLimit (h : AtMost limit limit') (m : Machine) (root : Block) (store : Store)
    (n : Nat) :
    Transition.Cut limit ((m.withLimit limit).after n ((m.withLimit limit).start root store))
      ((m.withLimit limit').after n ((m.withLimit limit').start root store)) := by
  induction n with
  | zero => exact start_withLimit h m root store
  | succ n ih =>
      rw [after_succ, after_succ]
      generalize (m.withLimit limit).after n _ = t at ih ⊢
      generalize (m.withLimit limit').after n _ = t' at ih ⊢
      rcases ih with ⟨rfl, hfails⟩ | ⟨⟨k, fault, s, rfl, rfl, hcause⟩, hprinted⟩
      · cases t with
        | halted s => exact Or.inl ⟨rfl, hfails⟩
        | failed fault s => exact Or.inl ⟨rfl, hfails⟩
        | next s =>
            rcases step_withLimit h m s with hsame | ⟨hexceeds, _⟩
            · exact Or.inl hsame
            · refine Or.inr ⟨hexceeds, ?_⟩
              rcases hexceeds with ⟨k, fault, s', rfl, hstep, _⟩
              simp only [advance, hstep, Transition.printed, (step_failed hstep).2]
              exact printed_step _ s
      · -- the run that was cut short stays where it is
        refine Or.inr ⟨⟨k, fault, s, rfl, rfl, hcause⟩, hprinted.trans ?_⟩
        exact printed_after _ t' (Nat.zero_le 1)

/-- A step adds at most one activation. -/
theorem length_frames_step {m : Machine} {s s' : State} (h : m.step s = .next s') :
    s'.frames.length ≤ s.frames.length + 1 := by
  rcases step_cases h with ⟨env, hframes, _⟩ | ⟨env, i, code, code', callers, hframes, hframes', _⟩ |
    ⟨f, line, c, hframes, _, _, _, hactivates⟩
  · rw [hframes, List.length_cons]
    omega
  · rw [hframes, hframes', List.length_cons, List.length_cons]
    omega
  · rw [hframes, hactivates.frames, List.length_cons, List.length_cons]
    rw [Focus.callersBelow_eq]
    split
    · exact Nat.succ_le_succ (Nat.le_succ _)
    · exact Nat.le_refl _

/-- After some steps there are at most that many activations besides the first. -/
theorem length_frames_after {m : Machine} {root : Block} {store : Store} {n : Nat} {s : State}
    (h : m.after n (m.start root store) = .next s) : s.frames.length ≤ n + 1 := by
  induction n generalizing s with
  | zero =>
      rw [after_zero] at h
      unfold start at h
      split at h
      · cases h
      · cases h
        exact Nat.le_refl 1
  | succ n ih =>
      rw [after_succ] at h
      cases hafter : m.after n (m.start root store) with
      | next s₀ =>
          rw [hafter, advance] at h
          have hbefore := ih hafter
          have hstep := length_frames_step h
          omega
      | halted s₀ => simp [hafter, advance] at h
      | failed fault s₀ => simp [hafter, advance] at h

/-- No limit is exceeded in fewer steps than it allows activations. -/
theorem not_exceeds_of_lt (m : Machine) (root : Block) (store : Store) {n k : Nat} (h : n < k) :
    ¬ ((m.withLimit (some k)).after n ((m.withLimit (some k)).start root store)).Exceeds
      (some k) := by
  induction n with
  | zero =>
      rintro ⟨_, fault, s, ⟨⟩, hstart, _⟩
      rw [after_zero] at hstart
      unfold start at hstart
      split at hstart
      · rename_i n hlimit
        rcases limitAbove?_eq_some.mp hlimit with ⟨heq, hle⟩
        cases heq
        exact absurd hle (Nat.not_le_of_lt h)
      · cases hstart
  | succ n ih =>
      have hbefore := ih (Nat.lt_of_succ_lt h)
      rw [after_succ]
      cases hafter : (m.withLimit (some k)).after n ((m.withLimit (some k)).start root store) with
      | next s =>
          rcases step_withLimit (AtMost.refl (some k)) m s with ⟨_, hfails⟩ | ⟨_, hle⟩
          · exact hfails.not_exceeds _
          · have hframes := length_frames_after hafter
            have hlimit := hle k rfl
            omega
      | halted s => rintro ⟨_, fault, s', _, ⟨⟩, _⟩
      | failed fault s =>
          rw [hafter] at hbefore
          exact hbefore

end Machine

end Steps

/-! ## Evaluations -/

namespace Machine

variable {m : Machine} {p : Program} {session : Session} {limit limit' : Option Nat}

/-- The texts that the run of a program has printed in its first steps. -/
def texts (m : Machine) (fuel : Nat) (p : Program) (session : Session) : List String :=
  (m.after fuel (m.start p.root session.store)).printed.toList

/-- An evaluation reports an exceeded limit, or is the evaluation under any larger limit and
reports no exceeded limit. -/
theorem evaluate_cut (h : AtMost limit limit') (hrefusal : m.refusal? p = none) (fuel : Nat)
    (session : Session) :
    ((m.withLimit limit).evaluate fuel p session = (m.withLimit limit').evaluate fuel p session ∧
        (m.withLimit limit).texts fuel p session = (m.withLimit limit').texts fuel p session ∧
        ∀ r, (m.withLimit limit).evaluate fuel p session = some r →
          ∀ any, ¬ Result.Exceeds any r.1) ∨
      ∃ r, (m.withLimit limit).evaluate fuel p session = some r ∧ Result.Exceeds limit r.1 := by
  have hrefused : ∀ limit, (m.withLimit limit).refusal? p = none := fun _ => hrefusal
  have hcut := after_withLimit h m p.root session.store fuel
  rw [evaluate_of_not_refused (hrefused limit), evaluate_of_not_refused (hrefused limit')]
  unfold texts
  generalize (m.withLimit limit).after fuel _ = t at hcut ⊢
  generalize (m.withLimit limit').after fuel _ = t' at hcut ⊢
  rcases hcut with ⟨rfl, hfails⟩ | ⟨⟨n, fault, s, rfl, rfl, hcause⟩, _⟩
  · refine Or.inl ⟨rfl, rfl, ?_⟩
    rintro r hr any ⟨n, fault, _, herror, hcause⟩
    cases t with
    | next s => cases hr
    | halted s =>
        cases hr
        cases herror
    | failed fault₀ s =>
        cases hr
        cases herror
        exact hfails.not_exceeds (some n) ⟨n, fault, s, rfl, rfl, hcause⟩
  · exact Or.inr ⟨_, rfl, n, fault, rfl, rfl, hcause⟩

/-- Compared with a larger limit, a limit has after so many steps at most cut the run
short. -/
structure CutsShort (m : Machine) (limit limit' : Option Nat) (p : Program) (session : Session)
    (fuel : Nat) : Prop where
  /-- A result other than an exceeded limit is the result under the larger limit too. -/
  ended : ∀ r, (m.withLimit limit).evaluate fuel p session = some r →
    ¬ Result.Exceeds limit r.1 →
      (m.withLimit limit').evaluate fuel p session = some r ∧
        (m.withLimit limit').texts fuel p session = (m.withLimit limit).texts fuel p session
  /-- A run that goes on goes on under the larger limit too. -/
  running : (m.withLimit limit).evaluate fuel p session = none →
    (m.withLimit limit').evaluate fuel p session = none ∧
      (m.withLimit limit').texts fuel p session = (m.withLimit limit).texts fuel p session
  /-- Where the larger limit is exceeded, so is the limit. -/
  exceeded : ∀ r', (m.withLimit limit').evaluate fuel p session = some r' →
    Result.Exceeds limit' r'.1 →
      ∃ r, (m.withLimit limit).evaluate fuel p session = some r ∧ Result.Exceeds limit r.1
  texts : (m.withLimit limit).texts fuel p session <+: (m.withLimit limit').texts fuel p session

/-- A limit at most cuts a run short. -/
theorem cutsShort (h : AtMost limit limit') (hrefusal : m.refusal? p = none) (fuel : Nat)
    (session : Session) : m.CutsShort limit limit' p session fuel := by
  have hcut := evaluate_cut h hrefusal fuel session
  refine ⟨?_, ?_, ?_, ?_⟩
  · intro r hr hexceeds
    rcases hcut with ⟨hsame, htexts, _⟩ | ⟨r₀, hr₀, hexceeds₀⟩
    · exact ⟨hsame ▸ hr, htexts.symm⟩
    · rw [hr] at hr₀
      cases hr₀
      exact absurd hexceeds₀ hexceeds
  · intro hnone
    rcases hcut with ⟨hsame, htexts, _⟩ | ⟨r₀, hr₀, _⟩
    · exact ⟨hsame ▸ hnone, htexts.symm⟩
    · rw [hnone] at hr₀
      cases hr₀
  · intro r' hr' hexceeds'
    rcases hcut with ⟨hsame, _, hnever⟩ | hexceeds
    · exact absurd hexceeds' (hnever r' (hsame.trans hr') limit')
    · exact hexceeds
  · rcases after_withLimit h m p.root session.store fuel with ⟨hsame, _⟩ | ⟨_, hprinted⟩
    · have htexts : (m.withLimit limit).texts fuel p session =
          (m.withLimit limit').texts fuel p session := congrArg (fun t => t.printed.toList) hsame
      exact htexts ▸ List.prefix_rfl
    · exact hprinted

/-- An evaluation without a limit exceeds none. -/
theorem not_exceeds_of_unlimited (hrefusal : m.refusal? p = none) {fuel : Nat}
    {r : Result × Session} (hr : (m.withLimit none).evaluate fuel p session = some r)
    (limit : Option Nat) : ¬ Result.Exceeds limit r.1 := by
  rcases evaluate_cut (AtMost.refl none) hrefusal fuel session with
    ⟨_, _, hnever⟩ | ⟨_, _, n, _, hnone, _⟩
  · exact hnever r hr limit
  · cases hnone

/-- A limit of more activations than the evaluation takes steps is sufficient. -/
theorem evaluate_withLimit_succ (hrefusal : m.refusal? p = none) {fuel : Nat}
    {r : Result × Session} (hr : (m.withLimit none).evaluate fuel p session = some r) :
    (m.withLimit (some (fuel + 1))).evaluate fuel p session = some r := by
  have hwithin := not_exceeds_of_lt m p.root session.store (Nat.lt_succ_self fuel)
  have hrefused : ∀ limit, (m.withLimit limit).refusal? p = none := fun _ => hrefusal
  rw [evaluate_of_not_refused (hrefused _)] at hr ⊢
  rcases after_withLimit (AtMost.top (some (fuel + 1))) m p.root session.store fuel with
    ⟨hsame, _⟩ | ⟨hexceeds, _⟩
  · rw [hsame]
    exact hr
  · exact absurd hexceeds hwithin

/-- The least sufficient limit: it and all larger ones give the result of the evaluation
without a limit, and every smaller one is exceeded. -/
theorem exists_least_limit (hrefusal : m.refusal? p = none) {fuel : Nat} {r : Result × Session}
    (hr : (m.withLimit none).evaluate fuel p session = some r) :
    ∃ least : Nat, ∀ limit,
      (AtMost (some least) limit → (m.withLimit limit).evaluate fuel p session = some r) ∧
      (¬ AtMost (some least) limit →
        ∃ r', (m.withLimit limit).evaluate fuel p session = some r' ∧
          Result.Exceeds limit r'.1) := by
  classical
  have hsufficient : ∃ n, (m.withLimit (some n)).evaluate fuel p session = some r :=
    ⟨fuel + 1, evaluate_withLimit_succ hrefusal hr⟩
  have hleast := Nat.find_spec hsufficient
  refine ⟨Nat.find hsufficient, fun limit => ⟨fun hle => ?_, fun hnot => ?_⟩⟩
  · exact ((cutsShort hle hrefusal fuel session).ended r hleast
      (not_exceeds_of_unlimited hrefusal hr _)).1
  · rcases evaluate_cut (AtMost.top limit) hrefusal fuel session with ⟨hsame, _, _⟩ | hexceeds
    · cases limit with
      | none => exact absurd (AtMost.top _) hnot
      | some n =>
          have hlt : n < Nat.find hsufficient := Nat.lt_of_not_le hnot
          exact absurd (hsame.trans hr) (Nat.find_min hsufficient hlt)
    · exact hexceeds

/-- The limit only cuts runs short.  After any number of steps, an evaluation that has ended
under a limit without exceeding it has ended under every larger limit with the same result,
the same session and the same texts; one that has not ended has not ended there either and
has printed the same; one that exceeds the larger limit exceeds the smaller one; and the
texts printed under a limit are a prefix of those printed under a larger one.  So a program
whose evaluation without a limit ends has a least sufficient limit: from there on every
limit gives that same result, and below it every limit is exceeded. -/
theorem evaluate_withLimit (m : Machine) (p : Program) (session : Session)
    (hrefusal : m.refusal? p = none) :
    (∀ limit limit', AtMost limit limit' → ∀ fuel, m.CutsShort limit limit' p session fuel) ∧
    ∀ fuel r, (m.withLimit none).evaluate fuel p session = some r →
      ∃ least : Nat, ∀ limit,
        (AtMost (some least) limit → (m.withLimit limit).evaluate fuel p session = some r) ∧
        (¬ AtMost (some least) limit →
          ∃ r', (m.withLimit limit).evaluate fuel p session = some r' ∧
            Result.Exceeds limit r'.1) :=
  ⟨fun _ _ h fuel => cutsShort h hrefusal fuel session,
    fun _ _ hr => exists_least_limit hrefusal hr⟩

/-- The run of `not ((fn x. x) true)` needs two activations at a time: from two on no limit
makes a difference, and every smaller one is exceeded. -/
theorem evaluate_withLimit_two :
    let p : Program := ⟨⟨0, [], [.literal 1 (.bool true),
      .lambda 1 ⟨1, [⟨0⟩], [.ident 1 ⟨0⟩]⟩, .apply 1, .unary 1 .not]⟩, true, 0⟩
    let m : Machine := ⟨⟨0, ["x"]⟩, none, true⟩
    m.refusal? p = none ∧ ∀ limit : Option Nat,
      (AtMost (some 2) limit → ∃ session,
        (m.withLimit limit).evaluate 8 p (.fresh .silent) =
          some (.ok ⟨none, some (.bool false)⟩, session)) ∧
      (AtMost limit (some 1) → ∃ r,
        (m.withLimit limit).evaluate 8 p (.fresh .silent) = some r ∧
          Result.Exceeds limit r.1) := by
  intro p m
  have hrefusal : m.refusal? p = none := rfl
  have hlimits := (evaluate_withLimit m p (.fresh .silent) hrefusal).1
  refine ⟨hrefusal, fun limit => ⟨fun hle => ?_, fun hle => ?_⟩⟩
  · have hended : ∃ session, (m.withLimit (some 2)).evaluate 8 p (.fresh .silent) =
        some (.ok ⟨none, some (.bool false)⟩, session) := ⟨_, rfl⟩
    rcases hended with ⟨session, hended⟩
    have hnever : ¬ Result.Exceeds (some 2) (.ok ⟨none, some (.bool false)⟩) := by
      rintro ⟨_, _, _, ⟨⟩, _⟩
    exact ⟨session, ((hlimits _ _ hle 8).ended _ hended hnever).1⟩
  · have hexceeded : ∃ r, (m.withLimit (some 1)).evaluate 8 p (.fresh .silent) = some r ∧
        Result.Exceeds (some 1) r.1 := ⟨_, rfl, 1, _, rfl, rfl, rfl⟩
    rcases hexceeded with ⟨r, hended, hexceeded⟩
    exact (hlimits _ _ hle 8).exceeded r hended hexceeded

end Machine

end CSEMachine
