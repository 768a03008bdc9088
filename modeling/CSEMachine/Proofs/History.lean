import CSEMachine.Proofs.DepthLimit
import CSEMachine.Proofs.Lowering.Notation
import CSEMachine.Proofs.Lowering.Refusal
import CSEMachine.Proofs.Similarity.Runs
import Mathlib.Logic.Relation

/-!
# Histories

A host keeps one table of names and one session, and uses them over and over: it makes
programs of trees, evaluates them, prints, exchanges the sink, and augments the tuples that
evaluations gave it.  None of this can be noticed when a tree is made into a program and
evaluated: all that is seen of it depends on the tree and on the limit alone.

Main results:

- Theorem `Host.History.grows`: along a history names keep their meaning.
- Theorem `Host.shows_of_observe`: an evaluation shows no more than what is observed of it.
- Theorem `Host.same_results`: what is seen of a tree does not depend on the history.
-/

namespace CSEMachine

/-! ## Hosts -/

/-- What a host keeps between two uses of the machine. -/
structure Host where
  names : NameTable
  session : Session

namespace Host

/-- The machine of a host under a limit. -/
def machine (host : Host) (limit : Option Nat) : Machine :=
  ⟨host.names, limit, true⟩

/-- What a host can do.  Evaluations may fail or be refused, and so may trees; a tuple may be
augmented by any value, whoever gave it to the host. -/
inductive Step (host : Host) : Host → Prop
  | intern (text : String) : Step host ⟨(host.names.intern text).2, host.session⟩
  | lower (t : Term) (standardized : Bool) :
      Step host ⟨(Program.ofTerm t standardized host.names).2, host.session⟩
  | evaluate (p : Program) (limit : Option Nat) (fuel : Nat) {result : Result}
      {session : Session}
      (h : (host.machine limit).evaluate fuel p host.session = some (result, session)) :
      Step host ⟨host.names, session⟩
  | formTuple (items : Array Value) :
      Step host ⟨host.names, (host.session.store.formTuple items).2, host.session.sink⟩
  | augment (ref : Nat) (v : Value) :
      Step host ⟨host.names, host.session.store.augment ref v, host.session.sink⟩
  | print (text : String) :
      Step host ⟨host.names, host.session.store, host.session.sink.write text⟩
  | clear : Step host ⟨host.names, host.session.store, host.session.sink.clear⟩
  | install (sink : Sink) : Step host ⟨host.names, host.session.store, sink⟩

/-- What a host has done, one thing after the other. -/
def History : Host → Host → Prop :=
  Relation.ReflTransGen Step

/-- Whatever a host does, names keep their meaning. -/
theorem Step.grows {host later : Host} (h : host.Step later) : host.names.Grows later.names := by
  cases h with
  | intern text => exact host.names.grows_intern text
  | lower t standardized => exact Program.grows_ofTerm t standardized host.names
  | _ => exact .refl _

/-- Along a history names keep their meaning. -/
theorem History.grows {host later : Host} (h : host.History later) :
    host.names.Grows later.names := by
  induction h with
  | refl => exact .refl _
  | tail _ hstep ih => exact ih.trans hstep.grows

/-! ## What a host sees -/

/-- What a host sees of an evaluation of at most `fuel` steps: nothing as long as it has not
ended, and then its result, and the texts that have been added to the sink, in order. -/
def Shows (host : Host) (limit : Option Nat) (p : Program) (fuel : Nat) :
    Option Observation → Prop
  | none => (host.machine limit).evaluate fuel p host.session = none
  | some o => ∃ result session,
      (host.machine limit).evaluate fuel p host.session = some (result, session) ∧
        Machine.shownResult result session = o.result ∧
        session.sink = host.session.sink.writeAll o.printed

/-- An evaluation shows no more than what is observed of it. -/
theorem shows_of_observe (host : Host) (limit : Option Nat) (p : Program) (fuel : Nat) :
    host.Shows limit p fuel ((host.machine limit).observe fuel p host.session) := by
  rcases (host.machine limit).evaluate_observed fuel p host.session with ⟨hsome, hnone⟩
  cases hevaluate : (host.machine limit).evaluate fuel p host.session with
  | none =>
      rw [hnone.mp hevaluate]
      exact hevaluate
  | some ended =>
      rcases ended with ⟨result, session⟩
      rcases hsome result session hevaluate with ⟨o, hobserve, hresult, hsink⟩
      rw [hobserve]
      exact ⟨result, session, hevaluate, hresult, hsink⟩

/-- What is seen of a tree depends on nothing but the tree and the limit.  Either every host
is refused the tree with the same error; or every host gets a program of which the same can
be read, and after whatever history the host sees the same of an evaluation: its result,
the texts that it adds to the sink, and, while it is running, the texts printed so far. -/
theorem same_results (t : Term) (standardized : Bool) (limit : Option Nat) :
    (∃ e, ∀ host : Host, ∃ table, Program.ofTerm t standardized host.names = (.error e, table)) ∨
    ∃ (units : List Listing) (seen : Nat → Option Observation) (texts : Nat → List String),
      ∀ host : Host, ∃ p table, Program.ofTerm t standardized host.names = (.ok p, table) ∧
        p.listings table = units ∧
        ∀ later : Host, History ⟨table, host.session⟩ later →
          p.listings later.names = units ∧
          ∀ fuel, later.Shows limit p fuel (seen fuel) ∧
            (standardized = true →
              (later.machine limit).texts fuel p later.session = texts fuel) := by
  cases hrefusal : t.refusal? with
  | some e =>
      refine Or.inl ⟨e, fun host => ?_⟩
      rcases Program.ofTerm_of_refusal hrefusal standardized host.names with ⟨table, h, _⟩
      exact ⟨table, h⟩
  | none =>
      have ht := t.refusal?_eq_none_iff.mp hrefusal
      have hplain : Context.Plain [[]] := by
        rintro vs (_ | ⟨_, ⟨⟩⟩) v ⟨⟩
      have hsimilar := Term.Similar.refl t ht hplain
      -- a host that has nothing else shows what all hosts see
      let first : Host := ⟨(⟨0, []⟩ : NameTable).internAll t.texts, .fresh .silent⟩
      let p₀ := t.program standardized first.names
      have hp₀ := Program.ofTerm_of_wellBound ht standardized ⟨0, []⟩ (.refl _)
      refine Or.inr ⟨t.listing 0 [] 1 :: t.listings 1,
        fun fuel => (first.machine limit).observe fuel p₀ first.session,
        fun fuel => (first.machine limit).texts fuel p₀ first.session, fun host => ?_⟩
      rcases Machine.observe_similar hsimilar ht standardized host.names ⟨0, []⟩ with
        ⟨p, p', table, table', hp, hp', hsame⟩
      rw [hp₀] at hp'
      cases hp'
      have hlistings : ∀ later, table.Grows later →
          p.listings later = t.listing 0 [] 1 :: t.listings 1 := by
        intro later hlater
        rcases Program.of_ofTerm hp hlater with ⟨_, rfl, hlisted⟩
        exact Program.listings_program hlisted standardized
      refine ⟨p, table, hp, hlistings table (.refl table), ?_⟩
      intro later hlater
      have hgrows : table.Grows later.names := hlater.grows
      refine ⟨hlistings later.names hgrows, fun fuel => ?_⟩
      rcases hsame (later.machine limit) (first.machine limit) later.session first.session hgrows
        (.refl _) rfl rfl fuel with ⟨hobserve, hprinted⟩
      refine ⟨?_, fun _ => ?_⟩
      · have hshows := later.shows_of_observe limit p fuel
        rw [hobserve] at hshows
        exact hshows
      · exact congrArg Array.toList hprinted

/-- A host that augments the pair it was given, and takes another sink, is given the same
pair again. -/
theorem same_results_augmented :
    let t : Term := .tuple 1 [.literal 2 (.int 1), .literal 3 (.int 2)]
    let p := t.program true ⟨0, []⟩
    let host : Host := ⟨⟨0, []⟩, .fresh .silent⟩
    ∃ later o, host.History later ∧ later.session.store.items 0 = #[.int 1, .int 2, .int 3] ∧
      later.session.sink = .emptyBuffer ∧ host.Shows none p 5 (some o) ∧
      later.Shows none p 5 (some o) := by
  intro t p host
  let given : Host := ⟨⟨0, []⟩, ⟨⟨#[#[.int 1, .int 2]], #[[]]⟩, .silent⟩⟩
  let later : Host := ⟨⟨0, []⟩, ⟨⟨#[#[.int 1, .int 2, .int 3]], #[[]]⟩, .emptyBuffer⟩⟩
  have hevaluate : (host.machine none).evaluate 5 p host.session =
      some (.ok ⟨none, some (.tuple 0)⟩, given.session) := rfl
  have hhistory : host.History later :=
    .tail (.tail (.tail .refl (.evaluate p none 5 hevaluate)) (.augment 0 (.int 3)))
      (.install .emptyBuffer)
  have hp : Program.ofTerm t true host.names = (.ok p, host.names) := rfl
  rcases same_results t true none with ⟨e, h⟩ | ⟨units, seen, texts, h⟩
  · rcases h host with ⟨table, herror⟩
    rw [hp] at herror
    cases herror
  · rcases h host with ⟨p', table, hp', _, hsame⟩
    rw [hp] at hp'
    cases hp'
    have hfirst := ((hsame host .refl).2 5).1
    have hlater := ((hsame later hhistory).2 5).1
    cases hseen : seen 5 with
    | none =>
        rw [hseen] at hfirst
        cases hevaluate.symm.trans hfirst
    | some o =>
        rw [hseen] at hfirst hlater
        exact ⟨later, o, hhistory, rfl, rfl, hfirst, hlater⟩

end Host

end CSEMachine
