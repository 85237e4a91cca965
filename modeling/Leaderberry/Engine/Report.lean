import Leaderberry.Engine.Chain
import Leaderberry.Types.Rotation

/-!
# What the Engine reports

`Engine` keeps a validator set of its own beside the one of its `ConsensusState`. `Start`
hands the same set to both. From then on `finalizeCommitLocked` advances the set of the
`ConsensusState` at every commit, and nothing but `UpdateValidatorSet` changes that of
the `Engine`.

While the executor returns no validator updates, the set in force is the initial one
with its priorities advanced once for each height (`followsRotation_run`). So the members
that the `Engine` reports are right, and its proposer is right exactly where the rotation
has come back to the proposer of the initial set (`reports_iff_rotatesBack`). The first
commit can already go past it (`reports_stale_proposer`).
-/

namespace Leaderberry

/-! ## The Engine -/

/-- The fields of an `Engine` that its reports and its runs depend on. -/
structure Engine where
  validatorSet : Option ValidatorSet
  state : Node

namespace Engine

/-- `GetValidatorSet`. -/
def getValidatorSet (e : Engine) : Option ValidatorSet := e.validatorSet.map ValidatorSet.copy

/-- `GetProposer`. -/
def getProposer (e : Engine) : Option NamedValidator := e.validatorSet.bind ValidatorSet.proposer

/-- The `Engine` names the proposer that a consensus state works with, and has its
members with their powers. -/
def Reports (e : Engine) (cs : ConsensusState) : Prop :=
  e.getProposer.map NamedValidator.name =
      (cs.validatorSet.getProposerForRound cs.round).map NamedValidator.name ∧
    e.getValidatorSet.map ValidatorSet.members = some cs.validatorSet.members

section

variable [Externals]

/-- `NewEngine` and `Start`: the `ConsensusState` gets the set of the `Engine`. -/
def start (l : Launch) (env : Env) : Engine where
  validatorSet := some l.validatorSet
  state := l.start env

/-- The `ConsensusState` handles a message or a timeout. -/
def handle (env : Env) (event : Event) (e : Engine) : Engine :=
  { e with state := Leaderberry.handle env event e.state }

/-- A run of a started `Engine` without `UpdateValidatorSet`. -/
def run (l : Launch) (env : Env) (events : List (Env × Event)) : Engine :=
  events.foldl (fun e x => e.handle x.1 x.2) (start l env)

/-- The `ConsensusState` runs as it does without an `Engine`, whose set stays. -/
theorem run_eq (l : Launch) (env : Env) (events : List (Env × Event)) :
    run l env events = ⟨some l.validatorSet, l.run env events⟩ := by
  induction events using List.reverseRecOn with
  | nil => rfl
  | append_singleton events x ih =>
    rw [l.run_append, run, List.foldl_append, ← run, ih]
    rfl

end

end Engine

/-! ## The set in force -/

section

variable [Externals] {l : Launch}

/-- A call of `ApplyBlock` that returned validator updates. -/
def Action.returnsUpdates : Action → Bool
  | .applyBlock _ _ (some (_ :: _)) => true
  | _ => false

omit [Externals] in
theorem Action.updates_eq_nil {b : Block} {c : Commit} {updates : List ValidatorUpdate}
    (h : (Action.applyBlock b c (some updates)).returnsUpdates = false) : updates = [] := by
  cases updates with
  | nil => rfl
  | cons => cases h

/-- No call of `ApplyBlock` has returned validator updates. -/
def Node.NoUpdates (n : Node) : Prop := ∀ x ∈ n.trace, x.2.returnsUpdates = false

/-- The set in force is the initial one, advanced once for each height. -/
def FollowsRotation (l : Launch) (cs : ConsensusState) : Prop :=
  l.height ≤ cs.height ∧
    cs.validatorSet = l.validatorSet.successive (cs.height - l.height).toNat

omit [Externals] in
theorem FollowsRotation.of_eq {cs cs' : ConsensusState} (h : FollowsRotation l cs)
    (hheight : cs'.height = cs.height) (hset : cs'.validatorSet = cs.validatorSet) :
    FollowsRotation l cs' := by
  obtain ⟨hle, hrot⟩ := h
  exact ⟨hheight ▸ hle, by rw [hset, hheight, hrot]⟩

/-- A commit without updates is one more rotation. -/
theorem FollowsRotation.next {cs cs' : ConsensusState} (h : FollowsRotation l cs)
    (hheight : cs'.height = cs.height + 1)
    (hset : Node.nextValidatorSet cs.validatorSet [] = .ok cs'.validatorSet) :
    FollowsRotation l cs' := by
  obtain ⟨hle, hrot⟩ := h
  refine ⟨by omega, ?_⟩
  have hsucc : (cs'.height - l.height).toNat = (cs.height - l.height).toNat + 1 := by omega
  have hnext : cs.validatorSet.withIncrementedPriority 1 = cs'.validatorSet := Except.ok.inj hset
  rw [hsucc, ValidatorSet.successive, ← hrot, hnext]

/-- One atom: it keeps the set, or it commits with the updates its trace shows. -/
theorem FollowsRotation.atom {env : Env} {input : Option Event} {n m : Node}
    (h : FollowsRotation l n.cs) (hquiet : m.NoUpdates) (ha : Atom env input n m) :
    FollowsRotation l m.cs := by
  rcases ha.commits with ⟨hheight, hset⟩ | ⟨b, c, updates, happlied, hheight, hset⟩
  · exact h.of_eq hheight hset
  · have hnone : updates = [] := by
      split at happlied
      · exact Action.updates_eq_nil (hquiet _ happlied)
      · exact happlied
    exact h.next hheight (hnone ▸ hset)

/-- In a run without validator updates every state has the rotated initial set. -/
theorem followsRotation_run {env : Env} {events : List (Env × Event)}
    (hquiet : (l.run env events).NoUpdates) :
    ∀ cs ∈ (l.run env events).states, FollowsRotation l cs := by
  refine Launch.run_invariant
    (P := fun n => n.NoUpdates → ∀ cs ∈ n.states, FollowsRotation l cs) ?_ ?_ hquiet
  · intro _ cs hcs
    cases List.mem_singleton.mp hcs
    refine ⟨le_rfl, ?_⟩
    show l.validatorSet = l.validatorSet.successive (l.height - l.height).toNat
    rw [sub_self]
    rfl
  intro _ _ _ _ hn hstep
  refine hstep.atoms.invariant
    (P := fun n => n.NoUpdates → ∀ cs ∈ n.states, FollowsRotation l cs) hn ?_
  intro n m hn ha hquiet cs hcs
  have hquiet' : n.NoUpdates := fun x hx => hquiet x (ha.trace_suffix.subset hx)
  have hcurrent := hn hquiet' n.cs (List.mem_cons_self ..)
  -- a state of the trace is one from before, the one the atom left, or the one it reached
  rcases ha.mem_states hcs with rfl | ⟨s, rfl⟩ | hcs
  · exact hcurrent.atom hquiet ha
  · exact hcurrent.of_eq rfl rfl
  · exact hn hquiet' cs hcs

/-! ## The reports -/

namespace ValidatorSet

/-- After `k` commits, the proposer for the round is the proposer of the set the rotation
started from. -/
def RotatesBack (vs : ValidatorSet) (k : Nat) (round : Int) : Prop :=
  ((vs.successive k).getProposerForRound round).map NamedValidator.name =
    vs.proposer.map NamedValidator.name

end ValidatorSet

/-- **The reports of an `Engine`.** Along every run of a started `Engine` without
`UpdateValidatorSet` in which the executor returns no validator updates, the `Engine`
reports the members in force, and it reports the proposer of the present height and round
exactly if the rotation of the initial set has come back to its proposer there. -/
theorem reports_iff_rotatesBack (l : Launch) (env : Env) (events : List (Env × Event))
    (hquiet : (l.run env events).NoUpdates) :
    ∀ cs ∈ (Engine.run l env events).state.states,
      (Engine.run l env events).getValidatorSet.map ValidatorSet.members =
        some cs.validatorSet.members ∧
      ((Engine.run l env events).Reports cs ↔
        l.validatorSet.RotatesBack (cs.height - l.height).toNat cs.round) := by
  rw [Engine.run_eq]
  intro cs hcs
  obtain ⟨-, hrot⟩ := followsRotation_run hquiet cs hcs
  have hmembers : some l.validatorSet.copy.members = some cs.validatorSet.members := by
    rw [hrot, ValidatorSet.members_successive]
    rfl
  refine ⟨hmembers, ?_⟩
  rw [ValidatorSet.RotatesBack, ← hrot]
  constructor
  · rintro ⟨hproposer, -⟩
    exact hproposer.symm
  · intro hback
    exact ⟨hback.symm, hmembers⟩

end

section stale

attribute [local instance] transparent

theorem isOk_uneven : (newValidatorSet (Scenario.validators [(1, 5), (2, 2)])).isOk = true := by
  decide +kernel

/-- Validator 1 is a quorum of its own, and validator 2 proposes at the second height. -/
def unevenValidators : { vs : ValidatorSet // vs.Wf } :=
  Scenario.validatorSet [(1, 5), (2, 2)] isOk_uneven

/-- The `Engine` of validator 1: it commits a block at `Start` and begins height 2 after
its commit timeout. -/
def unevenEngine : Engine :=
  Engine.run (Scenario.launch 1 unevenValidators) (Scenario.env 1)
    [(Scenario.env 1, .timeout ⟨2, 0, .commit⟩)]

/-- At height 2 the `Engine` still names validator 1, and consensus waits for
validator 2. -/
theorem reports_stale_proposer :
    unevenEngine.state.panicked = none ∧
    (unevenEngine.state.cs.height, unevenEngine.state.cs.round, unevenEngine.state.cs.step) =
      (2, 0, .propose) ∧
    unevenEngine.getProposer.map NamedValidator.name = some ⟨some [1]⟩ ∧
    (unevenEngine.state.cs.validatorSet.getProposerForRound 0).map NamedValidator.name =
      some ⟨some [2]⟩ ∧
    ¬ unevenEngine.Reports unevenEngine.state.cs := by
  have hengine : unevenEngine.getProposer.map NamedValidator.name = some ⟨some [1]⟩ := by
    decide +kernel
  have hconsensus : (unevenEngine.state.cs.validatorSet.getProposerForRound
      unevenEngine.state.cs.round).map NamedValidator.name = some ⟨some [2]⟩ := by
    decide +kernel
  refine ⟨by decide +kernel, by decide +kernel, hengine, by decide +kernel, ?_⟩
  rintro ⟨hproposer, -⟩
  rw [hengine, hconsensus] at hproposer
  cases hproposer

/-- The executor returns no updates on the way there, and in this run the two agree
wherever the rotation is back at validator 1. -/
theorem reports_uneven :
    ((Scenario.launch 1 unevenValidators).run (Scenario.env 1)
      [(Scenario.env 1, .timeout ⟨2, 0, .commit⟩)]).NoUpdates ∧
    ∀ cs ∈ unevenEngine.state.states, unevenEngine.Reports cs ↔
      unevenValidators.1.RotatesBack (cs.height - 1).toNat cs.round := by
  have hquiet : ((Scenario.launch 1 unevenValidators).run (Scenario.env 1)
      [(Scenario.env 1, .timeout ⟨2, 0, .commit⟩)]).NoUpdates := by
    unfold Node.NoUpdates
    decide +kernel
  exact ⟨hquiet, fun cs hcs => (reports_iff_rotatesBack _ _ _ hquiet cs hcs).2⟩

end stale

end Leaderberry
