import Mathlib.Logic.Function.Basic
import Leaderberry.Lib.LockedVoting
import Leaderberry.Engine.View

/-!
# A network of correct nodes

The state of a network is the state of each correct node. A step starts a node or
hands an event to a running one, in any order and any number of times: messages may be
delayed, reordered, duplicated or lost, and scheduled timeouts fire at any time. Faulty
validators are no part of the state. They can put anything into an event, except that
nobody can forge a signature (`Network.Deliverable`): a vote that verifies under the
key of a correct node was cast by that node, a proposal was signed by it.
-/

namespace Leaderberry

/-- What a vote says, without its signature. -/
def Vote.unsigned (v : Vote) : Vote := { v with signature := ⟨[]⟩ }

def Proposal.unsigned (p : Proposal) : Proposal := { p with signature := ⟨[]⟩ }

/-- The proposals a node has signed. -/
def Node.proposals (n : Node) : List Proposal :=
  n.trace.filterMap fun x =>
    match x.2 with
    | .signProposal p => some p
    | _ => none

/-- The correct nodes of a network: their keys and how they are launched, on one chain,
at one height and with one validator set. -/
structure Network (ι : Type) where
  key : ι → PublicKey
  key_injective : Function.Injective key
  chainID : GoString
  height : Int
  validatorSet : ValidatorSet
  launch : ι → Launch
  launch_chainID : ∀ i, (launch i).wiring.config.chainID = chainID
  launch_privVal : ∀ i, (launch i).wiring.privVal = some (key i)
  launch_executor : ∀ i, (launch i).wiring.hasExecutor = true
  launch_height : ∀ i, (launch i).height = height
  launch_validatorSet : ∀ i, (launch i).validatorSet = validatorSet

namespace Network

variable {ι : Type} (S : Network ι)

/-- The validator at this index is run by a correct node. -/
def Correct (vs : ValidatorSet) (index : Nat) : Prop :=
  ∃ i, (vs.getByIndex index).map NamedValidator.publicKey = some (S.key i)

instance [Fintype ι] (vs : ValidatorSet) : DecidablePred (S.Correct vs) := fun index => by
  unfold Correct
  infer_instance

/-- The power of the validators that no correct node runs. -/
def faultyPower [Fintype ι] (vs : ValidatorSet) : Int :=
  ∑ index ∈ (Finset.range vs.size).filter fun index => ¬ S.Correct vs index, vs.power index

theorem minor_of_faultyPower [Fintype ι] {vs : ValidatorSet} (hwf : vs.Wf)
    (h : 3 * S.faultyPower vs ≤ vs.totalPower) :
    hwf.electorate.Minor fun index => ¬ S.Correct vs index := by
  intro T hT hfaulty
  have hsub : T ⊆ (Finset.range vs.size).filter fun index => ¬ S.Correct vs index :=
    fun index hi => Finset.mem_filter.mpr ⟨hT hi, hfaulty index hi⟩
  have hle : hwf.electorate.power T ≤ S.faultyPower vs := Electorate.power_mono hsub
  rw [hwf.total_electorate]
  omega

section

variable [Externals] {net : ι → Node}

/-- A vote that verifies under the key of a correct node was cast by it. -/
def Authentic (net : ι → Node) (v : Vote) : Prop :=
  ∀ i, verifyVoteSignature S.chainID v (S.key i) = .ok () →
    ∃ x ∈ (net i).casts, x.2.unsigned = v.unsigned

/-- A proposal that verifies under the key of a correct node was signed by it. -/
def AuthenticProposal (net : ι → Node) (p : Proposal) : Prop :=
  ∀ i, verifySignature (S.key i) (proposalSignBytes S.chainID p) p.signature = true →
    ∃ q ∈ (net i).proposals, q.unsigned = p.unsigned

/-- What may be handed to node `i`. -/
def Deliverable (net : ι → Node) (i : ι) : Event → Prop
  | .proposal p => S.AuthenticProposal net p ∧ ∀ v ∈ p.polVotes, S.Authentic net v
  | .vote v => S.Authentic net v
  | .timeout ti => ∃ x ∈ (net i).trace, x.2 = .scheduleTimeout ti

/-- The states a network can get into. -/
inductive Reachable [DecidableEq ι] : (ι → Node) → Prop
  | init : Reachable fun i => (S.launch i).fresh
  | start {net : ι → Node} (i : ι) (env : Env) : Reachable net →
      net i = (S.launch i).fresh → Reachable (Function.update net i ((S.launch i).start env))
  | handle {net : ι → Node} (i : ι) (env : Env) (event : Event) : Reachable net →
      (net i).trace ≠ [] → S.Deliverable net i event →
      Reachable (Function.update net i (handle env event (net i)))

variable {S} in
/-- Every node of a reachable network has had a run of its own, or has yet to start. -/
theorem Reachable.run [DecidableEq ι] (h : S.Reachable net) (i : ι) :
    net i = (S.launch i).fresh ∨ ∃ env events, net i = (S.launch i).run env events := by
  induction h with
  | init => exact .inl rfl
  | @start net j env _ hfresh ih =>
    by_cases hij : i = j
    · subst hij
      rw [Function.update_self]
      exact .inr ⟨env, [], rfl⟩
    · rw [Function.update_of_ne hij]
      exact ih
  | @handle net j env event _ hstarted _ ih =>
    by_cases hij : i = j
    · subst hij
      rw [Function.update_self]
      rcases ih with hfresh | ⟨env₀, events, hrun⟩
      · rw [hfresh] at hstarted
        exact absurd rfl hstarted
      · refine .inr ⟨env₀, events ++ [(env, event)], ?_⟩
        rw [Launch.run_append, ← hrun]
    · rw [Function.update_of_ne hij]
      exact ih

variable {S} in
theorem Reachable.hasExecutor [DecidableEq ι] (h : S.Reachable net) (i : ι) :
    (net i).cs.hasExecutor = true := by
  rw [← S.launch_executor i]
  rcases h.run i with heq | ⟨env, events, heq⟩
  · rw [heq]
    rfl
  · rw [heq]
    exact congrArg Wiring.hasExecutor (wiring_run _ env events)

variable {S} in
theorem Deliverable.authentic {i : ι} {event : Event} (h : S.Deliverable net i event) :
    ∀ v ∈ event.votes, S.Authentic net v := by
  cases event with
  | proposal p => exact h.2
  | vote v =>
    intro w hw
    cases List.mem_singleton.mp hw
    exact h
  | timeout ti =>
    intro w hw
    cases hw

/-! ## Schedules -/

section schedules

variable [DecidableEq ι]

instance [Fintype ι] (net : ι → Node) (v : Vote) : Decidable (S.Authentic net v) := by
  unfold Authentic
  infer_instance

instance [Fintype ι] (net : ι → Node) (p : Proposal) : Decidable (S.AuthenticProposal net p) := by
  unfold AuthenticProposal
  infer_instance

instance [Fintype ι] (net : ι → Node) (i : ι) : (event : Event) →
    Decidable (S.Deliverable net i event)
  | .proposal p => inferInstanceAs (Decidable (S.AuthenticProposal net p ∧ _))
  | .vote v => inferInstanceAs (Decidable (S.Authentic net v))
  | .timeout ti => inferInstanceAs (Decidable (∃ x ∈ (net i).trace, x.2 = .scheduleTimeout ti))

/-- Node `i`, in state `n`, can be handed these events one after the other. -/
def Delivers (net : ι → Node) (i : ι) (env : Env) : List Event → Node → Prop
  | [], _ => True
  | event :: rest, n => n.trace ≠ [] ∧ S.Deliverable (Function.update net i n) i event ∧
      Delivers net i env rest (handle env event n)

instance decidableDelivers [Fintype ι] (net : ι → Node) (i : ι) (env : Env) :
    (events : List Event) → (n : Node) → Decidable (S.Delivers net i env events n)
  | [], _ => .isTrue trivial
  | event :: rest, n =>
    have := decidableDelivers net i env rest (handle env event n)
    inferInstanceAs (Decidable (_ ≠ _ ∧ S.Deliverable _ i event ∧ _))

variable {S} in
theorem Reachable.deliver {net : ι → Node} {i : ι} {env : Env} (events : List Event) :
    ∀ {n : Node}, S.Reachable (Function.update net i n) → S.Delivers net i env events n →
      S.Reachable
        (Function.update net i (events.foldl (fun n e => Leaderberry.handle env e n) n)) := by
  induction events with
  | nil => exact fun h _ => h
  | cons event rest ih =>
    rintro n h ⟨hstarted, hdeliver, hrest⟩
    refine ih ?_ hrest
    have hnext := Reachable.handle i env event h (by rwa [Function.update_self]) hdeliver
    rwa [Function.update_self, Function.update_idem] at hnext

end schedules

/-! ## The votes of the correct nodes -/

/-- Among the votes cast so far, if it verifies under the key of a correct node. -/
def Genuine (log : List Vote) (v : Vote) : Prop :=
  ∀ i, verifyVoteSignature S.chainID v (S.key i) = .ok () → ∃ w ∈ log, w.unsigned = v.unsigned

theorem Genuine.mono {S : Network ι} {log log' : List Vote} {v : Vote} (h : S.Genuine log v)
    (hsub : log ⊆ log') : S.Genuine log' v := by
  intro i hi
  obtain ⟨w, hw, heq⟩ := h i hi
  exact ⟨w, hsub hw, heq⟩

theorem genuine_of_mem {log : List Vote} {v : Vote} (h : v ∈ log) : S.Genuine log v :=
  fun _ _ => ⟨v, h, rfl⟩

end

end Network

open LockedVoting

/-- The kind of ballot a vote is. -/
def VoteType.kind : VoteType → Kind
  | .precommit => .precommit
  | _ => .prevote

/-- A vote as a ballot. -/
def Vote.ballot (v : Vote) : Ballot Nat Hash :=
  ⟨v.validatorIndex, v.type.kind, v.round, v.blockHash⟩

/-- The ballots of a height, newest first. -/
def ballots (log : List Vote) (height : Int) : List (Ballot Nat Hash) :=
  (log.filter fun v => v.height = height).map Vote.ballot

theorem mem_ballots {log : List Vote} {height : Int} {b : Ballot Nat Hash} :
    b ∈ ballots log height ↔ ∃ v ∈ log, v.height = height ∧ v.ballot = b := by
  simp [ballots, and_assoc]

theorem ballots_cons_same (v : Vote) (log : List Vote) :
    ballots (v :: log) v.height = v.ballot :: ballots log v.height := by
  simp [ballots]

theorem ballots_cons_other {v : Vote} {height : Int} (h : v.height ≠ height)
    (log : List Vote) : ballots (v :: log) height = ballots log height := by
  simp [ballots, h]

theorem ballot_unsigned {v w : Vote} (h : w.unsigned = v.unsigned) :
    w.ballot = v.ballot ∧ w.height = v.height := by
  cases v
  cases w
  simp only [Vote.unsigned, Vote.mk.injEq] at h
  simp [Vote.ballot, h]

section

variable [Externals] {ι : Type} {S : Network ι}

/-- Evidence of genuine votes is a quorum whose correct members cast such ballots. -/
theorem Evidence.backed {log : List Vote} {cs : ConsensusState} {t : VoteType} {r : Int}
    {x : Hash} (h : Evidence (S.Genuine log) cs t r x) (hchain : cs.config.chainID = S.chainID)
    (hwf : cs.validatorSet.Wf) :
    Backed hwf.electorate (S.Correct cs.validatorSet) (ballots log cs.height) t.kind r x := by
  obtain ⟨_, Q, hQ, hvotes⟩ := h
  refine ⟨Q, hQ, fun i hi hcorrect => ?_⟩
  obtain ⟨v, hgenuine, hhash, hback⟩ := hvotes i hi
  obtain ⟨j, hj⟩ := hcorrect
  obtain ⟨val, hval, hsig⟩ := hback.signed
  rw [hval] at hj
  rw [hchain, Option.some_inj.mp hj] at hsig
  obtain ⟨w, hw, heq⟩ := hgenuine j hsig
  obtain ⟨hballot, hheight⟩ := ballot_unsigned heq
  refine mem_ballots.mpr ⟨w, hw, hheight.trans hback.height, hballot.trans ?_⟩
  simp [Vote.ballot, hback.index, hback.type, hback.round, hhash]

end

end Leaderberry
