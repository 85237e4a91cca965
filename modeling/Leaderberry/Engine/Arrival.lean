import Leaderberry.Engine.Commit
import Leaderberry.Engine.Chain

/-!
# Precommits of the current round

A node in some round gets a precommit for a block. What it does depends on the power behind
the block: below `TwoThirdsMajority` the vote is stored and at most a wait begins
(`received_of_not_hasQuorum`), otherwise the vote completes a majority (`completes_iff`).
Nothing here asks whether the node has the block.

- `ConsensusState.counted`: who counts for a block once some precommits are delivered.
- `Deliverable`: what is said of a precommit that is delivered.
- `Received`: what some of them do to a node, short of a majority.
-/

namespace Leaderberry

section

variable [Externals]

/-! ## Precommits for a block -/

/-- The validators hold at least `TwoThirdsMajority` power. -/
def ValidatorSet.HasQuorum (vs : ValidatorSet) (S : Finset Nat) : Prop :=
  vs.twoThirdsMajority ≤ ∑ i ∈ S, vs.power i

instance (vs : ValidatorSet) (S : Finset Nat) : Decidable (vs.HasQuorum S) :=
  inferInstanceAs (Decidable (_ ≤ _))

omit [Externals] in
theorem ValidatorSet.HasQuorum.mono {vs : ValidatorSet} (hwf : vs.Wf) {S T : Finset Nat}
    (h : vs.HasQuorum S) (hsub : S ⊆ T) : vs.HasQuorum T :=
  h.trans (hwf.electorate.power_mono hsub)

namespace HeightVoteSet

/-- The validators whose stored vote of a type and round is for `hash`. -/
def voters (hvs : HeightVoteSet) (t : VoteType) (r : Int) (hash : Option Hash) : Finset Nat :=
  (hvs.voteSetOrNew t r).votersFor (blockHashKey hash)

variable {hvs : HeightVoteSet} {t : VoteType} {r : Int} {hash : Option Hash}

omit [Externals] in
theorem mem_voters {i : Nat} : i ∈ hvs.voters t r hash ↔
    ∃ vote, hvs.voteOf t r i = some vote ∧ blockHashKey vote.blockHash = blockHashKey hash := by
  unfold voters
  rw [VoteSet.mem_votersFor]
  simp only [lookup_orNew]

theorem Inv.isQuorum_orNew (h : hvs.Inv) {S : Finset Nat} :
    (h.inv_orNew t r).wf.electorate.IsQuorum S ↔ h.wf.electorate.IsQuorum S :=
  ⟨h.wf.isQuorum_of_eq (h.owns_orNew t r).validatorSet,
    (h.inv_orNew t r).wf.isQuorum_of_eq (h.owns_orNew t r).validatorSet.symm⟩

/-- A 2/3+ majority is a quorum. -/
theorem Inv.majority_iff_isQuorum (h : hvs.Inv) :
    (∃ hash', hvs.majority t r = some hash' ∧ blockHashKey hash' = blockHashKey hash) ↔
      h.wf.electorate.IsQuorum (hvs.voters t r hash) := by
  rw [← majority_orNew, ← h.isQuorum_orNew (t := t) (r := r)]
  constructor
  · rintro ⟨hash', hmaj, hkey⟩
    rw [voters, ← hkey]
    exact (h.inv_orNew t r).majority_quorum hmaj
  · intro hquorum
    cases hmaj : (hvs.voteSetOrNew t r).twoThirdsMajority with
    | none => exact absurd hquorum ((h.inv_orNew t r).no_majority hmaj _)
    | some hash' =>
      exact ⟨hash', rfl, (h.inv_orNew t r).key_unique
        ((h.inv_orNew t r).majority_quorum hmaj) hquorum⟩

end HeightVoteSet

section sound

variable {cs : ConsensusState} (h : Sound cs) {t : VoteType} {r : Int}

include h

/-- Known validators are a quorum if they hold enough power. -/
theorem Sound.isQuorum_iff {S : Finset Nat}
    (hknown : ∀ i ∈ S, ∃ val, cs.validatorSet.getByIndex i = some val) :
    h.votes.wf.electorate.IsQuorum S ↔ cs.validatorSet.HasQuorum S := by
  rw [h.votes.wf.isQuorum_iff, ValidatorSet.HasQuorum, ← h.validatorSet]
  · rfl
  · intro i hi
    obtain ⟨val, hval⟩ := hknown i hi
    rw [← h.validatorSet] at hval
    exact Finset.mem_range.mpr (h.votes.wf.lt_of_getByIndex hval)

theorem Sound.majority_iff (hash : Option Hash) :
    (∃ hash', cs.votes.majority t r = some hash' ∧ blockHashKey hash' = blockHashKey hash) ↔
      cs.validatorSet.HasQuorum (cs.votes.voters t r hash) := by
  rw [h.votes.majority_iff_isQuorum, h.isQuorum_iff]
  intro i hi
  obtain ⟨vote, hvote, -⟩ := HeightVoteSet.mem_voters.mp hi
  obtain ⟨-, -, -, -, val, hval, -⟩ := h.votes.voteOf_verified hvote
  exact ⟨val, by rw [← h.validatorSet]; exact hval⟩

/-- A majority for a block. -/
theorem Sound.majority_block_iff {x : Hash} (hne : isHashEmpty (some x) = false) :
    cs.votes.majority t r = some (some x) ↔
      cs.validatorSet.HasQuorum (cs.votes.voters t r (some x)) := by
  rw [← h.majority_iff]
  constructor
  · exact fun hmaj => ⟨_, hmaj, rfl⟩
  · rintro ⟨hash, hmaj, hkey⟩
    rw [hmaj, blockHash_of_key hne hkey]

end sound

namespace ConsensusState

/-- What validator `i` has precommitted in the round, as far as the node knows. -/
def ballot (cs : ConsensusState) (i : Nat) : Option (Option Hash) :=
  (cs.votes.voteOf .precommit cs.round i).map fun vote => vote.blockHash

/-- The validators whose precommit for `x` is stored after precommits for `x` from `I`: the
first precommit of a validator counts. -/
def counted (cs : ConsensusState) (x : Hash) (I : Finset Nat) : Finset Nat :=
  cs.votes.voters .precommit cs.round (some x) ∪ I.filter fun i => cs.ballot i = none

variable {cs : ConsensusState} {x : Hash} {I J : Finset Nat} {i : Nat}

section

omit [Externals]

theorem ballot_eq_none : cs.ballot i = none ↔ cs.votes.voteOf .precommit cs.round i = none :=
  Option.map_eq_none_iff

theorem mem_voters_iff_ballot (hne : isHashEmpty (some x) = false) :
    i ∈ cs.votes.voters .precommit cs.round (some x) ↔ cs.ballot i = some (some x) := by
  rw [HeightVoteSet.mem_voters, ballot, Option.map_eq_some_iff]
  constructor
  · rintro ⟨vote, hvote, hkey⟩
    exact ⟨vote, hvote, blockHash_of_key hne hkey⟩
  · rintro ⟨vote, hvote, hhash⟩
    exact ⟨vote, hvote, by rw [hhash]⟩

theorem mem_counted (hne : isHashEmpty (some x) = false) : i ∈ cs.counted x I ↔
    (cs.ballot i).or (if i ∈ I then some (some x) else none) = some (some x) := by
  rw [counted, Finset.mem_union, mem_voters_iff_ballot hne, Finset.mem_filter]
  cases cs.ballot i with
  | none => simp
  | some hash => simp

theorem counted_mono (hsub : I ⊆ J) : cs.counted x I ⊆ cs.counted x J :=
  Finset.union_subset_union_right (Finset.filter_subset_filter _ hsub)

end

end ConsensusState

/-- A node that is not about to commit has no quorum. -/
theorem Steady.not_hasQuorum {n : Node} (h : Steady n) (halive : n.panicked = none) {x : Hash}
    (hne : isHashEmpty (some x) = false) : ¬ n.cs.validatorSet.HasQuorum (n.cs.counted x ∅) := by
  rw [ConsensusState.counted, Finset.filter_empty, Finset.union_empty,
    ← h.sound.majority_block_iff hne]
  intro hmaj
  have hempty := (h.calm halive).2 _ _ hmaj
  rw [hne] at hempty
  cases hempty

/-! ## One precommit -/

/-- A valid precommit for `x` in the height and round of the node, delivered in time. -/
structure Deliverable (cs : ConsensusState) (x : Hash) (env : Env) (vote : Vote) : Prop where
  type : vote.type = .precommit
  height : vote.height = cs.height
  round : vote.round = cs.round
  blockHash : vote.blockHash = some x
  signed : ∃ val, cs.validatorSet.getByIndex vote.validatorIndex = some val ∧
    val.name = vote.validator ∧
    verifySignature val.publicKey (voteSignBytes cs.config.chainID vote) vote.signature = true
  future : ∀ i, vote.timestamp ≤ env.clock i + maxTimestampDrift
  past : ∀ i, env.clock i - maxTimestampDrift ≤ vote.timestamp

/-- Precommits for `x` of the validators `I` were received. The first one of each validator
is stored, and the wait for more of them may have begun. -/
structure Received (x : Hash) (I : Finset Nat) (n m : Node) : Prop where
  alive : m.panicked = none
  steady : Steady m
  cs : m.cs = { n.cs with step := m.cs.step, votes := m.cs.votes }
  early : m.cs.step < .prevote ↔ n.cs.step < .prevote
  prevotes : ∀ i, m.cs.votes.voteOf .prevote n.cs.round i = n.cs.votes.voteOf .prevote n.cs.round i
  ballot : ∀ i, m.cs.ballot i = (n.cs.ballot i).or (if i ∈ I then some (some x) else none)

namespace Received

variable {x : Hash} {I J : Finset Nat} {n m k : Node}

theorem refl (halive : n.panicked = none) (h : Steady n) : Received x ∅ n n where
  alive := halive
  steady := h
  cs := rfl
  early := .rfl
  prevotes := fun _ => rfl
  ballot := fun i => by simp

theorem round (h : Received x I n m) : m.cs.round = n.cs.round := by rw [h.cs]

theorem validatorSet (h : Received x I n m) : m.cs.validatorSet = n.cs.validatorSet := by rw [h.cs]

theorem trans (h : Received x I n m) (h' : Received x J m k) : Received x (I ∪ J) n k where
  alive := h'.alive
  steady := h'.steady
  cs := by rw [h'.cs, h.cs]
  early := h'.early.trans h.early
  prevotes := fun i => by
    have hsame := h'.prevotes i
    rw [h.round] at hsame
    exact hsame.trans (h.prevotes i)
  ballot := fun i => by
    rw [h'.ballot, h.ballot, Option.or_assoc]
    congr 1
    by_cases hI : i ∈ I
    · simp [hI]
    · simp [hI]

theorem deliverable (h : Received x I n m) {env : Env} {vote : Vote}
    (hd : Deliverable n.cs x env vote) : Deliverable m.cs x env vote := by
  rw [h.cs]
  exact { hd with }

/-- Precommits behind those that were received. -/
theorem counted (h : Received x I n m) (hne : isHashEmpty (some x) = false) (J : Finset Nat) :
    m.cs.counted x J = n.cs.counted x (I ∪ J) := by
  ext i
  rw [ConsensusState.mem_counted hne, ConsensusState.mem_counted hne, h.ballot, Option.or_assoc]
  by_cases hI : i ∈ I
  · simp [hI]
  · simp [hI]

end Received

section receive

variable {env : Env} {n : Node} {x : Hash} {vote : Vote}

/-- The precommit is added if it is the first one of its validator. -/
theorem receive_ok (h : Steady n) (hd : Deliverable n.cs x env vote) :
    (n.receive env vote).1 = .ok true ↔ n.cs.ballot vote.validatorIndex = none := by
  rw [ConsensusState.ballot_eq_none]
  constructor
  · intro hok
    have hfresh := (h.sound.votes.added_addVote hok).fresh
    rwa [hd.type, hd.round] at hfresh
  · intro hnone
    refine h.sound.votes.addVote_ok (.inr hd.type) (hd.height.trans h.sound.height.symm) ?_ ?_
      (hd.future _) (by have := hd.past; exact this _)
    · rw [h.sound.validatorSet, h.sound.chainID]
      exact hd.signed
    · rw [hd.type, hd.round]
      exact hnone

theorem ballot_receive (h : Steady n) (hd : Deliverable n.cs x env vote) :
    (∀ i, (n.receive env vote).2.voteOf .prevote n.cs.round i =
        n.cs.votes.voteOf .prevote n.cs.round i) ∧
      ∀ i, ConsensusState.ballot { n.cs with votes := (n.receive env vote).2 } i =
        (n.cs.ballot i).or (if i ∈ ({vote.validatorIndex} : Finset Nat) then some (some x)
          else none) := by
  by_cases hok : (n.receive env vote).1 = .ok true
  · have hadded : HeightVoteSet.Added n.cs.votes vote (n.receive env vote).2 :=
      h.sound.votes.added_addVote hok
    have hnone := (receive_ok h hd).mp hok
    refine ⟨fun i => ?_, fun i => ?_⟩
    · rw [hadded.voteOf_eq, if_neg]
      rintro ⟨ht, -⟩
      rw [hd.type] at ht
      cases ht
    · rw [ConsensusState.ballot, hadded.voteOf_eq]
      by_cases hi : i = vote.validatorIndex
      · simp [hi, hnone, hd.type, hd.round, hd.blockHash]
      · simp [hi, ConsensusState.ballot]
  · have hsame : ∀ t r i, (n.receive env vote).2.voteOf t r i = n.cs.votes.voteOf t r i :=
      HeightVoteSet.voteOf_addVote_rejected hok
    have hsome : n.cs.ballot vote.validatorIndex ≠ none := fun hnone =>
      hok ((receive_ok h hd).mpr hnone)
    refine ⟨fun i => hsame _ _ i, fun i => ?_⟩
    rw [ConsensusState.ballot, hsame, ← ConsensusState.ballot]
    by_cases hi : i = vote.validatorIndex
    · obtain ⟨hash, hhash⟩ := Option.ne_none_iff_exists'.mp hsome
      simp [hi, hhash]
    · simp [hi]

/-- The vote completes a majority exactly if its validator completes a quorum. -/
theorem completes_iff (h : Steady n) (halive : n.panicked = none)
    (hwal : ∀ m, env.walWrite m = true) (hd : Deliverable n.cs x env vote)
    (hne : isHashEmpty (some x) = false) :
    Completes env n vote x ↔
      n.cs.validatorSet.HasQuorum (n.cs.counted x {vote.validatorIndex}) := by
  have hmajority : (n.receive env vote).2.majority .precommit n.cs.round = some (some x) ↔
      n.cs.validatorSet.HasQuorum (n.cs.counted x {vote.validatorIndex}) := by
    have hsound : Sound { n.cs with votes := (n.receive env vote).2 } := h.sound.change .vote
    have hballot := (ballot_receive h hd).2
    generalize (n.receive env vote).2 = votes at hsound hballot ⊢
    have hvoters : votes.voters .precommit n.cs.round (some x) =
        n.cs.counted x {vote.validatorIndex} := by
      ext i
      rw [ConsensusState.mem_counted hne, ← hballot]
      exact @ConsensusState.mem_voters_iff_ballot { n.cs with votes } x i hne
    rw [← hvoters]
    exact hsound.majority_block_iff hne
  constructor
  · intro hc
    have hmaj := hc.majority
    rw [hd.round] at hmaj
    exact hmajority.mp hmaj
  · intro hquorum
    have hnone : n.cs.ballot vote.validatorIndex = none := by
      by_contra hsome
      refine h.not_hasQuorum halive hne ?_
      rwa [ConsensusState.counted, Finset.filter_singleton, if_neg hsome,
        ← Finset.filter_empty fun i => n.cs.ballot i = none] at hquorum
    exact
      { written := (walWrite_panicked hwal _ _ _).trans halive
        added := (receive_ok h hd).mpr hnone
        type := hd.type
        majority := by
          rw [hd.round]
          exact hmajority.mpr hquorum
        nonempty := hne }

/-- Short of a quorum the vote is stored, and the wait for more may begin. -/
theorem received_of_not_hasQuorum (h : Steady n) (halive : n.panicked = none)
    (hwal : ∀ m, env.walWrite m = true) (hd : Deliverable n.cs x env vote)
    (hne : isHashEmpty (some x) = false)
    (hno : ¬ n.cs.validatorSet.HasQuorum (n.cs.counted x {vote.validatorIndex})) :
    Received x {vote.validatorIndex} n (handle env (.vote vote) n) := by
  obtain ⟨hprevotes, hballot⟩ := ballot_receive h hd
  have hwritten := (walWrite_panicked hwal (.ofVote vote) false n).trans halive
  have hcomplete : ∀ y, ¬ Completes env n vote y := by
    intro y hc
    have hy := (decided_by h.sound.votes (h.calm halive).2 hc.added hc.majority hc.nonempty).2.2
    rw [hd.blockHash] at hy
    cases hy
    exact hno ((completes_iff h halive hwal hd hne).mp hc)
  have hsteady : Steady (handle env (.vote vote) n) := by
    refine handle_steady h fun vote' y heq hc => ?_
    cases heq
    exact absurd hc (hcomplete y)
  have hresult : ∃ step, (handle env (.vote vote) n).panicked = none ∧
      (handle env (.vote vote) n).cs = { n.cs with step, votes := (n.receive env vote).2 } ∧
      (step < .prevote ↔ n.cs.step < .prevote) := by
    unfold handle
    rw [Node.andThen_alive halive]
    dsimp only
    by_cases hok : (n.receive env vote).1 = .ok true
    · rw [handleVote_added hwritten hok]
      unfold handleAddedVote
      rw [hd.type]
      dsimp only
      have hno : ∀ y, ((n.walWrite env (.ofVote vote) false).setVotes
          (n.receive env vote).2).cs.votes.majority .precommit vote.round = some (some y) →
          isHashEmpty (some y) = true := by
        intro y hmaj
        by_contra hempty
        rw [received_cs] at hmaj
        exact hcomplete y ⟨hwritten, hok, hd.type, hmaj, eq_false_of_ne_true hempty⟩
      rcases handlePrecommitLocked_undecided env (by rw [received_cs, hd.round]) hno with
        heq | ⟨hstep, heq⟩
      · rw [heq]
        exact ⟨n.cs.step, hwritten, received_cs, .rfl⟩
      · rw [heq]
        rw [received_cs] at hstep
        refine ⟨.precommitWait, hwritten, ?_, by rw [show n.cs.step = _ from hstep]; decide⟩
        unfold Node.startPrecommitWait
        rw [Node.emit_cs, Node.setStep, received_cs]
    · rw [handleVote_rejected hwritten hok]
      exact ⟨n.cs.step, hwritten, received_cs, .rfl⟩
  obtain ⟨step, hpanicked, hcs, hearly⟩ := hresult
  refine ⟨hpanicked, hsteady, ?_, ?_, ?_, ?_⟩
  · rw [hcs]
  · rw [hcs]
    exact hearly
  · rw [hcs]
    exact hprevotes
  · intro i
    rw [hcs, ← hballot]
    rfl

end receive

end

end Leaderberry
