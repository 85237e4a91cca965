import Leaderberry.Engine.Commit
import Leaderberry.Network.Agreement

/-!
# What happens at a decision

In a network with a correct two-thirds majority, the vote that completes a precommit
majority for `x` makes a node apply a block with hash `x` exactly when that block is the
one `finalizeCommitLocked` takes: `lockedBlock` if there is one, else `proposalBlock`
(`decided_block_finalized`). A node that is locked on another block, or holds the
decided one as `validBlock` only, stops with a panic.

`enterCommitLocked` looks for the certificate from the current round down to zero. A
majority in a negative round would be missed, but it has a correct member, and correct
nodes vote in rounds from zero on (`Rounds`).
-/

namespace Leaderberry

section

variable [Externals] {ι : Type} (S : Network ι) {env : Env} {m : Node}

/-- In a round from zero on, if it verifies under the key of a correct node. -/
def Network.Rounded (v : Vote) : Prop :=
  ∀ i, verifyVoteSignature S.chainID v (S.key i) = .ok () → 0 ≤ v.round

/-- The votes a node casts and stores are in rounds from zero on, as far as correct
nodes cast them. -/
structure Rounds (n : Node) : Prop where
  sound : Sound n.cs
  casts : ∀ cs v, (cs, v) ∈ n.casts → 0 ≤ v.round
  stored : ∀ t r i v, n.cs.votes.voteOf t r i = some v → S.Rounded v

variable {S}

/-- What holds of the votes that arrive and that are cast holds of the stored ones. -/
theorem Atoms.stored {G : Vote → Prop} {input : Option Event} {n : Node} (ha : Atoms env input n m)
    (hsound : Sound n.cs) (hstored : ∀ t r i v, n.cs.votes.voteOf t r i = some v → G v)
    (hinput : ∀ event, input = some event → ∀ v ∈ event.votes, G v)
    (hcasts : ∀ cs v, (cs, .castVote v) ∈ m.trace → G v) :
    ∀ t r i v, m.cs.votes.voteOf t r i = some v → G v := by
  induction ha with
  | refl => exact hstored
  | @tail k m hfirst hlast ih =>
    have hk : Sound k.cs :=
      Atoms.invariant (P := fun n => Sound n.cs) hfirst hsound fun _ _ hn ha => hn.atom ha
    intro t r i v hv
    rcases hlast.stored hk hv with hold | harrived | ⟨cs, hown⟩
    · exact ih (fun cs v hmem => hcasts cs v (hlast.trace_suffix.subset hmem)) t r i v hold
    · exact hinput _ harrived v (List.mem_singleton.mpr rfl)
    · exact hcasts cs v hown

theorem Rounds.step {re : Bool} {input : Option Event} {n : Node} (h : Rounds S n)
    (hinput : ∀ event, input = some event → ∀ v ∈ event.votes, S.Rounded v)
    (hstep : MicroStep re env input n m) : Rounds S m := by
  have hcasts : ∀ cs v, (cs, v) ∈ m.casts → 0 ≤ v.round := by
    intro cs v hmem
    cases hstep.voting with
    | none hsame => exact h.casts cs v (hsame.casts ▸ hmem)
    | failed _ _ _ _ hsame => exact h.casts cs v (hsame ▸ hmem)
    | cast hstart _ hcast _ hnew =>
      rw [hnew] at hmem
      rcases List.mem_cons.mp hmem with heq | hold
      · cases heq
        have hk := hstart.atoms.invariant (P := fun n => Sound n.cs) h.sound
          fun _ _ hn ha => hn.atom ha
        rw [hcast.own.round]
        exact hk.round
      · exact h.casts cs v hold
  exact
    { sound := hstep.atoms.invariant (P := fun n => Sound n.cs) h.sound fun _ _ hn ha => hn.atom ha
      casts := hcasts
      stored := hstep.atoms.stored h.sound h.stored hinput fun cs v hmem _ _ =>
        hcasts cs v (Node.mem_casts.mpr hmem) }

theorem rounds_fresh (l : Launch) : Rounds S l.fresh where
  sound := sound_fresh l
  casts := fun cs v hmem => by cases hmem
  stored := fun t r i v hv => by
    rw [voteOf_empty (by rfl) (by rfl)] at hv
    cases hv

variable [DecidableEq ι] {net : ι → Node}

omit [DecidableEq ι] in
theorem Network.Authentic.rounded (hnet : ∀ i, Rounds S (net i)) {v : Vote}
    (h : S.Authentic net v) : S.Rounded v := by
  intro i hi
  obtain ⟨x, hx, heq⟩ := h i hi
  have hround : x.2.unsigned.round = v.unsigned.round := congrArg Vote.round heq
  show 0 ≤ v.unsigned.round
  rw [← hround]
  exact (hnet i).casts x.1 x.2 hx

theorem Network.Reachable.rounds (h : S.Reachable net) (i : ι) : Rounds S (net i) := by
  induction h generalizing i with
  | init => exact rounds_fresh _
  | @start net j env _ hfresh ih =>
    by_cases hij : i = j
    · subst hij
      rw [Function.update_self]
      have hsteps : Steps true env none (S.launch i).fresh ((S.launch i).start env) :=
        (S.launch i).start_steps env
      exact hsteps.invariant (rounds_fresh _)
        fun _ _ hn hstep => hn.step (fun event hevent => by cases hevent) hstep
    · rw [Function.update_of_ne hij]
      exact ih i
  | @handle net j env event _ _ hdeliver ih =>
    by_cases hij : i = j
    · subst hij
      rw [Function.update_self]
      have hsteps : Steps true env (some event) (net i) (Leaderberry.handle env event (net i)) :=
        handle_steps event (.inl rfl)
      refine hsteps.invariant (ih i) fun _ _ hn hstep =>
        hn.step (fun event' hevent v hv => ?_) hstep
      cases hevent
      exact (hdeliver.authentic v hv).rounded ih
    · rw [Function.update_of_ne hij]
      exact ih i

theorem Network.Reachable.wiring (h : S.Reachable net) (i : ι) :
    (net i).cs.wiring = (S.launch i).wiring := by
  rcases h.run i with heq | ⟨env, events, heq⟩
  · rw [heq]
    rfl
  · rw [heq]
    exact wiring_run _ env events

theorem Network.Reachable.steady (h : S.Reachable net) (i : ι)
    (halive : (net i).panicked = none) : Steady (net i) := by
  rcases h.run i with heq | ⟨env, events, heq⟩
  · rw [heq]
    exact steady_fresh _
  · rw [heq] at halive ⊢
    exact (S.launch i).run_steady env events halive

/-- A completed majority has a correct member, so its round is not negative. -/
theorem Completes.round_nonneg {i : ι} {env : Env} {vote : Vote} {x : Hash}
    (hcompletes : Completes env (net i) vote x) (h : S.Reachable net)
    (hdeliver : S.Deliverable net i (.vote vote))
    (hminor : ∀ hwf : (net i).cs.validatorSet.Wf,
      hwf.electorate.Minor fun index => ¬ S.Correct (net i).cs.validatorSet index) :
    0 ≤ vote.round := by
  have hn := h.steady i hcompletes.alive
  have hchain : (net i).cs.config.chainID = S.chainID := by
    rw [← S.launch_chainID i, ← h.wiring i]
    rfl
  have hstored : ∀ t r j v, ((net i).deciding env vote).cs.votes.voteOf t r j = some v →
      S.Rounded v := by
    intro t r j v hv
    rw [Node.deciding_cs] at hv
    rcases voteOf_addVote hn.sound.votes hv with hold | ⟨rfl, -⟩
    · exact (h.rounds i).stored t r j v hold
    · exact Network.Authentic.rounded h.rounds hdeliver
  have hevidence := (hn.deciding env vote).evidence hstored (hcompletes.decides hn).majority
    hcompletes.nonempty
  have hsame : Evidence S.Rounded (net i).cs .precommit vote.round x := by
    refine hevidence.of_eq ?_ ?_ ?_ <;> rw [Node.deciding_cs]
  obtain ⟨hwf, Q, hQ, hvotes⟩ := hsame
  obtain ⟨index, hindex, hcorrect⟩ := hQ.exists_mem (hminor hwf)
  obtain ⟨j, hj⟩ := not_not.mp hcorrect
  obtain ⟨v, hrounded, -, hback⟩ := hvotes index hindex
  obtain ⟨val, hval, hsig⟩ := hback.signed
  rw [hval] at hj
  rw [hchain, Option.some_inj.mp hj] at hsig
  rw [← hback.round]
  exact hrounded j hsig

/-! ## The decided block -/

/-- The blocks a node holds. -/
def ConsensusState.held (cs : ConsensusState) : List Block :=
  [cs.lockedBlock, cs.validBlock, cs.proposalBlock].filterMap id

/-- From `n` to `m` a held block with hash `x` was applied at the height of `n`, and the
node moved on to the next height, from where it goes on only with `SkipTimeoutCommit`. -/
structure Finalizes (n m : Node) (x : Hash) : Prop where
  applied : ∃ cs, ∃ block ∈ n.cs.held, (cs, block) ∈ m.applied ∧ cs.height = n.cs.height ∧
    blockHash block = x
  advanced : n.cs.height + 1 ≤ m.cs.height
  next : n.cs.config.skipTimeoutCommit = false → m.cs.height = n.cs.height + 1
  uncritical : ¬ ∃ p, m.panicked = some p ∧ p.Critical

omit [Externals] [DecidableEq ι] in
theorem mem_held_of_chosen {cs : ConsensusState} {block : Block}
    (h : cs.lockedBlock.or cs.proposalBlock = some block) : block ∈ cs.held := by
  rcases Option.or_eq_some_iff.mp h with hlocked | ⟨-, hproposal⟩
  · simp [ConsensusState.held, hlocked]
  · simp [ConsensusState.held, hproposal]

omit [DecidableEq ι] in
/-- After the commit the trace and the height only grow. -/
theorem after_commit {k : Node} {commit : Commit} {block : Block} {updates : List ValidatorUpdate}
    {newSet : ValidatorSet} (hc : Committed k env commit block updates newSet m) (hm : Steady m)
    (halive : m.panicked = none) :
    m.trace <:+ (enterNewRoundLocked env (sign env) m.cs.height 0 m).trace ∧
      m.cs.height ≤ (enterNewRoundLocked env (sign env) m.cs.height 0 m).cs.height := by
  have hsteps : Steps true env none m (enterNewRoundLocked env (sign env) m.cs.height 0 m) := by
    refine enterNewRoundLocked_steps (signSteps env.depth) halive _ _ fun _ => ?_
    rw [hc.cs]
    exact show RoundStep.newHeight < .prevote by decide
  have hgrows := hsteps.atoms.invariant
    (P := fun q => Sound q.cs ∧ m.cs.height ≤ q.cs.height) ⟨hm.sound, le_rfl⟩
    fun _ _ hq ha => ⟨hq.1.atom ha, hq.2.trans (ha.changes.grows hq.1).height⟩
  exact ⟨hsteps.atoms.trace_suffix, hgrows.2⟩

/-- **Deciding.** The vote that completes a 2/3+ precommit majority for `x` finalizes a
held block with hash `x` exactly when the block that `finalizeCommitLocked` takes has
hash `x`. -/
theorem decided_block_finalized (h : S.Reachable net) (i : ι) (env : Env) (vote : Vote)
    (x : Hash)
    (hminor : ∀ hwf : (net i).cs.validatorSet.Wf,
      hwf.electorate.Minor fun index => ¬ S.Correct (net i).cs.validatorSet index)
    (hdeliver : S.Deliverable net i (.vote vote)) (hserves : Serves env (net i).cs)
    (hcompletes : Completes env (net i) vote x) :
    Finalizes (net i) (handle env (.vote vote) (net i)) x ↔
      (net i).cs.chosenHash = some x := by
  have hn := h.steady i hcompletes.alive
  have hround := hcompletes.round_nonneg h hdeliver hminor
  have hcritical := hcompletes.critical_iff hn
  constructor
  · intro hfinal
    by_contra hchosen
    exact hfinal.uncritical (hcritical.mpr fun hboth => hchosen hboth.2)
  · intro hchosen
    obtain ⟨commit, block, updates, newSet, hc, hhash⟩ :=
      hcompletes.committed hn hserves hround hchosen
    have hcs := Node.deciding_cs env vote (net i)
    obtain ⟨happlied, hheight⟩ := hc.applied (by rw [hcs]; exact h.hasExecutor i)
    have hcommitted := Steady.committed (hn.deciding env vote) hcompletes.deciding_panicked hc
    have halive : (((net i).deciding env vote).startCommit env).panicked = none := by
      rw [hc.eq, Node.advanceHeight_panicked]
      exact hcompletes.deciding_panicked
    obtain ⟨hsuffix, hle⟩ := after_commit hc hcommitted halive
    have hblock : block ∈ (net i).cs.held := by
      have hchoice := hc.choice.chosen
      rw [hcs] at hchoice
      exact mem_held_of_chosen hchoice
    have hheight' : ((net i).deciding env vote).cs.height = (net i).cs.height := by rw [hcs]
    have hconfig : (((net i).deciding env vote).startCommit env).cs.config = (net i).cs.config := by
      rw [hc.cs]
      show ((net i).deciding env vote).cs.config = _
      rw [hcs]
    rw [hheight'] at hheight
    have heq := hcompletes.handle_eq hn
    rw [Node.commitOn, Node.andThen_alive halive, hconfig] at heq
    refine { applied := ⟨(((net i).deciding env vote).setStep .commit).cs, block, hblock, ?_,
               hheight', hhash⟩,
             advanced := ?_, next := ?_,
             uncritical := mt hcritical.mp (not_not.mpr ⟨hround, hchosen⟩) }
    · rw [heq]
      split
      · obtain ⟨c, result, hmem⟩ := Node.mem_applied.mp happlied
        exact Node.mem_applied.mpr ⟨c, result, hsuffix.subset hmem⟩
      · exact happlied
    · rw [heq]
      split
      · exact hheight.ge.trans hle
      · exact hheight.ge
    · intro hskip
      rw [heq, hskip]
      exact hheight

end

section runs

attribute [local instance] transparent

theorem serves_env (k : Byte) (cs : ConsensusState) : Serves (Scenario.env k) cs where
  wal := fun _ => rfl
  apply := fun _ _ => ⟨[], _, rfl, rfl⟩

/-- Validator 2 sees no prevotes for its block in round 0 but those of validator 3 for
nil. In round 1 it locks on the block of validator 3. -/
def laterLockEvents : List Event :=
  [.vote (Scenario.vote 3 2 .prevote 1 0 none),
    .timeout ⟨1, 0, .prevoteWait⟩,
    .vote (Scenario.vote 3 2 .precommit 1 0 none),
    .timeout ⟨1, 0, .precommitWait⟩,
    .proposal (Scenario.proposal 3 1 1 (Scenario.block 1 2) (-1) []),
    .vote (Scenario.vote 3 2 .prevote 1 1 (Scenario.block 1 2))]

/-- Validator 1 locks on the block of validator 2 in round 0 and hears of the other
block, and of a precommit for it, in round 1. -/
def earlierLockEvents : List Event :=
  [.proposal (Scenario.proposal 2 1 0 (Scenario.block 1 1) (-1) []),
    .vote (Scenario.vote 2 1 .prevote 1 0 (Scenario.block 1 1)),
    .vote (Scenario.vote 2 1 .precommit 1 0 none),
    .vote (Scenario.vote 3 2 .precommit 1 0 none),
    .timeout ⟨1, 0, .precommitWait⟩,
    .proposal (Scenario.proposal 3 1 1 (Scenario.block 1 2) (-1) []),
    .vote (Scenario.vote 2 1 .precommit 1 1 (Scenario.block 1 2))]

/-- The second precommit for the block of round 1. -/
def decidingVote : Vote := Scenario.vote 3 2 .precommit 1 1 (Scenario.block 1 2)

/-- A node that holds the decided block as its proposal, but is locked on another one,
panics at the decision. -/
theorem decided_block_not_taken :
    let net := forkNet earlierLockEvents laterLockEvents
    forkNetwork.Reachable net ∧
    3 * forkNetwork.faultyPower (net 0).cs.validatorSet < (net 0).cs.validatorSet.totalPower ∧
    forkNetwork.Deliverable net 0 (.vote decidingVote) ∧
    Completes (Scenario.env 1) (net 0) decidingVote (blockHash (Scenario.block 1 2)) ∧
    (net 0).cs.proposalBlock = some (Scenario.block 1 2) ∧
    (handle (Scenario.env 1) (.vote decidingVote) (net 0)).panicked =
      some (.blockHashMismatch 1 (blockHash (Scenario.block 1 1))
        (blockHash (Scenario.block 1 2))) := by
  refine ⟨Scenario.reachable_pair _ _ _ _ ?_ ?_, ?_, ?_, ⟨?_, ?_, ?_, ?_, ?_⟩, ?_, ?_⟩ <;>
    decide +kernel

/-- Validator 1 hears of the proposal of validator 2 and of its precommit. -/
def undecidedEvents : List Event :=
  [.proposal (Scenario.proposal 2 1 0 (Scenario.block 1 1) (-1) []),
    .vote (Scenario.vote 2 1 .precommit 1 0 (Scenario.block 1 1))]

theorem decided_block_finalized_proposal :
    let net := forkNet undecidedEvents proposerEvents
    let vote := Scenario.vote 3 2 .precommit 1 0 (Scenario.block 1 1)
    Finalizes (net 0) (handle (Scenario.env 1) (.vote vote) (net 0))
      (blockHash (Scenario.block 1 1)) := by
  have hreach : forkNetwork.Reachable (forkNet undecidedEvents proposerEvents) := by
    refine Scenario.reachable_pair _ _ _ _ ?_ ?_ <;> decide +kernel
  have hfaulty : 3 * forkNetwork.faultyPower
      (forkNet undecidedEvents proposerEvents 0).cs.validatorSet ≤
        (forkNet undecidedEvents proposerEvents 0).cs.validatorSet.totalPower := by
    decide +kernel
  refine (decided_block_finalized hreach 0 (Scenario.env 1)
    (Scenario.vote 3 2 .precommit 1 0 (Scenario.block 1 1)) _
    (fun hwf => forkNetwork.minor_of_faultyPower hwf hfaulty) ?_ (serves_env 1 _)
    ⟨?_, ?_, ?_, ?_, ?_⟩).mpr ?_ <;> decide +kernel

end runs

end Leaderberry
