import Leaderberry.Engine.Firing
import Leaderberry.Engine.Scenario

/-!
# Observers

A node without a validator of its own returns from `signAndSendVoteLocked` before the
votes are looked at again. `Stalls` lists the events that move such a node into a step
whose quorum is already there: these are all the ways in which a transition is left
unfired (`handle_observer`). With `handle_voter` this settles the states between the
events of a run (`fired_iff`).
-/

namespace Leaderberry

/-! ## What stalls an observer -/

section

variable [Externals] {env : Env} {n : Node} {r : Int} {v : Vote}

/-- The node proposes when it enters round `r`. Without a validator of its own this needs a
set whose proposer is not one of its validators. -/
def Proposes (env : Env) (n : Node) (r : Int) : Prop :=
  ∃ p, OwnProposal (n.cs.enterRound r) env p ∧
    p.timestamp = env.clock ((n.startRound r).requestBlock p.proposer).trace.length

/-- The event moves an observer into a step whose quorum is already there. -/
def Stalls (env : Env) (n : Node) : Event → Prop
  | .proposal p => n.cs.acceptsProposal env p = true ∧ n.cs.step < .prevote ∧
      n.cs.votes.hasAny .prevote n.cs.round = true
  | .vote v => (n.receive env v).1 = .ok true ∧
      Overtaken { n.cs with votes := (n.receive env v).2 } v
  | .timeout ti => ti.height = n.cs.height ∧ n.cs.round ≤ ti.round ∧
      match ti.step with
      | .propose => n.cs.step = .propose ∧ n.cs.votes.hasAny .prevote n.cs.round = true
      | .prevoteWait => n.cs.step = .prevoteWait ∧ n.cs.votes.hasAny .precommit n.cs.round = true
      | .precommitWait => n.cs.step = .precommitWait ∧
          n.cs.round ≤ ConsensusState.nextRound n.cs.round ∧
          Proposes env n (ConsensusState.nextRound n.cs.round) ∧
          n.cs.votes.hasAny .prevote (ConsensusState.nextRound n.cs.round) = true
      | .commit => n.cs.round ≤ 0 ∧ Proposes env n 0 ∧ n.cs.votes.hasAny .prevote 0 = true
      | _ => False

theorem sign_observer (t : VoteType) (hash : Option Hash) (hown : n.cs.ownValidator = none) :
    sign env t hash n = n := by
  unfold sign signAndSendVoteLocked
  rw [castOwnVote_observer t hash hown]

variable (env) in
/-- An observer that enters Prevote, or is there, only takes the step. -/
theorem enterPrevoteLocked_observer (hown : n.cs.ownValidator = none)
    (hstep : n.cs.step ≤ .prevote) : ∃ lockedRound lockedBlock,
    (enterPrevoteLocked (sign env) n.cs.height n.cs.round n).cs =
      { n.cs with step := .prevote, lockedRound, lockedBlock } := by
  unfold enterPrevoteLocked
  split
  · rename_i hguard
    simp only [ne_eq, not_true_eq_false, false_or] at hguard
    exact ⟨_, _, by rw [← le_antisymm hstep hguard]⟩
  · obtain ⟨lockedRound, lockedBlock, hcs⟩ := startPrevote_frame n
    refine ⟨lockedRound, lockedBlock, ?_⟩
    rw [sign_observer, hcs]
    rw [hcs]
    exact hown

theorem fired_enterPrevoteLocked (hinv : n.cs.votes.Inv) (hown : n.cs.ownValidator = none)
    (hstep : n.cs.step ≤ .prevote) :
    Fired (enterPrevoteLocked (sign env) n.cs.height n.cs.round n).cs ↔
      n.cs.votes.hasAny .prevote n.cs.round = false := by
  obtain ⟨_, _, hcs⟩ := enterPrevoteLocked_observer env hown hstep
  rw [hcs]
  exact fired_prevote_iff hinv rfl

/-- An observer that enters Precommit only takes the step, and may lock. -/
theorem fired_enterPrecommitLocked (hown : n.cs.ownValidator = none)
    (hstep : n.cs.step < .precommit) :
    Fired (enterPrecommitLocked env (sign env) n.cs.height n.cs.round n).cs ↔
      n.cs.votes.hasAny .precommit n.cs.round = false := by
  obtain ⟨_, _, _, _, hcs⟩ := startPrecommit_frame env n
  have hsame : (n.startPrecommit env).1.andThen (sign env .precommit (n.startPrecommit env).2) =
      (n.startPrecommit env).1 := by
    cases hp : (n.startPrecommit env).1.panicked with
    | some p => rw [Node.andThen_panicked hp]
    | none =>
      rw [Node.andThen_alive hp]
      refine sign_observer _ _ ?_
      rw [hcs]
      exact hown
  unfold enterPrecommitLocked
  rw [if_neg (by simp [hstep]), hsame, fired_precommit_iff, hcs]
  rw [hcs]

variable (env) in
/-- An observer that takes its own proposal goes on to Prevote. -/
theorem takeProposal_observer (p : Proposal) (hown : n.cs.ownValidator = none)
    (hstep : n.cs.step = .propose) : ∃ proposal proposalBlock lockedRound lockedBlock,
    (enterPrevoteLocked (sign env) (n.takeProposal p true).cs.height
      (n.takeProposal p true).cs.round (n.takeProposal p true)).cs =
      { n.cs with proposal, proposalBlock, lockedRound, lockedBlock, step := .prevote } := by
  have htaken := n.takeProposal_cs p true
  have hown' : (n.takeProposal p true).cs.ownValidator = none := by
    rw [htaken]
    exact hown
  have hstep' : (n.takeProposal p true).cs.step ≤ .prevote := by
    rw [htaken, hstep]
    decide
  obtain ⟨lockedRound, lockedBlock, hentered⟩ := enterPrevoteLocked_observer env hown' hstep'
  refine ⟨some p, some p.block, lockedRound, lockedBlock, hentered.trans ?_⟩
  rw [htaken]

omit [Externals] in
/-- An own proposal is what the proposer of the round drafts, signed. -/
theorem OwnProposal.unsigned_eq {p : Proposal} (hp : OwnProposal n.cs env p)
    {proposer : NamedValidator} {block : Block}
    (hproposer : n.cs.validatorSet.getProposerForRound n.cs.round = some proposer)
    (hblock : n.cs.blockToPropose env proposer = some block) :
    ({ p with signature := ⟨[]⟩ } : Proposal) =
      { height := n.cs.height, round := n.cs.round, timestamp := p.timestamp, block,
        polRound := n.cs.validRound, polVotes := n.cs.polVotesToAttach,
        proposer := proposer.name, signature := ⟨[]⟩ } := by
  obtain ⟨q, hq, -, hname, hblock'⟩ := hp.proposer
  cases hproposer.symm.trans hq
  cases hblock.symm.trans hblock'
  rw [← hp.height, ← hp.round, ← hp.polRound, ← hp.polVotes, ← hname]

/-- Whether an observer proposes, with the key of a proposer that is not a validator. -/
theorem createAndSendProposalLocked_observer (hown : n.cs.ownValidator = none)
    (hstep : n.cs.step = .propose) {proposer : NamedValidator}
    (hproposer : n.cs.validatorSet.getProposerForRound n.cs.round = some proposer)
    (hkey : n.cs.privVal = some proposer.publicKey)
    (halive : (createAndSendProposalLocked env (sign env) n).panicked = none) :
    ((¬ ∃ p, OwnProposal n.cs env p ∧
        p.timestamp = env.clock (n.requestBlock p.proposer).trace.length) ∧
      (createAndSendProposalLocked env (sign env) n).cs = n.cs) ∨
    (∃ p, OwnProposal n.cs env p ∧
        p.timestamp = env.clock (n.requestBlock p.proposer).trace.length) ∧
      ∃ proposal proposalBlock lockedRound lockedBlock,
        (createAndSendProposalLocked env (sign env) n).cs =
          { n.cs with proposal, proposalBlock, lockedRound, lockedBlock, step := .prevote } := by
  unfold createAndSendProposalLocked at halive ⊢
  simp only [hproposer, Node.requestBlock_cs] at halive ⊢
  split
  · -- there is no block to propose
    rename_i hnone
    refine .inl ⟨?_, n.requestBlock_cs _⟩
    rintro ⟨p, hp, -⟩
    obtain ⟨q, hq, -, -, hblock⟩ := hp.proposer
    cases hproposer.symm.trans hq
    cases hnone.symm.trans hblock
  · rename_i block hblock
    simp only [hblock] at halive
    split
    · -- the signer refuses
      rename_i hnone
      refine .inl ⟨?_, n.requestBlock_cs _⟩
      rintro ⟨p, hp, htime⟩
      have hsig := hp.signature
      obtain ⟨q, hq, -, hname, -⟩ := hp.proposer
      cases hproposer.symm.trans hq
      rw [hp.unsigned_eq hproposer hblock, htime, hname, hnone] at hsig
      cases hsig
    · rename_i signature hsig
      simp only [hsig] at halive
      refine .inr ⟨⟨
        { height := n.cs.height, round := n.cs.round,
          timestamp := env.clock (n.requestBlock proposer.name).trace.length,
          block, polRound := n.cs.validRound, polVotes := n.cs.polVotesToAttach,
          proposer := proposer.name, signature },
        ⟨hstep, ⟨proposer, hproposer, hkey, rfl, hblock⟩, rfl, rfl, rfl, rfl, hsig⟩, rfl⟩, ?_⟩
      generalize ({ height := n.cs.height, round := n.cs.round, .. } : Proposal) = p at halive ⊢
      generalize hm : ((n.requestBlock _).emit _).walWrite env _ true = m at halive ⊢
      have hcs : m.cs = n.cs := by
        rw [← hm]
        simp
      cases hp : m.panicked with
      | some q =>
        rw [Node.andThen_panicked hp, hp] at halive
        cases halive
      | none =>
        rw [Node.andThen_alive hp, ← hcs]
        rw [← hcs] at hown hstep
        exact takeProposal_observer env p hown hstep

/-- The observer after it entered round `r`. -/
structure Enters (env : Env) (n : Node) (r : Int) (m : Node) : Prop where
  height : m.cs.height = n.cs.height
  round : m.cs.round = r
  votes : m.cs.votes = n.cs.votes
  own : m.cs.ownValidator = none
  step : ¬ Proposes env n r ∧ m.cs.step = .propose ∨ Proposes env n r ∧ m.cs.step = .prevote

theorem enterNewRoundLocked_observer (hown : n.cs.ownValidator = none) (hr : n.cs.round ≤ r)
    (halive : (enterNewRoundLocked env (sign env) n.cs.height r n).panicked = none) :
    Enters env n r (enterNewRoundLocked env (sign env) n.cs.height r n) := by
  have hsilent (hnot : ¬ Proposes env n r) : Enters env n r (n.startRound r) :=
    ⟨rfl, rfl, rfl, hown, .inl ⟨hnot, rfl⟩⟩
  unfold enterNewRoundLocked at halive ⊢
  rw [if_neg (by simp [hr])] at halive ⊢
  dsimp only at halive ⊢
  split
  · rename_i hnone
    refine hsilent ?_
    rintro ⟨p, hp, -⟩
    obtain ⟨q, hq, -⟩ := hp.proposer
    cases hnone.symm.trans hq
  · rename_i proposer hproposer
    simp only [hproposer] at halive
    split
    · rename_i hkey
      rw [if_pos hkey] at halive
      have hobserver : (n.startRound r).cs.ownValidator = none := hown
      rcases createAndSendProposalLocked_observer hobserver rfl hproposer hkey halive with
        ⟨hnot, heq⟩ | ⟨hproposes, _, _, _, _, hcs⟩
      · exact
          { height := by rw [heq]; rfl
            round := by rw [heq]; rfl
            votes := by rw [heq]; rfl
            own := by rw [heq]; exact hown
            step := .inl ⟨hnot, by rw [heq]; rfl⟩ }
      · exact
          { height := by rw [hcs]; rfl
            round := by rw [hcs]; rfl
            votes := by rw [hcs]; rfl
            own := by rw [hcs]; exact hown
            step := .inr ⟨hproposes, by rw [hcs]⟩ }
    · rename_i hkey
      refine hsilent ?_
      rintro ⟨p, hp, -⟩
      obtain ⟨q, hq, hown', -⟩ := hp.proposer
      cases hproposer.symm.trans hq
      exact hkey hown'

omit [Externals] in
theorem Enters.step_le {m : Node} (h : Enters env n r m) : m.cs.step ≤ .prevote := by
  rcases h.step with ⟨-, hstep⟩ | ⟨-, hstep⟩
  · rw [hstep]
    decide
  · rw [hstep]

/-- The end of entering a round for an observer. -/
theorem Enters.fired_iff_hasAny {m : Node} (h : Enters env n r m) (hinv : n.cs.votes.Inv) :
    Fired m.cs ↔ ¬ (Proposes env n r ∧ n.cs.votes.hasAny .prevote r = true) := by
  rcases h.step with ⟨hnot, hstep⟩ | ⟨hproposes, hstep⟩
  · refine iff_of_true (fired_of_step ?_ ?_ ?_) fun hp => hnot hp.1
    all_goals
      rw [hstep]
      nofun
  · rw [fired_prevote_iff (h.votes ▸ hinv) hstep, h.votes, h.round]
    simp [hproposes]

theorem enterRound_observer (hinv : n.cs.votes.Inv) (hfired : Fired n.cs)
    (hown : n.cs.ownValidator = none)
    (halive : (enterNewRoundLocked env (sign env) n.cs.height r n).panicked = none) :
    Fired (enterNewRoundLocked env (sign env) n.cs.height r n).cs ↔
      ¬ (n.cs.round ≤ r ∧ Proposes env n r ∧ n.cs.votes.hasAny .prevote r = true) := by
  by_cases hr : n.cs.round ≤ r
  · rw [(enterNewRoundLocked_observer hown hr halive).fired_iff_hasAny hinv]
    simp [hr]
  · unfold enterNewRoundLocked
    rw [if_pos (.inr (not_le.mp hr))]
    exact iff_of_true hfired fun h => hr h.1

omit [Externals] in
theorem Node.andThen_alive_left {f : Node → Node} (h : (n.andThen f).panicked = none) :
    n.panicked = none := by
  cases hp : n.panicked with
  | none => rfl
  | some p =>
    rw [Node.andThen_panicked hp, hp] at h
    cases h

theorem handlePrevoteLocked_observer (hinv : n.cs.votes.Inv) (hown : n.cs.ownValidator = none)
    (hstirred : Stirred v n.cs) (ht : v.type = .prevote)
    (halive : (handlePrevoteLocked env (sign env) v n).panicked = none) :
    Fired (handlePrevoteLocked env (sign env) v n).cs ↔ ¬ Overtaken n.cs v := by
  rcases handlePrevoteLocked_cases env (sign env) hstirred ht with ⟨hfired, hclear, heq⟩ |
    ⟨prevotes, hset, hround, hany, heq⟩ | ⟨hround, hmaj, hstep, heq⟩ | ⟨hnone, hclear, heq⟩
  · rw [heq]
    exact iff_of_true hfired hclear
  · rw [heq] at halive ⊢
    have hentered := Node.andThen_alive_left halive
    rw [Node.andThen_alive hentered]
    have henters := enterNewRoundLocked_observer hown hround.le hentered
    generalize enterNewRoundLocked env (sign env) n.cs.height v.round n = m at henters
    have hstep := henters.step_le
    have hmaj := HeightVoteSet.majority_isSome hset
    simp only [henters.votes, hset]
    rw [overtaken_prevote ht]
    rw [← henters.round] at hround hany hmaj ⊢
    split
    · rename_i hsome
      rw [← hmaj] at hsome
      rw [fired_enterPrecommitLocked henters.own (hstep.trans_lt (by decide)), henters.votes]
      simp [hround, hround.ne', hany, Option.ne_none_iff_isSome.mpr hsome]
    · rename_i hnone
      rw [← hmaj, Option.not_isSome_iff_eq_none] at hnone
      rw [fired_enterPrevoteLocked (henters.votes ▸ hinv) henters.own hstep, henters.votes]
      exact iff_of_false (by simp [hany]) (not_not.mpr (.inl ⟨hround, hany, .inl hnone⟩))
  · rw [heq, fired_enterPrecommitLocked hown (by rcases hstep with h | h <;> rw [h] <;> decide),
      overtaken_prevote ht]
    rw [hround] at hmaj ⊢
    simp [hmaj, hstep]
  · rw [heq]
    exact iff_of_true ⟨nofun, fun _ => hnone, nofun⟩ hclear

theorem handlePrecommitLocked_observer (hsigns : ∀ v, (env.signVote v).isSome) (hsound : Sound n.cs)
    (hpanic : n.panicked = none) (hstep : n.cs.step < .commit) (hown : n.cs.ownValidator = none)
    (hstirred : Stirred v n.cs) (ht : v.type = .precommit)
    (halive : (handlePrecommitLocked env (sign env) v n).panicked = none) :
    Fired (handlePrecommitLocked env (sign env) v n).cs ↔ ¬ Overtaken n.cs v := by
  rcases handlePrecommitLocked_cases env (sign env) hstirred ht with ⟨hfired, hclear, heq⟩ |
    ⟨hclear, heq⟩ | ⟨hround, hany, hovertaken, heq⟩ | ⟨hclear, heq⟩
  · rw [heq]
    exact iff_of_true hfired hclear
  · rw [heq] at halive ⊢
    exact iff_of_true (raisedCommit_lands env (signFires hsigns env.depth) hsound hpanic hstep _
      halive).fired hclear
  · -- the skip goes through Prevote and ends in Precommit with 2/3+ precommits
    rw [heq] at halive ⊢
    have hprevoted := Node.andThen_alive_left halive
    have hentered := Node.andThen_alive_left hprevoted
    rw [Node.andThen_alive hprevoted, Node.andThen_alive hentered]
    have henters := enterNewRoundLocked_observer hown hround.le hentered
    generalize enterNewRoundLocked env (sign env) n.cs.height v.round n = m at henters
    obtain ⟨_, _, hcs⟩ := enterPrevoteLocked_observer env henters.own henters.step_le
    rw [henters.round] at hcs
    generalize enterPrevoteLocked (sign env) m.cs.height v.round m = k at hcs
    have hkround : k.cs.round = v.round := by
      rw [hcs]
      exact henters.round
    rw [← hkround, fired_enterPrecommitLocked]
    · refine iff_of_false ?_ (not_not.mpr hovertaken)
      rw [hkround, hcs]
      dsimp only
      rw [henters.votes, hany]
      nofun
    · rw [hcs]
      exact henters.own
    · rw [hcs]
      exact show RoundStep.prevote < .precommit by decide
  · rw [heq]
    exact iff_of_true (fired_of_step nofun nofun nofun) hclear

theorem handleProposal_observer (hsound : Sound n.cs) (hfired : Fired n.cs)
    (hown : n.cs.ownValidator = none) {p : Proposal}
    (halive : (handleProposal env p n).panicked = none) :
    Fired (handleProposal env p n).cs ↔ ¬ Stalls env n (.proposal p) := by
  dsimp only [Stalls]
  unfold handleProposal at halive ⊢
  split
  · rename_i haccepts
    rw [if_pos haccepts] at halive
    have hwritten := Node.andThen_alive_left halive
    rw [Node.andThen_alive hwritten]
    have hcs : ((n.walWrite env (.ofProposal p) true).takeProposal p false).cs =
        { n.cs with proposal := some p, proposalBlock := some p.block } := by
      rw [Node.takeProposal_cs, Node.walWrite_cs]
    generalize (n.walWrite env (.ofProposal p) true).takeProposal p false = m at hcs
    dsimp only
    by_cases hstep : n.cs.step < .prevote
    · rw [fired_enterPrevoteLocked, hcs]
      · simp [haccepts, hstep]
      · rw [hcs]
        exact hsound.votes
      · rw [hcs]
        exact hown
      · rw [hcs]
        exact hstep.le
    · unfold enterPrevoteLocked
      rw [if_pos (.inr (.inr (by rw [hcs]; exact not_lt.mp hstep))), hcs]
      exact iff_of_true (hfired.congr rfl rfl rfl) fun h => hstep h.2.1
  · rename_i hrejects
    exact iff_of_true hfired fun h => hrejects h.1

theorem handleVote_observer (hsigns : ∀ v, (env.signVote v).isSome) (hsteady : Steady n)
    (hfired : Fired n.cs) (hpanic : n.panicked = none) (hown : n.cs.ownValidator = none)
    (halive : (handleVote env v n).panicked = none) :
    Fired (handleVote env v n).cs ↔ ¬ Stalls env n (.vote v) := by
  have hsound := hsteady.sound
  dsimp only [Stalls]
  have hwritten : (n.walWrite env (.ofVote v) false).panicked = none := by
    unfold handleVote at halive
    exact Node.andThen_alive_left halive
  have hcs : ((n.walWrite env (.ofVote v) false).setVotes (n.receive env v).2).cs =
    { n.cs with votes := (n.receive env v).2 } := received_cs
  by_cases hok : (n.receive env v).1 = .ok true
  · rw [handleVote_added hwritten hok] at halive ⊢
    have hadded := (hsound.votes.added_addVote hok).type
    have hchanged : Sound { n.cs with votes := (n.receive env v).2 } := hsound.change .vote
    have hstirred : Stirred v { n.cs with votes := (n.receive env v).2 } := hfired.stirred _ v
    have hstep : n.cs.step < .commit := (hsteady.calm hpanic).1
    generalize hm : (n.walWrite env (.ofVote v) false).setVotes (n.receive env v).2 = m at *
    have hmpanic : m.panicked = none := by
      rw [← hm]
      exact hwritten
    have hmown : m.cs.ownValidator = none := by
      rw [hcs]
      exact hown
    simp only [hok, true_and]
    rw [← hcs] at hchanged hstirred ⊢
    unfold handleAddedVote at halive ⊢
    rcases hadded with ht | ht
    · rw [ht] at halive ⊢
      exact handlePrevoteLocked_observer hchanged.votes hmown hstirred ht halive
    · rw [ht] at halive ⊢
      refine handlePrecommitLocked_observer hsigns hchanged hmpanic ?_ hmown hstirred ht halive
      rw [hcs]
      exact hstep
  · rw [handleVote_rejected hwritten hok, hcs]
    exact iff_of_true (hfired.rejected hsound.votes hok) fun h => hok h.1

theorem handleTimeout_observer (hsound : Sound n.cs) (hfired : Fired n.cs)
    (hown : n.cs.ownValidator = none) {ti : TimeoutInfo}
    (halive : (handleTimeout env ti n).panicked = none) :
    Fired (handleTimeout env ti n).cs ↔ ¬ Stalls env n (.timeout ti) := by
  dsimp only [Stalls]
  unfold handleTimeout at halive ⊢
  split
  · rename_i hother
    exact iff_of_true hfired fun h => hother.elim (fun hh => hh h.1) fun hr => h.2.1.not_gt hr
  · rename_i hguard
    rw [if_neg hguard] at halive
    simp only [not_or, not_not, not_lt] at hguard
    simp only [hguard.1, hguard.2, true_and]
    cases hti : ti.step <;> simp only [hti] at halive ⊢
    case propose =>
      split
      · rename_i hstep
        rw [fired_enterPrevoteLocked hsound.votes hown (by rw [hstep]; decide)]
        simp [hstep]
      · rename_i hstep
        exact iff_of_true hfired fun h => hstep h.1
    case prevoteWait =>
      split
      · rename_i hstep
        rw [fired_enterPrecommitLocked hown (by rw [hstep]; decide)]
        simp [hstep]
      · rename_i hstep
        exact iff_of_true hfired fun h => hstep h.1
    case precommitWait =>
      split
      · rename_i hstep
        rw [if_pos hstep] at halive
        rw [enterRound_observer hsound.votes hfired hown halive]
        simp [hstep]
      · rename_i hstep
        exact iff_of_true hfired fun h => hstep h.1
    case commit => exact enterRound_observer hsound.votes hfired hown halive
    all_goals exact iff_of_true hfired id

/-- For an observer, nothing is left unfired exactly by the events that do not stall it. -/
theorem handle_observer (hsigns : ∀ v, (env.signVote v).isSome) (hsteady : Steady n)
    (hfired : Fired n.cs) (hpanic : n.panicked = none) (hown : n.cs.ownValidator = none)
    {event : Event} (halive : (handle env event n).panicked = none) :
    Fired (handle env event n).cs ↔ ¬ Stalls env n event := by
  unfold handle at halive ⊢
  rw [Node.andThen_alive hpanic] at halive ⊢
  cases event with
  | proposal p => exact handleProposal_observer hsteady.sound hfired hown halive
  | vote v => exact handleVote_observer hsigns hsteady hfired hpanic hown halive
  | timeout ti => exact handleTimeout_observer hsteady.sound hfired hown halive

end

/-! ## Runs -/

section

variable [Externals]

theorem handle_alive_left {env : Env} {event : Event} {n : Node}
    (h : (handle env event n).panicked = none) : n.panicked = none := by
  unfold handle at h
  exact Node.andThen_alive_left h

/-- One event from a state in which nothing is left over. -/
theorem handle_fired_iff {env : Env} (hsigns : ∀ v, (env.signVote v).isSome) {n : Node}
    (hsteady : Steady n) (hfired : Fired n.cs) {event : Event}
    (halive : (handle env event n).panicked = none) :
    Fired (handle env event n).cs ↔ (n.cs.ownValidator = none → ¬ Stalls env n event) := by
  have hpanic := handle_alive_left halive
  by_cases hown : n.cs.ownValidator = none
  · rw [handle_observer hsigns hsteady hfired hpanic hown halive]
    exact ⟨fun h _ => h, fun h => h hown⟩
  · exact iff_of_true (handle_voter hsigns hsteady hfired hpanic hown event halive).fired
      fun h => absurd h hown

/-- **No enabled transition is left unfired between the events of a run**, exactly if no
event puts the node, while it has no validator of its own, into a step whose quorum of
votes is already there. -/
theorem fired_iff (l : Launch) (env : Env) (events : List (Env × Event))
    (hsigns : ∀ e ∈ env :: events.map Prod.fst, ∀ v, (e.signVote v).isSome)
    (halive : (l.run env events).panicked = none) :
    (∀ pre, pre <+: events → Fired (l.run env pre).cs) ↔
      ∀ pre e, pre ++ [e] <+: events → (l.run env pre).cs.ownValidator = none →
        ¬ Stalls e.1 (l.run env pre) e.2 := by
  induction events using List.reverseRecOn with
  | nil =>
    refine iff_of_true (fun pre hpre => ?_) fun pre e hpre => ?_
    · rw [List.prefix_nil.mp hpre]
      exact (start_lands (hsigns env List.mem_cons_self) l halive).fired
    · simp at hpre
  | append_singleton events e ih =>
    rw [l.run_append] at halive
    have hbefore := handle_alive_left halive
    have ih := ih (fun e' he' => hsigns e' (by simp at he' ⊢; tauto)) hbefore
    have hstep (hfired : Fired (l.run env events).cs) :=
      handle_fired_iff (hsigns e.1 (by simp)) (l.run_steady env events hbefore) hfired halive
    constructor
    · intro hall pre e' hpre
      have hfired := ih.mp fun p hp => hall p (hp.trans (List.prefix_append ..))
      rcases List.prefix_concat_iff.mp hpre with heq | hpre
      · obtain ⟨rfl, rfl⟩ := List.append_singleton_inj.mp heq
        refine (hstep (hall _ (List.prefix_append ..))).mp ?_
        rw [← l.run_append]
        exact hall _ (List.prefix_refl _)
      · exact hfired pre e' hpre
    · intro hall pre hpre
      have hfired := ih.mpr fun p e' hp => hall p e' (hp.trans (List.prefix_append ..))
      rcases List.prefix_concat_iff.mp hpre with rfl | hpre
      · rw [l.run_append]
        exact (hstep (hfired _ (List.prefix_refl _))).mpr (hall events e (List.prefix_refl _))
      · exact hfired pre hpre

end

namespace Scenario

attribute [local instance] transparent

/-- Validator 1 holds nine tenths of the power. -/
def earlyVoteValidators : { vs : ValidatorSet // vs.Wf } :=
  validatorSet [(1, 9), (2, 1)] isOk_strong

/-- The prevote of validator 1 arrives before the propose timeout. -/
def earlyVote : List Event :=
  [.vote (vote 1 0 .prevote 1 0 (some (block 1 1))), .timeout ⟨1, 0, .propose⟩]

/-- A node with a key outside the set stays in Prevote although the prevotes of its round
have a majority. -/
theorem observer_unfired :
    (run 9 earlyVoteValidators earlyVote).panicked = none ∧
      (run 9 earlyVoteValidators earlyVote).cs.ownValidator = none ∧
      ¬ Fired (run 9 earlyVoteValidators earlyVote).cs := by
  refine ⟨by decide +kernel, by decide +kernel, fun h => ?_⟩
  have hstep : (run 9 earlyVoteValidators earlyVote).cs.step = .prevote := by decide +kernel
  have hany : (run 9 earlyVoteValidators earlyVote).cs.votes.hasAny .prevote
      (run 9 earlyVoteValidators earlyVote).cs.round = true := by decide +kernel
  rw [h.prevote hstep] at hany
  cases hany

/-- Validator 2 goes on to Precommit in the same run. -/
theorem validator_fired :
    (run 2 earlyVoteValidators earlyVote).panicked = none ∧
      (run 2 earlyVoteValidators earlyVote).cs.step = .precommit ∧
      Fired (run 2 earlyVoteValidators earlyVote).cs := by
  have halive : (run 2 earlyVoteValidators earlyVote).panicked = none := by decide +kernel
  have hvoter : ∀ pre ∈ (earlyVote.map fun e => (env 2, e)).inits,
      (((launch 2 earlyVoteValidators).run (env 2) pre).cs.ownValidator).isSome := by
    decide +kernel
  refine ⟨halive, by decide +kernel, ?_⟩
  refine (fired_iff (launch 2 earlyVoteValidators) (env 2) (earlyVote.map fun e => (env 2, e))
    ?_ halive).mpr ?_ _ (List.prefix_refl _)
  · intro e he v
    have : e = env 2 := by simpa [earlyVote] using he
    rw [this]
    rfl
  · intro pre e hpre hnone
    have := hvoter pre ((List.mem_inits _ _).mpr ((List.prefix_append ..).trans hpre))
    rw [hnone] at this
    cases this

end Scenario

end Leaderberry
