import Leaderberry.Engine.Micro

/-!
# Properties that handlers keep

The micro-steps leave open in which order a handler takes them. Where the order matters the
proof goes along the handlers, and this is done here once, for any property of nodes.
`RoundCarried` collects what the transitions up to a commit need of a property to keep it.
`Carried` has the commit and the received votes as well, so that whole runs keep the property
(`Carried.run`). The nested own votes are a parameter.
-/

namespace Leaderberry

section

variable [Externals]

/-- The transitions up to a commit keep the property `P`, with `sign` for the nested own
votes. -/
structure RoundCarried (env : Env) (sign : VoteType → Option Hash → Node → Node)
    (P : Node → Prop) : Prop where
  startRound : ∀ {n : Node} (r : Int), n.cs.round ≤ r → P n → P (n.startRound r)
  prevote : ∀ {n : Node}, n.panicked = none → P n →
    P (sign .prevote n.cs.decidePrevote.1 n.startPrevote)
  prevoteWait : ∀ {n : Node}, P n → P n.startPrevoteWait
  precommit : ∀ {n : Node}, n.panicked = none → n.cs.step < .precommit → P n →
    P ((n.startPrecommit env).1.andThen (sign .precommit (n.startPrecommit env).2))
  precommitWait : ∀ {n : Node}, P n → P n.startPrecommitWait
  requestBlock : ∀ {n : Node} (proposer : AccountName), P n → P (n.requestBlock proposer)
  propose : ∀ {n : Node} (p : Proposal), n.panicked = none → p.height = n.cs.height → P n →
    P (((n.emit (.signProposal p)).walWrite env (.ofProposal p) true).andThen fun n =>
      n.takeProposal p true)
  accept : ∀ {n : Node} (p : Proposal), n.panicked = none → p.height = n.cs.height → P n →
    P ((n.walWrite env (.ofProposal p) true).andThen fun n => n.takeProposal p false)

/-- All transitions keep the property. -/
structure Carried (env : Env) (sign : VoteType → Option Hash → Node → Node)
    (P : Node → Prop) : Prop extends RoundCarried env sign P where
  commit : ∀ {n : Node} (r : Int), n.panicked = none → P n → P ((n.raiseRound r).startCommit env)
  raiseRound : ∀ {n : Node} (r : Int), P n → P (n.raiseRound r)
  writeVote : ∀ {n : Node} (v : Vote), n.panicked = none → P n →
    P (n.walWrite env (.ofVote v) false)
  setVotes : ∀ {n : Node} (votes : HeightVoteSet), P n → P (n.setVotes votes)

namespace RoundCarried

variable {env : Env} {sign : VoteType → Option Hash → Node → Node} {P : Node → Prop}
  (h : RoundCarried env sign P) {n : Node}

include h

theorem enterPrevoteLocked (halive : n.panicked = none) (hn : P n) (height r : Int) :
    P (enterPrevoteLocked sign height r n) := by
  unfold Leaderberry.enterPrevoteLocked
  split
  · exact hn
  · exact h.prevote halive hn

theorem enterPrecommitLocked (halive : n.panicked = none) (hn : P n) (height r : Int) :
    P (enterPrecommitLocked env sign height r n) := by
  unfold Leaderberry.enterPrecommitLocked
  split
  · exact hn
  · rename_i hguard
    simp only [not_or, not_le] at hguard
    exact h.precommit halive hguard.2.2 hn

theorem enterPrevoteWaitLocked (hn : P n) (height r : Int) :
    P (enterPrevoteWaitLocked height r n) := by
  unfold Leaderberry.enterPrevoteWaitLocked
  split
  · exact hn
  · exact h.prevoteWait hn

theorem enterPrecommitWaitLocked (hn : P n) (height r : Int) :
    P (enterPrecommitWaitLocked height r n) := by
  unfold Leaderberry.enterPrecommitWaitLocked
  split
  · exact hn
  · exact h.precommitWait hn

theorem createAndSendProposalLocked (halive : n.panicked = none) (hn : P n) :
    P (createAndSendProposalLocked env sign n) := by
  unfold Leaderberry.createAndSendProposalLocked
  split
  · exact hn
  · rename_i proposer hproposer
    generalize hm : n.requestBlock proposer.name = m
    replace hn : P m := hm ▸ h.requestBlock proposer.name hn
    replace halive : m.panicked = none := by
      rw [← hm]
      simpa using halive
    dsimp only
    split
    · exact hn
    · split
      · exact hn
      · rename_i block hblock signature hsignature
        generalize hp : (Proposal.mk _ _ _ _ _ _ _ _ : Proposal) = p
        have hpropose := h.propose p halive (by rw [← hp]) hn
        cases halive' : ((m.emit (.signProposal p)).walWrite env (.ofProposal p) true).panicked with
        | none =>
          rw [Node.andThen_alive halive'] at hpropose ⊢
          exact h.enterPrevoteLocked (by simpa using halive') hpropose _ _
        | some q =>
          rw [Node.andThen_panicked halive'] at hpropose ⊢
          exact hpropose

theorem enterNewRoundLocked (halive : n.panicked = none) (hn : P n) (height r : Int) :
    P (enterNewRoundLocked env sign height r n) := by
  unfold Leaderberry.enterNewRoundLocked
  split
  · exact hn
  · rename_i hguard
    simp only [not_or, not_lt] at hguard
    have hround := h.startRound r hguard.2 hn
    dsimp only
    split
    · exact hround
    · split
      · exact h.createAndSendProposalLocked (by simpa using halive) hround
      · exact hround

theorem handlePrevoteLocked (halive : n.panicked = none) (hn : P n) (vote : Vote) :
    P (handlePrevoteLocked env sign vote n) := by
  unfold Leaderberry.handlePrevoteLocked
  split
  · exact hn
  · split
    · have hround := h.enterNewRoundLocked halive hn n.cs.height vote.round
      refine Node.andThen_of hround fun halive' => ?_
      split
      · exact hround
      · split
        · exact h.enterPrecommitLocked halive' hround _ _
        · exact h.enterPrevoteLocked halive' hround _ _
    · split
      · split
        · split
          · exact h.enterPrecommitLocked halive hn _ _
          · exact hn
        · split
          · split
            · exact h.enterPrevoteWaitLocked hn _ _
            · exact hn
          · exact hn
      · exact hn

/-- A majority for a block leads to the commit, which is left open here. -/
theorem handlePrecommitLocked (halive : n.panicked = none) (vote : Vote)
    (hcommit : ∀ hash, n.cs.votes.majority .precommit vote.round = some hash →
      isHashEmpty hash = false → P (enterCommitLocked env sign (n.raiseRound vote.round).cs.height
        (n.raiseRound vote.round)))
    (hn : (∀ hash, n.cs.votes.majority .precommit vote.round = some hash →
      isHashEmpty hash = true) → P n) : P (handlePrecommitLocked env sign vote n) := by
  unfold Leaderberry.handlePrecommitLocked
  split
  · rename_i hset
    refine hn fun hash hmaj => ?_
    rw [HeightVoteSet.majority_absent hset] at hmaj
    cases hmaj
  · rename_i precommits hset
    rw [HeightVoteSet.majority_of_voteSetAt hset] at hcommit hn
    split
    · rename_i hdecided
      obtain ⟨hash, hmaj, hne⟩ := (Option.any_eq_true _ _).mp hdecided
      exact hcommit hash hmaj (by simpa using hne)
    · rename_i hundecided
      replace hn : P n := hn fun hash hmaj => by simpa [hmaj] using hundecided
      split
      · have hround := h.enterNewRoundLocked halive hn n.cs.height vote.round
        have hprevote : P
            ((Leaderberry.enterNewRoundLocked env sign n.cs.height vote.round n).andThen
              fun n => Leaderberry.enterPrevoteLocked sign n.cs.height vote.round n) :=
          Node.andThen_of hround fun halive' => h.enterPrevoteLocked halive' hround _ _
        exact Node.andThen_of hprevote fun halive' => h.enterPrecommitLocked halive' hprevote _ _
      · split
        · exact h.enterPrecommitWaitLocked hn _ _
        · exact hn

end RoundCarried

section events

variable {env : Env} {P : Node → Prop} {n : Node}

theorem RoundCarried.handleProposal (h : RoundCarried env (sign env) P)
    (halive : n.panicked = none) (hn : P n) (p : Proposal) : P (handleProposal env p n) := by
  unfold Leaderberry.handleProposal
  split
  · rename_i hacc
    have haccept := h.accept p halive (acceptsProposal_iff.mp hacc).1 hn
    cases hp : (n.walWrite env (.ofProposal p) true).panicked with
    | none =>
      rw [Node.andThen_alive hp] at haccept ⊢
      exact h.enterPrevoteLocked (by simpa using hp) haccept _ _
    | some q =>
      rw [Node.andThen_panicked hp] at haccept ⊢
      exact haccept
  · exact hn

theorem RoundCarried.handleTimeout (h : RoundCarried env (sign env) P)
    (halive : n.panicked = none) (hn : P n) (ti : TimeoutInfo) : P (handleTimeout env ti n) := by
  unfold Leaderberry.handleTimeout
  split
  · exact hn
  · split
    · split
      · exact h.enterPrevoteLocked halive hn _ _
      · exact hn
    · split
      · exact h.enterPrecommitLocked halive hn _ _
      · exact hn
    · split
      · exact h.enterNewRoundLocked halive hn _ _
      · exact hn
    · exact h.enterNewRoundLocked halive hn _ _
    · exact hn

theorem Carried.handleAddedVote {sign : VoteType → Option Hash → Node → Node}
    (h : Carried env sign P) (halive : n.panicked = none) (hn : P n) (vote : Vote) :
    P (handleAddedVote env sign vote n) := by
  unfold Leaderberry.handleAddedVote
  split
  · exact h.handlePrevoteLocked halive hn vote
  · refine h.handlePrecommitLocked halive vote (fun _ _ _ => ?_) fun _ => hn
    unfold enterCommitLocked
    split
    · exact h.raiseRound _ hn
    · have hcommit := h.commit vote.round halive hn
      refine Node.andThen_of hcommit fun halive' => ?_
      split
      · exact h.enterNewRoundLocked halive' hcommit _ _
      · exact hcommit
  · exact hn

/-- What the nested own votes keep, all handlers keep. -/
theorem Carried.handle (h : Carried env (sign env) P) (hn : P n) (event : Event) :
    P (handle env event n) := by
  unfold Leaderberry.handle
  refine Node.andThen_of hn fun halive => ?_
  cases event with
  | proposal p => exact h.handleProposal halive hn p
  | vote v =>
    dsimp only
    unfold handleVote
    have hwritten := h.writeVote v halive hn
    refine Node.andThen_of hwritten fun halive' => ?_
    split
    · exact h.handleAddedVote (by simpa using halive') (h.setVotes _ hwritten) v
    · exact h.setVotes _ hwritten
  | timeout ti => exact h.handleTimeout halive hn ti

end events

/-- A property that holds at the start and is kept under every environment holds after
every run. -/
theorem Carried.run {P : Node → Prop} (h : ∀ env, Carried env (sign env) P) {l : Launch}
    (hfresh : P l.fresh) (env : Env) (events : List (Env × Event)) : P (l.run env events) := by
  induction events using List.reverseRecOn with
  | nil => exact (h env).enterNewRoundLocked rfl hfresh _ _
  | append_singleton events e ih =>
    rw [l.run_append]
    exact (h e.1).handle ih e.2

end

end Leaderberry
