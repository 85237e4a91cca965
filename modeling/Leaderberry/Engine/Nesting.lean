import Leaderberry.Engine.Chain

/-!
# How deep transitions nest

An own vote is handled on the spot and may lead to the next own vote. At one height the
chain is Prevote, Precommit, commit. With `SkipTimeoutCommit` the commit enters the next
height in the same call, and there the chain goes on if the node proposes and is a quorum
of its own.

Otherwise it ends with a prevote there (`Begins.stays`). For the height of the event it does
not matter how it goes on: whatever holds after a commit (`Aftermath`), an event ends with it
or without a commit, and nests at most two own votes before (`handle_reached`). There is no
induction on the stack: each level is a lemma that uses the one below.
-/

namespace Leaderberry

section

variable [Externals] {n m : Node} {env : Env}

/-! ## Alone at the next height -/

/-- The node with this key proposes in round 0 of a height with the set `vs`, and its
power alone is a quorum. -/
def Sole (vs : ValidatorSet) (cs : ConsensusState) : Prop :=
  (∃ proposer, vs.getProposerForRound 0 = some proposer ∧
    cs.privVal = some proposer.publicKey) ∧
  ∃ index val, { cs with validatorSet := vs }.ownValidator = some (index, val) ∧
    vs.twoThirdsMajority ≤ val.votingPower

/-- With `SkipTimeoutCommit`, the answer of the application to a call leaves the next height
to this node alone. -/
def LeavesAlone (apply : Block → Commit → Option (List ValidatorUpdate))
    (x : ConsensusState × Block × Commit) : Prop :=
  x.1.config.skipTimeoutCommit = true ∧ ∃ updates newSet, apply x.2.1 x.2.2 = some updates ∧
    Node.nextValidatorSet x.1.validatorSet updates = .ok newSet ∧ Sole newSet x.1

/-- A block was applied at height `h`, and the answer left the next height to this node
alone. -/
def Node.LeftAlone (apply : Block → Commit → Option (List ValidatorUpdate)) (h : Int)
    (n : Node) : Prop :=
  ∃ x ∈ n.calls, x.1.height = h ∧ LeavesAlone apply x

/-! ## Panics -/

/-- The stack was sufficient. -/
def Fits (n : Node) : Prop := n.panicked ≠ some .stackOverflow

omit [Externals] in
theorem fits_of_alive (h : n.panicked = none) : Fits n := by
  rw [Fits, h]
  exact nofun

namespace Fits

variable {n : Node} {env : Env}

omit [Externals] in
theorem walWrite (h : Fits n) (msg : Message) (sync : Bool) : Fits (n.walWrite env msg sync) := by
  unfold Node.walWrite
  split
  · exact h
  · split
    · exact h
    · exact nofun

theorem castOwnVote (h : n.panicked = none) (t : VoteType) (hash : Option Hash) :
    Fits (n.castOwnVote env t hash).1 := by
  unfold Node.castOwnVote
  split
  · exact fits_of_alive h
  · split
    · exact fits_of_alive h
    · dsimp only
      split
      · refine walWrite (fits_of_alive ?_) _ _
        exact h
      · unfold Node.addOwnVote
        split
        · exact nofun
        · exact nofun
        · rename_i hp _ _ _
          exact fits_of_alive hp

theorem startPrecommit (h : n.panicked = none) : Fits (n.startPrecommit env).1 := by
  rcases startPrecommit_cases env n with heq | ⟨hash, -, -, heq⟩ | ⟨block, -, -, -, heq⟩
  · rw [heq]
    exact fits_of_alive h
  · rw [heq]
    exact fits_of_alive h
  · rw [heq]
    have hlocked : ((n.setStep .precommit).lockOn block).panicked = none := h
    exact (fits_of_alive hlocked).walWrite _ _

theorem finishCommit (h : n.panicked = none) (commit : Commit) (updates : List ValidatorUpdate) :
    Fits (n.finishCommit env commit updates) := by
  unfold Node.finishCommit
  split
  · exact nofun
  · have hwritten : Fits (n.walWrite env (.ofEndHeight n.cs.height) true) :=
      (fits_of_alive h).walWrite _ _
    cases hp : (n.walWrite env (.ofEndHeight n.cs.height) true).panicked with
    | none =>
      rw [Node.andThen_alive hp, Fits, Node.advanceHeight_panicked, hp]
      exact nofun
    | some p =>
      rw [Node.andThen_panicked hp]
      exact hwritten

theorem startCommit (h : n.panicked = none) : Fits (n.startCommit env) := by
  unfold Node.startCommit
  dsimp only
  split
  · exact nofun
  · unfold Node.finalizeCommit
    split
    · exact nofun
    · split
      · exact nofun
      · unfold Node.applyCommitted
        split
        · dsimp only
          split
          · exact nofun
          · refine finishCommit ?_ _ _
            exact h
        · refine finishCommit ?_ _ _
          exact h

end Fits

/-! ## The first level: a prevote at the next height -/

/-- The start of a height in which the node is no quorum of its own. -/
structure Lone (cs : ConsensusState) : Prop where
  empty : ∀ t r, cs.votes.voteSetAt t r = none
  validatorSet : cs.votes.validatorSet = cs.validatorSet
  weak : ∀ index val, cs.ownValidator = some (index, val) →
    val.votingPower < cs.validatorSet.twoThirdsMajority

/-- From `n` to `m` nothing was committed, and the round is the same. -/
structure Stays (n m : Node) : Prop where
  fits : Fits m
  height : m.cs.height = n.cs.height
  round : m.cs.round = n.cs.round
  calls : m.calls = n.calls

omit [Externals] in
theorem Stays.of_still (hfits : Fits m) (h : Still n m) (hround : m.cs.round = n.cs.round) :
    Stays n m :=
  ⟨hfits, h.height, hround, h.calls⟩

/-- A prevote at the start of a height leads to nothing. -/
def SignLone (sign : VoteType → Option Hash → Node → Node) : Prop :=
  ∀ hash n, n.panicked = none → Lone n.cs → Stays n (sign .prevote hash n)

omit [Externals] in
theorem getByIndex_ownValidator {cs : ConsensusState} {index : Nat} {val : NamedValidator}
    (h : cs.ownValidator = some (index, val)) : cs.validatorSet.getByIndex index = some val := by
  obtain ⟨_, -, h⟩ := Option.bind_eq_some_iff.mp h
  obtain ⟨_, -, h⟩ := Option.bind_eq_some_iff.mp h
  obtain ⟨_, hget, h⟩ := Option.map_eq_some_iff.mp h
  cases h
  exact hget

/-- The own vote alone is neither a majority nor 2/3+ of the power. -/
theorem Lone.handlePrevoteLocked {sign : VoteType → Option Hash → Node → Node} {hash : Option Hash}
    {vote : Vote} (h : Lone n.cs) (hcast : Cast n env .prevote hash vote m) :
    handlePrevoteLocked env sign vote m = m := by
  obtain ⟨now, hok, hcs⟩ := hcast.added
  have hround : vote.round = n.cs.round := hcast.own.round
  rcases n.cs.votes.addVote_cases now vote with ⟨hbad, -⟩ | ⟨ht, -, val, hval, -, heq⟩
  · exact absurd hok hbad
  have hnew : n.cs.votes.voteSetOrNew vote.type vote.round = VoteSet.new n.cs.votes.chainID
      n.cs.votes.height vote.round vote.type n.cs.votes.validatorSet
        (some n.cs.votes.generation) := by
    rw [HeightVoteSet.voteSetOrNew, h.empty]
    rfl
  rw [hnew] at hval heq
  have hset : m.cs.votes.voteSetAt .prevote vote.round = some ((VoteSet.new n.cs.votes.chainID
      n.cs.votes.height vote.round vote.type n.cs.votes.validatorSet
        (some n.cs.votes.generation)).store val vote) := by
    rw [hcs, heq, ← hcast.own.type]
    exact (HeightVoteSet.voteSetAt_put _ _ _ ht _ _).trans (if_pos ⟨rfl, rfl⟩)
  have hweak : val.votingPower < n.cs.votes.validatorSet.twoThirdsMajority := by
    obtain ⟨own, hown, -⟩ := hcast.own.validator
    have hsame : n.cs.votes.validatorSet.getByIndex vote.validatorIndex = some own := by
      rw [h.validatorSet]
      exact getByIndex_ownValidator hown
    cases hval.found.symm.trans hsame
    rw [h.validatorSet]
    exact h.weak _ _ hown
  generalize hvs : VoteSet.store _ _ _ = prevotes at hset
  have hmaj : prevotes.hasTwoThirdsMajority = false := by
    rw [← hvs]
    simp [VoteSet.hasTwoThirdsMajority, VoteSet.store, VoteSet.new, VoteSet.blockVotes, hweak]
  have hany : prevotes.hasTwoThirdsAny = false := by
    rw [← hvs]
    simp [VoteSet.hasTwoThirdsAny, VoteSet.store, VoteSet.new, hweak]
  have hhere : m.cs.round = vote.round := by
    rw [hcs, hround]
  unfold Leaderberry.handlePrevoteLocked
  rw [hset]
  simp [hhere, hmaj, hany]

/-- Level one. -/
theorem signLone (env : Env) (depth : Nat) :
    SignLone (signAndSendVoteLocked env (depth + 1)) := by
  intro hash n halive hlone
  have hcasts : Stays n (n.castOwnVote env .prevote hash).1 := by
    obtain ⟨votes, hframe⟩ := castOwnVote_frame env .prevote hash halive
    exact .of_still (Fits.castOwnVote halive _ _) (.castOwnVote env _ _ halive) (by rw [hframe])
  refine signAndSendVoteLocked_succ halive (fun _ => hcasts) (fun vote m _ hcast => ?_)
    fun k v hk => ⟨hk.fits, hk.height, hk.round, (Still.emit k rfl).calls.trans hk.calls⟩
  unfold handleAddedVote
  rw [hcast.own.type]
  dsimp only
  rw [hlone.handlePrevoteLocked hcast]
  obtain ⟨now, -, hcs⟩ := hcast.added
  exact .of_still (fits_of_alive (hcast.panicked.trans halive)) hcast.still (by rw [hcs])

/-- `createAndSendProposalLocked` ends without a proposal, with a failed WAL write, or with a
prevote on it. -/
theorem createAndSendProposalLocked_cases {P : Node → Prop} {env : Env} {n : Node}
    {sign : VoteType → Option Hash → Node → Node} (halive : n.panicked = none)
    (hn : ∀ m : Node, m.panicked = none → m.cs = n.cs → Still n m →
      (∀ proposer, n.cs.validatorSet.getProposerForRound n.cs.round = some proposer →
        n.cs.blockToPropose env proposer = none ∨ ∃ p, env.signProposal p = none) → P m)
    (hstop : ∀ m : Node, (∃ msg, env.walWrite msg = false) → Fits m → m.cs = n.cs →
      Still n m → P m)
    (hprevote : ∀ (m : Node) (p : Proposal) (proposer : NamedValidator), m.panicked = none →
      m.cs = { n.cs with proposal := some p, proposalBlock := some p.block } → Still n m →
      n.cs.blockToPropose env proposer = some p.block →
      P (enterPrevoteLocked sign m.cs.height m.cs.round m)) :
    P (createAndSendProposalLocked env sign n) := by
  unfold createAndSendProposalLocked
  split
  · rename_i hnone
    refine hn n halive rfl ⟨rfl, rfl, rfl, id⟩ fun proposer hproposer => ?_
    rw [hnone] at hproposer
    cases hproposer
  · rename_i proposer hproposer
    have hrequest := Still.requestBlock n proposer.name
    generalize hm : n.requestBlock proposer.name = m at hrequest
    have hcs : m.cs = n.cs := by
      rw [← hm]
      simp
    replace halive : m.panicked = none := by
      rw [← hm]
      simpa using halive
    dsimp only
    split
    · rename_i hblock
      refine hn m halive hcs hrequest fun proposer' hproposer' => .inl ?_
      rw [hproposer] at hproposer'
      cases hproposer'
      rw [← hcs]
      exact hblock
    · rename_i block hblock
      split
      · rename_i hsign
        exact hn m halive hcs hrequest fun _ _ => .inr ⟨_, hsign⟩
      · generalize hp : ({ height := m.cs.height, round := m.cs.round, .. } : Proposal) = p
        have hsigned := hrequest.trans (.emit m (a := .signProposal p) rfl)
        have hwritten := hsigned.trans (.walWrite _ env (.ofProposal p) true)
        have hcs' := (m.emit (.signProposal p)).walWrite_cs env (.ofProposal p) true
        cases hw : ((m.emit (.signProposal p)).walWrite env (.ofProposal p) true).panicked with
        | none =>
          rw [Node.andThen_alive hw]
          refine hprevote _ p proposer (by simpa using hw) ?_
            (hwritten.trans (.takeProposal _ p true)) ?_
          · rw [Node.takeProposal_cs, hcs', Node.emit_cs, hcs]
          · rw [← hcs, ← hp]
            exact hblock
        | some q =>
          rw [Node.andThen_panicked hw]
          refine hstop _ ?_ ((fits_of_alive (by exact halive)).walWrite _ _)
            (hcs'.trans hcs) hwritten
          by_contra hall
          push Not at hall
          have hwal := fun msg => eq_true_of_ne_false (hall msg)
          unfold Node.walWrite at hw
          rw [if_pos (hwal _)] at hw
          split at hw <;> exact absurd (hw.symm.trans halive) (Option.some_ne_none q)

/-- The state in which the next height begins. -/
structure Begins (cs : ConsensusState) : Prop where
  round : cs.round = 0
  empty : ∀ t r, cs.votes.voteSetAt t r = none
  validatorSet : cs.votes.validatorSet = cs.validatorSet
  unlocked : cs.lockedBlock = none

theorem Committed.begins {commit : Commit} {block : Block} {updates : List ValidatorUpdate}
    {newSet : ValidatorSet} (hc : Committed n env commit block updates newSet m) : Begins m.cs := by
  rw [hc.cs]
  exact
    { round := rfl
      empty := HeightVoteSet.voteSetAt_empty rfl rfl
      validatorSet := rfl
      unlocked := rfl }

section begins

variable {env : Env} {n : Node} {sign : VoteType → Option Hash → Node → Node}

omit [Externals] in
/-- The block to propose there is one that the application makes. -/
theorem Begins.startRound_blockToPropose (hn : Begins n.cs) (proposer : NamedValidator) :
    (n.startRound 0).cs.blockToPropose env proposer = if n.cs.hasExecutor then
      env.createProposalBlock ⟨n.cs.height, n.cs.lastCommit, proposer.name⟩ else none := by
  have hlocked : (n.startRound 0).cs.lockedBlock = none := hn.unlocked
  have hvalid : (n.startRound 0).cs.validBlock = none := rfl
  have hexec : (n.startRound 0).cs.hasExecutor = n.cs.hasExecutor := rfl
  unfold ConsensusState.blockToPropose ConsensusState.blockRequest
  rw [hlocked, hvalid, hexec]
  cases n.cs.hasExecutor <;> rfl

/-- Entering the next height within the same event, without being left alone there: the node
prevotes at most, and its prevote is no quorum. -/
theorem Begins.cases {P : Node → Prop} (hn : Begins n.cs)
    (hweak : n.cs.hasExecutor = true → ¬ Sole n.cs.validatorSet n.cs) (halive : n.panicked = none)
    (hrest : ∀ m : Node, m.panicked = none → Still n m → m.cs.round = n.cs.round → P m)
    (hstop : ∀ m : Node, (∃ msg, env.walWrite msg = false) → Fits m → Still n m →
      m.cs.round = n.cs.round → P m)
    (hprevote : ∀ (m : Node) hash, m.panicked = none → Lone m.cs → Still n m →
      Changes n.cs m.cs → m.cs.round = n.cs.round → P (sign .prevote hash m)) :
    P (enterNewRoundLocked env sign n.cs.height 0 n) := by
  unfold enterNewRoundLocked
  rw [if_neg (by simp [hn.round])]
  have hstart := Still.startRound n 0
  have hround : (0 : Int) = n.cs.round := hn.round.symm
  dsimp only
  split
  · exact hrest _ halive hstart hround
  · rename_i proposer hproposer
    split
    · rename_i hkey
      refine createAndSendProposalLocked_cases halive
        (fun m hm hcs hs _ => hrest m hm (hstart.trans hs) (by rw [hcs]; exact hround))
        (fun m hwal hm hcs hs => hstop m hwal hm (hstart.trans hs) (by rw [hcs]; exact hround))
        fun m p proposer' hm hcs hs hblock => ?_
      have hexec : n.cs.hasExecutor = true := by
        by_contra hnone
        rw [hn.startRound_blockToPropose, if_neg hnone] at hblock
        cases hblock
      have hproposed : Changes n.cs m.cs := by
        rw [hcs]
        exact .head (.enterRound hn.round.le) (.single .proposal)
      unfold enterPrevoteLocked
      split
      · exact hrest m hm (hstart.trans hs) (by rw [hcs]; exact hround)
      · obtain ⟨_, _, hframe⟩ := startPrevote_frame m
        rw [hcs] at hframe
        refine hprevote m.startPrevote _ (by simp [hm]) ?_
          ((hstart.trans hs).trans (.startPrevote m))
          (hproposed.trans (startPrevote_changes m)) (by rw [hframe]; exact hround)
        rw [hframe]
        refine ⟨hn.empty, hn.validatorSet, fun index val hown => ?_⟩
        by_contra hstrong
        exact hweak hexec ⟨⟨proposer, hproposer, hkey⟩, index, val, hown, not_lt.mp hstrong⟩
    · exact hrest _ halive hstart hround

theorem Begins.stays (hlone : SignLone sign) (hn : Begins n.cs)
    (hweak : n.cs.hasExecutor = true → ¬ Sole n.cs.validatorSet n.cs) (halive : n.panicked = none) :
    Stays n (enterNewRoundLocked env sign n.cs.height 0 n) := by
  refine hn.cases hweak halive (fun m hm hs hr => .of_still (fits_of_alive hm) hs hr)
    (fun m _ hm hs hr => .of_still hm hs hr) fun m hash hm hl hs _ hr => ?_
  have hvoted := hlone hash m hm hl
  exact ⟨hvoted.fits, hvoted.height.trans hs.height, hvoted.round.trans hr,
    hvoted.calls.trans hs.calls⟩

end begins

/-! ## The height of the event -/

/-- A node at the height of `cs`, before the commit. -/
structure Here (cs : ConsensusState) (n : Node) : Prop where
  sound : Sound n.cs
  wiring : n.cs.wiring = cs.wiring
  height : n.cs.height = cs.height
  below : ∀ x ∈ n.calls, x.1.height < cs.height

/-- Everything but a commit stays at the height. -/
theorem Here.still {cs : ConsensusState} (hn : Here cs n) (hstill : Still n m)
    (hchanges : Changes n.cs m.cs) : Here cs m where
  sound := hn.sound.changes hchanges
  wiring := hchanges.wiring.trans hn.wiring
  height := hstill.height.trans hn.height
  below := by
    rw [hstill.calls]
    exact hn.below

/-- What holds after a commit of the height of `cs`, and until the event has been handled. -/
structure Aftermath (env : Env) (cs : ConsensusState) (After : Node → Prop) : Prop where
  commit : ∀ depth (n : Node), n.panicked = none → Here cs n →
    After (n.commitOn env (signAndSendVoteLocked env (depth + 1)))
  emit : ∀ (n : Node) v, After n → After (n.emit (.broadcastVote v))
  prevote : ∀ depth (n : Node) height r, After n → n.panicked = none → 0 < r →
    After (enterPrevoteLocked (signAndSendVoteLocked env depth) height r n)
  precommit : ∀ depth (n : Node) height r, After n → n.panicked = none → 0 < r →
    After (enterPrecommitLocked env (signAndSendVoteLocked env depth) height r n)

/-- Nothing is committed yet, and the stack was sufficient; or what holds after a commit. -/
def Reached (cs : ConsensusState) (After : Node → Prop) (n : Node) : Prop :=
  (Fits n ∧ Here cs n) ∨ After n

section levels

variable {env : Env} {cs : ConsensusState} {n : Node} {After : Node → Prop} {depth : Nat}
  {vote : Vote}

/-- What the recursion provides for the own votes of the height. -/
def SignReached (env : Env) (cs : ConsensusState) (After : Node → Prop) (t : VoteType)
    (depth : Nat) : Prop :=
  ∀ hash n, n.panicked = none → Here cs n →
    Reached cs After (signAndSendVoteLocked env depth t hash n)

theorem Here.reached (hn : Here cs n) (halive : n.panicked = none) : Reached cs After n :=
  .inl ⟨fits_of_alive halive, hn⟩

theorem Reached.andThen {f : Node → Node} (hn : Reached cs After n)
    (hf : n.panicked = none → Reached cs After (f n)) : Reached cs After (n.andThen f) :=
  Node.andThen_of hn hf

theorem enterPrevoteLocked_reached (hprevote : SignReached env cs After .prevote depth)
    (hn : Here cs n) (halive : n.panicked = none) (height r : Int) :
    Reached cs After (enterPrevoteLocked (signAndSendVoteLocked env depth) height r n) := by
  unfold enterPrevoteLocked
  split
  · exact hn.reached halive
  · exact hprevote _ _ (by simp [halive]) (hn.still (.startPrevote n) (startPrevote_changes n))

theorem enterPrecommitLocked_reached (hprecommit : SignReached env cs After .precommit depth)
    (hn : Here cs n) (halive : n.panicked = none) (height r : Int) :
    Reached cs After (enterPrecommitLocked env (signAndSendVoteLocked env depth) height r n) := by
  unfold enterPrecommitLocked
  split
  · exact hn.reached halive
  · have hhere := hn.still (.startPrecommit n env) (startPrecommit_changes env n)
    exact Reached.andThen (.inl ⟨Fits.startPrecommit halive, hhere⟩) fun halive' =>
      hprecommit _ _ halive' hhere

theorem enterNewRoundLocked_reached (hprevote : SignReached env cs After .prevote depth)
    (hn : Here cs n) (halive : n.panicked = none) (height r : Int) :
    Reached cs After (enterNewRoundLocked env (signAndSendVoteLocked env depth) height r n) := by
  unfold enterNewRoundLocked
  split
  · exact hn.reached halive
  · rename_i hguard
    simp only [not_or, not_lt] at hguard
    have hround : Here cs (n.startRound r) :=
      hn.still (.startRound n r) (.single (.enterRound hguard.2))
    have halive' : (n.startRound r).panicked = none := halive
    dsimp only
    split
    · exact hround.reached halive'
    · split
      · refine createAndSendProposalLocked_cases halive'
          (fun m hm hcs hs _ => (hround.still hs (by rw [hcs])).reached hm)
          (fun m _ hm hcs hs => .inl ⟨hm, hround.still hs (by rw [hcs])⟩)
          fun m p _ hm hcs hs _ => enterPrevoteLocked_reached hprevote (hround.still hs ?_) hm _ _
        rw [hcs]
        exact .single .proposal
      · exact hround.reached halive'

variable (hafter : Aftermath env cs After)

include hafter

theorem enterCommitLocked_reached (hn : Here cs n) (halive : n.panicked = none) (height : Int) :
    Reached cs After
      (enterCommitLocked env (signAndSendVoteLocked env (depth + 1)) height n) := by
  unfold enterCommitLocked
  split
  · exact hn.reached halive
  · exact .inr (hafter.commit depth n halive hn)

/-! ## Handlers of votes -/

/-- A round skip may end after a commit. -/
theorem enterPrevoteLocked_again (hprevote : SignReached env cs After .prevote depth)
    (hn : Reached cs After n) (halive : n.panicked = none) {r : Int} (hr : 0 < r) (height : Int) :
    Reached cs After (enterPrevoteLocked (signAndSendVoteLocked env depth) height r n) := by
  rcases hn with ⟨-, hn⟩ | hn
  · exact enterPrevoteLocked_reached hprevote hn halive height r
  · exact .inr (hafter.prevote depth n height r hn halive hr)

theorem enterPrecommitLocked_again (hprecommit : SignReached env cs After .precommit depth)
    (hn : Reached cs After n) (halive : n.panicked = none) {r : Int} (hr : 0 < r) (height : Int) :
    Reached cs After (enterPrecommitLocked env (signAndSendVoteLocked env depth) height r n) := by
  rcases hn with ⟨-, hn⟩ | hn
  · exact enterPrecommitLocked_reached hprecommit hn halive height r
  · exact .inr (hafter.precommit depth n height r hn halive hr)

theorem handlePrevoteLocked_reached (hprecommit : SignReached env cs After .precommit depth)
    (hskip : n.cs.round < vote.round → SignReached env cs After .prevote depth) (hn : Here cs n)
    (halive : n.panicked = none) :
    Reached cs After (handlePrevoteLocked env (signAndSendVoteLocked env depth) vote n) := by
  have hsame : Reached cs After n := hn.reached halive
  unfold handlePrevoteLocked
  split
  · exact hsame
  · split
    · rename_i hlater
      have hr : 0 < vote.round := hn.sound.round.trans_lt hlater.1
      have hentered :=
        enterNewRoundLocked_reached (hskip hlater.1) hn halive n.cs.height vote.round
      refine hentered.andThen fun halive' => ?_
      split
      · exact hentered
      · split
        · exact enterPrecommitLocked_again hafter hprecommit hentered halive' hr _
        · exact enterPrevoteLocked_again hafter (hskip hlater.1) hentered halive' hr _
    · split
      · split
        · split
          · exact enterPrecommitLocked_reached hprecommit hn halive _ _
          · exact hsame
        · split
          · split
            · unfold enterPrevoteWaitLocked
              split
              · exact hsame
              · exact (hn.still ((Still.setStep n _).trans (.emit _ rfl))
                  (.single .step)).reached halive
            · exact hsame
          · exact hsame
      · exact hsame

theorem handlePrecommitLocked_reached {vote : Vote}
    (hskip : n.cs.round < vote.round →
      SignReached env cs After .prevote (depth + 1) ∧
        SignReached env cs After .precommit (depth + 1))
    (hn : Here cs n) (halive : n.panicked = none) :
    Reached cs After
      (handlePrecommitLocked env (signAndSendVoteLocked env (depth + 1)) vote n) := by
  have hsame : Reached cs After n := hn.reached halive
  unfold handlePrecommitLocked
  split
  · exact hsame
  · split
    · refine enterCommitLocked_reached hafter (hn.still (.raiseRound n _) ?_) (by simp [halive]) _
      rw [Node.raiseRound_cs]
      exact .single (.raise (le_max_left ..))
    · split
      · rename_i hlater
        have hr : 0 < vote.round := hn.sound.round.trans_lt hlater.1
        obtain ⟨hprevote, hprecommit⟩ := hskip hlater.1
        have hentered := enterNewRoundLocked_reached hprevote hn halive n.cs.height vote.round
        have hprevoted := hentered.andThen fun halive' =>
          enterPrevoteLocked_again hafter hprevote hentered halive' hr
            (enterNewRoundLocked env (signAndSendVoteLocked env (depth + 1)) n.cs.height vote.round
              n).cs.height
        exact hprevoted.andThen fun halive' =>
          enterPrecommitLocked_again hafter hprecommit hprevoted halive' hr _
      · split
        · unfold enterPrecommitWaitLocked
          split
          · exact hsame
          · exact (hn.still ((Still.setStep n _).trans (.emit _ rfl)) (.single .step)).reached
              halive
        · exact hsame

/-! ## The own votes of the event's height -/

omit hafter in
theorem castOwnVote_reached (hn : Here cs n) (halive : n.panicked = none) (t : VoteType)
    (hash : Option Hash) : Reached cs After (n.castOwnVote env t hash).1 :=
  .inl ⟨Fits.castOwnVote halive _ _,
    hn.still (.castOwnVote env t hash halive) (castOwnVote_changes halive)⟩

omit hafter in
theorem Cast.here {t : VoteType} {hash : Option Hash} {m : Node} (hcast : Cast n env t hash vote m)
    (hn : Here cs n) : Here cs m ∧ m.cs.round = vote.round := by
  obtain ⟨now, -, hcs⟩ := hcast.added
  refine ⟨hn.still hcast.still (by rw [hcs]; exact .single .vote), ?_⟩
  rw [hcs]
  exact hcast.own.round.symm

theorem Reached.emit (v : Vote) (hn : Reached cs After n) :
    Reached cs After (n.emit (.broadcastVote v)) := by
  rcases hn with ⟨hfits, hn⟩ | hn
  · exact .inl ⟨hfits, hn.still (.emit n rfl) .refl⟩
  · exact .inr (hafter.emit n v hn)

/-- Level two: an own precommit, and the commit it may lead to. -/
theorem signReached_precommit : SignReached env cs After .precommit (depth + 2) := by
  intro hash n halive hn
  refine signAndSendVoteLocked_succ halive (fun _ => castOwnVote_reached hn halive _ _)
    (fun vote m _ hcast => ?_) fun k v hk => hk.emit hafter v
  obtain ⟨hhere, hround⟩ := hcast.here hn
  unfold handleAddedVote
  rw [hcast.own.type]
  exact handlePrecommitLocked_reached hafter (fun hlt => absurd hround hlt.ne) hhere
    (hcast.panicked.trans halive)

/-- Level three: an own prevote, and the precommit it may lead to. -/
theorem signReached_prevote : SignReached env cs After .prevote (depth + 3) := by
  intro hash n halive hn
  refine signAndSendVoteLocked_succ halive (fun _ => castOwnVote_reached hn halive _ _)
    (fun vote m _ hcast => ?_) fun k v hk => hk.emit hafter v
  obtain ⟨hhere, hround⟩ := hcast.here hn
  unfold handleAddedVote
  rw [hcast.own.type]
  exact handlePrevoteLocked_reached hafter (signReached_precommit hafter)
    (fun hlt => absurd hround hlt.ne) hhere (hcast.panicked.trans halive)

/-! ## Events -/

/-- `Start` enters the first round. -/
theorem start_reached (hdepth : 3 ≤ env.depth) (hn : Here cs n) (halive : n.panicked = none)
    (height r : Int) : Reached cs After (enterNewRoundLocked env (sign env) height r n) := by
  obtain ⟨depth, hdepth⟩ := Nat.exists_eq_add_of_le' hdepth
  unfold sign
  rw [hdepth]
  exact enterNewRoundLocked_reached (signReached_prevote hafter) hn halive height r

theorem handle_reached (hdepth : 3 ≤ env.depth) (hn : Here cs n) (halive : n.panicked = none)
    (event : Event) : Reached cs After (handle env event n) := by
  obtain ⟨depth, hdepth⟩ := Nat.exists_eq_add_of_le' hdepth
  have hprevote : SignReached env cs After .prevote (depth + 3) := signReached_prevote hafter
  have hprecommit : SignReached env cs After .precommit (depth + 3) := signReached_precommit hafter
  have hsign : sign env = signAndSendVoteLocked env (depth + 3) := by
    unfold sign
    rw [hdepth]
  have hsame : Reached cs After n := hn.reached halive
  unfold handle
  rw [Node.andThen_alive halive]
  cases event with
  | proposal p =>
    dsimp only
    unfold handleProposal
    split
    · have hwritten : Here cs (n.walWrite env (.ofProposal p) true) :=
        hn.still (.walWrite n env _ true) (by rw [Node.walWrite_cs])
      refine Reached.andThen
        (.inl ⟨(fits_of_alive halive).walWrite _ _, hwritten⟩) fun halive' => ?_
      rw [hsign]
      refine enterPrevoteLocked_reached hprevote (hwritten.still (.takeProposal _ p false) ?_)
        (by simpa using halive') _ _
      rw [Node.takeProposal_cs]
      exact .single .proposal
    · exact hsame
  | vote v =>
    dsimp only
    unfold handleVote
    have hwritten : Here cs (n.walWrite env (.ofVote v) false) :=
      hn.still (.walWrite n env _ false) (by rw [Node.walWrite_cs])
    refine Reached.andThen (.inl ⟨(fits_of_alive halive).walWrite _ _, hwritten⟩) fun halive' => ?_
    rw [hsign]
    generalize hadd : (n.walWrite env (.ofVote v) false).cs.votes.addVote
      (env.clock (n.walWrite env (.ofVote v) false).trace.length) v = added
    obtain ⟨result, votes⟩ := added
    have hvotes : Here cs ((n.walWrite env (.ofVote v) false).setVotes votes) := by
      refine hwritten.still (.setVotes _ _) ?_
      rw [show votes = _ from (congrArg Prod.snd hadd).symm]
      exact .single .vote
    split
    · rename_i heq
      cases heq
      unfold handleAddedVote
      split
      · exact handlePrevoteLocked_reached hafter hprecommit (fun _ => hprevote) hvotes halive'
      · exact handlePrecommitLocked_reached hafter (fun _ => ⟨hprevote, hprecommit⟩) hvotes halive'
      · exact hvotes.reached halive'
    · rename_i heq
      cases heq
      exact hvotes.reached halive'
  | timeout ti =>
    dsimp only
    unfold handleTimeout
    rw [hsign]
    split
    · exact hsame
    · split
      · split
        · exact enterPrevoteLocked_reached hprevote hn halive _ _
        · exact hsame
      · split
        · exact enterPrecommitLocked_reached hprecommit hn halive _ _
        · exact hsame
      · split
        · exact enterNewRoundLocked_reached hprevote hn halive _ _
        · exact hsame
      · exact enterNewRoundLocked_reached hprevote hn halive _ _
      · exact hsame

end levels

end

end Leaderberry
