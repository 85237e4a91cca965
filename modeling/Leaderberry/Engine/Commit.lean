import Leaderberry.Engine.Carried
import Leaderberry.Engine.View

/-!
# Deciding a block

A precommit that completes a 2/3+ majority for a block is followed at once by
`enterCommitLocked`, so between two events no such majority is left over (`Quiet`). The
micro-steps do not show this. The proof goes along the handlers, with the state between
two transitions described by `Steady`: sound, without a pending decision, and not
stopped by one of the panics of a failed block choice (`Panic.Critical`).

The choice fails for a received precommit only. A node that completes a majority with
its own precommit is locked on the block.
-/

namespace Leaderberry

/-- No round has a 2/3+ precommit majority for a block. -/
def Quiet (votes : HeightVoteSet) : Prop :=
  ∀ r hash, votes.majority .precommit r = some hash → isHashEmpty hash = true

/-- Round `r` has a 2/3+ precommit majority for `x`, and no other round has one. -/
structure Decides (votes : HeightVoteSet) (r : Int) (x : Hash) : Prop where
  majority : votes.majority .precommit r = some (some x)
  nonempty : isHashEmpty (some x) = false
  only : ∀ r' hash, votes.majority .precommit r' = some hash → isHashEmpty hash = false → r' = r

section

variable [Externals] {votes : HeightVoteSet} {r : Int} {x : Hash} {commit : Commit}
  {updates : List ValidatorUpdate} {block : Block} {vote : Vote} {m : Node}

/-- The hash of the block that `finalizeCommitLocked` takes. -/
def ConsensusState.chosenHash (cs : ConsensusState) : Option Hash :=
  (cs.lockedBlock.or cs.proposalBlock).map blockHash

/-! ## The certificate that is found -/

theorem commitAt_of_majority (hinv : votes.Inv) (hmaj : votes.majority .precommit r = some (some x))
    (hne : isHashEmpty (some x) = false) :
    ∃ commit, ConsensusState.commitAt votes r = some commit ∧ commit.blockHash = x := by
  obtain ⟨set, hset, hset'⟩ := Option.bind_eq_some_iff.mp hmaj
  have hown := hinv.owns _ _ _ hset
  have hcommit : ∃ commit, ConsensusState.commitAt votes r = some commit := by
    simp only [ConsensusState.commitAt, hset, hset', hne, Bool.false_eq_true, if_false,
      VoteSet.makeCommit, hown.voteType, ne_eq, not_true_eq_false]
    exact ⟨_, rfl⟩
  obtain ⟨commit, hcommit⟩ := hcommit
  have hfound := (majority_of_commitAt hcommit).1
  rw [hmaj] at hfound
  cases hfound
  exact ⟨commit, hcommit, rfl⟩

/-- The search from round `k` down to zero finds the one majority there is. -/
theorem Decides.findCommit (hinv : votes.Inv) (h : Decides votes r x) (hr : 0 ≤ r) :
    ∀ k : Nat, r ≤ k → ∃ commit,
      ConsensusState.findCommit votes k = some commit ∧ commit.blockHash = x := by
  intro k
  induction k with
  | zero =>
    intro hk
    obtain rfl : r = 0 := by omega
    exact commitAt_of_majority hinv h.majority h.nonempty
  | succ k ih =>
    intro hk
    unfold ConsensusState.findCommit
    rcases lt_or_eq_of_le hk with hlt | heq
    · -- a later round has no certificate
      have hnone : ConsensusState.commitAt votes (k + 1) = none := by
        cases hat : ConsensusState.commitAt votes (k + 1) with
        | none => rfl
        | some commit =>
          obtain ⟨hmaj, hne⟩ := majority_of_commitAt hat
          have := h.only _ _ hmaj hne
          omega
      rw [hnone]
      exact ih (by omega)
    · have hmaj : votes.majority .precommit (k + 1) = some (some x) := by
        rw [← h.majority, heq]
        push_cast
        rfl
      obtain ⟨commit, hat, hhash⟩ := commitAt_of_majority hinv hmaj h.nonempty
      rw [hat]
      exact ⟨commit, rfl, hhash⟩

theorem Decides.foundCommit {n : Node} (hinv : n.cs.votes.Inv) (h : Decides n.cs.votes r x)
    (hr : 0 ≤ r) (hround : r ≤ n.cs.round) :
    ∃ commit, n.foundCommit = some commit ∧ commit.blockHash = x := by
  unfold Node.foundCommit
  rw [if_neg (by omega)]
  exact h.findCommit hinv hr _ (by omega)

/-! ## What a commit does with it -/

theorem finishCommit_mild {env : Env} {n : Node} (halive : n.panicked = none) {p : Panic}
    (h : (n.finishCommit env commit updates).panicked = some p) : ¬ p.Critical := by
  unfold Node.finishCommit at h
  split at h
  · cases h
    exact id
  · rcases walWrite_cases env (.ofEndHeight n.cs.height) n with hw | hw
    · rw [hw, Node.andThen_alive (by exact halive), Node.advanceHeight_panicked] at h
      rw [show n.panicked = some p from h] at halive
      cases halive
    · rw [hw, Node.andThen_panicked rfl] at h
      cases h
      exact id

theorem applyCommitted_mild {env : Env} {n : Node} (halive : n.panicked = none) {p : Panic}
    (h : (n.applyCommitted env block commit).panicked = some p) : ¬ p.Critical := by
  unfold Node.applyCommitted at h
  split at h
  · dsimp only at h
    split at h
    · cases h
      exact id
    · exact finishCommit_mild (by simpa using halive) h
  · exact finishCommit_mild halive h

/-- A commit stops with a critical panic exactly when the majority is out of reach or the
block that is taken is not the decided one. -/
theorem Decides.startCommit_critical (env : Env) {n : Node} (hinv : n.cs.votes.Inv)
    (halive : n.panicked = none) (h : Decides n.cs.votes r x) (hround : r ≤ n.cs.round) :
    (∃ p, (n.startCommit env).panicked = some p ∧ p.Critical) ↔
      ¬ (0 ≤ r ∧ n.cs.chosenHash = some x) := by
  by_cases hr : 0 ≤ r
  case neg =>
    -- the search ends at round zero
    have hfound : (n.setStep .commit).foundCommit = none := by
      unfold Node.foundCommit
      split
      · rfl
      · cases hcommit : ConsensusState.findCommit (n.setStep .commit).cs.votes
          (n.setStep .commit).cs.round.toNat with
        | none => rfl
        | some commit =>
          obtain ⟨r', hr', hmaj, hne⟩ := majority_of_findCommit hcommit
          have := h.only r' _ hmaj hne
          omega
    unfold Node.startCommit
    simp [hfound, hr, Panic.Critical]
  obtain ⟨commit, hfound, rfl⟩ := h.foundCommit hinv hr hround
  have hfound' : (n.setStep .commit).foundCommit = some commit := hfound
  unfold Node.startCommit ConsensusState.chosenHash
  simp only [hfound', Node.finalizeCommit]
  have hchosen : (n.setStep .commit).cs.lockedBlock.or (n.setStep .commit).cs.proposalBlock =
    n.cs.lockedBlock.or n.cs.proposalBlock := rfl
  rw [hchosen]
  cases n.cs.lockedBlock.or n.cs.proposalBlock with
  | none => simp [hr, Panic.Critical]
  | some block =>
    dsimp only
    split
    · rename_i hne
      simpa [hr, Panic.Critical] using hne
    · rename_i heq
      have hno : ¬ ∃ p, ((n.setStep .commit).applyCommitted env block commit).panicked = some p ∧
          p.Critical := by
        rintro ⟨p, hp, hcritical⟩
        exact applyCommitted_mild (n := n.setStep .commit) halive hp hcritical
      simpa [hr, hno] using heq

/-- WAL writes succeed, and the executor takes every block and answers with updates that
lead to a validator set. -/
structure Serves (env : Env) (cs : ConsensusState) : Prop where
  wal : ∀ msg, env.walWrite msg = true
  apply : ∀ block commit, ∃ updates newSet, env.applyBlock block commit = some updates ∧
    Node.nextValidatorSet cs.validatorSet updates = .ok newSet

omit [Externals] in
theorem walWrite_panicked {env : Env} (hwal : ∀ msg, env.walWrite msg = true) (msg : Message)
    (sync : Bool) (n : Node) : (n.walWrite env msg sync).panicked = n.panicked := by
  unfold Node.walWrite
  rw [if_pos (hwal msg)]
  split <;> rfl

theorem finishCommit_panicked {env : Env} (hwal : ∀ msg, env.walWrite msg = true) {n : Node}
    {newSet : ValidatorSet} (hset : Node.nextValidatorSet n.cs.validatorSet updates = .ok newSet)
    (halive : n.panicked = none) : (n.finishCommit env commit updates).panicked = none := by
  have hw := (walWrite_panicked hwal (.ofEndHeight n.cs.height) true n).trans halive
  unfold Node.finishCommit
  rw [hset]
  dsimp only
  rw [Node.andThen_alive hw, Node.advanceHeight_panicked, hw]

theorem applyCommitted_panicked {env : Env} {n : Node} (hserves : Serves env n.cs)
    (halive : n.panicked = none) (block : Block) (commit : Commit) :
    (n.applyCommitted env block commit).panicked = none := by
  unfold Node.applyCommitted
  split
  · obtain ⟨updates, newSet, happly, hset⟩ := hserves.apply block commit
    rw [happly]
    exact finishCommit_panicked hserves.wal (by exact hset) (by simpa using halive)
  · have hset : Node.nextValidatorSet n.cs.validatorSet [] =
      .ok (n.cs.validatorSet.withIncrementedPriority 1) := rfl
    exact finishCommit_panicked hserves.wal hset halive

/-- A commit that has its certificate and its block goes through. -/
theorem CommitChoice.startCommit_panicked {env : Env} {n : Node} (hserves : Serves env n.cs)
    (halive : n.panicked = none) (h : CommitChoice n.cs commit block) :
    (n.startCommit env).panicked = none := by
  have hfound : (n.setStep .commit).foundCommit = some commit := by
    unfold Node.foundCommit
    exact (if_neg (not_lt.mpr h.round)).trans h.found
  have hblock : (n.setStep .commit).cs.lockedBlock.or (n.setStep .commit).cs.proposalBlock =
    some block := h.chosen
  unfold Node.startCommit
  simp only [hfound, Node.finalizeCommit, hblock, h.hash, ne_eq, not_true_eq_false, if_false]
  exact applyCommitted_panicked (n := n.setStep .commit) ⟨hserves.wal, hserves.apply⟩ halive
    block commit

/-- A decision on the block that is taken is carried out. -/
theorem Decides.committed {env : Env} {n : Node} (hserves : Serves env n.cs) (hinv : n.cs.votes.Inv)
    (halive : n.panicked = none) (h : Decides n.cs.votes r x) (hround : r ≤ n.cs.round) (hr : 0 ≤ r)
    (hchosen : n.cs.chosenHash = some x) : ∃ commit block updates newSet,
      Committed n env commit block updates newSet (n.startCommit env) ∧ blockHash block = x := by
  obtain ⟨block, hblock, rfl⟩ := Option.map_eq_some_iff.mp hchosen
  obtain ⟨commit, hfound, hhash⟩ := h.foundCommit hinv hr hround
  unfold Node.foundCommit at hfound
  rw [if_neg (not_lt.mpr (hr.trans hround))] at hfound
  have hchoice : CommitChoice n.cs commit block := ⟨hr.trans hround, hfound, hblock, hhash.symm⟩
  rcases startCommit_cases env n halive with ⟨commit, block', updates, newSet, hc⟩ | hf
  · have hsame := hc.choice.chosen
    rw [hblock] at hsame
    cases hsame
    exact ⟨commit, block, updates, newSet, hc, rfl⟩
  · obtain ⟨p, hp⟩ := hf.panicked
    rw [hchoice.startCommit_panicked hserves halive] at hp
    cases hp

/-! ## Between two transitions -/

/-- A node between two transitions. -/
structure Steady (n : Node) : Prop where
  sound : Sound n.cs
  calm : n.panicked = none → n.cs.step < .commit ∧ Quiet n.cs.votes
  mild : ∀ p, n.panicked = some p → ¬ p.Critical

namespace Steady

variable {env : Env} {input : Option Event} {n m : Node}

theorem halt (h : Steady n) {p : Panic} (hp : ¬ p.Critical) : Steady (n.halt p) where
  sound := h.sound
  calm := fun halive => by cases halive
  mild := fun q hq => by
    cases hq
    exact hp

/-- An atom that leaves the votes alone and does not panic. -/
theorem of_votes (h : Steady n) (hsound : Sound m.cs) (hpanic : m.panicked = n.panicked)
    (hvotes : m.cs.votes = n.cs.votes) (hstep : n.panicked = none → m.cs.step < .commit) :
    Steady m where
  sound := hsound
  calm := fun halive =>
    ⟨hstep (hpanic ▸ halive), by rw [hvotes]; exact (h.calm (hpanic ▸ halive)).2⟩
  mild := fun p hp => h.mild p (hpanic ▸ hp)

theorem emit (h : Steady n) (a : Action) : Steady (n.emit a) :=
  h.of_votes h.sound rfl rfl fun halive => (h.calm halive).1

theorem walWrite (h : Steady n) (env : Env) (msg : Message) (sync : Bool) :
    Steady (n.walWrite env msg sync) := by
  unfold Node.walWrite
  split
  · exact h
  · split
    · exact h.emit _
    · exact h.halt id

theorem startPrevote (h : Steady n) : Steady n.startPrevote := by
  obtain ⟨_, _, hcs⟩ := startPrevote_frame n
  refine h.of_votes (h.sound.changes (startPrevote_changes n)) (by simp) (by rw [hcs]) fun _ => ?_
  rw [hcs]
  exact show RoundStep.prevote < .commit by decide

theorem startPrecommit (env : Env) (h : Steady n) : Steady (n.startPrecommit env).1 := by
  have hsound := h.sound.changes (startPrecommit_changes env n)
  rcases startPrecommit_cases env n with heq | ⟨hash, -, -, heq⟩ | ⟨block, -, -, -, heq⟩
  · rw [heq] at hsound ⊢
    exact h.of_votes hsound rfl rfl fun _ => show RoundStep.precommit < .commit by decide
  · rw [heq] at hsound ⊢
    exact h.of_votes hsound rfl rfl fun _ => show RoundStep.precommit < .commit by decide
  · rw [heq, Node.writeState] at hsound ⊢
    rw [Node.walWrite_cs] at hsound
    have hlocked : Steady ((n.setStep .precommit).lockOn block) :=
      h.of_votes hsound rfl rfl fun _ => show RoundStep.precommit < .commit by decide
    exact hlocked.walWrite env _ _

theorem takeProposal (h : Steady n) (p : Proposal) (own : Bool) :
    Steady (n.takeProposal p own) := by
  have hcs := n.takeProposal_cs p own
  refine h.of_votes ?_ (by simp) (by rw [hcs]) fun halive => by
    rw [hcs]
    exact (h.calm halive).1
  rw [hcs]
  exact h.sound.change .proposal

theorem startRound (h : Steady n) {r : Int} (hr : n.cs.round ≤ r) : Steady (n.startRound r) :=
  h.of_votes (h.sound.change (.enterRound hr)) rfl rfl fun _ =>
    show RoundStep.propose < .commit by decide

/-- The next height starts without votes. -/
theorem committed {commit : Commit} {block : Block} {updates : List ValidatorUpdate}
    {newSet : ValidatorSet} (hsound : Sound n.cs) (halive : n.panicked = none)
    (hc : Committed n env commit block updates newSet m) : Steady m := by
  have hpanic : m.panicked = none := by
    rw [hc.eq, Node.advanceHeight_panicked]
    exact halive
  have hcs : m.cs = (n.setStep .commit).cs.nextHeight commit newSet := by
    rw [hc.cs]
  refine { sound := ?_, calm := fun _ => ?_, mild := fun p hp => ?_ }
  · rw [hcs]
    exact (hsound.change .step).change (.advance hc.nextSet)
  · rw [hcs]
    refine ⟨show RoundStep.newHeight < .commit by decide, fun r hash hmaj => ?_⟩
    rw [HeightVoteSet.majority_absent (HeightVoteSet.voteSetAt_empty rfl rfl _ _)] at hmaj
    cases hmaj
  · rw [hpanic] at hp
    cases hp

/-- A commit with the right block. -/
theorem startCommit (hsound : Sound n.cs) (halive : n.panicked = none) {r : Int} {x : Hash}
    (hd : Decides n.cs.votes r x) (hr : 0 ≤ r) (hround : r ≤ n.cs.round)
    (hchosen : n.cs.chosenHash = some x) : Steady (n.startCommit env) := by
  rcases startCommit_cases env n halive with ⟨commit, block, updates, newSet, hc⟩ | hf
  · exact committed hsound halive hc
  · have hnot := mt (hd.startCommit_critical env hsound.votes halive hround).mp
      (not_not.mpr ⟨hr, hchosen⟩)
    obtain ⟨p, hp⟩ := hf.panicked
    refine { sound := ?_, calm := fun halive' => ?_, mild := fun q hq hcritical => ?_ }
    · rw [hf.cs]
      exact hsound.change .step
    · rw [hp] at halive'
      cases halive'
    · exact hnot ⟨q, hq, hcritical⟩

end Steady

/-! ## Along the handlers -/

/-- A node that precommits a block is locked on it. -/
def OwnLock (t : VoteType) (hash : Option Hash) (n : Node) : Prop :=
  t = .precommit → ∀ x, hash = some x → ∃ block, n.cs.lockedBlock = some block ∧ blockHash block = x

/-- What the recursion through `signAndSendVoteLocked` provides. -/
def SignSteady (sign : VoteType → Option Hash → Node → Node) : Prop :=
  ∀ t hash n, n.panicked = none → Steady n → OwnLock t hash n → Steady (sign t hash n)

/-- The state right after a vote was added: a decision it makes is for the block that
would be taken. -/
structure Poised (vote : Vote) (n : Node) : Prop where
  alive : n.panicked = none
  sound : Sound n.cs
  step : n.cs.step < .commit
  quiet : vote.type ≠ .precommit → Quiet n.cs.votes
  only : ∀ r hash, n.cs.votes.majority .precommit r = some hash → isHashEmpty hash = false →
    r = vote.round
  choice : vote.type = .precommit → ∀ x, n.cs.votes.majority .precommit vote.round = some (some x) →
    isHashEmpty (some x) = false → 0 ≤ vote.round ∧ n.cs.chosenHash = some x

section handlers

variable (env : Env) {n : Node} {sign : VoteType → Option Hash → Node → Node}
  (hsign : SignSteady sign) {vote : Vote} {x : Hash}

include hsign

theorem steady_carried : RoundCarried env sign Steady where
  startRound := fun _ hr h => h.startRound hr
  prevote := fun halive h => hsign _ _ _ (by simp [halive]) h.startPrevote fun ht => by cases ht
  prevoteWait := fun h => h.of_votes (h.sound.change .step) rfl rfl fun _ =>
    show RoundStep.prevoteWait < .commit by decide
  precommit := fun {n} _ hstep h => by
    have hstart : VoteStart env none n (n.startPrecommit env).1 _ _ := .precommit hstep
    exact Node.andThen_of (h.startPrecommit env) fun halive =>
      hsign _ _ _ halive (h.startPrecommit env) fun _ _ hx => (hstart.locked rfl hx).2
  precommitWait := fun h => h.of_votes (h.sound.change .step) rfl rfl fun _ =>
    show RoundStep.precommitWait < .commit by decide
  requestBlock := fun proposer h => by
    unfold Node.requestBlock
    split
    · exact h
    · exact h.emit _
  propose := fun p _ _ h => Node.andThen_of ((h.emit _).walWrite env _ _) fun _ =>
    ((h.emit _).walWrite env _ _).takeProposal p true
  accept := fun p _ _ h => Node.andThen_of (h.walWrite env _ _) fun _ =>
    (h.walWrite env _ _).takeProposal p false

omit hsign in
/-- Without a decision the state after adding a vote is steady. -/
theorem Poised.steady {vote : Vote} (h : Poised vote n)
    (hno : vote.type = .precommit → ∀ x,
      n.cs.votes.majority .precommit vote.round = some (some x) → isHashEmpty (some x) = true) :
    Steady n where
  sound := h.sound
  calm := fun _ => by
    refine ⟨h.step, fun r hash hmaj => ?_⟩
    by_cases ht : vote.type = .precommit
    · by_contra hne
      have hne := eq_false_of_ne_true hne
      obtain rfl := h.only r hash hmaj hne
      cases hash with
      | none => cases hne
      | some x => exact absurd (hno ht x hmaj) (by simp [hne])
    · exact h.quiet ht r hash hmaj
  mild := fun p hp => by
    rw [h.alive] at hp
    cases hp

omit hsign in
theorem Poised.decides (h : Poised vote n)
    (hmaj : n.cs.votes.majority .precommit vote.round = some (some x))
    (hne : isHashEmpty (some x) = false) : Decides n.cs.votes vote.round x :=
  ⟨hmaj, hne, h.only⟩

/-- `enterCommitLocked` after a decision for the block that is taken. -/
theorem enterCommitLocked_steady (h : Poised vote n) (ht : vote.type = .precommit)
    (hmaj : n.cs.votes.majority .precommit vote.round = some (some x))
    (hne : isHashEmpty (some x) = false) :
    Steady (enterCommitLocked env sign (n.raiseRound vote.round).cs.height
      (n.raiseRound vote.round)) := by
  obtain ⟨hround, hchosen⟩ := h.choice ht x hmaj hne
  have hcs := n.raiseRound_cs vote.round
  have hcommit : Steady ((n.raiseRound vote.round).startCommit env) := by
    refine Steady.startCommit (r := vote.round) (x := x) ?_ ?_ ?_ hround ?_ ?_
    · rw [hcs]
      exact h.sound.change (.raise (le_max_left ..))
    · rw [Node.raiseRound_panicked, h.alive]
    · rw [hcs]
      exact h.decides hmaj hne
    · rw [hcs]
      exact le_max_right ..
    · rw [hcs]
      exact hchosen
  unfold enterCommitLocked
  rw [if_neg (by simp [h.step])]
  refine Node.andThen_of hcommit fun halive => ?_
  split
  · exact (steady_carried env hsign).enterNewRoundLocked halive hcommit _ _
  · exact hcommit

omit hsign in
/-- A majority for a block is followed by the commit, in the round of the vote. -/
theorem handlePrecommitLocked_decided
    (hmaj : n.cs.votes.majority .precommit vote.round = some (some x))
    (hne : isHashEmpty (some x) = false) (hstep : n.cs.step < .commit) :
    handlePrecommitLocked env sign vote n =
      (n.raiseRound vote.round).commitOn env sign := by
  obtain ⟨set, hset, hhash⟩ := Option.bind_eq_some_iff.mp hmaj
  unfold handlePrecommitLocked
  rw [hset]
  dsimp only
  rw [if_pos (by simp [hhash, hne])]
  unfold enterCommitLocked
  rw [if_neg (by simp [hstep])]

omit hsign in
/-- A precommit of the round that decides nothing starts the wait at most. -/
theorem handlePrecommitLocked_undecided {vote : Vote} (hround : vote.round = n.cs.round)
    (hno : ∀ y, n.cs.votes.majority .precommit vote.round = some (some y) →
      isHashEmpty (some y) = true) :
    handlePrecommitLocked env sign vote n = n ∨
      n.cs.step = .precommit ∧ handlePrecommitLocked env sign vote n = n.startPrecommitWait := by
  unfold handlePrecommitLocked
  split
  · exact .inl rfl
  · rename_i precommits hset
    have hnone : (precommits.twoThirdsMajority.any fun hash => !isHashEmpty hash) = false := by
      rw [HeightVoteSet.majority_of_voteSetAt hset] at hno
      cases hmaj : precommits.twoThirdsMajority with
      | none => rfl
      | some hash =>
        cases hash with
        | none => rfl
        | some y => simp [hno y hmaj]
    rw [if_neg (by simp [hnone]), if_neg (by omega)]
    split
    · rename_i hwait
      refine .inr ⟨hwait.2.2, ?_⟩
      unfold enterPrecommitWaitLocked
      rw [hwait.2.2, if_neg]
      rintro (hne | hne | hle)
      · exact hne rfl
      · exact hne rfl
      · exact absurd hle (by decide)
    · exact .inl rfl

theorem handlePrecommitLocked_steady (h : Poised vote n) (ht : vote.type = .precommit) :
    Steady (handlePrecommitLocked env sign vote n) := by
  refine (steady_carried env hsign).handlePrecommitLocked h.alive vote (fun hash hmaj hne => ?_)
    fun hno => h.steady fun _ x hmaj => hno _ hmaj
  cases hash with
  | none => cases hne
  | some x => exact enterCommitLocked_steady env hsign h ht hmaj hne

theorem handleAddedVote_steady (h : Poised vote n) :
    Steady (handleAddedVote env sign vote n) := by
  unfold handleAddedVote
  split
  · rename_i ht
    exact (steady_carried env hsign).handlePrevoteLocked h.alive
      (h.steady fun ht' => by rw [ht] at ht'; cases ht') vote
  · rename_i ht
    exact handlePrecommitLocked_steady env hsign h ht
  · rename_i hne
    exact h.steady fun ht => absurd ht hne

end handlers

/-! ## Votes -/

/-- A decision that a vote makes is for what the vote is for. -/
theorem decided_by (hinv : votes.Inv) (hquiet : Quiet votes) {now : Int}
    (hok : (votes.addVote now vote).1 = .ok true)
    (hmaj : (votes.addVote now vote).2.majority .precommit r = some (some x))
    (hne : isHashEmpty (some x) = false) :
    vote.type = .precommit ∧ r = vote.round ∧ vote.blockHash = some x := by
  have hadded := hinv.added_addVote hok
  have hbefore : ∀ hash, votes.majority .precommit r = some hash → False := by
    intro hash hash'
    have hsame := hadded.majority_mono _ _ _ hash'
    rw [hmaj] at hsame
    cases hsame
    rw [hquiet r _ hash'] at hne
    cases hne
  have hnone : votes.majority .precommit r = none := by
    cases h : votes.majority .precommit r with
    | none => rfl
    | some hash => exact (hbefore hash h).elim
  by_cases hhere : .precommit = vote.type ∧ r = vote.round
  · obtain ⟨ht, rfl⟩ := hhere
    rw [ht] at hnone hmaj
    exact ⟨ht.symm, rfl, blockHash_of_key hne (hadded.majority_new hnone _ hmaj)⟩
  · rw [hadded.majority_eq _ _ hhere, hnone] at hmaj
    cases hmaj

/-- The state after adding a vote to a steady one. -/
theorem Steady.poised {n m : Node} (h : Steady n) (halive : n.panicked = none) {now : Int}
    {vote : Vote} (hok : (n.cs.votes.addVote now vote).1 = .ok true)
    (hpanic : m.panicked = none)
    (hcs : m.cs = { n.cs with votes := (n.cs.votes.addVote now vote).2 })
    (hchoice : vote.type = .precommit → ∀ x, vote.blockHash = some x →
      (n.cs.votes.addVote now vote).2.majority .precommit vote.round = some (some x) →
      isHashEmpty (some x) = false → 0 ≤ vote.round ∧ n.cs.chosenHash = some x) :
    Poised vote m := by
  obtain ⟨hstep, hquiet⟩ := h.calm halive
  have hdecided := fun {r x} => decided_by (r := r) (x := x) h.sound.votes hquiet hok
  refine { alive := hpanic, sound := ?_, step := ?_, quiet := fun ht r hash hmaj => ?_,
           only := fun r hash hmaj hne => ?_, choice := fun ht x hmaj hne => ?_ }
  · rw [hcs]
    exact h.sound.change .vote
  · rw [hcs]
    exact hstep
  · rw [hcs] at hmaj
    by_contra hne
    match hash with
    | none => exact hne rfl
    | some x => exact ht (hdecided hmaj (eq_false_of_ne_true hne)).1
  · rw [hcs] at hmaj
    match hash with
    | none => cases hne
    | some x => exact (hdecided hmaj hne).2.1
  · rw [hcs] at hmaj ⊢
    exact hchoice ht x (hdecided hmaj hne).2.2 hmaj hne

/-- An own vote that was added decides on the block the node is locked on. -/
theorem Cast.poised {env : Env} {n : Node} {t : VoteType} {hash : Option Hash}
    (hcast : Cast n env t hash vote m) (h : Steady n) (halive : n.panicked = none)
    (hlock : OwnLock t hash n) : Poised vote m := by
  obtain ⟨now, hok, hcs⟩ := hcast.added
  refine h.poised halive hok (hcast.panicked.trans halive) hcs fun ht x hx _ _ => ?_
  obtain ⟨block, hblock, hhash⟩ := hlock (hcast.own.type.symm.trans ht) x
    (hcast.own.blockHash.symm.trans hx)
  refine ⟨hcast.own.round ▸ h.sound.round, ?_⟩
  simp [ConsensusState.chosenHash, hblock, hhash]

/-- A node that casts no vote, or fails to, is steady. -/
theorem Steady.castOwnVote (env : Env) {n : Node} {t : VoteType} {hash : Option Hash}
    (h : Steady n) (halive : n.panicked = none) (hnone : (n.castOwnVote env t hash).2 = none) :
    Steady (n.castOwnVote env t hash).1 := by
  rcases castOwnVote_cases env t hash halive with heq | ⟨v, -, hsome⟩ | ⟨v, hfail, -⟩
  · rw [heq]
    exact h
  · rw [hsome] at hnone
    cases hnone
  · obtain ⟨p, hp, hmild⟩ := hfail.panicked
    refine { sound := ?_, calm := fun halive' => ?_, mild := fun q hq => ?_ }
    · exact h.sound.changes (castOwnVote_changes halive)
    · rw [hp] at halive'
      cases halive'
    · rw [hp] at hq
      cases hq
      exact hmild

/-- The recursion: `signAndSendVoteLocked` keeps nodes steady, by induction on the
stack. -/
theorem signSteady (env : Env) (depth : Nat) : SignSteady (signAndSendVoteLocked env depth) := by
  induction depth with
  | zero =>
    intro t hash n halive h hlock
    refine signAndSendVoteLocked_zero (h.castOwnVote env halive) fun vote m heq => ?_
    have hpoised := (castOwnVote_cast heq halive).poised h halive hlock
    exact
      { sound := hpoised.sound
        calm := fun halive => by cases halive
        mild := fun p hp => by
          cases hp
          exact id }
  | succ depth ih =>
    intro t hash n halive h hlock
    exact signAndSendVoteLocked_succ halive (h.castOwnVote env halive)
      (fun vote m _ hcast => handleAddedVote_steady env ih (hcast.poised h halive hlock))
      fun k v hk => hk.emit _

/-! ## Events -/

/-- `AddVote` on a received vote, after it was written to the WAL. -/
def Node.receive (env : Env) (vote : Vote) (n : Node) : Except VoteError Bool × HeightVoteSet :=
  n.cs.votes.addVote (env.clock (n.walWrite env (.ofVote vote) false).trace.length) vote

/-- The received vote completes a 2/3+ precommit majority for `x`. -/
structure Completes (env : Env) (n : Node) (vote : Vote) (x : Hash) : Prop where
  written : (n.walWrite env (.ofVote vote) false).panicked = none
  added : (n.receive env vote).1 = .ok true
  type : vote.type = .precommit
  majority : (n.receive env vote).2.majority .precommit vote.round = some (some x)
  nonempty : isHashEmpty (some x) = false

variable {env : Env} {n : Node}

theorem received_cs :
    ((n.walWrite env (.ofVote vote) false).setVotes (n.receive env vote).2).cs =
      { n.cs with votes := (n.receive env vote).2 } := by
  unfold Node.setVotes
  simp only [Node.walWrite_cs]

theorem handleVote_added (hwal : (n.walWrite env (.ofVote vote) false).panicked = none)
    (hok : (n.receive env vote).1 = .ok true) :
    handleVote env vote n = handleAddedVote env (sign env) vote
      ((n.walWrite env (.ofVote vote) false).setVotes (n.receive env vote).2) := by
  unfold handleVote
  unfold Node.receive at hok ⊢
  rw [Node.andThen_alive hwal, Node.walWrite_cs]
  generalize n.cs.votes.addVote _ vote = received at hok ⊢
  obtain ⟨result, votes⟩ := received
  cases hok
  rfl

theorem handleVote_rejected (hwal : (n.walWrite env (.ofVote vote) false).panicked = none)
    (hbad : (n.receive env vote).1 ≠ .ok true) :
    handleVote env vote n =
      (n.walWrite env (.ofVote vote) false).setVotes (n.receive env vote).2 := by
  unfold handleVote
  unfold Node.receive at hbad ⊢
  rw [Node.andThen_alive hwal, Node.walWrite_cs]
  generalize n.cs.votes.addVote _ vote = received at hbad ⊢
  obtain ⟨result, votes⟩ := received
  cases result with
  | error e => rfl
  | ok added =>
    cases added with
    | false => rfl
    | true => exact absurd rfl hbad

/-- A received vote that decides nothing, or the right thing. -/
theorem handleVote_steady (h : Steady n) (halive : n.panicked = none)
    (hchoice : ∀ x, Completes env n vote x → 0 ≤ vote.round ∧ n.cs.chosenHash = some x) :
    Steady (handleVote env vote n) := by
  have hwal := h.walWrite env (.ofVote vote) false
  cases hp : (n.walWrite env (.ofVote vote) false).panicked with
  | some p =>
    unfold handleVote
    rw [Node.andThen_panicked hp]
    exact hwal
  | none =>
    by_cases hok : (n.receive env vote).1 = .ok true
    · rw [handleVote_added hp hok]
      refine handleAddedVote_steady env (signSteady env env.depth) ?_
      refine h.poised halive (show (n.cs.votes.addVote _ vote).1 = .ok true from hok) hp ?_
        fun ht x _ hmaj hne => hchoice x ⟨hp, hok, ht, hmaj, hne⟩
      exact received_cs
    · rw [handleVote_rejected hp hok]
      have hquiet : ∀ r hash, (n.receive env vote).2.majority .precommit r = some hash →
          n.cs.votes.majority .precommit r = some hash := by
        intro r hash hmaj
        rwa [Node.receive, HeightVoteSet.majority_addVote_rejected hok] at hmaj
      refine { sound := ?_, calm := fun _ => ⟨?_, fun r hash hmaj => ?_⟩, mild := fun p' hp' => ?_ }
      · rw [received_cs]
        exact h.sound.change .vote
      · rw [received_cs]
        exact (h.calm halive).1
      · exact (h.calm halive).2 r hash (hquiet r hash hmaj)
      · rw [Node.setVotes_panicked, hp] at hp'
        cases hp'

/-- Handling an event keeps a node steady, unless a received precommit decides on a
block that is not the one to be taken. -/
theorem handle_steady (h : Steady n) {event : Event}
    (hchoice : ∀ vote x, event = .vote vote → Completes env n vote x →
      0 ≤ vote.round ∧ n.cs.chosenHash = some x) : Steady (handle env event n) := by
  have hcarried := steady_carried env (signSteady env env.depth)
  unfold handle
  refine Node.andThen_of h fun halive => ?_
  cases event with
  | proposal p => exact hcarried.handleProposal halive h p
  | vote v => exact handleVote_steady h halive fun x => hchoice v x rfl
  | timeout ti => exact hcarried.handleTimeout halive h ti

/-! ## The event that decides -/

/-- The node that commits after a vote: the vote is added and the round raised to its
round. -/
def Node.deciding (env : Env) (vote : Vote) (n : Node) : Node :=
  ((n.walWrite env (.ofVote vote) false).setVotes (n.receive env vote).2).raiseRound vote.round

theorem Node.deciding_cs (env : Env) (vote : Vote) (n : Node) : (n.deciding env vote).cs =
    { n.cs with
      votes := (n.receive env vote).2
      round := max n.cs.round vote.round } := by
  unfold Node.deciding
  rw [Node.raiseRound_cs, received_cs]

theorem Steady.deciding (h : Steady n) (env : Env) (vote : Vote) :
    Sound (n.deciding env vote).cs := by
  rw [Node.deciding_cs]
  exact (h.sound.change .vote).change (.raise (le_max_left ..))

namespace Completes

variable {vote : Vote} {x : Hash}

theorem round_le : vote.round ≤ (n.deciding env vote).cs.round := by
  rw [Node.deciding_cs]
  exact le_max_right ..

variable (h : Completes env n vote x)

include h

theorem alive : n.panicked = none := by
  have hwritten := h.written
  unfold Node.walWrite at hwritten
  split at hwritten
  · exact hwritten
  · split at hwritten
    · exact hwritten
    · cases hwritten

theorem deciding_panicked : (n.deciding env vote).panicked = none :=
  (Node.raiseRound_panicked ..).trans h.written

theorem decides (hn : Steady n) : Decides (n.deciding env vote).cs.votes vote.round x := by
  rw [Node.deciding_cs]
  refine ⟨h.majority, h.nonempty, fun r hash hmaj hne => ?_⟩
  match hash with
  | none => cases hne
  | some y => exact (decided_by hn.sound.votes (hn.calm h.alive).2 h.added hmaj hne).2.1

/-- The vote is followed by the commit. -/
theorem handle_eq (hn : Steady n) :
    handle env (.vote vote) n = (n.deciding env vote).commitOn env (sign env) := by
  unfold handle
  rw [Node.andThen_alive h.alive]
  dsimp only
  rw [handleVote_added h.written h.added]
  unfold handleAddedVote
  rw [h.type]
  exact handlePrecommitLocked_decided env (by exact h.majority) h.nonempty (by
    rw [received_cs]
    exact (hn.calm h.alive).1)

/-- Handling the deciding vote stops with a critical panic unless the decided block is
the one that is taken. -/
theorem critical_iff (hn : Steady n) :
    (∃ p, (handle env (.vote vote) n).panicked = some p ∧ p.Critical) ↔
      ¬ (0 ≤ vote.round ∧ n.cs.chosenHash = some x) := by
  constructor
  · rintro ⟨p, hp, hcritical⟩ hchoice
    refine (handle_steady hn ?_).mild p hp hcritical
    rintro vote' y heq hcompletes
    cases heq
    have hsame := h.majority.symm.trans hcompletes.majority
    cases hsame
    exact hchoice
  · intro hchoice
    have hcommit := ((h.decides hn).startCommit_critical env (hn.deciding env vote).votes
      h.deciding_panicked round_le).mpr (by rw [Node.deciding_cs]; exact hchoice)
    obtain ⟨p, hp, hcritical⟩ := hcommit
    rw [h.handle_eq hn, Node.commitOn, Node.andThen_panicked hp]
    exact ⟨p, hp, hcritical⟩

/-- The commit that a deciding vote leads to. -/
theorem committed (hn : Steady n) (hserves : Serves env n.cs) (hround : 0 ≤ vote.round)
    (hchosen : n.cs.chosenHash = some x) :
    ∃ commit block updates newSet, Committed (n.deciding env vote) env commit block updates newSet
      ((n.deciding env vote).startCommit env) ∧ blockHash block = x := by
  refine (h.decides hn).committed ?_ (hn.deciding env vote).votes h.deciding_panicked round_le
    hround ?_
  · rw [Node.deciding_cs]
    exact ⟨hserves.wal, hserves.apply⟩
  · rw [Node.deciding_cs]
    exact hchosen

end Completes

/-- A commit records the block and goes on to the next height. -/
theorem Committed.applied {k : Node} {newSet : ValidatorSet}
    (hc : Committed k env commit block updates newSet m) (hexec : k.cs.hasExecutor = true) :
    ((k.setStep .commit).cs, block) ∈ m.applied ∧ m.cs.height = k.cs.height + 1 := by
  exact ⟨Node.mem_applied.mpr ⟨commit, some updates, hc.mem_trace hexec⟩, hc.height⟩

/-! ## Runs -/

theorem steady_fresh (l : Launch) : Steady l.fresh where
  sound := sound_fresh l
  calm := fun _ => by
    refine ⟨show RoundStep.newHeight < .commit by decide, fun r hash hmaj => ?_⟩
    rw [HeightVoteSet.majority_absent (HeightVoteSet.voteSetAt_empty rfl rfl _ _)] at hmaj
    cases hmaj
  mild := fun p hp => by cases hp

/-- Handling an event leaves the node steady or panicked. -/
theorem handle_alive (h : n.panicked = none → Steady n) {event : Event}
    (halive : (handle env event n).panicked = none) : Steady (handle env event n) := by
  have halive₀ : n.panicked = none := by
    cases hp : n.panicked with
    | none => rfl
    | some p =>
      unfold handle at halive
      rw [Node.andThen_panicked hp, hp] at halive
      cases halive
  refine handle_steady (h halive₀) fun vote x heq hcompletes => ?_
  subst heq
  by_contra hchoice
  obtain ⟨p, hp, -⟩ := (hcompletes.critical_iff (h halive₀)).mpr hchoice
  rw [hp] at halive
  cases halive

/-- After every run, a node that has not panicked has no decision pending. -/
theorem Launch.run_steady (l : Launch) (env : Env) (events : List (Env × Event)) :
    (l.run env events).panicked = none → Steady (l.run env events) := by
  induction events using List.reverseRecOn with
  | nil =>
    intro _
    exact (steady_carried env (signSteady env env.depth)).enterNewRoundLocked rfl (steady_fresh l)
      _ _
  | append_singleton events e ih =>
    rw [l.run_append]
    exact handle_alive ih

end

end Leaderberry
