import Leaderberry.Engine.LockRecovery

/-!
# Two runs that differ by rejected votes

A node that is sent votes it rejects, and one that is not, handle the same events in the same
way. `Twin` is the simulation: the two nodes differ in their vote sets by empty ones, and in
their logs by records of votes.

An empty set is not nothing: `handlePrevoteLocked` looks a set up again after a round skip, and
goes on only if there is one. So `Agree` also has the sets of which it is known that both nodes
have them or neither. A rejected vote forgets that, and everything else keeps it.
-/

namespace Leaderberry

open Wal

/-! ## Vote sets -/

namespace HeightVoteSet

/-- The votes are the same. Sets without votes may be missing on one side, except the known
ones. -/
structure Agree (known : VoteType → Int → Prop) (v₁ v₂ : HeightVoteSet) : Prop
    extends SameHeight v₁ v₂ where
  sets : ∀ t r, v₂.voteSetOrNew t r = v₁.voteSetOrNew t r
  known : ∀ t r, known t r → v₂.voteSetAt t r = v₁.voteSetAt t r

namespace Agree

variable {known : VoteType → Int → Prop} {v₁ v₂ : HeightVoteSet}

theorem refl (v : HeightVoteSet) : Agree known v v :=
  ⟨⟨rfl, rfl, rfl, rfl⟩, fun _ _ => rfl, fun _ _ _ => rfl⟩

variable (h : Agree known v₁ v₂)

include h

theorem mono {known' : VoteType → Int → Prop}
    (hsub : ∀ t r, known' t r → known t r) : Agree known' v₁ v₂ :=
  { h with known := fun t r hk => h.known t r (hsub t r hk) }

theorem learn {t : VoteType} {r : Int} (hsame : v₂.voteSetAt t r = v₁.voteSetAt t r) :
    Agree (fun t' r' => known t' r' ∨ t' = t ∧ r' = r) v₁ v₂ :=
  { h with
    known := fun t' r' hk => by
      rcases hk with hk | ⟨rfl, rfl⟩
      · exact h.known t' r' hk
      · exact hsame }

theorem majority (t : VoteType) (r : Int) : v₂.majority t r = v₁.majority t r := by
  rw [← majority_orNew, ← majority_orNew, h.sets]

theorem commitAt (r : Int) : ConsensusState.commitAt v₂ r = ConsensusState.commitAt v₁ r := by
  have hcommit : ∀ v : HeightVoteSet, ConsensusState.commitAt v r =
      (v.voteSetOrNew .precommit r).twoThirdsMajority.bind fun hash =>
        if isHashEmpty hash then none else (v.voteSetOrNew .precommit r).makeCommit := by
    intro v
    unfold ConsensusState.commitAt voteSetOrNew
    cases v.voteSetAt .precommit r with
    | none => rfl
    | some precommits =>
      dsimp only [Option.getD_some]
      cases precommits.twoThirdsMajority <;> rfl
  rw [hcommit, hcommit, h.sets]

theorem findCommit (r : Nat) : ConsensusState.findCommit v₂ r = ConsensusState.findCommit v₁ r := by
  induction r with
  | zero => exact h.commitAt 0
  | succ r ih =>
    unfold ConsensusState.findCommit
    rw [h.commitAt, ih]

/-- A set that only one side has is empty. -/
theorem voteSetAt (t : VoteType) (r : Int) :
    v₂.voteSetAt t r = v₁.voteSetAt t r ∨
      (v₁.voteSetAt t r = none ∧ v₂.voteSetAt t r = some (v₁.voteSetOrNew t r)) ∨
      (v₂.voteSetAt t r = none ∧ v₁.voteSetAt t r = some (v₂.voteSetOrNew t r)) := by
  have hsets := h.sets t r
  unfold voteSetOrNew at hsets ⊢
  cases h₁ : v₁.voteSetAt t r with
  | none =>
    cases h₂ : v₂.voteSetAt t r with
    | none => exact .inl rfl
    | some s₂ =>
      rw [h₁, h₂] at hsets
      exact .inr (.inl ⟨rfl, congrArg some hsets⟩)
  | some s₁ =>
    cases h₂ : v₂.voteSetAt t r with
    | none =>
      rw [h₁, h₂] at hsets
      exact .inr (.inr ⟨rfl, congrArg some hsets.symm⟩)
    | some s₂ =>
      rw [h₁, h₂] at hsets
      exact .inl (congrArg some hsets)

theorem put {t : VoteType} (ht : t = .prevote ∨ t = .precommit) (r : Int) (vs : VoteSet) :
    Agree known (v₁.put t r vs) (v₂.put t r vs) where
  chainID := by simpa using h.chainID
  height := by simpa using h.height
  validatorSet := by simpa using h.validatorSet
  generation := by simpa using h.generation
  sets := fun t' r' => by
    have hsets := h.sets t' r'
    unfold voteSetOrNew at hsets ⊢
    rw [voteSetAt_put _ _ _ ht, voteSetAt_put _ _ _ ht]
    split
    · rfl
    · simpa using hsets
  known := fun t' r' hk => by
    rw [voteSetAt_put _ _ _ ht, voteSetAt_put _ _ _ ht, h.known t' r' hk]

theorem addVoteWith (add : VoteSet → Except VoteError Bool × VoteSet) (vote : Vote) :
    (v₂.addVoteWith add vote).1 = (v₁.addVoteWith add vote).1 ∧
      Agree known (v₁.addVoteWith add vote).2 (v₂.addVoteWith add vote).2 := by
  unfold HeightVoteSet.addVoteWith
  rw [h.height]
  split
  · exact ⟨rfl, h⟩
  · split
    · rename_i ht
      dsimp only
      rw [h.sets]
      exact ⟨rfl, h.put ht _ _⟩
    · exact ⟨rfl, h⟩

theorem reset (height : Int) (vs : ValidatorSet) :
    Agree known (v₁.reset height vs) (v₂.reset height vs) := by
  have heq : v₂.reset height vs = v₁.reset height vs := by
    unfold HeightVoteSet.reset
    rw [h.chainID, h.generation]
  rw [heq]
  exact refl _

variable [Externals]

theorem addVote (now : Int) (vote : Vote) :
    (v₂.addVote now vote).1 = (v₁.addVote now vote).1 ∧
      Agree known (v₁.addVote now vote).2 (v₂.addVote now vote).2 := by
  unfold HeightVoteSet.addVote
  rw [h.generation]
  exact h.addVoteWith _ vote

/-- A rejected vote leaves at most an empty set. -/
theorem rejected {now : Int} {vote : Vote} (hrejected : (v₂.addVote now vote).1 ≠ .ok true) :
    Agree (fun _ _ => False) v₁ (v₂.addVote now vote).2 := by
  have hforget : Agree (fun _ _ => False) v₁ v₂ := h.mono fun _ _ hk => hk.elim
  rcases v₂.addVote_cases now vote with ⟨-, heq | ⟨ht, heq⟩⟩ | ⟨-, -, val, -, -, heq⟩
  · rw [heq]
    exact hforget
  · rw [heq]
    refine ⟨⟨?_, ?_, ?_, ?_⟩, fun t r => ?_, fun _ _ hk => hk.elim⟩
    · simpa using h.chainID
    · simpa using h.height
    · simpa using h.validatorSet
    · simpa using h.generation
    · rw [← h.sets]
      unfold voteSetOrNew
      rw [voteSetAt_put _ _ _ ht]
      split
      · rename_i hcond
        rw [hcond.1, hcond.2]
        rfl
      · simp
  · exact absurd (by rw [heq]) hrejected

end Agree

end HeightVoteSet

/-! ## Nodes -/

/-- The second environment gives the answers of the first, `k` actions later. -/
structure Env.Delayed (k : Nat) (env₁ env₂ : Env) : Prop where
  clock : ∀ i, env₂.clock (i + k) = env₁.clock i
  same : env₂ = { env₁ with clock := env₂.clock }

theorem Env.Delayed.refl (env : Env) : env.Delayed 0 env := ⟨fun _ => rfl, rfl⟩

/-- Apart from the clock the answers are the same. -/
theorem Env.Delayed.eq {k : Nat} {env₁ env₂ : Env} (h : env₁.Delayed k env₂) {α : Type}
    (f : Env → α) (hf : ∀ env clock, f { env with clock } = f env) : f env₂ = f env₁ := by
  rw [h.same, hf]

/-- The nodes differ by empty vote sets, and by actions that are records of votes. -/
structure Twin (known : VoteType → Int → Prop) (k : Nat) (n₁ n₂ : Node) : Prop where
  cs : n₂.cs = { n₁.cs with votes := n₂.cs.votes }
  votes : n₁.cs.votes.Agree known n₂.cs.votes
  panicked : n₂.panicked = n₁.panicked
  length : n₂.trace.length = n₁.trace.length + k
  records : nonVotes n₂.walRecords = nonVotes n₁.walRecords
  wf : n₁.cs.validatorSet.Wf
  votesWf : n₁.cs.votes.validatorSet.Wf

namespace Twin

variable {known : VoteType → Int → Prop} {k : Nat} {n₁ n₂ : Node} {env : Env} {vote : Vote}

/-- A set that only one side has leads nowhere. -/
theorem quiet_orNew {v : HeightVoteSet} (hwf : v.validatorSet.Wf) {t : VoteType} {r : Int}
    (hnone : v.voteSetAt t r = none) :
    (v.voteSetOrNew t r).hasTwoThirdsAny = false ∧ (v.voteSetOrNew t r).maj23 = none := by
  have hnew : v.voteSetOrNew t r =
      VoteSet.new v.chainID v.height r t v.validatorSet (some v.generation) := by
    unfold HeightVoteSet.voteSetOrNew
    rw [hnone]
    rfl
  rw [hnew]
  refine ⟨?_, rfl⟩
  have hpos := hwf.totalPower_pos
  have hiff := ValidatorSet.twoThirdsMajority_le_iff hpos 0
  refine decide_eq_false ?_
  show ¬ v.validatorSet.twoThirdsMajority ≤ 0
  omega

section same

variable (h : Twin known k n₁ n₂)

include h

/-- What does not depend on the votes is the same. -/
theorem eq {α : Type} (f : ConsensusState → α) (hf : ∀ cs v, f { cs with votes := v } = f cs) :
    f n₂.cs = f n₁.cs := by
  rw [h.cs, hf]

theorem height : n₂.cs.height = n₁.cs.height :=
  h.eq (·.height) fun _ _ => rfl

theorem round : n₂.cs.round = n₁.cs.round :=
  h.eq (·.round) fun _ _ => rfl

theorem step : n₂.cs.step = n₁.cs.step :=
  h.eq (·.step) fun _ _ => rfl

theorem validatorSet : n₂.cs.validatorSet = n₁.cs.validatorSet :=
  h.eq (·.validatorSet) fun _ _ => rfl

theorem proposalBlock : n₂.cs.proposalBlock = n₁.cs.proposalBlock :=
  h.eq (·.proposalBlock) fun _ _ => rfl

theorem polVotesToAttach : n₂.cs.polVotesToAttach = n₁.cs.polVotesToAttach := by
  have hattach : ∀ cs : ConsensusState, cs.polVotesToAttach =
      if 0 ≤ cs.validRound then (cs.votes.voteSetOrNew .prevote cs.validRound).getVotes
      else [] := by
    intro cs
    unfold ConsensusState.polVotesToAttach HeightVoteSet.voteSetOrNew
    cases cs.votes.voteSetAt .prevote cs.validRound <;> rfl
  rw [hattach, hattach, h.eq (·.validRound) fun _ _ => rfl, h.votes.sets]

theorem mono {known' : VoteType → Int → Prop} (hsub : ∀ t r, known' t r → known t r) :
    Twin known' k n₁ n₂ :=
  { h with votes := h.votes.mono hsub }

/-! ### Changes -/

/-- An assignment that has nothing to do with votes. -/
theorem modify (f : ConsensusState → ConsensusState)
    (hf : ∀ cs v, f { cs with votes := v } = { f cs with votes := v })
    (hset : ∀ cs, (f cs).validatorSet = cs.validatorSet) :
    Twin known k { n₁ with cs := f n₁.cs } { n₂ with cs := f n₂.cs } := by
  have hvotes : ∀ cs, (f cs).votes = cs.votes := fun cs => by
    have := congrArg ConsensusState.votes (hf cs cs.votes)
    exact this
  have heq : f n₂.cs = { f n₁.cs with votes := n₂.cs.votes } := by
    conv_lhs => rw [h.cs, hf]
  refine
    { cs := ?_, votes := ?_, panicked := h.panicked, length := h.length, records := h.records,
      wf := ?_, votesWf := ?_ }
  · show f n₂.cs = { f n₁.cs with votes := (f n₂.cs).votes }
    rw [hvotes, heq]
  · show (f n₁.cs).votes.Agree known (f n₂.cs).votes
    rw [hvotes, hvotes]
    exact h.votes
  · show (f n₁.cs).validatorSet.Wf
    rw [hset]
    exact h.wf
  · show (f n₁.cs).votes.validatorSet.Wf
    rw [hvotes]
    exact h.votesWf

theorem setStep (s : RoundStep) : Twin known k (n₁.setStep s) (n₂.setStep s) :=
  h.modify (fun cs => { cs with step := s }) (fun _ _ => rfl) fun _ => rfl

theorem setLock (r : Int) (block : Option Block) :
    Twin known k (n₁.setLock r block) (n₂.setLock r block) :=
  h.modify (fun cs => { cs with lockedRound := r, lockedBlock := block }) (fun _ _ => rfl)
    fun _ => rfl

theorem emit (a : Action) : Twin known k (n₁.emit a) (n₂.emit a) where
  cs := h.cs
  votes := h.votes
  panicked := h.panicked
  length := by
    show n₂.trace.length + 1 = n₁.trace.length + 1 + k
    rw [h.length]
    omega
  records := by
    have hemit : ∀ n : Node, (n.emit a).walRecords =
        n.walRecords ++ (a.write?.map Prod.fst).toList := by
      intro n
      cases hw : a.write? <;> simp [Node.emit, Node.walRecords, Node.walWrites, hw]
    rw [hemit, hemit, nonVotes_append, nonVotes_append, h.records]
  wf := h.wf
  votesWf := h.votesWf

theorem requestBlock (proposer : AccountName) :
    Twin known k (n₁.requestBlock proposer) (n₂.requestBlock proposer) := by
  unfold Node.requestBlock
  rw [h.eq (fun cs => cs.blockRequest proposer) fun _ _ => rfl]
  split
  · exact h
  · exact h.emit _

theorem halt (p : Panic) : Twin known k (n₁.halt p) (n₂.halt p) :=
  { h with panicked := rfl }

theorem setVotes {v₁ v₂ : HeightVoteSet} (hv : v₁.Agree known v₂) (hwf : v₁.validatorSet.Wf) :
    Twin known k (n₁.setVotes v₁) (n₂.setVotes v₂) where
  cs := by
    show { n₂.cs with votes := v₂ } = { n₁.cs with votes := v₂ }
    rw [h.cs]
  votes := hv
  panicked := h.panicked
  length := h.length
  records := h.records
  wf := h.wf
  votesWf := hwf

theorem andThen {f g : Node → Node} (hf : n₁.panicked = none → Twin known k (f n₁) (g n₂)) :
    Twin known k (n₁.andThen f) (n₂.andThen g) := by
  unfold Node.andThen
  rw [h.panicked]
  cases hp : n₁.panicked with
  | none => exact hf hp
  | some p => exact h

/-! ### Transitions without recursion -/

theorem startRound (r : Int) : Twin known k (n₁.startRound r) (n₂.startRound r) := by
  unfold Node.startRound
  rw [h.height]
  exact (h.modify (·.enterRound r) (fun _ _ => rfl) fun _ => rfl).emit _

theorem takeProposal (p : Proposal) (own : Bool) :
    Twin known k (n₁.takeProposal p own) (n₂.takeProposal p own) := by
  have htaken := (h.modify (fun cs => { cs with proposal := some p, proposalBlock := some p.block })
    (fun _ _ => rfl) fun _ => rfl).emit (.acceptProposal p)
  unfold Node.takeProposal
  dsimp only
  rw [htaken.eq (·.onProposal) fun _ _ => rfl]
  split
  · exact htaken.emit _
  · exact htaken

theorem raiseRound (r : Int) : Twin known k (n₁.raiseRound r) (n₂.raiseRound r) := by
  unfold Node.raiseRound
  rw [h.round]
  split
  · exact h.modify (fun cs => { cs with round := r }) (fun _ _ => rfl) fun _ => rfl
  · exact h

theorem lockOn (block : Block) : Twin known k (n₁.lockOn block) (n₂.lockOn block) :=
  (h.modify (fun cs => { cs with
    lockedRound := cs.round
    lockedBlock := some block
    validRound := cs.round
    validBlock := some block }) (fun _ _ => rfl) fun _ => rfl).emit _

theorem startPrevoteWait : Twin known k n₁.startPrevoteWait n₂.startPrevoteWait := by
  unfold Node.startPrevoteWait
  rw [h.height, h.round]
  exact (h.setStep _).emit _

theorem startPrecommitWait : Twin known k n₁.startPrecommitWait n₂.startPrecommitWait := by
  unfold Node.startPrecommitWait
  rw [h.height, h.round]
  exact (h.setStep _).emit _

theorem enterPrevoteWaitLocked (height r : Int) :
    Twin known k (enterPrevoteWaitLocked height r n₁) (enterPrevoteWaitLocked height r n₂) := by
  unfold Leaderberry.enterPrevoteWaitLocked
  rw [h.height, h.round, h.step]
  split
  · exact h
  · exact h.startPrevoteWait

theorem enterPrecommitWaitLocked (height r : Int) :
    Twin known k (enterPrecommitWaitLocked height r n₁)
      (enterPrecommitWaitLocked height r n₂) := by
  unfold Leaderberry.enterPrecommitWaitLocked
  rw [h.height, h.round, h.step]
  split
  · exact h
  · exact h.startPrecommitWait

theorem advanceHeight (commit : Commit) {newSet : ValidatorSet} (hwf : newSet.Wf) :
    Twin known k (n₁.advanceHeight commit newSet) (n₂.advanceHeight commit newSet) := by
  have hnext : Twin known k { n₁ with cs := n₁.cs.nextHeight commit newSet }
      { n₂ with cs := n₂.cs.nextHeight commit newSet } :=
    { cs := by
        show n₂.cs.nextHeight commit newSet = _
        unfold ConsensusState.nextHeight
        rw [h.cs]
      votes := by
        show (n₁.cs.votes.reset (n₁.cs.height + 1) newSet).Agree known
          (n₂.cs.votes.reset (n₂.cs.height + 1) newSet)
        rw [h.height]
        exact h.votes.reset _ _
      panicked := h.panicked
      length := h.length
      records := h.records
      wf := hwf
      votesWf := hwf }
  unfold Node.advanceHeight
  dsimp only
  rw [hnext.eq (·.config) fun _ _ => rfl, hnext.height]
  split
  · exact hnext
  · exact hnext.emit _

theorem broadcastVote (vote : Vote) :
    Twin known k
      (n₁.andThen fun n => if n.cs.onVote then n.emit (.broadcastVote vote) else n)
      (n₂.andThen fun n => if n.cs.onVote then n.emit (.broadcastVote vote) else n) := by
  refine h.andThen fun _ => ?_
  rw [h.eq (·.onVote) fun _ _ => rfl]
  split
  · exact h.emit _
  · exact h

/-- The record of a vote on one side. -/
theorem writeVote (hwrite : env.walWrite (.ofVote vote) = true) :
    ∃ k', Twin known k' n₁ (n₂.walWrite env (.ofVote vote) false) := by
  unfold Node.walWrite
  rw [hwrite]
  split
  · exact ⟨k, h⟩
  · have hrecords : (n₂.emit (.walWrite (.ofVote vote) false)).walRecords =
        n₂.walRecords ++ [.ofVote vote] := by
      simp [Node.emit, Node.walRecords, Node.walWrites, Action.write?]
    refine ⟨k + 1, { h with length := ?_, records := ?_ }⟩
    · show n₂.trace.length + 1 = n₁.trace.length + (k + 1)
      rw [h.length, Nat.add_assoc]
    · rw [if_pos rfl, hrecords, nonVotes_append, h.records]
      exact List.append_nil _

variable {env₁ env₂ : Env} (henv : env₁.Delayed k env₂)

include henv

theorem clock : env₂.clock n₂.trace.length = env₁.clock n₁.trace.length := by
  rw [h.length, henv.clock]

theorem walWrite (m : Message) (sync : Bool) :
    Twin known k (n₁.walWrite env₁ m sync) (n₂.walWrite env₂ m sync) := by
  unfold Node.walWrite
  rw [h.eq (·.hasWal) fun _ _ => rfl, henv.eq (·.walWrite) fun _ _ => rfl]
  split
  · exact h
  · split
    · exact h.emit _
    · exact h.halt _

variable [Externals]

omit henv in
theorem decidePrevote : n₂.cs.decidePrevote = n₁.cs.decidePrevote :=
  h.eq (·.decidePrevote) fun _ _ => rfl

omit henv in
theorem startPrevote : Twin known k n₁.startPrevote n₂.startPrevote := by
  have hstep := h.setStep .prevote
  unfold Node.startPrevote
  dsimp only
  rw [hstep.decidePrevote]
  split
  · exact (hstep.emit _).setLock _ _
  · exact hstep

theorem writeState : Twin known k (n₁.writeState env₁) (n₂.writeState env₂) := by
  unfold Node.writeState
  rw [h.eq (·.stateData) fun _ _ => rfl]
  exact h.walWrite henv _ _

theorem startPrecommit :
    Twin known k (n₁.startPrecommit env₁).1 (n₂.startPrecommit env₂).1 ∧
      (n₂.startPrecommit env₂).2 = (n₁.startPrecommit env₁).2 := by
  have hstep := h.setStep .precommit
  unfold Node.startPrecommit
  dsimp only
  rw [hstep.votes.majority, hstep.round, hstep.proposalBlock]
  split
  · exact ⟨hstep, rfl⟩
  · split
    · exact ⟨(hstep.emit _).setLock _ _, rfl⟩
    · split
      · exact ⟨hstep, rfl⟩
      · split
        · exact ⟨(hstep.lockOn _).writeState henv, rfl⟩
        · exact ⟨hstep, rfl⟩

theorem addVote (vote : Vote) :
    (n₂.cs.votes.addVote (env₂.clock n₂.trace.length) vote).1 =
        (n₁.cs.votes.addVote (env₁.clock n₁.trace.length) vote).1 ∧
      Twin known k
        (n₁.setVotes (n₁.cs.votes.addVote (env₁.clock n₁.trace.length) vote).2)
        (n₂.setVotes (n₂.cs.votes.addVote (env₂.clock n₂.trace.length) vote).2) := by
  rw [h.clock henv]
  obtain ⟨hresult, hvotes⟩ := h.votes.addVote (env₁.clock n₁.trace.length) vote
  refine ⟨hresult, h.setVotes hvotes ?_⟩
  rw [(HeightVoteSet.sameHeight_addVote _ _ _).validatorSet]
  exact h.votesWf

theorem addOwnVote (vote : Vote) :
    Twin known k (n₁.addOwnVote env₁ vote).1 (n₂.addOwnVote env₂ vote).1 ∧
      (n₂.addOwnVote env₂ vote).2 = (n₁.addOwnVote env₁ vote).2 := by
  obtain ⟨hresult, hadded⟩ := h.addVote henv vote
  unfold Node.addOwnVote
  generalize n₁.cs.votes.addVote (env₁.clock n₁.trace.length) vote = r₁ at hresult hadded
  generalize n₂.cs.votes.addVote (env₂.clock n₂.trace.length) vote = r₂ at hresult hadded
  obtain ⟨result, votes₁⟩ := r₁
  obtain ⟨result₂, votes₂⟩ := r₂
  obtain rfl : result₂ = result := hresult
  match result₂ with
  | .error e => exact ⟨hadded.halt _, rfl⟩
  | .ok false => exact ⟨hadded.halt _, rfl⟩
  | .ok true => exact ⟨hadded.emit _, rfl⟩

theorem castOwnVote (voteType : VoteType) (hash : Option Hash) :
    Twin known k (n₁.castOwnVote env₁ voteType hash).1 (n₂.castOwnVote env₂ voteType hash).1 ∧
      (n₂.castOwnVote env₂ voteType hash).2 = (n₁.castOwnVote env₁ voteType hash).2 := by
  have hunsigned : ∀ i validator, n₂.unsignedVote env₂ voteType hash i validator =
      n₁.unsignedVote env₁ voteType hash i validator := by
    intro i validator
    unfold Node.unsignedVote
    rw [h.height, h.round, h.clock henv]
  unfold Node.castOwnVote
  rw [h.eq (·.ownValidator) fun _ _ => rfl]
  split
  · exact ⟨h, rfl⟩
  · rename_i i validator _
    dsimp only
    rw [hunsigned, henv.eq (·.signVote) fun _ _ => rfl]
    split
    · exact ⟨h, rfl⟩
    · generalize (Vote.mk _ _ _ _ _ _ _ _ : Vote) = vote
      have hwritten := (h.emit (.signVote vote)).walWrite henv (.ofVote vote) true
      rw [hwritten.panicked]
      split
      · exact ⟨hwritten, rfl⟩
      · exact hwritten.addOwnVote henv _

theorem finishCommit (commit : Commit) (updates : List ValidatorUpdate) :
    Twin known k (n₁.finishCommit env₁ commit updates) (n₂.finishCommit env₂ commit updates) := by
  unfold Node.finishCommit
  rw [h.validatorSet, h.height]
  split
  · exact h.halt _
  · rename_i newSet hset
    have hwritten := h.walWrite henv (.ofEndHeight n₁.cs.height) true
    exact hwritten.andThen fun _ => hwritten.advanceHeight commit (wf_nextValidatorSet h.wf hset)

theorem applyCommitted (block : Block) (commit : Commit) :
    Twin known k (n₁.applyCommitted env₁ block commit) (n₂.applyCommitted env₂ block commit) := by
  unfold Node.applyCommitted
  rw [h.eq (·.hasExecutor) fun _ _ => rfl, h.height,
    henv.eq (·.applyBlock) fun _ _ => rfl]
  split
  · have happlied := h.emit (.applyBlock block commit (env₁.applyBlock block commit))
    dsimp only
    split
    · exact happlied.halt _
    · exact happlied.finishCommit henv _ _
  · exact h.finishCommit henv _ _

theorem startCommit : Twin known k (n₁.startCommit env₁) (n₂.startCommit env₂) := by
  have hstep := h.setStep .commit
  have hfound : (n₂.setStep .commit).foundCommit = (n₁.setStep .commit).foundCommit := by
    unfold Node.foundCommit
    rw [hstep.round, hstep.votes.findCommit]
  unfold Node.startCommit
  dsimp only
  rw [hfound, hstep.height]
  split
  · exact hstep.halt _
  · unfold Node.finalizeCommit
    rw [hstep.eq (fun cs => cs.lockedBlock.or cs.proposalBlock) fun _ _ => rfl, hstep.height]
    split
    · exact hstep.halt _
    · split
      · exact hstep.halt _
      · exact hstep.applyCommitted henv _ _

end same

/-! ### Transitions -/

section transitions

variable [Externals]

/-- Nested own votes keep the simulation. -/
def Signs (k : Nat) (sign₁ sign₂ : VoteType → Option Hash → Node → Node) : Prop :=
  ∀ (known : VoteType → Int → Prop) {n₁ n₂ : Node}, Twin known k n₁ n₂ →
    ∀ t hash, Twin known k (sign₁ t hash n₁) (sign₂ t hash n₂)

/-- `handlePrevoteLocked` does not tell an empty set from a missing one. -/
theorem handlePrevoteLocked_quiet {sign : VoteType → Option Hash → Node → Node} {n : Node}
    {set : VoteSet} (hset : n.cs.votes.voteSetAt .prevote vote.round = some set)
    (hany : set.hasTwoThirdsAny = false) (hmaj : set.maj23 = none) :
    handlePrevoteLocked env sign vote n = n := by
  unfold Leaderberry.handlePrevoteLocked
  simp [hset, hany, hmaj, VoteSet.hasTwoThirdsMajority]

theorem handlePrecommitLocked_quiet {sign : VoteType → Option Hash → Node → Node} {n : Node}
    {set : VoteSet} (hset : n.cs.votes.voteSetAt .precommit vote.round = some set)
    (hany : set.hasTwoThirdsAny = false) (hmaj : set.maj23 = none) :
    handlePrecommitLocked env sign vote n = n := by
  unfold Leaderberry.handlePrecommitLocked
  simp [hset, hany, hmaj, VoteSet.twoThirdsMajority]

variable {env₁ env₂ : Env} {sign₁ sign₂ : VoteType → Option Hash → Node → Node}
  (h : Twin known k n₁ n₂) (hsign : Signs k sign₁ sign₂)

include h hsign

theorem enterPrevoteLocked (height r : Int) :
    Twin known k (enterPrevoteLocked sign₁ height r n₁) (enterPrevoteLocked sign₂ height r n₂) := by
  unfold Leaderberry.enterPrevoteLocked
  rw [h.height, h.round, h.step, h.decidePrevote]
  split
  · exact h
  · exact hsign known h.startPrevote _ _

variable (henv : env₁.Delayed k env₂)

include henv

theorem enterPrecommitLocked (height r : Int) :
    Twin known k (enterPrecommitLocked env₁ sign₁ height r n₁)
      (enterPrecommitLocked env₂ sign₂ height r n₂) := by
  obtain ⟨hstart, hhash⟩ := h.startPrecommit henv
  unfold Leaderberry.enterPrecommitLocked
  rw [h.height, h.round, h.step, hhash]
  split
  · exact h
  · exact hstart.andThen fun _ => hsign known hstart _ _

theorem createAndSendProposalLocked :
    Twin known k (createAndSendProposalLocked env₁ sign₁ n₁)
      (createAndSendProposalLocked env₂ sign₂ n₂) := by
  have hblock : ∀ proposer, n₂.cs.blockToPropose env₂ proposer =
      n₁.cs.blockToPropose env₁ proposer := by
    intro proposer
    rw [h.eq (fun cs => cs.blockToPropose env₂ proposer) fun _ _ => rfl,
      henv.eq (fun env => n₁.cs.blockToPropose env proposer) fun _ _ => rfl]
  unfold Leaderberry.createAndSendProposalLocked
  rw [h.validatorSet, h.round]
  split
  · exact h
  · rename_i proposer _
    have hasked := h.requestBlock proposer.name
    dsimp only
    rw [Node.requestBlock_cs, Node.requestBlock_cs, hblock]
    split
    · exact hasked
    · rw [h.height, h.round, hasked.clock henv, h.eq (·.validRound) fun _ _ => rfl,
        h.polVotesToAttach, henv.eq (·.signProposal) fun _ _ => rfl]
      split
      · exact hasked
      · generalize (Proposal.mk _ _ _ _ _ _ _ _ : Proposal) = p
        have hwritten := (hasked.emit (.signProposal p)).walWrite henv (.ofProposal p) true
        refine hwritten.andThen fun _ => ?_
        have htaken := hwritten.takeProposal p true
        rw [htaken.height, htaken.round]
        exact htaken.enterPrevoteLocked hsign _ _

theorem enterNewRoundLocked (height r : Int) :
    Twin known k (enterNewRoundLocked env₁ sign₁ height r n₁)
      (enterNewRoundLocked env₂ sign₂ height r n₂) := by
  have hround := h.startRound r
  unfold Leaderberry.enterNewRoundLocked
  rw [h.height, h.round]
  split
  · exact h
  · dsimp only
    rw [hround.validatorSet, hround.round, hround.eq (·.privVal) fun _ _ => rfl]
    split
    · exact hround
    · split
      · exact hround.createAndSendProposalLocked hsign henv
      · exact hround

theorem enterCommitLocked (height : Int) :
    Twin known k (enterCommitLocked env₁ sign₁ height n₁)
      (enterCommitLocked env₂ sign₂ height n₂) := by
  have hcommit := h.startCommit henv
  unfold Leaderberry.enterCommitLocked
  rw [h.height, h.step]
  split
  · exact h
  · refine hcommit.andThen fun _ => ?_
    rw [hcommit.eq (·.config) fun _ _ => rfl, hcommit.height]
    split
    · exact hcommit.enterNewRoundLocked hsign henv _ _
    · exact hcommit

/-- `handlePrevoteLocked` after its first lookup found the same set on both sides. -/
theorem handlePrevoteLocked_same (vote : Vote)
    (hsame : n₂.cs.votes.voteSetAt .prevote vote.round =
      n₁.cs.votes.voteSetAt .prevote vote.round) :
    Twin known k (handlePrevoteLocked env₁ sign₁ vote n₁)
      (handlePrevoteLocked env₂ sign₂ vote n₂) := by
  unfold Leaderberry.handlePrevoteLocked
  rw [hsame, h.height, h.round, h.step]
  split
  · exact h
  · split
    · -- The set is there on both sides, and stays so until it is looked up again.
      have hknown : Twin (fun t r => known t r ∨ t = .prevote ∧ r = vote.round) k n₁ n₂ :=
        { h with votes := h.votes.learn hsame }
      have hround := hknown.enterNewRoundLocked hsign henv n₁.cs.height vote.round
      refine mono (hround.andThen fun _ => ?_) fun t r hk => .inl hk
      rw [hround.votes.known .prevote vote.round (.inr ⟨rfl, rfl⟩), hround.height]
      split
      · exact hround
      · split
        · exact hround.enterPrecommitLocked hsign henv _ _
        · exact hround.enterPrevoteLocked hsign _ _
    · split
      · split
        · split
          · exact h.enterPrecommitLocked hsign henv _ _
          · exact h
        · split
          · split
            · exact h.enterPrevoteWaitLocked _ _
            · exact h
          · exact h
      · exact h

theorem handlePrevoteLocked (vote : Vote) :
    Twin known k (handlePrevoteLocked env₁ sign₁ vote n₁)
      (handlePrevoteLocked env₂ sign₂ vote n₂) := by
  have hnone : ∀ {env : Env} {sign : VoteType → Option Hash → Node → Node} {n : Node},
      n.cs.votes.voteSetAt .prevote vote.round = none →
      Leaderberry.handlePrevoteLocked env sign vote n = n := by
    intro env sign n hn
    unfold Leaderberry.handlePrevoteLocked
    rw [hn]
  rcases h.votes.voteSetAt .prevote vote.round with hsame | ⟨h₁, h₂⟩ | ⟨h₂, h₁⟩
  · exact h.handlePrevoteLocked_same hsign henv vote hsame
  · obtain ⟨hany, hmaj⟩ := quiet_orNew h.votesWf h₁
    rw [hnone h₁, handlePrevoteLocked_quiet h₂ hany hmaj]
    exact h
  · obtain ⟨hany, hmaj⟩ := quiet_orNew (by rw [h.votes.validatorSet]; exact h.votesWf) h₂
    rw [hnone h₂, handlePrevoteLocked_quiet h₁ hany hmaj]
    exact h

theorem handlePrecommitLocked (vote : Vote) :
    Twin known k (handlePrecommitLocked env₁ sign₁ vote n₁)
      (handlePrecommitLocked env₂ sign₂ vote n₂) := by
  have hnone : ∀ {env : Env} {sign : VoteType → Option Hash → Node → Node} {n : Node},
      n.cs.votes.voteSetAt .precommit vote.round = none →
      Leaderberry.handlePrecommitLocked env sign vote n = n := by
    intro env sign n hn
    unfold Leaderberry.handlePrecommitLocked
    rw [hn]
  rcases h.votes.voteSetAt .precommit vote.round with hsame | ⟨h₁, h₂⟩ | ⟨h₂, h₁⟩
  · unfold Leaderberry.handlePrecommitLocked
    rw [hsame, h.height, h.round, h.step]
    split
    · exact h
    · split
      · have hraised := h.raiseRound vote.round
        dsimp only
        rw [hraised.height]
        exact hraised.enterCommitLocked hsign henv _
      · split
        · have hround := h.enterNewRoundLocked hsign henv n₁.cs.height vote.round
          have hprevote := hround.andThen (f := fun n =>
            Leaderberry.enterPrevoteLocked sign₁ n.cs.height vote.round n) (g := fun n =>
            Leaderberry.enterPrevoteLocked sign₂ n.cs.height vote.round n) fun _ => by
              rw [hround.height]
              exact hround.enterPrevoteLocked hsign _ _
          refine hprevote.andThen fun _ => ?_
          rw [hprevote.height]
          exact hprevote.enterPrecommitLocked hsign henv _ _
        · split
          · exact h.enterPrecommitWaitLocked _ _
          · exact h
  · obtain ⟨hany, hmaj⟩ := quiet_orNew h.votesWf h₁
    rw [hnone h₁, handlePrecommitLocked_quiet h₂ hany hmaj]
    exact h
  · obtain ⟨hany, hmaj⟩ := quiet_orNew (by rw [h.votes.validatorSet]; exact h.votesWf) h₂
    rw [hnone h₂, handlePrecommitLocked_quiet h₁ hany hmaj]
    exact h

theorem handleAddedVote (vote : Vote) :
    Twin known k (handleAddedVote env₁ sign₁ vote n₁) (handleAddedVote env₂ sign₂ vote n₂) := by
  unfold Leaderberry.handleAddedVote
  split
  · exact h.handlePrevoteLocked hsign henv vote
  · exact h.handlePrecommitLocked hsign henv vote
  · exact h

omit h hsign in
/-- The induction is on the stack, as in `signAndSendVoteLocked`. -/
theorem signs : ∀ depth,
    Signs k (signAndSendVoteLocked env₁ depth) (signAndSendVoteLocked env₂ depth)
  | depth, known, n₁, n₂, h, t, hash => by
    obtain ⟨hcast, hvote⟩ := h.castOwnVote henv t hash
    unfold signAndSendVoteLocked
    generalize n₁.castOwnVote env₁ t hash = r₁ at hcast hvote
    generalize n₂.castOwnVote env₂ t hash = r₂ at hcast hvote
    obtain ⟨m₁, vote⟩ := r₁
    obtain ⟨m₂, vote₂⟩ := r₂
    obtain rfl : vote₂ = vote := hvote
    cases vote₂ with
    | none => exact hcast
    | some vote =>
      cases depth with
      | zero => exact (hcast.halt .stackOverflow).broadcastVote vote
      | succ depth => exact (hcast.handleAddedVote (signs depth) henv vote).broadcastVote vote

omit h hsign in
theorem sign : Signs k (sign env₁) (sign env₂) := by
  unfold Leaderberry.sign
  rw [henv.eq (·.depth) fun _ _ => rfl]
  exact signs henv _

/-! ### Events -/

omit hsign in
/-- **Both nodes handle an event in the same way.** -/
theorem handle (event : Event) : Twin known k (handle env₁ event n₁) (handle env₂ event n₂) := by
  have hsign : Signs k (Leaderberry.sign env₁) (Leaderberry.sign env₂) := sign henv
  refine h.andThen fun _ => ?_
  cases event with
  | proposal p =>
    dsimp only
    unfold handleProposal
    have haccepts : n₂.cs.acceptsProposal env₂ p = n₁.cs.acceptsProposal env₁ p := by
      rw [h.eq (fun cs => cs.acceptsProposal env₂ p) fun _ _ => rfl,
        henv.eq (fun env => n₁.cs.acceptsProposal env p) fun _ _ => rfl]
    rw [haccepts]
    split
    · have hwritten := h.walWrite henv (.ofProposal p) true
      refine hwritten.andThen fun _ => ?_
      have htaken := hwritten.takeProposal p false
      dsimp only
      rw [htaken.height, htaken.round]
      exact htaken.enterPrevoteLocked hsign _ _
    · exact h
  | vote v =>
    have hwritten := h.walWrite henv (.ofVote v) false
    refine hwritten.andThen fun _ => ?_
    generalize n₁.walWrite env₁ (.ofVote v) false = m₁ at hwritten
    generalize n₂.walWrite env₂ (.ofVote v) false = m₂ at hwritten
    obtain ⟨hresult, hadded⟩ := hwritten.addVote henv v
    generalize m₁.cs.votes.addVote (env₁.clock m₁.trace.length) v = r₁ at hresult hadded
    generalize m₂.cs.votes.addVote (env₂.clock m₂.trace.length) v = r₂ at hresult hadded
    obtain ⟨result, votes₁⟩ := r₁
    obtain ⟨result₂, votes₂⟩ := r₂
    obtain rfl : result₂ = result := hresult
    match result₂ with
    | .error e => exact hadded
    | .ok false => exact hadded
    | .ok true => exact hadded.handleAddedVote hsign henv v
  | timeout ti =>
    dsimp only
    unfold handleTimeout
    rw [h.height, h.round, h.step]
    split
    · exact h
    · split
      · split
        · exact h.enterPrevoteLocked hsign _ _
        · exact h
      · split
        · exact h.enterPrecommitLocked hsign henv _ _
        · exact h
      · split
        · exact h.enterNewRoundLocked hsign henv _ _
        · exact h
      · exact h.enterNewRoundLocked hsign henv _ _
      · exact h

omit hsign henv in
/-- A vote that is rejected leaves its record, and maybe an empty set. -/
theorem rejected {env : Env} {vote : Vote} (hwrite : env.walWrite (.ofVote vote) = true)
    (hrejected : ∃ e, (n₂.cs.votes.addVote
      (env.clock (n₂.walWrite env (.ofVote vote) false).trace.length) vote).1 = .error e) :
    ∃ k', Twin (fun _ _ => False) k' n₁ (Leaderberry.handle env (.vote vote) n₂) := by
  have hforget : Twin (fun _ _ => False) k n₁ n₂ := h.mono fun _ _ hk => hk.elim
  unfold Leaderberry.handle
  cases hp : n₂.panicked with
  | some p =>
    rw [Node.andThen_panicked hp]
    exact ⟨k, hforget⟩
  | none =>
    obtain ⟨k', hwritten⟩ := hforget.writeVote hwrite
    have halive : (n₂.walWrite env (.ofVote vote) false).panicked = none := by
      rw [hwritten.panicked, ← h.panicked, hp]
    rw [Node.andThen_alive hp]
    dsimp only
    unfold handleVote
    rw [Node.andThen_alive halive]
    rw [← Node.walWrite_cs env (.ofVote vote) false n₂] at hrejected
    generalize n₂.walWrite env (.ofVote vote) false = m at *
    obtain ⟨e, he⟩ := hrejected
    have hagree := hwritten.votes.rejected (by rw [he]; nofun)
    refine ⟨k', ?_⟩
    split
    · rename_i votes hadd
      rw [hadd] at he
      cases he
    · rename_i votes _ hadd
      rw [hadd] at hagree
      refine { hwritten with cs := ?_, votes := hagree }
      show { m.cs with votes := votes } = { n₁.cs with votes := votes }
      rw [hwritten.cs]

end transitions

end Twin

/-! ## Runs -/

section

variable [Externals]

/-- Two runs that handle the same events and get the same answers, except that the second is
also sent votes that `AddVote` rejects. -/
inductive TwinRuns (l : Launch) : Node → Node → Prop
  | start (env : Env) : TwinRuns l (l.start env) (l.start env)
  | shared {n₁ n₂ : Node} {env₁ env₂ : Env} (h : TwinRuns l n₁ n₂)
      (henv : env₁.Delayed (n₂.trace.length - n₁.trace.length) env₂) (event : Event) :
      TwinRuns l (handle env₁ event n₁) (handle env₂ event n₂)
  | extra {n₁ n₂ : Node} {env : Env} {vote : Vote} (h : TwinRuns l n₁ n₂)
      (hwrite : env.walWrite (.ofVote vote) = true)
      (hrejected : ∃ e, (n₂.cs.votes.addVote
        (env.clock (n₂.walWrite env (.ofVote vote) false).trace.length) vote).1 = .error e) :
      TwinRuns l n₁ (handle env (.vote vote) n₂)

namespace TwinRuns

variable {l : Launch} {n₁ n₂ : Node}

/-- A run without extra votes. -/
theorem refl (l : Launch) (env : Env) (events : List (Env × Event)) :
    TwinRuns l (l.run env events) (l.run env events) := by
  induction events using List.reverseRecOn with
  | nil => exact .start env
  | append_singleton events e ih =>
    rw [l.run_append]
    refine .shared ih ?_ e.2
    rw [Nat.sub_self]
    exact .refl e.1

/-- **Rejected votes change neither the state, but for empty vote sets, nor what is written,
but for their records.** -/
theorem twin (h : TwinRuns l n₁ n₂) : ∃ k, Twin (fun _ _ => False) k n₁ n₂ := by
  induction h with
  | start env =>
    have hfresh : Twin (fun _ _ => False) 0 l.fresh l.fresh :=
      ⟨rfl, .refl _, rfl, rfl, rfl, l.wf, l.wf⟩
    exact ⟨0, hfresh.enterNewRoundLocked (Twin.sign (.refl env)) (.refl env) _ _⟩
  | shared _ henv event ih =>
    obtain ⟨k, hk⟩ := ih
    rw [hk.length, Nat.add_sub_cancel_left] at henv
    exact ⟨k, hk.handle henv event⟩
  | extra _ hwrite hrejected ih =>
    obtain ⟨k, hk⟩ := ih
    exact hk.rejected hwrite hrejected

/-- Each of the two is a run. -/
theorem runs (h : TwinRuns l n₁ n₂) : ∃ env events₁ events₂,
    n₁ = l.run env events₁ ∧ n₂ = l.run env events₂ := by
  induction h with
  | start env => exact ⟨env, [], [], rfl, rfl⟩
  | @shared _ _ env₁ env₂ _ _ event ih =>
    obtain ⟨env, events₁, events₂, rfl, rfl⟩ := ih
    exact ⟨env, events₁ ++ [(env₁, event)], events₂ ++ [(env₂, event)],
      (l.run_append env events₁ (env₁, event)).symm,
      (l.run_append env events₂ (env₂, event)).symm⟩
  | @extra _ _ env' vote _ _ _ ih =>
    obtain ⟨env, events₁, events₂, rfl, rfl⟩ := ih
    exact ⟨env, events₁, events₂ ++ [(env', .vote vote)], rfl,
      (l.run_append env events₂ (env', .vote vote)).symm⟩

end TwinRuns

end

end Leaderberry
