import Mathlib.Logic.Relation
import Leaderberry.Engine.Tally
import Leaderberry.Engine.State

/-!
# Micro-steps

Every handler of the state machine is a sequence of micro-steps, each of which
makes one change: enter a round, take a proposal, cast a vote, store a received
vote, commit. `handle_steps` is the simulation: handling an event is a run of
micro-steps. All invariants are proved once per micro-step (`MicroStep`), never
against the mutually recursive handlers.

Re-entering a round whose prevote step was already reached (`reenter`) is a
micro-step of its own: only `handleTimeout` does it, for a commit timeout that
fires late and for the last `int32` round. The relation takes a flag that allows
it, so that a property can be proved for the runs without it.
-/

namespace Leaderberry

/-- Actions that concern neither votes nor locks nor heights. A new block is asked for
with the height and the last commit of the moment. -/
def Action.Neutral (cs : ConsensusState) : Action → Prop
  | .createProposalBlock request =>
    request.height = cs.height ∧ request.lastCommit = cs.lastCommit
  | .walWrite m _ => (∃ p, m = .ofProposal p) ∨ ∃ v, m = .ofVote v
  | .signProposal _ => True
  | .broadcastVote _ => True
  | _ => False

section

variable [Externals]

/-- `p` is the proposal `createAndSendProposalLocked` builds in this state. -/
structure OwnProposal (cs : ConsensusState) (env : Env) (p : Proposal) : Prop where
  step : cs.step = .propose
  proposer : ∃ proposer, cs.validatorSet.getProposerForRound cs.round = some proposer ∧
    cs.privVal = some proposer.publicKey ∧ p.proposer = proposer.name ∧
    cs.blockToPropose env proposer = some p.block
  height : p.height = cs.height
  round : p.round = cs.round
  polRound : p.polRound = cs.validRound
  polVotes : p.polVotes = cs.polVotesToAttach
  signature : env.signProposal { p with signature := ⟨[]⟩ } = some p.signature

/-- The checks of `handleProposal`. -/
theorem acceptsProposal_iff {cs : ConsensusState} {env : Env} {p : Proposal} :
    cs.acceptsProposal env p = true ↔
      p.height = cs.height ∧ p.round = cs.round ∧ cs.proposal = none ∧
      (∃ proposer, cs.validatorSet.getProposerForRound p.round = some proposer ∧
        p.proposer = proposer.name ∧ verifySignature proposer.publicKey
          (proposalSignBytes cs.config.chainID p) p.signature = true) ∧
      (0 ≤ p.polRound → cs.polValid p = true) ∧
      (cs.hasExecutor = true → env.validateBlock p.block = true) := by
  unfold ConsensusState.acceptsProposal
  split
  · rename_i hother
    constructor
    · intro h
      cases h
    · rintro ⟨hh, hr, -⟩
      exact absurd hother (by simp [hh, hr])
  rename_i hhere
  simp only [ne_eq, not_or, not_not] at hhere
  split
  · rename_i hsome
    constructor
    · intro h
      cases h
    · rintro ⟨-, -, hnone, -⟩
      rw [hnone] at hsome
      cases hsome
  rename_i hnone
  split
  · rename_i hproposer
    simp [hproposer]
  · rename_i proposer hproposer
    cases hsig : verifySignature proposer.publicKey (proposalSignBytes cs.config.chainID p)
      p.signature <;> cases hpol : cs.polValid p <;> cases hexec : cs.hasExecutor <;>
      by_cases hname : p.proposer = proposer.name <;> simp_all

namespace Node

/-- `enterPrevoteLocked` with the casting of the own vote. -/
def prevoteOnce (env : Env) (n : Node) : Node :=
  (n.startPrevote.castOwnVote env .prevote n.cs.decidePrevote.1).1

/-- `enterPrecommitLocked` with the casting of the own vote. -/
def precommitOnce (env : Env) (n : Node) : Node :=
  (n.startPrecommit env).1.andThen fun m =>
    (m.castOwnVote env .precommit (n.startPrecommit env).2).1

end Node

/-- One change of a running node. -/
inductive MicroStep (re : Bool) (env : Env) (input : Option Event) : Node → Node → Prop
  | emit {n a} : n.panicked = none → a.Neutral n.cs → MicroStep re env input n (n.emit a)
  | halt {n p} : n.panicked = none → MicroStep re env input n (n.halt p)
  | startRound {n r} : n.panicked = none → n.cs.round < r ∨ r = n.cs.round ∧
      n.cs.step < .prevote → MicroStep re env input n (n.startRound r)
  | reenter {n} : re = true → n.panicked = none → .prevote ≤ n.cs.step →
      MicroStep re env input n (n.startRound n.cs.round)
  | accept {n p} : n.panicked = none → input = some (.proposal p) →
      n.cs.acceptsProposal env p = true → .prevote ≤ n.cs.step →
      MicroStep re env input n (n.takeProposal p false)
  | acceptPrevote {n p} : n.panicked = none → input = some (.proposal p) →
      n.cs.acceptsProposal env p = true → n.cs.step < .prevote →
      MicroStep re env input n ((n.takeProposal p false).prevoteOnce env)
  | proposePrevote {n p} : n.panicked = none → OwnProposal n.cs env p →
      MicroStep re env input n ((n.takeProposal p true).prevoteOnce env)
  | prevote {n} : n.panicked = none → n.cs.step < .prevote →
      MicroStep re env input n (n.prevoteOnce env)
  | prevoteWait {n} : n.panicked = none → n.cs.step < .prevoteWait →
      MicroStep re env input n n.startPrevoteWait
  | precommit {n} : n.panicked = none → n.cs.step < .precommit →
      MicroStep re env input n (n.precommitOnce env)
  | precommitWait {n} : n.panicked = none → n.cs.step < .precommitWait →
      MicroStep re env input n n.startPrecommitWait
  | receiveVote {n now v} : n.panicked = none → input = some (.vote v) →
      MicroStep re env input n (n.setVotes (n.cs.votes.addVote now v).2)
  | commit {n r hash} : n.panicked = none →
      n.cs.votes.majority .precommit r = some hash → isHashEmpty hash = false →
      n.cs.step < .commit → MicroStep re env input n ((n.raiseRound r).startCommit env)
  | raiseRound {n r} : n.panicked = none → .commit ≤ n.cs.step →
      MicroStep re env input n (n.raiseRound r)

/-- Any number of micro-steps. -/
abbrev Steps (re : Bool) (env : Env) (input : Option Event) : Node → Node → Prop :=
  Relation.ReflTransGen (MicroStep re env input)

end

/-! ## Small facts about the building blocks -/

namespace Node

@[simp] theorem emit_cs (n : Node) (a : Action) : (n.emit a).cs = n.cs := rfl
@[simp] theorem emit_panicked (n : Node) (a : Action) : (n.emit a).panicked = n.panicked := rfl
@[simp] theorem emit_trace (n : Node) (a : Action) :
    (n.emit a).trace = (n.cs, a) :: n.trace := rfl
@[simp] theorem halt_cs (n : Node) (p : Panic) : (n.halt p).cs = n.cs := rfl
@[simp] theorem halt_trace (n : Node) (p : Panic) : (n.halt p).trace = n.trace := rfl
@[simp] theorem halt_panicked (n : Node) (p : Panic) : (n.halt p).panicked = some p := rfl
@[simp] theorem setStep_panicked (n : Node) (s : RoundStep) :
    (n.setStep s).panicked = n.panicked := rfl
@[simp] theorem setVotes_panicked (n : Node) (v : HeightVoteSet) :
    (n.setVotes v).panicked = n.panicked := rfl
@[simp] theorem setLock_panicked (n : Node) (r : Int) (b : Option Block) :
    (n.setLock r b).panicked = n.panicked := rfl
@[simp] theorem startRound_panicked (n : Node) (r : Int) :
    (n.startRound r).panicked = n.panicked := rfl
@[simp] theorem requestBlock_cs (n : Node) (proposer : AccountName) :
    (n.requestBlock proposer).cs = n.cs := by
  unfold requestBlock
  split <;> rfl
@[simp] theorem requestBlock_panicked (n : Node) (proposer : AccountName) :
    (n.requestBlock proposer).panicked = n.panicked := by
  unfold requestBlock
  split <;> rfl
@[simp] theorem startRound_cs (n : Node) (r : Int) :
    (n.startRound r).cs = n.cs.enterRound r := rfl
theorem startRound_trace (n : Node) (r : Int) : (n.startRound r).trace =
    (n.cs.enterRound r, .scheduleTimeout ⟨n.cs.height, r, .propose⟩) :: n.trace := rfl

@[simp] theorem advanceHeight_cs (commit : Commit) (vs : ValidatorSet) (n : Node) :
    (n.advanceHeight commit vs).cs = n.cs.nextHeight commit vs := by
  unfold advanceHeight
  dsimp only
  split <;> rfl

@[simp] theorem advanceHeight_panicked (commit : Commit) (vs : ValidatorSet) (n : Node) :
    (n.advanceHeight commit vs).panicked = n.panicked := by
  unfold advanceHeight
  dsimp only
  split <;> rfl

theorem andThen_alive {n : Node} (h : n.panicked = none) (f : Node → Node) :
    n.andThen f = f n := by
  simp [andThen, h]

theorem andThen_panicked {n : Node} {p : Panic} (h : n.panicked = some p) (f : Node → Node) :
    n.andThen f = n := by
  simp [andThen, h]

/-- Running on keeps a property if a running node keeps it. -/
theorem andThen_of {P : Node → Prop} {n : Node} {f : Node → Node} (hn : P n)
    (hf : n.panicked = none → P (f n)) : P (n.andThen f) := by
  cases hp : n.panicked with
  | none =>
    rw [andThen_alive hp]
    exact hf hp
  | some p =>
    rw [andThen_panicked hp]
    exact hn

@[simp] theorem walWrite_cs (env : Env) (m : Message) (sync : Bool) (n : Node) :
    (n.walWrite env m sync).cs = n.cs := by
  unfold walWrite
  split
  · rfl
  · split <;> rfl

@[simp] theorem takeProposal_panicked (p : Proposal) (own : Bool) (n : Node) :
    (n.takeProposal p own).panicked = n.panicked := by
  unfold takeProposal
  dsimp only
  split <;> rfl

@[simp] theorem takeProposal_cs (p : Proposal) (own : Bool) (n : Node) :
    (n.takeProposal p own).cs =
      { n.cs with proposal := some p, proposalBlock := some p.block } := by
  unfold takeProposal
  dsimp only
  split <;> rfl

theorem takeProposal_trace (p : Proposal) (own : Bool) (n : Node) :
    (n.takeProposal p own).trace =
      (if own && n.cs.onProposal then [((n.takeProposal p own).cs, .broadcastProposal p)]
        else []) ++ ((n.takeProposal p own).cs, .acceptProposal p) :: n.trace := by
  rw [takeProposal_cs]
  unfold takeProposal
  cases own <;> cases h : n.cs.onProposal <;> simp [h]

@[simp] theorem raiseRound_panicked (r : Int) (n : Node) :
    (n.raiseRound r).panicked = n.panicked := by
  unfold raiseRound
  split <;> rfl

@[simp] theorem raiseRound_cs (r : Int) (n : Node) :
    (n.raiseRound r).cs = { n.cs with round := max n.cs.round r } := by
  unfold raiseRound
  split
  · rename_i h
    rw [max_eq_right h.le]
  · rename_i h
    rw [max_eq_left (not_lt.mp h)]

theorem startPrevote_cases [Externals] (n : Node) :
    (n.cs.decidePrevote.2 = false ∧ n.startPrevote = n.setStep .prevote) ∨
      n.cs.decidePrevote.2 = true ∧
        n.startPrevote = ((n.setStep .prevote).emit .unlockPol).setLock (-1) none := by
  unfold startPrevote
  dsimp only
  split
  · rename_i h
    exact .inr ⟨h, rfl⟩
  · rename_i h
    exact .inl ⟨eq_false_of_ne_true h, rfl⟩

@[simp] theorem startPrevote_panicked [Externals] (n : Node) :
    n.startPrevote.panicked = n.panicked := by
  unfold startPrevote
  dsimp only
  split <;> rfl

end Node

/-- The panics of `enterCommitLocked` and `finalizeCommitLocked` for want of the decided
block. -/
def Panic.Critical : Panic → Prop
  | .noCommitFound _ => True
  | .noBlock _ => True
  | .blockHashMismatch .. => True
  | _ => False

/-! ## How a vote, a lock and a commit end -/

section outcomes

variable [Externals] {n m : Node} {env : Env} {t : VoteType} {hash : Option Hash} {vote : Vote}

/-- The trace entry of a synced record. -/
def syncEntry (cs : ConsensusState) (m : Message) : List (ConsensusState × Action) :=
  if cs.hasWal then [(cs, .walWrite m true)] else []

omit [Externals] in
theorem mem_syncEntry {cs : ConsensusState} {m : Message} {x : ConsensusState × Action}
    (h : x ∈ syncEntry cs m) : x = (cs, .walWrite m true) := by
  unfold syncEntry at h
  split at h
  · exact List.mem_singleton.mp h
  · cases h

omit [Externals] in
theorem walWrite_cases (env : Env) (m : Message) (n : Node) :
    (n.walWrite env m true = { n with trace := syncEntry n.cs m ++ n.trace }) ∨
      n.walWrite env m true = n.halt (.walWrite m) := by
  unfold Node.walWrite syncEntry
  cases n.cs.hasWal
  · exact .inl rfl
  · simp only [Bool.not_true, Bool.false_eq_true, if_false, if_true]
    split
    · exact .inl rfl
    · exact .inr rfl

/-- `vote` is the node's own vote for `hash`, signed by its private validator. -/
structure OwnVote (cs : ConsensusState) (env : Env) (t : VoteType) (hash : Option Hash)
    (vote : Vote) : Prop where
  type : vote.type = t
  height : vote.height = cs.height
  round : vote.round = cs.round
  blockHash : vote.blockHash = hash
  validator : ∃ val, cs.ownValidator = some (vote.validatorIndex, val) ∧
    vote.validator = val.name
  signature : env.signVote { vote with signature := ⟨[]⟩ } = some vote.signature

/-- The own vote was signed, written and added. -/
structure Cast (n : Node) (env : Env) (t : VoteType) (hash : Option Hash) (vote : Vote)
    (m : Node) : Prop where
  own : OwnVote n.cs env t hash vote
  panicked : m.panicked = n.panicked
  added : ∃ now, (n.cs.votes.addVote now vote).1 = .ok true ∧
    m.cs = { n.cs with votes := (n.cs.votes.addVote now vote).2 }
  trace : m.trace = (m.cs, .castVote vote) :: syncEntry n.cs (.ofVote vote) ++
    (n.cs, .signVote vote) :: n.trace

/-- The own vote was signed, and then the WAL or the own vote set refused it. -/
structure CastFailed (n : Node) (env : Env) (t : VoteType) (hash : Option Hash) (vote : Vote)
    (m : Node) : Prop where
  own : OwnVote n.cs env t hash vote
  panicked : ∃ p, m.panicked = some p ∧ ¬ p.Critical
  votes : m.cs = n.cs ∨ ∃ now, (n.cs.votes.addVote now vote).1 ≠ .ok true ∧
    m.cs = { n.cs with votes := (n.cs.votes.addVote now vote).2 }
  trace : m.trace = (n.cs, .signVote vote) :: n.trace ∨
    m.trace = syncEntry n.cs (.ofVote vote) ++ (n.cs, .signVote vote) :: n.trace

theorem addOwnVote_cases (env : Env) (vote : Vote) (n : Node) :
    ∃ now, ((n.cs.votes.addVote now vote).1 = .ok true ∧ n.addOwnVote env vote =
        ((n.setVotes (n.cs.votes.addVote now vote).2).emit (.castVote vote), some vote)) ∨
      (n.cs.votes.addVote now vote).1 ≠ .ok true ∧ ∃ p, ¬ p.Critical ∧ n.addOwnVote env vote =
        ((n.setVotes (n.cs.votes.addVote now vote).2).halt p, none) := by
  refine ⟨env.clock n.trace.length, ?_⟩
  unfold Node.addOwnVote
  split
  · rename_i e votes hadd
    exact .inr ⟨by rw [hadd]; simp, .ownVoteFailed e, id, by rw [hadd]⟩
  · rename_i votes hadd
    exact .inr ⟨by rw [hadd]; simp, .ownVoteNotAdded, id, by rw [hadd]⟩
  · rename_i votes hadd
    exact .inl ⟨by rw [hadd], by rw [hadd]⟩

/-- The three ways of casting a vote: nothing is signed, the vote is cast, or the
node stops. -/
theorem castOwnVote_cases (env : Env) (t : VoteType) (hash : Option Hash)
    (halive : n.panicked = none) :
    n.castOwnVote env t hash = (n, none) ∨
    (∃ vote, Cast n env t hash vote (n.castOwnVote env t hash).1 ∧
      (n.castOwnVote env t hash).2 = some vote) ∨
    (∃ vote, CastFailed n env t hash vote (n.castOwnVote env t hash).1 ∧
      (n.castOwnVote env t hash).2 = none) := by
  unfold Node.castOwnVote
  split
  · exact .inl rfl
  · rename_i valIndex validator hval
    split
    · exact .inl rfl
    · rename_i signature hsig
      right
      dsimp only
      generalize hvote : ({ n.unsignedVote env t hash valIndex validator with
        signature := signature } : Vote) = vote
      have hown : OwnVote n.cs env t hash vote := by
        subst hvote
        exact ⟨rfl, rfl, rfl, rfl, ⟨validator, hval, rfl⟩, hsig⟩
      have hwal := walWrite_cases env (.ofVote vote) (n.emit (.signVote vote))
      generalize (n.emit (.signVote vote)).walWrite env (.ofVote vote) true = m at hwal ⊢
      rcases hwal with rfl | rfl
      · -- written: the vote set decides
        simp only [Node.emit_panicked, halive, Node.emit_cs, Node.emit_trace]
        generalize hm : ({ n with
          trace := syncEntry n.cs (.ofVote vote) ++ (n.cs, .signVote vote) :: n.trace
          panicked := none } : Node) = m
        have hcs : m.cs = n.cs := by rw [← hm]
        have htrace : m.trace =
          syncEntry n.cs (.ofVote vote) ++ (n.cs, .signVote vote) :: n.trace := by rw [← hm]
        have hmalive : m.panicked = none := by rw [← hm]
        obtain ⟨now, ⟨hok, heq⟩ | ⟨hne, p, hmild, heq⟩⟩ := addOwnVote_cases env vote m
        · rw [heq]
          rw [hcs] at hok
          refine .inl ⟨vote, ⟨hown, by simp [hmalive, halive], ⟨now, hok, ?_⟩, ?_⟩, rfl⟩
          · simp [Node.setVotes, hcs]
          · simp [Node.setVotes, htrace]
        · rw [heq]
          rw [hcs] at hne
          refine .inr ⟨vote, ⟨hown, ⟨p, rfl, hmild⟩, .inr ⟨now, hne, ?_⟩, .inr htrace⟩, rfl⟩
          simp [Node.setVotes, hcs]
      · exact .inr ⟨vote, ⟨hown, ⟨_, rfl, id⟩, .inl rfl, .inl rfl⟩, rfl⟩

theorem castOwnVote_cast (h : n.castOwnVote env t hash = (m, some vote))
    (halive : n.panicked = none) :
    Cast n env t hash vote m := by
  rcases castOwnVote_cases env t hash halive with heq | ⟨v, hcast, hsome⟩ | ⟨v, -, hnone⟩
  · rw [heq] at h
    cases h
  · rw [h] at hcast hsome
    cases hsome
    exact hcast
  · rw [h] at hnone
    cases hnone

theorem castOwnVote_alive (h : n.castOwnVote env t hash = (m, some vote))
    (halive : n.panicked = none) :
    m.panicked = none :=
  (castOwnVote_cast h halive).panicked.trans halive

/-- What holds without a vote, after handling the vote, and after an action, holds after
`signAndSendVoteLocked`. -/
theorem signAndSendVoteLocked_succ {P : Node → Prop} {env : Env} {depth : Nat} {t : VoteType}
    {hash : Option Hash} {n : Node} (halive : n.panicked = none)
    (hnone : (n.castOwnVote env t hash).2 = none → P (n.castOwnVote env t hash).1)
    (hcast : ∀ vote m, n.castOwnVote env t hash = (m, some vote) → Cast n env t hash vote m →
      P (handleAddedVote env (signAndSendVoteLocked env depth) vote m))
    (hemit : ∀ k v, P k → P (Node.emit k (.broadcastVote v))) :
    P (signAndSendVoteLocked env (depth + 1) t hash n) := by
  unfold signAndSendVoteLocked
  split
  · rename_i m heq
    rw [heq] at hnone
    exact hnone rfl
  · rename_i m vote heq
    have hhandled := hcast vote m heq (castOwnVote_cast heq halive)
    refine Node.andThen_of hhandled fun _ => ?_
    dsimp only
    split
    · exact hemit _ _ hhandled
    · exact hhandled

/-- Without a stack frame an own vote overflows the stack. -/
theorem signAndSendVoteLocked_zero {P : Node → Prop}
    (hnone : (n.castOwnVote env t hash).2 = none → P (n.castOwnVote env t hash).1)
    (hcast : ∀ vote m, n.castOwnVote env t hash = (m, some vote) → P (m.halt .stackOverflow)) :
    P (signAndSendVoteLocked env 0 t hash n) := by
  unfold signAndSendVoteLocked
  split
  · rename_i m heq
    rw [heq] at hnone
    exact hnone rfl
  · rename_i m vote heq
    exact hcast vote m heq

/-- `startPrecommit` does one of three things: it only takes the step, it gives up
the lock for a nil majority, or it locks on the proposal block of a majority. -/
theorem startPrecommit_cases (env : Env) (n : Node) :
    n.startPrecommit env = (n.setStep .precommit, none) ∨
    (∃ hash, n.cs.votes.majority .prevote n.cs.round = some hash ∧ isHashEmpty hash = true ∧
      n.startPrecommit env =
        (((n.setStep .precommit).emit .unlockNil).setLock (-1) none, none)) ∨
    ∃ block, n.cs.votes.majority .prevote n.cs.round = some (some (blockHash block)) ∧
      isHashEmpty (some (blockHash block)) = false ∧ n.cs.proposalBlock = some block ∧
      n.startPrecommit env =
        (((n.setStep .precommit).lockOn block).writeState env, some (blockHash block)) := by
  unfold Node.startPrecommit
  dsimp only
  split
  · exact .inl rfl
  · rename_i hash hmaj
    split
    · rename_i hempty
      exact .inr (.inl ⟨hash, hmaj, hempty, rfl⟩)
    · rename_i hne
      split
      · exact .inl rfl
      · rename_i block hblock
        split
        · rename_i heq
          subst heq
          exact .inr (.inr ⟨block, hmaj, by simpa using hne, hblock, rfl⟩)
        · exact .inl rfl

/-- Casting a vote changes nothing but the vote sets. -/
theorem castOwnVote_frame (env : Env) (t : VoteType) (hash : Option Hash)
    (halive : n.panicked = none) :
    ∃ votes, (n.castOwnVote env t hash).1.cs = { n.cs with votes } := by
  rcases castOwnVote_cases env t hash halive with heq | ⟨v, hcast, -⟩ | ⟨v, hfail, -⟩
  · exact ⟨n.cs.votes, by rw [heq]⟩
  · obtain ⟨now, -, hcs⟩ := hcast.added
    exact ⟨_, hcs⟩
  · rcases hfail.votes with hcs | ⟨now, -, hcs⟩
    · exact ⟨n.cs.votes, hcs⟩
    · exact ⟨_, hcs⟩

/-- Entering Prevote changes the step and at most the lock. -/
theorem startPrevote_frame (n : Node) : ∃ lockedRound lockedBlock,
    n.startPrevote.cs = { n.cs with step := .prevote, lockedRound, lockedBlock } := by
  rcases n.startPrevote_cases with ⟨-, heq⟩ | ⟨-, heq⟩
  · exact ⟨n.cs.lockedRound, n.cs.lockedBlock, by rw [heq]; rfl⟩
  · exact ⟨_, _, by rw [heq]; rfl⟩

/-- Entering Precommit changes the step and at most the locked and the valid block. -/
theorem startPrecommit_frame (env : Env) (n : Node) :
    ∃ lockedRound lockedBlock validRound validBlock, (n.startPrecommit env).1.cs =
      { n.cs with step := .precommit, lockedRound, lockedBlock, validRound, validBlock } := by
  rcases startPrecommit_cases env n with heq | ⟨hash, -, -, heq⟩ | ⟨block, -, -, -, heq⟩
  · exact ⟨n.cs.lockedRound, n.cs.lockedBlock, n.cs.validRound, n.cs.validBlock, by rw [heq]; rfl⟩
  · exact ⟨_, _, n.cs.validRound, n.cs.validBlock, by rw [heq]; rfl⟩
  · refine ⟨n.cs.round, some block, n.cs.round, some block, ?_⟩
    rw [heq, Node.writeState, Node.walWrite_cs]
    rfl

/-- The certificate and block a commit works with. -/
structure CommitChoice (cs : ConsensusState) (commit : Commit) (block : Block) : Prop where
  round : 0 ≤ cs.round
  found : ConsensusState.findCommit cs.votes cs.round.toNat = some commit
  chosen : cs.lockedBlock.or cs.proposalBlock = some block
  hash : Leaderberry.blockHash block = commit.blockHash

/-- The trace entry of `ApplyBlock`. -/
def applyEntry (cs : ConsensusState) (block : Block) (commit : Commit)
    (updates : List ValidatorUpdate) : List (ConsensusState × Action) :=
  if cs.hasExecutor then [(cs, .applyBlock block commit (some updates))] else []

omit [Externals] in
theorem mem_applyEntry {cs : ConsensusState} {block : Block} {commit : Commit}
    {updates : List ValidatorUpdate} {x : ConsensusState × Action}
    (h : x ∈ applyEntry cs block commit updates) :
    x = (cs, .applyBlock block commit (some updates)) := by
  unfold applyEntry at h
  split at h
  · exact List.mem_singleton.mp h
  · cases h

/-- The commit went through. -/
structure Committed (n : Node) (env : Env) (commit : Commit) (block : Block)
    (updates : List ValidatorUpdate) (newSet : ValidatorSet) (m : Node) : Prop where
  choice : CommitChoice n.cs commit block
  executed : if n.cs.hasExecutor then env.applyBlock block commit = some updates
    else updates = []
  nextSet : Node.nextValidatorSet n.cs.validatorSet updates = .ok newSet
  eq : m = Node.advanceHeight commit newSet
    { n.setStep .commit with
      trace := syncEntry (n.setStep .commit).cs (.ofEndHeight n.cs.height) ++
        (applyEntry (n.setStep .commit).cs block commit updates ++ n.trace) }

/-- The commit panicked, after at most the call of `ApplyBlock`. -/
structure CommitFailed (n m : Node) : Prop where
  panicked : ∃ p, m.panicked = some p
  cs : m.cs = (n.setStep .commit).cs
  trace : m.trace = n.trace ∨ ∃ commit block result, CommitChoice n.cs commit block ∧
    m.trace = ((n.setStep .commit).cs, .applyBlock block commit result) :: n.trace

theorem Committed.cs {commit : Commit} {block : Block} {updates : List ValidatorUpdate}
    {newSet : ValidatorSet} (hc : Committed n env commit block updates newSet m) :
    m.cs = (n.setStep .commit).cs.nextHeight commit newSet := by
  rw [hc.eq, Node.advanceHeight_cs]

theorem Committed.height {commit : Commit} {block : Block} {updates : List ValidatorUpdate}
    {newSet : ValidatorSet} (hc : Committed n env commit block updates newSet m) :
    m.cs.height = n.cs.height + 1 := by
  rw [hc.cs]
  rfl

theorem finishCommit_cases (env : Env) (commit : Commit) (updates : List ValidatorUpdate)
    (n : Node) (halive : n.panicked = none) :
    (∃ newSet, Node.nextValidatorSet n.cs.validatorSet updates = .ok newSet ∧
      n.finishCommit env commit updates = Node.advanceHeight commit newSet
        { n with trace := syncEntry n.cs (.ofEndHeight n.cs.height) ++ n.trace }) ∨
    ∃ p, n.finishCommit env commit updates = n.halt p := by
  unfold Node.finishCommit
  split
  · exact .inr ⟨_, rfl⟩
  · rename_i newSet hset
    rcases walWrite_cases env (.ofEndHeight n.cs.height) n with hw | hw
    · rw [hw, Node.andThen_alive (by exact halive)]
      exact .inl ⟨newSet, hset, rfl⟩
    · rw [hw, Node.andThen_panicked rfl]
      exact .inr ⟨_, rfl⟩

/-- How a commit ends: at the next height, or stopped in the Commit step. -/
theorem startCommit_cases (env : Env) (n : Node) (halive : n.panicked = none) :
    (∃ commit block updates newSet,
      Committed n env commit block updates newSet (n.startCommit env)) ∨
    CommitFailed n (n.startCommit env) := by
  unfold Node.startCommit
  dsimp only
  split
  · exact .inr ⟨⟨_, rfl⟩, rfl, .inl rfl⟩
  · rename_i commit hfound
    unfold Node.finalizeCommit
    split
    · exact .inr ⟨⟨_, rfl⟩, rfl, .inl rfl⟩
    · rename_i block hblock
      split
      · exact .inr ⟨⟨_, rfl⟩, rfl, .inl rfl⟩
      · rename_i hhash
        have hchoice : CommitChoice n.cs commit block := by
          unfold Node.foundCommit at hfound
          split at hfound
          · cases hfound
          · rename_i hround
            exact ⟨not_lt.mp hround, hfound, hblock, not_not.mp hhash⟩
        unfold Node.applyCommitted
        by_cases hexec : n.cs.hasExecutor = true
        · rw [if_pos (by exact hexec)]
          dsimp only
          split
          · exact .inr ⟨⟨_, rfl⟩, rfl, .inr ⟨commit, block, _, hchoice, rfl⟩⟩
          · rename_i updates hupd
            rw [hupd]
            rcases finishCommit_cases env commit updates ((n.setStep .commit).emit
                (.applyBlock block commit (some updates))) halive with
              ⟨newSet, hset, heq⟩ | ⟨p, heq⟩
            · refine .inl ⟨commit, block, updates, newSet, hchoice,
                by rw [if_pos hexec]; exact hupd,
                hset, ?_⟩
              rw [heq, applyEntry, if_pos (by exact hexec)]
              rfl
            · rw [heq]
              exact .inr ⟨⟨_, rfl⟩, rfl, .inr ⟨commit, block, _, hchoice, rfl⟩⟩
        · rw [if_neg (by exact hexec)]
          rcases finishCommit_cases env commit [] (n.setStep .commit) halive with
            ⟨newSet, hset, heq⟩ | ⟨p, heq⟩
          · refine .inl ⟨commit, block, [], newSet, hchoice, by rw [if_neg hexec], hset, ?_⟩
            rw [heq, applyEntry, if_neg (by exact hexec)]
            rfl
          · rw [heq]
            exact .inr ⟨⟨_, rfl⟩, rfl, .inl rfl⟩

/-- A commit that did not panic has moved to the NewHeight step. -/
theorem startCommit_alive (hn : n.panicked = none) (h : (n.startCommit env).panicked = none) :
    (n.startCommit env).cs.step = .newHeight := by
  rcases startCommit_cases env n hn with ⟨commit, block, updates, newSet, hc⟩ | hf
  · rw [hc.cs]
    rfl
  · obtain ⟨p, hp⟩ := hf.panicked
    rw [h] at hp
    cases hp

end outcomes

/-! ## The simulation -/

section simulation

variable [Externals] {re : Bool} {env : Env} {input : Option Event} {n : Node}

/-- Running on after a sequence of micro-steps. -/
theorem steps_andThen {m : Node} {f : Node → Node} (h : Steps re env input n m)
    (hf : m.panicked = none → Steps re env input m (f m)) : Steps re env input n (m.andThen f) :=
  Node.andThen_of h fun hm => h.trans (hf hm)

theorem steps_walWrite (halive : n.panicked = none) {m : Message} {sync : Bool}
    (hm : (Action.walWrite m sync).Neutral n.cs) :
    Steps re env input n (n.walWrite env m sync) := by
  unfold Node.walWrite
  split
  · exact .refl
  · split
    · exact .single (.emit halive hm)
    · exact .single (.halt halive)

omit [Externals] in
theorem neutral_blockRequest {proposer : AccountName} {request : ProposalRequest}
    (h : n.cs.blockRequest proposer = some request) :
    (Action.createProposalBlock request).Neutral n.cs := by
  unfold ConsensusState.blockRequest at h
  split at h
  · cases h
  · cases h
    exact ⟨rfl, rfl⟩

theorem steps_requestBlock (halive : n.panicked = none) (proposer : AccountName) :
    Steps re env input n (n.requestBlock proposer) := by
  unfold Node.requestBlock
  split
  · exact .refl
  · rename_i request hrequest
    exact .single (.emit halive (neutral_blockRequest hrequest))

/-- What the recursion through `signAndSendVoteLocked` provides: it casts the own
vote and goes on in micro-steps. -/
def SignSteps (re : Bool) (env : Env) (input : Option Event)
    (sign : VoteType → Option Hash → Node → Node) : Prop :=
  ∀ t hash (n : Node), n.panicked = none →
    Steps re env input (n.castOwnVote env t hash).1 (sign t hash n)

/-- The commit, and the next round at once if the wait for it is skipped. -/
abbrev Node.commitOn (env : Env) (sign : VoteType → Option Hash → Node → Node) (n : Node) : Node :=
  (n.startCommit env).andThen fun n =>
    if n.cs.config.skipTimeoutCommit then enterNewRoundLocked env sign n.cs.height 0 n else n

variable {sign : VoteType → Option Hash → Node → Node} (hsign : SignSteps re env input sign)

include hsign

theorem enterPrevoteLocked_steps (halive : n.panicked = none) (h r : Int) :
    Steps re env input n (enterPrevoteLocked sign h r n) := by
  unfold enterPrevoteLocked
  split
  · exact .refl
  · rename_i hguard
    have hstep : n.cs.step < .prevote := by
      simp only [not_or, not_le] at hguard
      exact hguard.2.2
    exact .head (show MicroStep re env input n (n.prevoteOnce env) from .prevote halive hstep)
      (hsign .prevote _ n.startPrevote (by simp [halive]))

theorem enterPrecommitLocked_steps (halive : n.panicked = none) (h r : Int) :
    Steps re env input n (enterPrecommitLocked env sign h r n) := by
  unfold enterPrecommitLocked
  split
  · exact .refl
  · rename_i hguard
    have hstep : n.cs.step < .precommit := by
      simp only [not_or, not_le] at hguard
      exact hguard.2.2
    refine .head
      (show MicroStep re env input n (n.precommitOnce env) from .precommit halive hstep) ?_
    unfold Node.precommitOnce
    cases hp : (n.startPrecommit env).1.panicked with
    | none =>
      rw [Node.andThen_alive hp, Node.andThen_alive hp]
      exact hsign .precommit _ _ hp
    | some p =>
      rw [Node.andThen_panicked hp, Node.andThen_panicked hp]

omit hsign in
theorem enterPrevoteWaitLocked_steps (halive : n.panicked = none) (h r : Int) :
    Steps re env input n (enterPrevoteWaitLocked h r n) := by
  unfold enterPrevoteWaitLocked
  split
  · exact .refl
  · rename_i hguard
    simp only [not_or, not_le] at hguard
    exact .single (.prevoteWait halive hguard.2.2)

omit hsign in
theorem enterPrecommitWaitLocked_steps (halive : n.panicked = none) (h r : Int) :
    Steps re env input n (enterPrecommitWaitLocked h r n) := by
  unfold enterPrecommitWaitLocked
  split
  · exact .refl
  · rename_i hguard
    simp only [not_or, not_le] at hguard
    exact .single (.precommitWait halive hguard.2.2)

/-- Taking a received proposal and entering prevote. -/
theorem takeProposal_steps (halive : n.panicked = none) {p : Proposal}
    (hinput : input = some (.proposal p))
    (hp : n.cs.acceptsProposal env p = true) (h r : Int)
    (hh : n.cs.height = h) (hr : n.cs.round = r) :
    Steps re env input n (enterPrevoteLocked sign h r (n.takeProposal p false)) := by
  unfold enterPrevoteLocked
  by_cases hstep : n.cs.step < .prevote
  · rw [if_neg (by simp [hh, hr, hstep])]
    exact .head (.acceptPrevote halive hinput hp hstep)
      (hsign .prevote _ (n.takeProposal p false).startPrevote (by simp [halive]))
  · rw [if_pos (.inr (.inr (by simpa using hstep)))]
    exact .single (.accept halive hinput hp (not_lt.mp hstep))

theorem createAndSendProposalLocked_steps (halive : n.panicked = none)
    (hstep : n.cs.step = .propose) {proposer : NamedValidator}
    (hproposer : n.cs.validatorSet.getProposerForRound n.cs.round = some proposer)
    (hkey : n.cs.privVal = some proposer.publicKey) :
    Steps re env input n (createAndSendProposalLocked env sign n) := by
  have hasked : Steps re env input n (n.requestBlock proposer.name) :=
    steps_requestBlock halive _
  unfold createAndSendProposalLocked
  simp only [hproposer, Node.requestBlock_cs]
  split
  · exact hasked
  · rename_i block hblock
    split
    · exact hasked
    · rename_i sig hsig
      refine steps_andThen (hasked.trans ?_) ?_
      · exact .head (.emit (by simp [halive]) (show (Action.signProposal _).Neutral _ from trivial))
          (steps_walWrite (by simp [halive]) (.inl ⟨_, rfl⟩))
      · intro halive'
        generalize hm : (((n.requestBlock _).emit _).walWrite env _ true) = m at halive' ⊢
        have hcs : m.cs = n.cs := by
          rw [← hm]
          simp
        unfold enterPrevoteLocked
        rw [if_neg (by simp [hcs, hstep, RoundStep.le_iff, RoundStep.code])]
        refine .head (.proposePrevote halive' ?_)
          (hsign .prevote _ (m.takeProposal _ true).startPrevote (by simp [halive']))
        rw [hcs]
        exact ⟨hstep, ⟨proposer, hproposer, hkey, rfl, hblock⟩, rfl, rfl, rfl, rfl, hsig⟩

theorem enterNewRoundLocked_after (halive : n.panicked = none) (r : Int) :
    Steps re env input (n.startRound r)
      (match (n.startRound r).cs.validatorSet.getProposerForRound (n.startRound r).cs.round with
      | none => n.startRound r
      | some proposer =>
        if (n.startRound r).cs.privVal = some proposer.publicKey then
          createAndSendProposalLocked env sign (n.startRound r)
        else n.startRound r) := by
  split
  · exact .refl
  · rename_i proposer hproposer
    split
    · rename_i hkey
      exact createAndSendProposalLocked_steps hsign (by simp [halive]) rfl hproposer hkey
    · exact .refl

/-- Entering a later round, or the current one before its prevote step. -/
theorem enterNewRoundLocked_steps (halive : n.panicked = none) (h r : Int)
    (hr : r = n.cs.round → n.cs.step < .prevote) :
    Steps re env input n (enterNewRoundLocked env sign h r n) := by
  unfold enterNewRoundLocked
  split
  · exact .refl
  · rename_i hguard
    simp only [not_or, not_lt] at hguard
    refine .head (.startRound halive ?_) (enterNewRoundLocked_after hsign halive r)
    rcases lt_or_eq_of_le hguard.2 with hlt | heq
    · exact .inl hlt
    · exact .inr ⟨heq.symm, hr heq.symm⟩

/-- With re-entry allowed, entering any round. -/
theorem enterNewRoundLocked_reenter (hre : re = true) (halive : n.panicked = none) (h r : Int) :
    Steps re env input n (enterNewRoundLocked env sign h r n) := by
  by_cases hr : r = n.cs.round → n.cs.step < .prevote
  · exact enterNewRoundLocked_steps hsign halive h r hr
  · simp only [Classical.not_imp, not_lt] at hr
    unfold enterNewRoundLocked
    split
    · exact .refl
    · rw [hr.1]
      exact .head (.reenter hre halive hr.2) (enterNewRoundLocked_after hsign halive _)

theorem commitOn_steps (halive : n.panicked = none) :
    Steps re env input (n.startCommit env) (n.commitOn env sign) := by
  refine steps_andThen .refl fun halive' => ?_
  split
  · exact enterNewRoundLocked_steps hsign halive' _ _ fun _ => by
      rw [startCommit_alive halive halive']
      decide
  · exact .refl

theorem enterCommitLocked_steps (halive : n.panicked = none) {r : Int} {hash : Option Hash}
    (hmaj : n.cs.votes.majority .precommit r = some hash) (hne : isHashEmpty hash = false) :
    Steps re env input n
      (enterCommitLocked env sign (n.raiseRound r).cs.height (n.raiseRound r)) := by
  unfold enterCommitLocked
  by_cases hstep : n.cs.step < .commit
  · rw [if_neg (by simp [hstep])]
    exact .head (.commit halive hmaj hne hstep) (commitOn_steps hsign (by simp [halive]))
  · rw [if_pos (by simpa using hstep)]
    exact .single (.raiseRound halive (not_lt.mp hstep))

theorem handlePrevoteLocked_steps (halive : n.panicked = none) (vote : Vote) :
    Steps re env input n (handlePrevoteLocked env sign vote n) := by
  unfold handlePrevoteLocked
  split
  · exact .refl
  · split
    · rename_i hskip
      refine steps_andThen
        (enterNewRoundLocked_steps hsign halive _ _ fun heq => by omega) fun halive' => ?_
      split
      · exact .refl
      · split
        · exact enterPrecommitLocked_steps hsign halive' _ _
        · exact enterPrevoteLocked_steps hsign halive' _ _
    · split
      · split
        · split
          · exact enterPrecommitLocked_steps hsign halive _ _
          · exact .refl
        · split
          · split
            · exact enterPrevoteWaitLocked_steps halive _ _
            · exact .refl
          · exact .refl
      · exact .refl

theorem handlePrecommitLocked_steps (halive : n.panicked = none) (vote : Vote) :
    Steps re env input n (handlePrecommitLocked env sign vote n) := by
  unfold handlePrecommitLocked
  split
  · exact .refl
  · rename_i precommits hset
    split
    · rename_i hmaj
      cases hhash : precommits.twoThirdsMajority with
      | none => simp [hhash] at hmaj
      | some hash =>
        have hmajority := (HeightVoteSet.majority_of_voteSetAt hset).trans hhash
        exact enterCommitLocked_steps hsign halive hmajority (by simpa [hhash] using hmaj)
    · split
      · refine steps_andThen (steps_andThen
          (enterNewRoundLocked_steps hsign halive _ _ fun heq => by omega) ?_) ?_
        · exact fun halive' => enterPrevoteLocked_steps hsign halive' _ _
        · exact fun halive' => enterPrecommitLocked_steps hsign halive' _ _
      · split
        · exact enterPrecommitWaitLocked_steps halive _ _
        · exact .refl

theorem handleAddedVote_steps (halive : n.panicked = none) (vote : Vote) :
    Steps re env input n (handleAddedVote env sign vote n) := by
  unfold handleAddedVote
  split
  · exact handlePrevoteLocked_steps hsign halive vote
  · exact handlePrecommitLocked_steps hsign halive vote
  · exact .refl

omit hsign in
/-- The recursion: `signAndSendVoteLocked` meets its own assumption, by induction
on the stack. -/
theorem signSteps (depth : Nat) : SignSteps re env input (signAndSendVoteLocked env depth) := by
  induction depth with
  | zero =>
    intro t hash n halive
    refine signAndSendVoteLocked_zero (fun _ => .refl) fun vote m heq => ?_
    rw [heq]
    exact .single (.halt (castOwnVote_alive heq halive))
  | succ depth ih =>
    intro t hash n halive
    unfold signAndSendVoteLocked
    split
    · rename_i m heq
      rw [heq]
    · rename_i m vote heq
      rw [heq]
      refine steps_andThen
        (handleAddedVote_steps ih (castOwnVote_alive heq halive) vote) fun halive' => ?_
      dsimp only
      by_cases hcallback : (handleAddedVote env (signAndSendVoteLocked env depth) vote m).cs.onVote
      · rw [if_pos hcallback]
        exact .single (.emit halive' (show (Action.broadcastVote vote).Neutral _ from trivial))
      · rw [if_neg hcallback]

end simulation

/-! ## Events and runs -/

/-- The timeouts that send a node back into a round whose prevote step it has
already reached: the commit timeout in round 0, and the precommit-wait timeout in
the last `int32` round. -/
def Reenters (cs : ConsensusState) : Event → Prop
  | .timeout ti => ti.height = cs.height ∧ cs.round ≤ ti.round ∧ .prevote ≤ cs.step ∧
      (ti.step = .commit ∧ cs.round = 0 ∨
        ti.step = .precommitWait ∧ cs.step = .precommitWait ∧ cs.round = 2 ^ 31 - 1)
  | _ => False

theorem nextRound_eq_self {r : Int} (h : ConsensusState.nextRound r = r) : r = 2 ^ 31 - 1 := by
  unfold ConsensusState.nextRound at h
  dsimp only at h
  split at h
  · exact h.symm
  · have hdvd : (2 : Int) ^ 32 ∣ (r + 1) - Int.bmod (r + 1) (2 ^ 32) := by
      exact_mod_cast Int.dvd_self_sub_bmod
    rw [h] at hdvd
    omega

section runs

variable [Externals] {re : Bool} {env : Env} {input : Option Event} {n : Node}

theorem handleTimeout_steps (halive : n.panicked = none) (ti : TimeoutInfo)
    (hre : re = true ∨ ¬ Reenters n.cs (.timeout ti)) :
    Steps re env input n (handleTimeout env ti n) := by
  have hsign : SignSteps re env input (sign env) := signSteps env.depth
  unfold handleTimeout
  split
  · exact .refl
  · rename_i hguard
    simp only [not_or, not_not, not_lt] at hguard
    split
    · split
      · exact enterPrevoteLocked_steps hsign halive _ _
      · exact .refl
    · split
      · exact enterPrecommitLocked_steps hsign halive _ _
      · exact .refl
    · rename_i hstep
      split
      · rename_i hwait
        rcases hre with rfl | hno
        · exact enterNewRoundLocked_reenter hsign rfl halive _ _
        · refine enterNewRoundLocked_steps hsign halive _ _ fun heq => ?_
          exact absurd ⟨hguard.1, hguard.2, by rw [hwait]; decide,
            .inr ⟨hstep, hwait, nextRound_eq_self heq⟩⟩ hno
      · exact .refl
    · rename_i hstep
      rcases hre with rfl | hno
      · exact enterNewRoundLocked_reenter hsign rfl halive _ _
      · refine enterNewRoundLocked_steps hsign halive _ _ fun heq => ?_
        by_contra hge
        exact hno ⟨hguard.1, hguard.2, not_lt.mp hge, .inl ⟨hstep, heq.symm⟩⟩
    · exact .refl

/-- **Simulation.** Handling an event is a sequence of micro-steps. -/
theorem handle_steps (event : Event) (hre : re = true ∨ ¬ Reenters n.cs event) :
    Steps re env (some event) n (handle env event n) := by
  have hsign : SignSteps re env (some event) (sign env) := signSteps env.depth
  unfold handle
  refine steps_andThen .refl fun halive => ?_
  cases event with
  | proposal p =>
    dsimp only
    unfold handleProposal
    split
    · rename_i hacc
      refine steps_andThen (steps_walWrite halive (.inl ⟨p, rfl⟩)) fun halive' => ?_
      exact takeProposal_steps hsign halive' rfl (by simpa using hacc) _ _ (by simp) (by simp)
    · exact .refl
  | vote v =>
    dsimp only
    unfold handleVote
    refine steps_andThen (steps_walWrite halive (.inr ⟨v, rfl⟩)) fun halive' => ?_
    generalize n.walWrite env (.ofVote v) false = m at halive'
    have hrecv : MicroStep re env (some (.vote v)) m
        (m.setVotes (m.cs.votes.addVote (env.clock m.trace.length) v).2) :=
      .receiveVote halive' rfl
    split
    · rename_i votes hadd
      rw [hadd] at hrecv
      exact .head hrecv (handleAddedVote_steps hsign (by simp [halive']) v)
    · rename_i votes _ hadd
      rw [hadd] at hrecv
      exact .single hrecv
  | timeout ti => exact handleTimeout_steps halive ti hre

/-- How a node is started: its configuration, a well-formed validator set and the
arguments of `Start`. -/
structure Launch where
  wiring : Wiring
  validatorSet : ValidatorSet
  wf : validatorSet.Wf
  height : Int
  lastCommit : Option Commit

namespace Launch

/-- The node `Start` has set up when it enters round 0. -/
def fresh (l : Launch) : Node where
  cs := { newConsensusState l.wiring l.validatorSet with
    height := l.height
    lastCommit := l.lastCommit
    votes := HeightVoteSet.new l.wiring.config.chainID l.height l.validatorSet
    started := true }
  trace := []
  panicked := none

/-- `NewConsensusState` followed by `Start`. -/
def start (l : Launch) (env : Env) : Node :=
  Leaderberry.start env l.height l.lastCommit (newConsensusState l.wiring l.validatorSet)

theorem start_steps (l : Launch) (env : Env) : Steps re env none l.fresh (l.start env) :=
  enterNewRoundLocked_steps (n := l.fresh) (signSteps env.depth) rfl _ _ fun _ =>
    show RoundStep.newHeight < RoundStep.prevote by decide

/-- A run: `Start`, then any events under any environments. -/
def run (l : Launch) (env : Env) (events : List (Env × Event)) : Node :=
  events.foldl (fun n e => handle e.1 e.2 n) (l.start env)

theorem run_append (l : Launch) (env : Env) (events : List (Env × Event)) (e : Env × Event) :
    l.run env (events ++ [e]) = handle e.1 e.2 (l.run env events) := by
  simp [run]

end Launch

theorem Steps.invariant {P : Node → Prop} {m : Node} (h : Steps re env input n m) (hn : P n)
    (hstep : ∀ n m, P n → MicroStep re env input n m → P m) : P m := by
  induction h with
  | refl => exact hn
  | tail _ hlast ih => exact hstep _ _ ih hlast

/-- The turns of a run: `Start` without an input, then one turn per event. -/
def turns (env : Env) (events : List (Env × Event)) : List (Env × Option Event) :=
  (env, none) :: events.map fun e => (e.1, some e.2)

/-- The invariant rule: what holds in the fresh state and survives every micro-step
of the turns of a run holds after the run. -/
theorem Launch.run_invariant {l : Launch} {P : Node → Prop} {events : List (Env × Event)}
    (hfresh : P l.fresh)
    (hstep : ∀ t ∈ turns env events, ∀ n m, P n → MicroStep true t.1 t.2 n m → P m) :
    P (l.run env events) := by
  induction events using List.reverseRecOn with
  | nil => exact (l.start_steps env).invariant hfresh (hstep (env, none) (List.mem_cons_self ..))
  | append_singleton events e ih =>
    rw [l.run_append]
    refine (handle_steps e.2 (.inl rfl)).invariant (ih fun t ht => hstep t ?_)
      (hstep (e.1, some e.2) (by simp [turns]))
    rcases List.mem_cons.mp ht with rfl | ht
    · exact List.mem_cons_self ..
    · refine List.mem_cons_of_mem _ ?_
      rw [List.map_append]
      exact List.mem_append_left _ ht

end runs

end Leaderberry
