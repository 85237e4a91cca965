import Leaderberry.Engine.VoteSet
import Leaderberry.Wal.Message

/-!
# The consensus state machine (`engine/state.go`)

A `Node` is a running `ConsensusState` with the history of what it did. The
handlers of the source are functions on nodes:

- Everything outside the repository answers through an `Env`: the clock, the
  private validator, the write-ahead log and the block executor. Each event is
  handled under an `Env` of its own, so a run may meet any sequence of answers.
- `trace` records, newest first, every outward action with the state in which it
  was taken. Marks such as `lock` or `unlockNil` record a write to the lock fields
  at the moment it happens.
- A Go panic stops the process: `panicked` is set and nothing runs afterwards
  (`Node.andThen`).
- The `…Locked` functions call each other recursively, and every cycle goes through
  `signAndSendVoteLocked`. They are written over a parameter `sign`, and
  `signAndSendVoteLocked` ties the knot with the depth of the stack as fuel: a Go
  stack is finite, and running out of it is a crash.
- Broadcast callbacks run in their own goroutine and cannot call back, so they are
  plain actions. The evidence pool never changes the consensus state and is left
  out.
-/

namespace Leaderberry

structure Config where
  chainID : GoString
  skipTimeoutCommit : Bool
deriving DecidableEq

/-- `TimeoutInfo`; the ticker fills in the duration. -/
structure TimeoutInfo where
  height : Int
  round : Int
  step : RoundStep
deriving DecidableEq

structure ValidatorUpdate where
  name : AccountName
  publicKey : PublicKey
  votingPower : Int
deriving DecidableEq

/-- `ConsensusState`. An interface field that may be nil is a flag, or the public
key in case of the private validator. -/
structure ConsensusState where
  config : Config
  validatorSet : ValidatorSet
  privVal : Option PublicKey
  hasWal : Bool
  hasExecutor : Bool
  onProposal : Bool
  onVote : Bool
  height : Int
  round : Int
  step : RoundStep
  proposal : Option Proposal
  proposalBlock : Option Block
  lockedRound : Int
  lockedBlock : Option Block
  validRound : Int
  validBlock : Option Block
  /-- Nil until `Start`; no handler runs before. -/
  votes : HeightVoteSet
  lastCommit : Option Commit
  started : Bool

/-! ## Validator updates -/

inductive ValidatorUpdateError where
  | emptyAfterUpdates
  | invalidValidatorSet (e : ValidatorSetError)
deriving DecidableEq

/-- One update: the map of current validators and the names added so far. -/
def applyUpdate (acc : GoMap GoString NamedValidator × List GoString)
    (update : ValidatorUpdate) : GoMap GoString NamedValidator × List GoString :=
  let name := accountNameString update.name
  if update.votingPower = 0 then (acc.1.erase name, acc.2)
  else
    match acc.1.lookup name with
    | some existing =>
      (acc.1.insert name
        { existing with publicKey := update.publicKey, votingPower := update.votingPower },
       acc.2)
    | none =>
      (acc.1.insert name
        { name := update.name, index := 0, publicKey := update.publicKey,
          votingPower := update.votingPower, proposerPriority := 0 },
       name :: acc.2)

/-- `applyValidatorUpdates`. -/
def applyValidatorUpdates [Externals] (vs : ValidatorSet) (updates : List ValidatorUpdate) :
    Except ValidatorUpdateError ValidatorSet :=
  let current := vs.validators.foldl
    (fun m v => m.insert (accountNameString v.name) v) (∅ : GoMap GoString NamedValidator)
  let (vals, newNames) := updates.foldl applyUpdate (current, [])
  let totalPower := wrapInt64 ((vals.entries.map fun e => e.2.votingPower).sum)
  let penalty := Externals.newValidatorPenalty totalPower
  let newVals := vals.entries.map fun e =>
    if e.1 ∈ newNames then { e.2 with proposerPriority := penalty } else e.2
  let sorted := newVals.insertionSort fun a b =>
    accountNameString a.name ≤ accountNameString b.name
  if sorted.length = 0 then .error .emptyAfterUpdates
  else
    match newValidatorSet (sorted.map some) with
    | .error e => .error (.invalidValidatorSet e)
    | .ok newSet => .ok (newSet.withIncrementedPriority 1)

/-! ## Nodes -/

/-- The arguments of a call of `CreateProposalBlock`. -/
structure ProposalRequest where
  height : Int
  lastCommit : Option Commit
  proposer : AccountName
deriving DecidableEq

/-- What a node does to the outside, and marks for writes to its lock. -/
inductive Action where
  | scheduleTimeout (ti : TimeoutInfo)
  /-- A record written successfully; `sync` tells `WriteSync` from `Write`. -/
  | walWrite (m : Message) (sync : Bool)
  | createProposalBlock (request : ProposalRequest)
  | signProposal (p : Proposal)
  | signVote (v : Vote)
  /-- The node's own vote entered its own vote set. -/
  | castVote (v : Vote)
  | acceptProposal (p : Proposal)
  | broadcastProposal (p : Proposal)
  | broadcastVote (v : Vote)
  /-- `lockedBlock` and `lockedRound` have just been set. -/
  | lock
  /-- A POL is about to clear the lock. -/
  | unlockPol
  /-- 2/3+ nil prevotes are about to clear the lock. -/
  | unlockNil
  | applyBlock (b : Block) (c : Commit) (result : Option (List ValidatorUpdate))
deriving DecidableEq

/-- The panics of `state.go`, and the end of the stack. -/
inductive Panic where
  | walWrite (m : Message)
  | ownVoteFailed (e : VoteError)
  | ownVoteNotAdded
  | noCommitFound (height : Int)
  | noBlock (height : Int)
  | blockHashMismatch (height : Int) (block commit : Hash)
  | applyBlockFailed (height : Int)
  | validatorUpdatesFailed (height : Int) (e : ValidatorUpdateError)
  | stackOverflow
deriving DecidableEq

structure Node where
  cs : ConsensusState
  trace : List (ConsensusState × Action)
  panicked : Option Panic

/-- The answers of the code outside the repository while one event is handled.
`clock` is indexed by the number of actions taken so far. -/
structure Env where
  clock : Nat → Int
  signVote : Vote → Option Signature
  signProposal : Proposal → Option Signature
  walWrite : Message → Bool
  createProposalBlock : ProposalRequest → Option Block
  validateBlock : Block → Bool
  applyBlock : Block → Commit → Option (List ValidatorUpdate)
  /-- How many nested own votes fit on the stack. -/
  depth : Nat

namespace Node

def emit (n : Node) (a : Action) : Node :=
  { n with trace := (n.cs, a) :: n.trace }

def halt (n : Node) (p : Panic) : Node :=
  { n with panicked := some p }

/-- Go statement order: nothing runs after a panic. -/
def andThen (n : Node) (f : Node → Node) : Node :=
  match n.panicked with
  | none => f n
  | some _ => n

def setVotes (n : Node) (votes : HeightVoteSet) : Node :=
  { n with cs := { n.cs with votes } }

def setStep (n : Node) (step : RoundStep) : Node :=
  { n with cs := { n.cs with step } }

def setLock (n : Node) (round : Int) (block : Option Block) : Node :=
  { n with cs := { n.cs with lockedRound := round, lockedBlock := block } }

/-- A WAL write that panics on failure. -/
def walWrite (env : Env) (m : Message) (sync : Bool) (n : Node) : Node :=
  if !n.cs.hasWal then n
  else if env.walWrite m then n.emit (.walWrite m sync)
  else n.halt (.walWrite m)

end Node

/-! ## Proposals and proof-of-lock -/

/-- Why `validatePOL` rejects, with the position of the vote. -/
inductive POLError where
  | noVotes
  | notPrevote (i : Nat)
  | wrongHeight (i : Nat)
  | wrongRound (i : Nat)
  | nilBlockHash (i : Nat)
  | differentBlock (i : Nat)
  | unknownValidator (i : Nat)
  | nameMismatch (i : Nat)
  | duplicateVote (index : Nat)
  | invalidSignature (i : Nat) (e : VoteSignatureError)
  | insufficientPower (power required : Int)
deriving DecidableEq

section pol

variable [Externals] (chainID : GoString) (validatorSet : ValidatorSet) (proposal : Proposal)

/-- The loop of `validatePOL`: the power of the votes, or the first error. `seen`
are the validators counted before position `i`. -/
def polPower : Nat → List Vote → List Nat → Int → Except POLError Int
  | _, [], _, power => .ok power
  | i, vote :: rest, seen, power =>
    if vote.type ≠ .prevote then .error (.notPrevote i)
    else if vote.height ≠ proposal.height then .error (.wrongHeight i)
    else if vote.round ≠ proposal.polRound then .error (.wrongRound i)
    else if vote.blockHash = none then .error (.nilBlockHash i)
    else if vote.blockHash ≠ some (blockHash proposal.block) then .error (.differentBlock i)
    else
      match validatorSet.getByIndex vote.validatorIndex with
      | none => .error (.unknownValidator i)
      | some val =>
        if val.name ≠ vote.validator then .error (.nameMismatch i)
        else if vote.validatorIndex ∈ seen then .error (.duplicateVote vote.validatorIndex)
        else
          match verifyVoteSignature chainID vote val.publicKey with
          | .error e => .error (.invalidSignature i e)
          | .ok () =>
            polPower (i + 1) rest (vote.validatorIndex :: seen) (power + val.votingPower)

/-- `validatePOL`. -/
def validatePOL : Except POLError Unit :=
  if proposal.polVotes.length = 0 then .error .noVotes
  else
    match polPower chainID validatorSet proposal 0 proposal.polVotes [] 0 with
    | .error e => .error e
    | .ok power =>
      if power < validatorSet.twoThirdsMajority then
        .error (.insufficientPower power validatorSet.twoThirdsMajority)
      else .ok ()

end pol

namespace ConsensusState

variable [Externals]

/-- `validatePOL` returned nil. -/
def polValid (cs : ConsensusState) (proposal : Proposal) : Bool :=
  match validatePOL cs.config.chainID cs.validatorSet proposal with
  | .ok () => true
  | .error _ => false

/-- `canUnlock`. -/
def canUnlock (cs : ConsensusState) (proposal : Option Proposal) : Bool :=
  match proposal with
  | none => false
  | some p =>
    if p.polRound < 0 then false
    else if p.polRound ≤ cs.lockedRound then false
    else if p.round ≤ p.polRound then false
    else cs.polValid p

/-- The checks of `handleProposal` before the proposal is written to the WAL. -/
def acceptsProposal (cs : ConsensusState) (env : Env) (p : Proposal) : Bool :=
  if p.height ≠ cs.height ∨ p.round ≠ cs.round then false
  else if cs.proposal.isSome then false
  else
    match cs.validatorSet.getProposerForRound p.round with
    | none => false
    | some proposer =>
      if p.proposer ≠ proposer.name then false
      else if !verifySignature proposer.publicKey (proposalSignBytes cs.config.chainID p)
          p.signature then false
      else if 0 ≤ p.polRound ∧ cs.polValid p = false then false
      else if cs.hasExecutor then env.validateBlock p.block
      else true

/-- What `enterPrevoteLocked` votes for, and whether it gives up the lock first. -/
def decidePrevote (cs : ConsensusState) : Option Hash × Bool :=
  match cs.lockedBlock with
  | some locked =>
    match cs.proposalBlock with
    | some block =>
      if blockHash block = blockHash locked then (some (blockHash locked), false)
      else if cs.canUnlock cs.proposal then (some (blockHash block), true)
      else (none, false)
    | none => (none, false)
  | none => (cs.proposalBlock.map blockHash, false)

/-- The record `writeStateLocked` writes. -/
def stateData (cs : ConsensusState) : ConsensusStateData where
  height := cs.height
  round := cs.round
  step := cs.step
  lockedRound := if cs.lockedBlock.isSome then cs.lockedRound else 0
  lockedBlockHash := cs.lockedBlock.map blockHash
  validRound := if cs.validBlock.isSome then cs.validRound else 0
  validBlockHash := cs.validBlock.map blockHash

omit [Externals]

/-- The validator that holds the node's key: its index, and the entry found under
that index. -/
def ownValidator (cs : ConsensusState) : Option (Nat × NamedValidator) :=
  cs.privVal.bind fun pubKey =>
    (cs.validatorSet.validators.find? fun v => v.publicKey == pubKey).bind fun v =>
      (cs.validatorSet.getByIndex v.index).map fun validator => (v.index, validator)

/-- The call of `CreateProposalBlock`, unless a block is proposed again or there is no
executor. -/
def blockRequest (cs : ConsensusState) (proposer : AccountName) : Option ProposalRequest :=
  if cs.validBlock.isSome || cs.lockedBlock.isSome || !cs.hasExecutor then none
  else some ⟨cs.height, cs.lastCommit, proposer⟩

/-- The block `createAndSendProposalLocked` proposes. -/
def blockToPropose (cs : ConsensusState) (env : Env) (proposer : NamedValidator) :
    Option Block :=
  match cs.validBlock with
  | some b => some b
  | none =>
    match cs.lockedBlock with
    | some b => some b
    | none => (cs.blockRequest proposer.name).bind env.createProposalBlock

/-- The votes attached to an own proposal: all prevotes of `validRound`. -/
def polVotesToAttach (cs : ConsensusState) : List Vote :=
  if 0 ≤ cs.validRound then
    match cs.votes.voteSetAt .prevote cs.validRound with
    | some prevotes => prevotes.getVotes
    | none => []
  else []

/-- The commit certificate of one round, if it has one. -/
def commitAt (votes : HeightVoteSet) (round : Int) : Option Commit :=
  match votes.voteSetAt .precommit round with
  | none => none
  | some precommits =>
    match precommits.twoThirdsMajority with
    | none => none
    | some hash => if isHashEmpty hash then none else precommits.makeCommit

/-- The loop of `enterCommitLocked`, from a round down to zero. -/
def findCommit (votes : HeightVoteSet) : Nat → Option Commit
  | 0 => commitAt votes 0
  | round + 1 =>
    match commitAt votes (round + 1) with
    | some commit => some commit
    | none => findCommit votes round

/-- The round state `enterNewRoundLocked` resets. -/
def enterRound (round : Int) (cs : ConsensusState) : ConsensusState :=
  { cs with
    round
    step := .propose
    proposal := none
    proposalBlock := none
    validRound := if round = 0 then -1 else cs.validRound
    validBlock := if round = 0 then none else cs.validBlock }

/-- The assignments of `finalizeCommitLocked`. The height is not wrapped to an `int64`:
results that order heights ask that height 2^63 - 1 is not committed. -/
def nextHeight (commit : Commit) (newValSet : ValidatorSet) (cs : ConsensusState) :
    ConsensusState :=
  { cs with
    height := cs.height + 1
    round := 0
    step := .newHeight
    proposal := none
    proposalBlock := none
    lockedRound := -1
    lockedBlock := none
    validRound := -1
    validBlock := none
    lastCommit := some commit
    validatorSet := newValSet
    votes := cs.votes.reset (cs.height + 1) newValSet }

/-- The round after `round`: `int32` addition, capped when it overflows. -/
def nextRound (round : Int) : Int :=
  let next := Int.bmod (round + 1) (2 ^ 32)
  if next < 0 then 2 ^ 31 - 1 else next

end ConsensusState

/-! ## Transitions without recursion -/

namespace Node

/-- The round state `enterNewRoundLocked` resets, and its propose timeout. -/
def startRound (round : Int) (n : Node) : Node :=
  { n with cs := n.cs.enterRound round }.emit
    (.scheduleTimeout ⟨n.cs.height, round, .propose⟩)

/-- The call of `CreateProposalBlock`, if one is needed. -/
def requestBlock (proposer : AccountName) (n : Node) : Node :=
  match n.cs.blockRequest proposer with
  | none => n
  | some request => n.emit (.createProposalBlock request)

/-- Accepting a proposal; an own one is broadcast. -/
def takeProposal (p : Proposal) (own : Bool) (n : Node) : Node :=
  let n := { n with cs := { n.cs with proposal := some p, proposalBlock := some p.block } }
  let n := n.emit (.acceptProposal p)
  if own && n.cs.onProposal then n.emit (.broadcastProposal p) else n

/-- The round skip of `handlePrecommitLocked` before a commit. -/
def raiseRound (round : Int) (n : Node) : Node :=
  if n.cs.round < round then { n with cs := { n.cs with round } } else n

/-- Locking on the block of a 2/3+ prevote majority. -/
def lockOn (block : Block) (n : Node) : Node :=
  let n := { n with cs := { n.cs with
    lockedRound := n.cs.round
    lockedBlock := some block
    validRound := n.cs.round
    validBlock := some block } }
  n.emit .lock

/-- `enterPrevoteWaitLocked`, after its guard. -/
def startPrevoteWait (n : Node) : Node :=
  (n.setStep .prevoteWait).emit (.scheduleTimeout ⟨n.cs.height, n.cs.round, .prevoteWait⟩)

/-- `enterPrecommitWaitLocked`, after its guard. -/
def startPrecommitWait (n : Node) : Node :=
  (n.setStep .precommitWait).emit (.scheduleTimeout ⟨n.cs.height, n.cs.round, .precommitWait⟩)

variable [Externals]

/-- `enterPrevoteLocked` up to the vote. -/
def startPrevote (n : Node) : Node :=
  let n := n.setStep .prevote
  if n.cs.decidePrevote.2 then (n.emit .unlockPol).setLock (-1) none else n

/-- `writeStateLocked`. -/
def writeState (env : Env) (n : Node) : Node :=
  n.walWrite env (.ofState n.cs.stateData) true

/-- `enterPrecommitLocked` up to the vote, and what it votes for. -/
def startPrecommit (env : Env) (n : Node) : Node × Option Hash :=
  let n := n.setStep .precommit
  match n.cs.votes.majority .prevote n.cs.round with
  | none => (n, none)
  | some hash =>
    if isHashEmpty hash then ((n.emit .unlockNil).setLock (-1) none, none)
    else
      match n.cs.proposalBlock with
      | none => (n, none)
      | some block =>
        if some (blockHash block) = hash then
          ((n.lockOn block).writeState env, hash)
        else (n, none)

/-- The vote `signAndSendVoteLocked` builds, before it is signed. -/
def unsignedVote (env : Env) (voteType : VoteType) (hash : Option Hash) (valIndex : Nat)
    (validator : NamedValidator) (n : Node) : Vote where
  type := voteType
  height := n.cs.height
  round := n.cs.round
  blockHash := hash
  timestamp := env.clock n.trace.length
  validator := validator.name
  validatorIndex := valIndex
  signature := ⟨[]⟩

/-- Adds the own vote to the own vote set, or panics. -/
def addOwnVote (env : Env) (vote : Vote) (n : Node) : Node × Option Vote :=
  match n.cs.votes.addVote (env.clock n.trace.length) vote with
  | (.error e, votes) => ((n.setVotes votes).halt (.ownVoteFailed e), none)
  | (.ok false, votes) => ((n.setVotes votes).halt .ownVoteNotAdded, none)
  | (.ok true, votes) => ((n.setVotes votes).emit (.castVote vote), some vote)

/-- `signAndSendVoteLocked` up to its quorum check: sign, write to the WAL, add to
the own vote set. Returns the vote if it was added. -/
def castOwnVote (env : Env) (voteType : VoteType) (hash : Option Hash) (n : Node) :
    Node × Option Vote :=
  match n.cs.ownValidator with
  | none => (n, none)
  | some (valIndex, validator) =>
    match env.signVote (n.unsignedVote env voteType hash valIndex validator) with
    | none => (n, none)
    | some signature =>
      let vote := { n.unsignedVote env voteType hash valIndex validator with signature }
      let n := (n.emit (.signVote vote)).walWrite env (.ofVote vote) true
      match n.panicked with
      | some _ => (n, none)
      | none => n.addOwnVote env vote

/-- Moving to the next height, and its commit timeout. -/
def advanceHeight (commit : Commit) (newValSet : ValidatorSet) (n : Node) : Node :=
  let n := { n with cs := n.cs.nextHeight commit newValSet }
  if n.cs.config.skipTimeoutCommit then n
  else n.emit (.scheduleTimeout ⟨n.cs.height, 0, .commit⟩)

/-- The validator set `finalizeCommitLocked` computes from the updates. -/
def nextValidatorSet (vs : ValidatorSet) (updates : List ValidatorUpdate) :
    Except ValidatorUpdateError ValidatorSet :=
  if 0 < updates.length then applyValidatorUpdates vs updates
  else .ok (vs.withIncrementedPriority 1)

/-- `finalizeCommitLocked` after `ApplyBlock` returned. -/
def finishCommit (env : Env) (commit : Commit) (updates : List ValidatorUpdate) (n : Node) :
    Node :=
  match nextValidatorSet n.cs.validatorSet updates with
  | .error e => n.halt (.validatorUpdatesFailed n.cs.height e)
  | .ok newValSet =>
    (n.walWrite env (.ofEndHeight n.cs.height) true).andThen (advanceHeight commit newValSet)

/-- `ApplyBlock` and what follows. -/
def applyCommitted (env : Env) (block : Block) (commit : Commit) (n : Node) : Node :=
  if n.cs.hasExecutor then
    let n' := n.emit (.applyBlock block commit (env.applyBlock block commit))
    match env.applyBlock block commit with
    | none => n'.halt (.applyBlockFailed n.cs.height)
    | some updates => n'.finishCommit env commit updates
  else n.finishCommit env commit []

/-- `finalizeCommitLocked` up to the next round. -/
def finalizeCommit (env : Env) (commit : Commit) (n : Node) : Node :=
  match n.cs.lockedBlock.or n.cs.proposalBlock with
  | none => n.halt (.noBlock n.cs.height)
  | some block =>
    if blockHash block ≠ commit.blockHash then
      n.halt (.blockHashMismatch n.cs.height (blockHash block) commit.blockHash)
    else n.applyCommitted env block commit

/-- The certificate `enterCommitLocked` finds, from the current round down. -/
def foundCommit (n : Node) : Option Commit :=
  if n.cs.round < 0 then none else ConsensusState.findCommit n.cs.votes n.cs.round.toNat

/-- `enterCommitLocked` after its guard, up to the next round. -/
def startCommit (env : Env) (n : Node) : Node :=
  let n := n.setStep .commit
  match n.foundCommit with
  | none => n.halt (.noCommitFound n.cs.height)
  | some commit => n.finalizeCommit env commit

end Node

/-! ## Transitions -/

section transitions

variable [Externals] (env : Env) (sign : VoteType → Option Hash → Node → Node)

/-- `enterPrevoteLocked`. -/
def enterPrevoteLocked (height round : Int) (n : Node) : Node :=
  if n.cs.height ≠ height ∨ n.cs.round ≠ round ∨ .prevote ≤ n.cs.step then n
  else sign .prevote n.cs.decidePrevote.1 n.startPrevote

/-- `enterPrevoteWaitLocked`. -/
def enterPrevoteWaitLocked (height round : Int) (n : Node) : Node :=
  if n.cs.height ≠ height ∨ n.cs.round ≠ round ∨ .prevoteWait ≤ n.cs.step then n
  else n.startPrevoteWait

/-- `enterPrecommitLocked`. -/
def enterPrecommitLocked (height round : Int) (n : Node) : Node :=
  if n.cs.height ≠ height ∨ n.cs.round ≠ round ∨ .precommit ≤ n.cs.step then n
  else (n.startPrecommit env).1.andThen (sign .precommit (n.startPrecommit env).2)

/-- `enterPrecommitWaitLocked`. -/
def enterPrecommitWaitLocked (height round : Int) (n : Node) : Node :=
  if n.cs.height ≠ height ∨ n.cs.round ≠ round ∨ .precommitWait ≤ n.cs.step then n
  else n.startPrecommitWait

/-- `createAndSendProposalLocked`. -/
def createAndSendProposalLocked (n : Node) : Node :=
  match n.cs.validatorSet.getProposerForRound n.cs.round with
  | none => n
  | some proposer =>
    let n := n.requestBlock proposer.name
    match n.cs.blockToPropose env proposer with
    | none => n
    | some block =>
      let unsigned : Proposal :=
        { height := n.cs.height, round := n.cs.round,
          timestamp := env.clock n.trace.length, block,
          polRound := n.cs.validRound, polVotes := n.cs.polVotesToAttach,
          proposer := proposer.name, signature := ⟨[]⟩ }
      match env.signProposal unsigned with
      | none => n
      | some signature =>
        let p := { unsigned with signature }
        ((n.emit (.signProposal p)).walWrite env (.ofProposal p) true).andThen fun n =>
          let n := n.takeProposal p true
          enterPrevoteLocked sign n.cs.height n.cs.round n

/-- `enterNewRoundLocked`. -/
def enterNewRoundLocked (height round : Int) (n : Node) : Node :=
  if n.cs.height ≠ height ∨ round < n.cs.round then n
  else
    let n := n.startRound round
    match n.cs.validatorSet.getProposerForRound n.cs.round with
    | none => n
    | some proposer =>
      if n.cs.privVal = some proposer.publicKey then createAndSendProposalLocked env sign n
      else n

/-- `enterCommitLocked`, with `finalizeCommitLocked` inside. -/
def enterCommitLocked (height : Int) (n : Node) : Node :=
  if n.cs.height ≠ height ∨ .commit ≤ n.cs.step then n
  else
    (n.startCommit env).andThen fun n =>
      if n.cs.config.skipTimeoutCommit then enterNewRoundLocked env sign n.cs.height 0 n
      else n

/-- `handlePrevoteLocked`. The set is looked up again after a round skip: within
the height it is the same object, and if the skip committed a block then no guard
below lets the old round pass. -/
def handlePrevoteLocked (vote : Vote) (n : Node) : Node :=
  match n.cs.votes.voteSetAt .prevote vote.round with
  | none => n
  | some prevotes =>
    if n.cs.round < vote.round ∧ prevotes.hasTwoThirdsAny then
      (enterNewRoundLocked env sign n.cs.height vote.round n).andThen fun n =>
        match n.cs.votes.voteSetAt .prevote vote.round with
        | none => n
        | some prevotes =>
          if prevotes.hasTwoThirdsMajority then
            enterPrecommitLocked env sign n.cs.height vote.round n
          else enterPrevoteLocked sign n.cs.height vote.round n
    else if vote.round = n.cs.round then
      if prevotes.hasTwoThirdsMajority then
        if n.cs.step = .prevote ∨ n.cs.step = .prevoteWait then
          enterPrecommitLocked env sign n.cs.height n.cs.round n
        else n
      else if prevotes.hasTwoThirdsAny then
        if n.cs.step = .prevote then enterPrevoteWaitLocked n.cs.height n.cs.round n else n
      else n
    else n

/-- `handlePrecommitLocked`. -/
def handlePrecommitLocked (vote : Vote) (n : Node) : Node :=
  match n.cs.votes.voteSetAt .precommit vote.round with
  | none => n
  | some precommits =>
    if precommits.twoThirdsMajority.any fun hash => !isHashEmpty hash then
      let n := n.raiseRound vote.round
      enterCommitLocked env sign n.cs.height n
    else if n.cs.round < vote.round ∧ precommits.hasTwoThirdsAny then
      ((enterNewRoundLocked env sign n.cs.height vote.round n).andThen fun n =>
        enterPrevoteLocked sign n.cs.height vote.round n).andThen fun n =>
          enterPrecommitLocked env sign n.cs.height vote.round n
    else if vote.round = n.cs.round ∧ precommits.hasTwoThirdsAny ∧ n.cs.step = .precommit then
      enterPrecommitWaitLocked n.cs.height n.cs.round n
    else n

/-- The switch on the vote type after a vote was added. -/
def handleAddedVote (vote : Vote) (n : Node) : Node :=
  match vote.type with
  | .prevote => handlePrevoteLocked env sign vote n
  | .precommit => handlePrecommitLocked env sign vote n
  | _ => n

end transitions

section handlers

variable [Externals] (env : Env)

/-- `signAndSendVoteLocked`, with `depth` stack frames left for nested own votes. -/
def signAndSendVoteLocked : Nat → VoteType → Option Hash → Node → Node
  | depth, voteType, hash, n =>
    match n.castOwnVote env voteType hash with
    | (n, none) => n
    | (n, some vote) =>
      let n :=
        match depth with
        | 0 => n.halt .stackOverflow
        | depth + 1 => handleAddedVote env (signAndSendVoteLocked depth) vote n
      n.andThen fun n => if n.cs.onVote then n.emit (.broadcastVote vote) else n

/-- `signAndSendVoteLocked` with the whole stack. -/
def sign : VoteType → Option Hash → Node → Node :=
  signAndSendVoteLocked env env.depth

/-- `handleProposal`. -/
def handleProposal (p : Proposal) (n : Node) : Node :=
  if n.cs.acceptsProposal env p then
    (n.walWrite env (.ofProposal p) true).andThen fun n =>
      let n := n.takeProposal p false
      enterPrevoteLocked (sign env) n.cs.height n.cs.round n
  else n

/-- `handleVote`. -/
def handleVote (vote : Vote) (n : Node) : Node :=
  (n.walWrite env (.ofVote vote) false).andThen fun n =>
    match n.cs.votes.addVote (env.clock n.trace.length) vote with
    | (.ok true, votes) => handleAddedVote env (sign env) vote (n.setVotes votes)
    | (_, votes) => n.setVotes votes

/-- `handleTimeout`. -/
def handleTimeout (ti : TimeoutInfo) (n : Node) : Node :=
  if ti.height ≠ n.cs.height ∨ ti.round < n.cs.round then n
  else
    match ti.step with
    | .propose =>
      if n.cs.step = .propose then enterPrevoteLocked (sign env) n.cs.height n.cs.round n
      else n
    | .prevoteWait =>
      if n.cs.step = .prevoteWait then
        enterPrecommitLocked env (sign env) n.cs.height n.cs.round n
      else n
    | .precommitWait =>
      if n.cs.step = .precommitWait then
        enterNewRoundLocked env (sign env) n.cs.height
          (ConsensusState.nextRound n.cs.round) n
      else n
    | .commit => enterNewRoundLocked env (sign env) n.cs.height 0 n
    | _ => n

/-- What `receiveRoutine` takes from its channels. -/
inductive Event where
  | proposal (p : Proposal)
  | vote (v : Vote)
  | timeout (ti : TimeoutInfo)
deriving DecidableEq

/-- One iteration of `receiveRoutine`. -/
def handle (event : Event) (n : Node) : Node :=
  n.andThen fun n =>
    match event with
    | .proposal p => handleProposal env p n
    | .vote v => handleVote env v n
    | .timeout ti => handleTimeout env ti n

/-- `Start`, on a state that was not started before. -/
def start (height : Int) (lastCommit : Option Commit) (cs : ConsensusState) : Node :=
  enterNewRoundLocked env (sign env) height 0
    { cs := { cs with
        height, lastCommit
        votes := HeightVoteSet.new cs.config.chainID height cs.validatorSet
        started := true }
      trace := []
      panicked := none }

end handlers

/-- The interfaces and callbacks a node is configured with. -/
structure Wiring where
  config : Config
  privVal : Option PublicKey
  hasWal : Bool
  hasExecutor : Bool
  onProposal : Bool
  onVote : Bool
deriving DecidableEq

/-- `NewConsensusState` and `SetBroadcastCallbacks`. -/
def newConsensusState (w : Wiring) (valSet : ValidatorSet) : ConsensusState where
  config := w.config
  validatorSet := valSet
  privVal := w.privVal
  hasWal := w.hasWal
  hasExecutor := w.hasExecutor
  onProposal := w.onProposal
  onVote := w.onVote
  height := 0
  round := 0
  step := .newHeight
  proposal := none
  proposalBlock := none
  lockedRound := -1
  lockedBlock := none
  validRound := -1
  validBlock := none
  votes := HeightVoteSet.new w.config.chainID 0 valSet
  lastCommit := none
  started := false

end Leaderberry
