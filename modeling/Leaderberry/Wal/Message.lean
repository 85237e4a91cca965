import Leaderberry.Types.Basic

/-!
# Write-ahead log records (`wal/wal.go`, `wal.cram`)

A `Message` keeps the decoded payload instead of its bytes: the Cramberry
encoding of a record round-trips, so a reader sees the payload that was written.
`RoundStep` is the step enumeration of `wal.cram`, ordered by its codes.
-/

namespace Leaderberry

/-- `RoundStepType`. -/
inductive RoundStep where
  | newHeight
  | newRound
  | propose
  | prevote
  | prevoteWait
  | precommit
  | precommitWait
  | commit
deriving DecidableEq

namespace RoundStep

/-- The `int32` code of the step. -/
def code : RoundStep → Nat
  | newHeight => 0
  | newRound => 1
  | propose => 2
  | prevote => 3
  | prevoteWait => 4
  | precommit => 5
  | precommitWait => 6
  | commit => 7

theorem code_injective : Function.Injective code := by
  intro a b h
  cases a <;> cases b <;> first | rfl | cases h

instance : LinearOrder RoundStep := LinearOrder.lift' code code_injective

theorem le_iff {a b : RoundStep} : a ≤ b ↔ a.code ≤ b.code := Iff.rfl

theorem lt_iff {a b : RoundStep} : a < b ↔ a.code < b.code := Iff.rfl

end RoundStep

/-- `ConsensusStateData`: what a State record holds. A lock round without a
locked block is left at its zero value by the writer. -/
structure ConsensusStateData where
  height : Int
  round : Int
  step : RoundStep
  lockedRound : Int
  lockedBlockHash : Option Hash
  validRound : Int
  validBlockHash : Option Hash
deriving DecidableEq

/-- The payload of a record, by `MessageType`. Timeout and Commit records exist
in the format but replay ignores their payload. -/
inductive MessageData where
  | proposal (p : Proposal)
  | vote (v : Vote)
  | state (s : ConsensusStateData)
  | endHeight
  | timeout
  | commit (c : Commit)
  | unknown
deriving DecidableEq

/-- `wal.Message`. -/
structure Message where
  height : Int
  round : Int
  data : MessageData
deriving DecidableEq

namespace Message

/-- `NewProposalMessage`, as the engine calls it. -/
def ofProposal (p : Proposal) : Message := ⟨p.height, p.round, .proposal p⟩

/-- `NewVoteMessage`, as the engine calls it. -/
def ofVote (v : Vote) : Message := ⟨v.height, v.round, .vote v⟩

/-- `NewStateMessage`. -/
def ofState (s : ConsensusStateData) : Message := ⟨s.height, s.round, .state s⟩

/-- `NewEndHeightMessage`. -/
def ofEndHeight (height : Int) : Message := ⟨height, 0, .endHeight⟩

end Message

end Leaderberry
