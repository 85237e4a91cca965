import Leaderberry.Types.Validator

/-!
# Vote tracking (`engine/vote_tracker.go`)

A `VoteSet` collects the votes of one height, round and type; a `HeightVoteSet`
holds the vote sets of a height by round.

- `VoteSet.addVote` is the source's `AddVote`: its checks in the source's order,
  then `VoteSet.store`, the block of modifications that runs when all of them
  passed.
- The pointer `maj23` into `votesByBlock` is the key it points to.
- A `VoteSet` knows the generation of its parent at creation (`none` for a set
  without parent) and is handed the parent's current one.
- `HeightVoteSet.addVote` creates the round's set before the vote is checked, so
  a rejected vote can leave an empty set behind.

`VoteSet.Inv` is the accounting invariant: the stored votes are verified votes of
distinct validators, and every total is the power of the voters it counts.
-/

namespace Leaderberry

/-- `MaxTimestampDrift`: ten minutes in nanoseconds. -/
def maxTimestampDrift : Int := 600000000000

/-- The string key of a block hash: `none` is `"nil"`, anything else is the hex
encoding of the bytes, which is injective and never `"nil"`. -/
abbrev BlockKey := Option Bytes

/-- `blockHashKey`. -/
def blockHashKey (h : Option Hash) : BlockKey :=
  match h with
  | none => none
  | some hash => if isHashEmpty (some hash) then none else some hash.data

structure BlockVotes where
  blockHash : Option Hash
  votes : List Vote
  totalPower : Int
deriving DecidableEq

structure VoteSet where
  chainID : GoString
  height : Int
  round : Int
  voteType : VoteType
  validatorSet : ValidatorSet
  votes : GoMap Nat Vote
  votesByBlock : GoMap BlockKey BlockVotes
  sum : Int
  maj23 : Option BlockKey
  peerMaj23 : GoMap GoString (Option Hash)
  myGeneration : Option Nat

/-- Errors of `AddVote` (`engine/errors.go` and the two overflow messages). -/
inductive VoteError where
  | staleVoteSet
  | invalidHeight
  | invalidVote
  | timestampInFuture
  | timestampInPast
  | unknownValidator
  | invalidSignature
  | conflictingVote
  | sumOverflow (current adding : Int)
  | blockSumOverflow (current adding : Int)
deriving DecidableEq

/-- `votesEqual`: same type, height, round, index and block hash. -/
def votesEqual (a b : Vote) : Bool :=
  a.type == b.type && a.height == b.height && a.round == b.round &&
    a.validatorIndex == b.validatorIndex && a.blockHash == b.blockHash

namespace VoteSet

/-- `NewVoteSet` and `newVoteSetWithParent`. -/
def new (chainID : GoString) (height round : Int) (voteType : VoteType)
    (validatorSet : ValidatorSet) (generation : Option Nat) : VoteSet where
  chainID := chainID
  height := height
  round := round
  voteType := voteType
  validatorSet := validatorSet
  votes := ∅
  votesByBlock := ∅
  sum := 0
  maj23 := none
  peerMaj23 := ∅
  myGeneration := generation

/-- The entry of a block key, fresh if there is none. -/
def blockVotes (vs : VoteSet) (hash : Option Hash) : BlockVotes :=
  (vs.votesByBlock.lookup (blockHashKey hash)).getD
    { blockHash := hash, votes := [], totalPower := 0 }

/-- The modifications of `addVoteInternal`, made after all checks passed. -/
def store (vs : VoteSet) (val : NamedValidator) (vote : Vote) : VoteSet :=
  let key := blockHashKey vote.blockHash
  let old := vs.blockVotes vote.blockHash
  let bv := { old with
    votes := old.votes ++ [vote]
    totalPower := old.totalPower + val.votingPower }
  { vs with
    votes := vs.votes.insert vote.validatorIndex vote
    sum := vs.sum + val.votingPower
    votesByBlock := vs.votesByBlock.insert key bv
    maj23 :=
      if vs.validatorSet.twoThirdsMajority ≤ bv.totalPower ∧ vs.maj23 = none then some key
      else vs.maj23 }

variable [Externals]

/-- `addVoteInternal`. -/
def addVoteInternal (vs : VoteSet) (vote : Vote) : Except VoteError Bool × VoteSet :=
  match vs.validatorSet.getByIndex vote.validatorIndex with
  | none => (.error .unknownValidator, vs)
  | some val =>
    if val.name ≠ vote.validator then (.error .unknownValidator, vs)
    else if !verifySignature val.publicKey (voteSignBytes vs.chainID vote) vote.signature then
      (.error .invalidSignature, vs)
    else
      match vs.votes.lookup vote.validatorIndex with
      | some existing =>
        if votesEqual existing vote then (.ok false, vs)
        else (.error .conflictingVote, vs)
      | none =>
        if 0 < val.votingPower ∧ maxInt64 - val.votingPower < vs.sum then
          (.error (.sumOverflow vs.sum val.votingPower), vs)
        else if 0 < val.votingPower ∧
            maxInt64 - val.votingPower < (vs.blockVotes vote.blockHash).totalPower then
          (.error (.blockSumOverflow (vs.blockVotes vote.blockHash).totalPower
            val.votingPower), vs)
        else (.ok true, vs.store val vote)

/-- The vote belongs to this set. -/
def matchesSet (vs : VoteSet) (vote : Vote) : Bool :=
  vote.height == vs.height && vote.round == vs.round && vote.type == vs.voteType

/-- The set is left over from before a `Reset` of its parent. -/
def isStale (vs : VoteSet) (generation : Nat) : Bool :=
  match vs.myGeneration with
  | none => false
  | some g => g != generation

/-- `AddVote` at local time `now`, under a parent of the given generation. -/
def addVote (vs : VoteSet) (generation : Nat) (now : Int) (vote : Vote) :
    Except VoteError Bool × VoteSet :=
  if vs.isStale generation then (.error .staleVoteSet, vs)
  else if !vs.matchesSet vote then (.error .invalidVote, vs)
  else if now + maxTimestampDrift < vote.timestamp then (.error .timestampInFuture, vs)
  else if vote.timestamp < now - maxTimestampDrift then (.error .timestampInPast, vs)
  else vs.addVoteInternal vote

/-- `addVoteForReplay`: no timestamp check. -/
def addVoteForReplay (vs : VoteSet) (generation : Nat) (vote : Vote) :
    Except VoteError Bool × VoteSet :=
  if vs.isStale generation then (.error .staleVoteSet, vs)
  else if !vs.matchesSet vote then (.error .invalidVote, vs)
  else vs.addVoteInternal vote

omit [Externals]

/-- `TwoThirdsMajority`: `none` is `(nil, false)`, `some h` is `(h, true)`. -/
def twoThirdsMajority (vs : VoteSet) : Option (Option Hash) :=
  vs.maj23.map fun key => ((vs.votesByBlock.lookup key).map BlockVotes.blockHash).getD none

/-- `HasTwoThirdsMajority`. -/
def hasTwoThirdsMajority (vs : VoteSet) : Bool := vs.maj23.isSome

/-- `HasTwoThirdsAny`. -/
def hasTwoThirdsAny (vs : VoteSet) : Bool :=
  decide (vs.validatorSet.twoThirdsMajority ≤ vs.sum)

/-- `GetVotes`: the stored votes sorted by validator index. -/
def getVotes (vs : VoteSet) : List Vote :=
  (vs.votes.entries.map Sigma.snd).insertionSort fun a b => a.validatorIndex ≤ b.validatorIndex

/-- `SetPeerMaj23`. -/
def setPeerMaj23 (vs : VoteSet) (peerID : GoString) (hash : Option Hash) : VoteSet :=
  { vs with peerMaj23 := vs.peerMaj23.insert peerID hash }

/-- `MakeCommit`. -/
def makeCommit (vs : VoteSet) : Option Commit :=
  if vs.voteType ≠ .precommit then none
  else
    match vs.twoThirdsMajority with
    | none => none
    | some none => none
    | some (some blockHash) =>
      if isHashEmpty (some blockHash) then none
      else
        let forBlock := (vs.votes.entries.map Sigma.snd).filter fun vote =>
          !isHashEmpty vote.blockHash && vote.blockHash == some blockHash
        let sigs := forBlock.map fun vote =>
          { validatorIndex := vote.validatorIndex, signature := vote.signature,
            timestamp := vote.timestamp, blockHash := vote.blockHash : CommitSig }
        some { height := vs.height, round := vs.round, blockHash,
               signatures := sigs.insertionSort fun a b =>
                 a.validatorIndex ≤ b.validatorIndex }

end VoteSet

structure HeightVoteSet where
  chainID : GoString
  height : Int
  validatorSet : ValidatorSet
  prevotes : GoMap Int VoteSet
  precommits : GoMap Int VoteSet
  generation : Nat

namespace HeightVoteSet

/-- `NewHeightVoteSet`. -/
def new (chainID : GoString) (height : Int) (validatorSet : ValidatorSet) : HeightVoteSet where
  chainID := chainID
  height := height
  validatorSet := validatorSet
  prevotes := ∅
  precommits := ∅
  generation := 0

/-- `Prevotes` and `Precommits`. -/
def voteSetAt (hvs : HeightVoteSet) (voteType : VoteType) (round : Int) : Option VoteSet :=
  match voteType with
  | .prevote => hvs.prevotes.lookup round
  | .precommit => hvs.precommits.lookup round
  | _ => none

/-- The stored vote of a validator. -/
def voteOf (hvs : HeightVoteSet) (t : VoteType) (r : Int) (i : Nat) : Option Vote :=
  (hvs.voteSetAt t r).bind fun vs => vs.votes.lookup i

/-- The 2/3+ majority of a type and round; a missing set has none. -/
def majority (hvs : HeightVoteSet) (t : VoteType) (r : Int) : Option (Option Hash) :=
  (hvs.voteSetAt t r).bind VoteSet.twoThirdsMajority

/-- The set of a type and round, fresh if there is none. -/
def voteSetOrNew (hvs : HeightVoteSet) (voteType : VoteType) (round : Int) : VoteSet :=
  (hvs.voteSetAt voteType round).getD
    (VoteSet.new hvs.chainID hvs.height round voteType hvs.validatorSet (some hvs.generation))

/-- Puts a vote set into the map of its type. -/
def put (hvs : HeightVoteSet) (voteType : VoteType) (round : Int) (vs : VoteSet) :
    HeightVoteSet :=
  match voteType with
  | .prevote => { hvs with prevotes := hvs.prevotes.insert round vs }
  | .precommit => { hvs with precommits := hvs.precommits.insert round vs }
  | _ => hvs

/-- The common body of `AddVote` and `AddVoteForReplay`; `add` is the `VoteSet`
method called at the end. -/
def addVoteWith (add : VoteSet → Except VoteError Bool × VoteSet) (hvs : HeightVoteSet)
    (vote : Vote) : Except VoteError Bool × HeightVoteSet :=
  if vote.height ≠ hvs.height then (.error .invalidHeight, hvs)
  else if vote.type = .prevote ∨ vote.type = .precommit then
    let r := add (hvs.voteSetOrNew vote.type vote.round)
    (r.1, hvs.put vote.type vote.round r.2)
  else (.error .invalidVote, hvs)

variable [Externals]

/-- `AddVote`. -/
def addVote (hvs : HeightVoteSet) (now : Int) (vote : Vote) :
    Except VoteError Bool × HeightVoteSet :=
  hvs.addVoteWith (fun vs => vs.addVote hvs.generation now vote) vote

/-- `AddVoteForReplay`. -/
def addVoteForReplay (hvs : HeightVoteSet) (vote : Vote) :
    Except VoteError Bool × HeightVoteSet :=
  hvs.addVoteWith (fun vs => vs.addVoteForReplay hvs.generation vote) vote

omit [Externals]

/-- `SetPeerMaj23`: every type but prevote is taken for precommit, and a missing set is
created. -/
def setPeerMaj23 (hvs : HeightVoteSet) (peerID : GoString) (round : Int) (voteType : VoteType)
    (hash : Option Hash) : HeightVoteSet :=
  let t := if voteType = .prevote then VoteType.prevote else VoteType.precommit
  hvs.put t round ((hvs.voteSetOrNew t round).setPeerMaj23 peerID hash)

/-- `Reset`. -/
def reset (hvs : HeightVoteSet) (height : Int) (validatorSet : ValidatorSet) : HeightVoteSet :=
  { hvs with
    height, validatorSet
    prevotes := ∅
    precommits := ∅
    generation := hvs.generation + 1 }

end HeightVoteSet

end Leaderberry
