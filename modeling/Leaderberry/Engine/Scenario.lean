import Leaderberry.Engine.Micro

/-!
# Concrete networks

Builders for concrete runs over the transparent externals: validators named and
keyed by one byte, votes and proposals signed by them, and an environment in which
everything outside the repository works. Witnesses and counterexamples are written
with these.
-/

namespace Leaderberry.Scenario

attribute [local instance] transparent

/-- The public key of validator `k`. -/
def key (k : Byte) : PublicKey := ⟨List.replicate publicKeySize k⟩

/-- The signature of validator `k` on a message. -/
def signature (k : Byte) (message : Bytes) : Signature :=
  ⟨fitTo signatureSize (k :: message)⟩

/-- What validator `k` signs verifies under its key. -/
theorem verify_signature (k : Byte) (message : Bytes) :
    verifySignature (key k) message (signature k message) = true := by
  simp only [verifySignature, key, signature, length_fitTo, List.length_replicate, BEq.rfl,
    Bool.true_and]
  exact beq_iff_eq.mpr rfl

/-- The input of `NewValidatorSet` for names with powers. -/
def validators (powers : List (Byte × Int)) : List (Option NamedValidator) :=
  powers.map fun x => some
    { name := ⟨some [x.1]⟩, index := 0, publicKey := key x.1, votingPower := x.2,
      proposerPriority := 0 }

/-- A set that `NewValidatorSet` accepts, with the proof that it is well formed. -/
def validatorSet (powers : List (Byte × Int))
    (h : (newValidatorSet (validators powers)).isOk = true) : { vs : ValidatorSet // vs.Wf } :=
  match hset : newValidatorSet (validators powers) with
  | .ok vs => ⟨vs, wf_newValidatorSet hset⟩
  | .error _ => absurd h (by rw [hset]; exact Bool.false_ne_true)

theorem isOk_sole : (newValidatorSet (validators [(1, 1)])).isOk = true := by
  decide +kernel

/-- Validator 1 is a quorum of its own. -/
theorem isOk_strong : (newValidatorSet (validators [(1, 9), (2, 1)])).isOk = true := by
  decide +kernel

/-- Validator 2 is a quorum of its own. -/
theorem isOk_weak : (newValidatorSet (validators [(1, 1), (2, 9)])).isOk = true := by
  decide +kernel

/-- Validator 2 is a quorum with each of the others. -/
theorem isOk_three : (newValidatorSet (validators [(1, 1), (2, 5), (3, 2)])).isOk = true := by
  decide +kernel

/-- A block told apart by its time. -/
def block (height time : Int) : Block where
  header :=
    { chainId := [], height, time, lastBlockHash := none, lastCommitHash := none,
      validatorsHash := none, appHash := none, consensusHash := none, dagRound := 0,
      batchCertRefs := [], proposer := ⟨none⟩ }
  data := ⟨[]⟩
  evidence := []
  lastCommit := none

/-- The vote of validator `k`, at position `index`, for a block or for nil. -/
def vote (k : Byte) (index : Nat) (type : VoteType) (height round : Int)
    (b : Option Block) : Vote :=
  let unsigned : Vote :=
    { type, height, round, blockHash := b.map blockHash, timestamp := 0,
      validator := ⟨some [k]⟩, validatorIndex := index, signature := ⟨[]⟩ }
  { unsigned with signature := signature k (voteSignBytes [] unsigned) }

/-- A prevote of validator 1 on chain 7, for a hash or for nil. -/
def ballot (height round : Int) (hash : Option Hash) : Vote :=
  let unsigned : Vote :=
    { type := .prevote, height, round, blockHash := hash, timestamp := 0,
      validator := ⟨some [1]⟩, validatorIndex := 0, signature := ⟨[]⟩ }
  { unsigned with signature := signature 1 (voteSignBytes [7] unsigned) }

/-- The proposal of validator `k`, with a proof of lock from `polRound`. -/
def proposal (k : Byte) (height round : Int) (b : Block) (polRound : Int)
    (polVotes : List Vote) : Proposal :=
  let unsigned : Proposal :=
    { height, round, timestamp := 0, block := b, polRound, polVotes,
      proposer := ⟨some [k]⟩, signature := ⟨[]⟩ }
  { unsigned with signature := signature k (proposalSignBytes [] unsigned) }

/-- Everything outside works: validator `k` signs, the WAL writes, the executor
proposes `block height 1` and accepts every block. -/
def env (k : Byte) : Env where
  clock := fun _ => 0
  signVote := fun v => some (signature k (voteSignBytes [] v))
  signProposal := fun p => some (signature k (proposalSignBytes [] p))
  walWrite := fun _ => true
  createProposalBlock := fun request => some (block request.height 1)
  validateBlock := fun _ => true
  applyBlock := fun _ _ => some []
  depth := 4

/-- Validator `k` with everything configured. -/
def wiring (k : Byte) (skipTimeoutCommit : Bool) : Wiring where
  config := ⟨[], skipTimeoutCommit⟩
  privVal := some (key k)
  hasWal := true
  hasExecutor := true
  onProposal := true
  onVote := true

/-- Validator `k` started at height 1. -/
def launch (k : Byte) (vs : { vs : ValidatorSet // vs.Wf }) : Launch where
  wiring := wiring k false
  validatorSet := vs.1
  wf := vs.2
  height := 1
  lastCommit := none

/-- Validator `k` handles the events in order. -/
def run (k : Byte) (vs : { vs : ValidatorSet // vs.Wf }) (events : List Event) : Node :=
  (launch k vs).run (env k) (events.map fun e => (env k, e))

end Leaderberry.Scenario
