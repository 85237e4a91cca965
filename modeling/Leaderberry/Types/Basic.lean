import Mathlib.Algebra.GroupWithZero.Nat
import Mathlib.Data.List.AList
import Mathlib.Data.List.Sort
import Mathlib.Order.Lex

/-!
# Leaderberry messages, hashes and signatures

The generated message types of `schema/*.cram` with the helpers of
`types/hash.go`, `types/account.go`, `types/block.go` and `types/proposal.go`
that consensus uses.

- A Go `[]byte` and a Go `string` are both byte lists. A nil and an empty slice
  are the same list: no function modelled here tells them apart, and the deep
  copies (`CopyVote`, `CopyBlock`, …) become the identity.
- A Go pointer that may be nil is an `Option`.
- `int64` heights, timestamps and powers and `int32` rounds are `Int`; where the
  source guards or wraps an operation the bound is written out.
- `Externals` collects the code that is not part of the repository: SHA-256,
  Ed25519 and the Cramberry encoder. Everything else is a plain function over
  it.
-/

namespace Leaderberry

/-- A Go `byte`. -/
abbrev Byte := Fin 256

instance neZero_byte : NeZero 256 := ⟨by decide⟩

/-- A Go `[]byte`. -/
abbrev Bytes := List Byte

instance lawfulBEq_bytes : LawfulBEq (List Byte) := inferInstance

/-- A Go `string`: a byte sequence, compared lexicographically. -/
abbrev GoString := List Byte

/-- A Go `map[K]V`. -/
abbrev GoMap (K V : Type) := AList fun _ : K => V

/-- Equality of maps that the kernel can evaluate. -/
instance {K V : Type} [DecidableEq K] [DecidableEq V] : DecidableEq (GoMap K V) :=
  fun _ _ => decidable_of_iff _ AList.ext_iff.symm

/-! ## Basic message types (`types.cram`) -/

structure Hash where
  data : Bytes
deriving DecidableEq

structure Signature where
  data : Bytes
deriving DecidableEq

structure PublicKey where
  data : Bytes
deriving DecidableEq

/-- `AccountName.Name` is a `*string`. -/
structure AccountName where
  name : Option GoString
deriving DecidableEq

/-! ## Votes and commits (`vote.cram`) -/

/-- `VoteType` is an `int32` enumeration; `other` is any value without a name. -/
inductive VoteType where
  | unknown
  | prevote
  | precommit
  | other (code : Int)
deriving DecidableEq

/-- The `int32` of a `VoteType`. -/
def VoteType.code : VoteType → Int
  | unknown => 0
  | prevote => 1
  | precommit => 2
  | other code => code

structure Vote where
  type : VoteType
  height : Int
  round : Int
  blockHash : Option Hash
  timestamp : Int
  validator : AccountName
  validatorIndex : Nat
  signature : Signature
deriving DecidableEq

structure CommitSig where
  validatorIndex : Nat
  signature : Signature
  timestamp : Int
  blockHash : Option Hash
deriving DecidableEq

structure Commit where
  height : Int
  round : Int
  blockHash : Hash
  signatures : List CommitSig
deriving DecidableEq

/-! ## Blocks and proposals (`block.cram`, `proposal.cram`) -/

structure BatchCertRef where
  certificateDigest : Hash
  round : Nat
  validator : AccountName
deriving DecidableEq

structure BlockHeader where
  chainId : GoString
  height : Int
  time : Int
  lastBlockHash : Option Hash
  lastCommitHash : Option Hash
  validatorsHash : Option Hash
  appHash : Option Hash
  consensusHash : Option Hash
  dagRound : Nat
  batchCertRefs : List BatchCertRef
  proposer : AccountName
deriving DecidableEq

structure BlockData where
  batchDigests : List Hash
deriving DecidableEq

structure Block where
  header : BlockHeader
  data : BlockData
  evidence : List Bytes
  lastCommit : Option Commit
deriving DecidableEq

structure Proposal where
  height : Int
  round : Int
  timestamp : Int
  block : Block
  polRound : Int
  polVotes : List Vote
  proposer : AccountName
  signature : Signature
deriving DecidableEq

/-! ## Code outside the repository -/

/-- The third-party and standard-library code the repository calls:
`crypto/sha256`, `crypto/ed25519` and the Cramberry `MarshalCramberry` methods
(which panic instead of failing, so they are total here). -/
class Externals where
  sha256 : Bytes → Bytes
  ed25519Verify (pubKey msg sig : Bytes) : Bool
  ed25519Sign (privKey msg : Bytes) : Bytes
  marshalVote : Vote → Bytes
  marshalProposal : Proposal → Bytes
  marshalBlockHeader : BlockHeader → Bytes
  /-- `-int64(float64(totalPower) * 1.125)` (state.go:224). -/
  newValidatorPenalty : Int → Int

/-! ## Hashes (`types/hash.go`, `types/block.go`) -/

def hashSize : Nat := 32
def signatureSize : Nat := 64
def publicKeySize : Nat := 32

/-- `IsHashEmpty`: nil, or no byte differs from zero. -/
def isHashEmpty : Option Hash → Bool
  | none => true
  | some h => h.data.all (· == 0)

section

variable [Externals]

/-- `HashBytes`. -/
def hashBytes (data : Bytes) : Hash :=
  ⟨Externals.sha256 data⟩

/-- `BlockHash`: the hash of the encoded *header* only. -/
def blockHash (b : Block) : Hash :=
  hashBytes (Externals.marshalBlockHeader b.header)

/-! ## Names and signatures (`types/account.go`) -/

/-- `AccountNameString`. -/
def accountNameString (a : AccountName) : GoString :=
  a.name.getD []

/-- `IsAccountNameEmpty`. -/
def isAccountNameEmpty (a : AccountName) : Bool :=
  a.name.getD [] == []

/-- `VerifySignature`. -/
def verifySignature (pubKey : PublicKey) (message : Bytes) (sig : Signature) : Bool :=
  pubKey.data.length == publicKeySize && sig.data.length == signatureSize &&
    Externals.ed25519Verify pubKey.data message sig.data

/-- `VoteSignBytes`: the chain ID, then the encoded vote without its signature. -/
def voteSignBytes (chainID : GoString) (v : Vote) : Bytes :=
  chainID ++ Externals.marshalVote { v with signature := ⟨[]⟩ }

/-- `ProposalSignBytes`. -/
def proposalSignBytes (chainID : GoString) (p : Proposal) : Bytes :=
  chainID ++ Externals.marshalProposal { p with signature := ⟨[]⟩ }

/-- Why `VerifyVoteSignature` fails. -/
inductive VoteSignatureError where
  | noSignature
  | invalidPublicKeySize
  | invalidSignature
deriving DecidableEq

/-- `VerifyVoteSignature`. Unlike `verifySignature` it does not check the
signature's length itself. -/
def verifyVoteSignature (chainID : GoString) (vote : Vote) (pubKey : PublicKey) :
    Except VoteSignatureError Unit :=
  if vote.signature.data.length = 0 then .error .noSignature
  else if pubKey.data.length ≠ publicKeySize then .error .invalidPublicKeySize
  else if Externals.ed25519Verify pubKey.data (voteSignBytes chainID vote)
      vote.signature.data then .ok ()
  else .error .invalidSignature

end

/-! ## A transparent instance -/

/-- Fits a byte string to a length. -/
def fitTo (n : Nat) (l : Bytes) : Bytes := (l ++ List.replicate n 1).take n

theorem length_fitTo (n : Nat) (l : Bytes) : (fitTo n l).length = n := by
  simp [fitTo]

/-- A byte for a small number. -/
def toByte (x : Int) : Byte := Fin.ofNat 256 x.toNat

/-- Executable stand-ins for concrete runs: a digest is the padded message and a
signature is the padded message under the first byte of the public key, which is
the second half of a private key. -/
@[reducible] def transparent : Externals where
  sha256 m := fitTo hashSize m
  ed25519Verify pubKey msg sig := sig == fitTo signatureSize (pubKey.take 1 ++ msg)
  ed25519Sign privKey msg := fitTo signatureSize ((privKey.drop 32).take 1 ++ msg)
  marshalVote v :=
    [match v.type with
      | .prevote => 1
      | .precommit => 2
      | _ => 0, toByte v.height, toByte v.round, toByte v.validatorIndex, toByte v.timestamp] ++
    (v.blockHash.map Hash.data).getD []
  marshalProposal p :=
    [toByte p.height, toByte p.round, toByte p.polRound, toByte p.block.header.height,
      toByte p.block.header.time, toByte p.polVotes.length]
  marshalBlockHeader h := [toByte h.height, toByte h.time]
  newValidatorPenalty t := -(t + t / 8)

end Leaderberry
