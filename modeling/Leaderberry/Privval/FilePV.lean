import Leaderberry.Types.Basic

/-!
# The file-based private validator (`privval/signer.go`, `privval/file_pv.go`)

`FilePV` signs votes and proposals and keeps the position of the last signature, in
memory and in a state file, so that it never signs two messages at one height, round
and step.

- The state file is the record `FilePVState`; `encoding/json` reads back what it wrote.
- A call runs under a `Fate`: it completes, `saveState` fails (before or after the
  atomic rename), or the process crashes on either side of the rename. A failed
  `saveState` rolls the memory back and panics; the caller may recover, so the
  validator stays usable.
- A crashed validator comes back through `LoadFilePV`, which reads whatever is on
  disk.
- One process works on the files, so the lock file is left out, and so is `Reset`.
-/

namespace Leaderberry

/-! ## The last signature -/

structure LastSignState where
  height : Int
  round : Int
  step : Int
  signature : Signature
  blockHash : Option Hash
  signBytesHash : Option Hash
  timestamp : Int
deriving DecidableEq

def stepProposal : Int := 0
def stepPrevote : Int := 1
def stepPrecommit : Int := 2

inductive SignError where
  | doubleSign
  | heightRegression
  | roundRegression
  | stepRegression
deriving DecidableEq

namespace LastSignState

/-- The zero value `LastSignState{}`. -/
def zero : LastSignState where
  height := 0
  round := 0
  step := 0
  signature := ⟨[]⟩
  blockHash := none
  signBytesHash := none
  timestamp := 0

/-- `CheckHRS`. -/
def checkHRS (lss : LastSignState) (height round step : Int) : Except SignError Unit :=
  if height < lss.height then .error .heightRegression
  else if lss.height = height then
    if round < lss.round then .error .roundRegression
    else if lss.round = round then
      if step < lss.step then .error .stepRegression
      else if lss.step = step then .error .doubleSign
      else .ok ()
    else .ok ()
  else .ok ()

variable [Externals]

/-- `isSameVote`, with its fallback for state files without a sign-bytes hash. -/
def isSameVote (lss : LastSignState) (chainID : GoString) (vote : Vote) : Bool :=
  match lss.signBytesHash with
  | some hash => hash == hashBytes (voteSignBytes chainID vote)
  | none => lss.timestamp == vote.timestamp && lss.blockHash == vote.blockHash

/-- `isSameProposal`. -/
def isSameProposal (lss : LastSignState) (chainID : GoString) (p : Proposal) : Bool :=
  match lss.signBytesHash with
  | some hash => hash == hashBytes (proposalSignBytes chainID p)
  | none => lss.timestamp == p.timestamp && lss.blockHash == some (Leaderberry.blockHash p.block)

end LastSignState

/-- `VoteStep`; `none` is its panic. -/
def voteStep : VoteType → Option Int
  | .prevote => some stepPrevote
  | .precommit => some stepPrecommit
  | _ => none

/-! ## The state file -/

structure FilePVState where
  height : Int
  round : Int
  step : Int
  signature : Bytes
  blockHash : Bytes
  signBytesHash : Bytes
  timestamp : Int
deriving DecidableEq

/-- What `saveState` writes. -/
def LastSignState.save (lss : LastSignState) : FilePVState where
  height := lss.height
  round := lss.round
  step := lss.step
  signature := lss.signature.data
  blockHash := (lss.blockHash.map Hash.data).getD []
  signBytesHash := (lss.signBytesHash.map Hash.data).getD []
  timestamp := lss.timestamp

inductive LoadError where
  | invalidSignature
  | invalidBlockHash
  | invalidSignBytesHash
deriving DecidableEq

/-- A hash field of the state file: absent if empty, else `NewHash`. -/
def loadHash (e : LoadError) (data : Bytes) : Except LoadError (Option Hash) :=
  if data.length = 0 then .ok none
  else if data.length = hashSize then .ok (some ⟨data⟩)
  else .error e

/-- `loadStateStrict`. -/
def FilePVState.load (file : FilePVState) : Except LoadError LastSignState :=
  if 0 < file.signature.length ∧ file.signature.length ≠ signatureSize then
    .error .invalidSignature
  else
    match loadHash .invalidBlockHash file.blockHash with
    | .error e => .error e
    | .ok blockHash =>
      match loadHash .invalidSignBytesHash file.signBytesHash with
      | .error e => .error e
      | .ok signBytesHash =>
        .ok { height := file.height, round := file.round, step := file.step,
              signature := ⟨file.signature⟩, blockHash, signBytesHash,
              timestamp := file.timestamp }

/-! ## Signing -/

/-- A validator with its key, which the key file keeps. -/
structure FilePV where
  pubKey : PublicKey
  privKey : Bytes
  lastSignState : LastSignState

/-- What happens while a call runs; `renamed` tells whether the new state file was
already in place. -/
inductive Fate where
  | completes
  | saveFails (renamed : Bool)
  | crashes (renamed : Bool)
deriving DecidableEq

/-- How a call ends. -/
inductive SignOutcome where
  | released (signature : Signature)
  | refused (e : SignError)
  | panicked
  | crashed
deriving DecidableEq

/-- What `SignVote` and `SignProposal` work with: the position, the fields the state
keeps and the sign bytes. -/
structure SignPayload where
  height : Int
  round : Int
  step : Int
  blockHash : Option Hash
  timestamp : Int
  signBytes : Bytes
deriving DecidableEq

/-- The end of a call that writes nothing. -/
def FilePV.finish (pv : FilePV) (disk : FilePVState) (outcome : SignOutcome) :
    Fate → SignOutcome × Option FilePV × FilePVState
  | .crashes _ => (.crashed, none, disk)
  | _ => (outcome, some pv, disk)

section signing

variable [Externals]

/-- The state after signing: the assignments before `saveState`. -/
def SignPayload.state (payload : SignPayload) (signature : Signature) : LastSignState where
  height := payload.height
  round := payload.round
  step := payload.step
  signature := signature
  blockHash := payload.blockHash
  signBytesHash := some (hashBytes payload.signBytes)
  timestamp := payload.timestamp

/-- The common body of `SignVote` and `SignProposal`: `same` is the answer of
`isSameVote` or `isSameProposal`. -/
def FilePV.signPayload (pv : FilePV) (disk : FilePVState) (payload : SignPayload)
    (same : Bool) (fate : Fate) : SignOutcome × Option FilePV × FilePVState :=
  match pv.lastSignState.checkHRS payload.height payload.round payload.step with
  | .error e =>
    if e = .doubleSign ∧ same then pv.finish disk (.released pv.lastSignState.signature) fate
    else pv.finish disk (.refused e) fate
  | .ok () =>
    let signature : Signature := ⟨Externals.ed25519Sign pv.privKey payload.signBytes⟩
    let newState := payload.state signature
    -- `MustNewSignature` and `MustNewHash`
    if signature.data.length ≠ signatureSize ∨
        (hashBytes payload.signBytes).data.length ≠ hashSize then
      pv.finish disk .panicked fate
    else
      match fate with
      | .completes =>
        (.released signature, some { pv with lastSignState := newState }, newState.save)
      | .saveFails renamed =>
        (.panicked, some pv, if renamed then newState.save else disk)
      | .crashes renamed => (.crashed, none, if renamed then newState.save else disk)

/-- The payload of a vote, of a type that has a step. -/
def votePayload (chainID : GoString) (vote : Vote) (step : Int) : SignPayload where
  height := vote.height
  round := vote.round
  step := step
  blockHash := vote.blockHash
  timestamp := vote.timestamp
  signBytes := voteSignBytes chainID vote

def proposalPayload (chainID : GoString) (p : Proposal) : SignPayload where
  height := p.height
  round := p.round
  step := stepProposal
  blockHash := some (Leaderberry.blockHash p.block)
  timestamp := p.timestamp
  signBytes := proposalSignBytes chainID p

/-- `SignVote`. -/
def FilePV.signVote (pv : FilePV) (disk : FilePVState) (chainID : GoString) (vote : Vote)
    (fate : Fate) : SignOutcome × Option FilePV × FilePVState :=
  match voteStep vote.type with
  | none => pv.finish disk .panicked fate
  | some step =>
    pv.signPayload disk (votePayload chainID vote step)
      (pv.lastSignState.isSameVote chainID vote) fate

/-- `SignProposal`. -/
def FilePV.signProposal (pv : FilePV) (disk : FilePVState) (chainID : GoString)
    (p : Proposal) (fate : Fate) : SignOutcome × Option FilePV × FilePVState :=
  pv.signPayload disk (proposalPayload chainID p)
    (pv.lastSignState.isSameProposal chainID p) fate

end signing

/-! ## Histories -/

/-- A call, or loading the validator from disk. -/
inductive SignEvent where
  | vote (chainID : GoString) (vote : Vote) (fate : Fate)
  | proposal (chainID : GoString) (p : Proposal) (fate : Fate)
  | load
deriving DecidableEq

/-- A signature that left the validator, with the message it was put on. -/
structure Release where
  payload : SignPayload
  signature : Signature
deriving DecidableEq

/-- The key file, the state file, the running validator if there is one, and what it
has released, newest first. -/
structure SignerState where
  pubKey : PublicKey
  privKey : Bytes
  disk : FilePVState
  pv : Option FilePV
  released : List Release

/-- `GenerateFilePV`. -/
def SignerState.generate (pubKey : PublicKey) (privKey : Bytes) : SignerState where
  pubKey := pubKey
  privKey := privKey
  disk := LastSignState.zero.save
  pv := some ⟨pubKey, privKey, .zero⟩
  released := []

section histories

variable [Externals]

/-- The message of a call; a vote without a step is never signed. -/
def SignEvent.payload : SignEvent → Option SignPayload
  | .vote chainID v _ => (voteStep v.type).map (votePayload chainID v)
  | .proposal chainID p _ => some (proposalPayload chainID p)
  | .load => none

/-- `LoadFilePV`: nothing runs if the state file is invalid. -/
def SignerState.loadFilePV (s : SignerState) : SignerState :=
  { s with pv :=
      match s.disk.load with
      | .error _ => none
      | .ok lss => some ⟨s.pubKey, s.privKey, lss⟩ }

/-- The state after a call with the given message. -/
def SignerState.called (s : SignerState) (payload : Option SignPayload)
    (result : SignOutcome × Option FilePV × FilePVState) : SignerState :=
  { s with
    pv := result.2.1
    disk := result.2.2
    released :=
      match payload, result.1 with
      | some payload, .released signature => ⟨payload, signature⟩ :: s.released
      | _, _ => s.released }

/-- One event; calls on a validator that is down do nothing. -/
def SignerState.step (s : SignerState) (event : SignEvent) : SignerState :=
  match event, s.pv with
  | .load, _ => s.loadFilePV
  | .vote chainID v fate, some pv =>
    s.called event.payload (pv.signVote s.disk chainID v fate)
  | .proposal chainID p fate, some pv =>
    s.called event.payload (pv.signProposal s.disk chainID p fate)
  | _, none => s

/-- A whole history. -/
def SignerState.run (s : SignerState) (events : List SignEvent) : SignerState :=
  events.foldl SignerState.step s

end histories

end Leaderberry
