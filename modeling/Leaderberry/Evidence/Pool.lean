import Leaderberry.Lib.Decimal
import Leaderberry.Types.Validator

/-!
# The evidence pool (`evidence/pool.go`)

The `Pool` of Byzantine evidence: votes seen so far, evidence that waits for a block and the
keys of evidence that is in one. The calls take what they read outside as arguments: `now`
is `time.Now()`, and `order` is the order in which Go walks over `seenVotes`.

- `checkVote`, `addEvidence`, `addDuplicateVoteEvidence`, `pendingEvidence`,
  `markCommitted`, `update`: the calls.
- `handleVote`: what `ConsensusState.handleVote` does with the pool.
- `scanKey_evidenceKey`, `voteKey_inj`: the string keys determine what they were made of.
-/

namespace Leaderberry.Byzantine

open Decimal

/-! ## Messages (`evidence.cram`) -/

/-- `EvidenceType` is an `int32` enumeration; `other` is any value without a name. -/
inductive EvidenceType where
  | unknown
  | duplicateVote
  | lightClientAttack
  | other (code : Int)
deriving DecidableEq

/-- The number behind the name. -/
def EvidenceType.code : EvidenceType → Int
  | .unknown => 0
  | .duplicateVote => 1
  | .lightClientAttack => 2
  | .other code => code

structure Evidence where
  type : EvidenceType
  height : Int
  time : Int
  data : Bytes
deriving DecidableEq

structure DuplicateVoteEvidence where
  voteA : Vote
  voteB : Vote
  totalVotingPower : Int
  validatorPower : Int
  timestamp : Int
deriving DecidableEq

/-- The container that `AddDuplicateVoteEvidence` builds around the encoded proof. -/
def DuplicateVoteEvidence.wrap (dve : DuplicateVoteEvidence) (data : Bytes) : Evidence :=
  ⟨.duplicateVote, dve.voteA.height, dve.timestamp, data⟩

/-- `MarshalCramberry` of a `DuplicateVoteEvidence`; `none` is an error of the writer. -/
class Encoder where
  marshalDuplicateVoteEvidence : DuplicateVoteEvidence → Option Bytes

/-- An encoder for concrete runs: of a proof only the time is told apart. -/
@[reducible] def timeEncoder : Encoder := ⟨fun dve => some [toByte dve.timestamp]⟩

/-! ## The pool -/

/-- `MaxSeenVotes`. -/
def maxSeenVotes : Nat := 100000

/-- `VoteProtectionWindow`. -/
def voteProtectionWindow : Int := 1000

/-- `MaxPendingEvidence`. -/
def maxPendingEvidence : Nat := 10000

/-- `Config`; `maxAge` is in nanoseconds. -/
structure Config where
  maxAge : Int
  maxAgeBlocks : Int
  maxBytes : Int

/-- `DefaultConfig`. -/
def defaultConfig : Config := ⟨48 * 3600 * 10 ^ 9, 100000, 1048576⟩

/-- `Pool`. `currentTime` counts nanoseconds since 1970. -/
structure Pool where
  config : Config
  pending : List Evidence
  committed : Finset GoString
  seenVotes : GoMap GoString Vote
  currentHeight : Int
  currentTime : Int

/-- The zero `time.Time`, the first of January of the year 1. -/
def zeroTime : Int := -62135596800 * 10 ^ 9

/-- `NewPool`. -/
def newPool (config : Config) : Pool := ⟨config, [], ∅, ∅, 0, zeroTime⟩

/-- Errors of `VerifyDuplicateVoteEvidence`. -/
inductive EvidenceError where
  | invalidEvidence
  | nilValidatorSet
  | invalidVoteHeight
  | invalidVoteRound
  | invalidVoteType
  | invalidValidator
  | sameBlockHash
  | signatureA (e : VoteSignatureError)
  | signatureB (e : VoteSignatureError)
deriving DecidableEq

/-- Errors of the calls. -/
inductive PoolError where
  | nilVote
  | nilValidatorSet
  | invalidValidator
  | invalidVoteSignature (e : VoteSignatureError)
  | createdInvalidEvidence (e : EvidenceError)
  | votePoolFull
  | invalidEvidence
  | pendingFull
  | duplicateEvidence
  | evidenceExpired
  | invalidDuplicateVoteEvidence (e : EvidenceError)
  | serializeFailed
deriving DecidableEq

/-! ## Keys -/

/-- The separator of the fields of a key. -/
def slash : Byte := byte '/'

/-- `voteKey`. -/
def voteKey (vote : Vote) : GoString :=
  accountNameString vote.validator ++ slash :: formatInt vote.height ++ slash ::
    formatInt vote.round ++ slash :: formatInt vote.type.code

/-- The verb `%x` of a byte string. -/
def hexBytes (data : Bytes) : GoString :=
  data.flatMap fun b => [byte (Nat.digitChar (b.val / 16)), byte (Nat.digitChar (b.val % 16))]

/-- `evidenceKey`. -/
def evidenceKey [Externals] (ev : Evidence) : GoString :=
  formatInt ev.type.code ++ slash :: (formatInt ev.height ++ slash :: (formatInt ev.time ++
    slash :: hexBytes ((Externals.sha256 ev.data).take 8)))

/-- The verb `%d` of `Sscanf` for an `int64` or an `int`, followed by a slash. No key has a
space in it, so that skipping spaces is left out. -/
def scanField (text : GoString) : Option (Int × GoString) :=
  match scanInt minInt64 maxInt64 text with
  | some (value, b :: rest) => if b = slash then some (value, rest) else none
  | _ => none

/-- `fmt.Sscanf(key, "%d/%d/%d/", &evType, &height, &evTime)`; what follows the last slash is
not read. -/
def scanKey (key : GoString) : Option (Int × Int × Int) :=
  (scanField key).bind fun (evType, rest) =>
    (scanField rest).bind fun (height, rest) =>
      (scanField rest).map fun (evTime, _) => (evType, height, evTime)

theorem scanField_formatInt {n v : Int} {text rest : GoString}
    (hscan : scanField (formatInt n ++ slash :: text) = some (v, rest)) : v = n ∧ rest = text := by
  rw [scanField, scanInt_formatInt _ _ _ (by decide : isDigit slash = false)] at hscan
  split_ifs at hscan
  simpa [eq_comm] using hscan

/-- The height that is read off a key is the height of its evidence. -/
theorem height_of_scanKey [Externals] {ev : Evidence} {t h τ : Int}
    (hscan : scanKey (evidenceKey ev) = some (t, h, τ)) : h = ev.height := by
  obtain ⟨⟨_, _⟩, htype, hscan⟩ := Option.bind_eq_some_iff.mp hscan
  obtain ⟨rfl, rfl⟩ := scanField_formatInt htype
  obtain ⟨⟨_, _⟩, hheight, hscan⟩ := Option.bind_eq_some_iff.mp hscan
  obtain ⟨rfl, rfl⟩ := scanField_formatInt hheight
  obtain ⟨_, -, heq⟩ := Option.map_eq_some_iff.mp hscan
  exact (Prod.mk.inj (Prod.mk.inj heq).2).1.symm

theorem slash_notMem_formatInt (n : Int) : slash ∉ formatInt n :=
  notMem_formatInt (by decide) (by decide) n

/-- Evidence with the same key has the same height and the same time. -/
theorem evidenceKey_inj [Externals] {ev ev' : Evidence} (heq : evidenceKey ev = evidenceKey ev') :
    ev.height = ev'.height ∧ ev.time = ev'.time := by
  obtain ⟨-, heq⟩ := field_inj (slash_notMem_formatInt _) (slash_notMem_formatInt _) heq
  obtain ⟨hheight, heq⟩ := field_inj (slash_notMem_formatInt _) (slash_notMem_formatInt _) heq
  obtain ⟨htime, -⟩ := field_inj (slash_notMem_formatInt _) (slash_notMem_formatInt _) heq
  exact ⟨formatInt_injective hheight, formatInt_injective htime⟩

/-- A name may hold slashes, but the numbers after it do not. -/
theorem voteKey_inj {v v' : Vote} (heq : voteKey v = voteKey v') :
    accountNameString v.validator = accountNameString v'.validator ∧ v.height = v'.height ∧
      v.round = v'.round ∧ v.type.code = v'.type.code := by
  obtain ⟨heq, htype⟩ := lastField_inj (slash_notMem_formatInt _) (slash_notMem_formatInt _) heq
  obtain ⟨heq, hround⟩ := lastField_inj (slash_notMem_formatInt _) (slash_notMem_formatInt _) heq
  obtain ⟨hname, hheight⟩ :=
    lastField_inj (slash_notMem_formatInt _) (slash_notMem_formatInt _) heq
  exact ⟨hname, formatInt_injective hheight, formatInt_injective hround,
    formatInt_injective htype⟩

/-! ## Maps -/

/-- A Go map after the entries that fail a test were deleted in a loop over it. -/
def retain {K V : Type} (keep : V → Bool) (m : GoMap K V) : GoMap K V :=
  ⟨m.entries.filter fun e => keep e.2, m.nodupKeys.sublist List.filter_sublist⟩

theorem mem_lookup_retain {K V : Type} [DecidableEq K] {keep : V → Bool} {m : GoMap K V} {k : K}
    {v : V} : v ∈ (retain keep m).lookup k ↔ v ∈ m.lookup k ∧ keep v = true := by
  rw [AList.mem_lookup_iff, AList.mem_lookup_iff]
  exact List.mem_filter

/-! ## Verification -/

/-- `votesForSameBlock`. -/
def votesForSameBlock (a b : Vote) : Bool := a.blockHash == b.blockHash

section

variable [Externals]

/-- `VerifyDuplicateVoteEvidence`. -/
def verifyDuplicateVoteEvidence (dve : Option DuplicateVoteEvidence) (chainID : GoString)
    (valSet : Option ValidatorSet) : Except EvidenceError Unit :=
  match dve, valSet with
  | none, _ => .error .invalidEvidence
  | some _, none => .error .nilValidatorSet
  | some dve, some valSet =>
    let voteA := dve.voteA
    let voteB := dve.voteB
    if voteA.height ≠ voteB.height then .error .invalidVoteHeight
    else if voteA.round ≠ voteB.round then .error .invalidVoteRound
    else if voteA.type.code ≠ voteB.type.code then .error .invalidVoteType
    else if accountNameString voteA.validator ≠ accountNameString voteB.validator then
      .error .invalidValidator
    else if votesForSameBlock voteA voteB then .error .sameBlockHash
    else
      match valSet.getByName (accountNameString voteA.validator) with
      | none => .error .invalidValidator
      | some val =>
        match verifyVoteSignature chainID voteA val.publicKey with
        | .error e => .error (.signatureA e)
        | .ok () =>
          match verifyVoteSignature chainID voteB val.publicKey with
          | .error e => .error (.signatureB e)
          | .ok () => .ok ()

/-- What accepted evidence consists of. -/
theorem verifyDuplicateVoteEvidence_ok_iff {dve : DuplicateVoteEvidence} {chainID : GoString}
    {vs : ValidatorSet} {val : NamedValidator}
    (hval : vs.getByName (accountNameString dve.voteA.validator) = some val) :
    verifyDuplicateVoteEvidence (some dve) chainID (some vs) = .ok () ↔
      dve.voteA.height = dve.voteB.height ∧ dve.voteA.round = dve.voteB.round ∧
      dve.voteA.type.code = dve.voteB.type.code ∧
      accountNameString dve.voteA.validator = accountNameString dve.voteB.validator ∧
      votesForSameBlock dve.voteA dve.voteB = false ∧
      verifyVoteSignature chainID dve.voteA val.publicKey = .ok () ∧
      verifyVoteSignature chainID dve.voteB val.publicKey = .ok () := by
  simp only [verifyDuplicateVoteEvidence, hval]
  cases verifyVoteSignature chainID dve.voteA val.publicKey <;>
    cases verifyVoteSignature chainID dve.voteB val.publicKey <;> split_ifs <;> simp_all

/-- The check that an empty chain ID switches off. -/
def unlessEmpty {ε : Type} (chainID : GoString) (check : Except ε Unit) : Except ε Unit :=
  if chainID ≠ [] then check else .ok ()

namespace Pool

/-! ## Pruning -/

/-- `isExpired`. `time.Time.Sub` saturates. -/
def isExpired (p : Pool) (ev : Evidence) : Bool :=
  p.config.maxAgeBlocks < wrapInt64 (p.currentHeight - ev.height) ||
    p.config.maxAge < max minInt64 (min maxInt64 (p.currentTime - ev.time))

/-- The age by which `pruneExpired` forgets committed keys and votes. -/
def outOfAge (p : Pool) (height : Int) : Bool :=
  height < p.currentHeight && p.config.maxAgeBlocks < wrapInt64 (p.currentHeight - height)

/-- Whether `pruneExpired` forgets a committed key: it reads the height off the key. -/
def forgets (p : Pool) (key : GoString) : Bool :=
  match scanKey key with
  | some (_, height, _) => p.outOfAge height
  | none => false

/-- `pruneExpired`. -/
def pruneExpired (p : Pool) : Pool :=
  { p with
    pending := p.pending.filter fun ev => !p.isExpired ev
    committed := p.committed.filter fun key => !p.forgets key
    seenVotes := retain (fun vote => !p.outOfAge vote.height) p.seenVotes }

/-- The height from which `pruneOldestVotes` keeps the votes. -/
def protectedHeight (p : Pool) : Int :=
  let height := wrapInt64 (p.currentHeight - voteProtectionWindow)
  if height < 0 then 0 else height

/-- The votes that `pruneOldestVotes` may delete, as Go meets them. -/
def unprotected (order : List GoString) (p : Pool) : List (Int × GoString) :=
  order.filterMap fun key =>
    (p.seenVotes.lookup key).bind fun vote =>
      if p.protectedHeight ≤ vote.height then none else some (vote.height, key)

/-- The same votes by ascending height, those of one height as Go meets them. -/
def oldestFirst (order : List GoString) (p : Pool) : List GoString :=
  let votes := p.unprotected order
  let heights := (votes.map Prod.fst).dedup.insertionSort (· ≤ ·)
  heights.flatMap fun h => (votes.filter fun v => v.1 = h).map Prod.snd

/-- `pruneOldestVotes`. -/
def pruneOldestVotes (order : List GoString) (n : Nat) (p : Pool) : Pool :=
  let deleted := (p.oldestFirst order).take n
  { p with seenVotes := deleted.foldl (fun votes key => votes.erase key) p.seenVotes }

/-! ## Calls -/

/-- `Update`. -/
def update (height blockTime : Int) (p : Pool) : Pool :=
  ({ p with currentHeight := height, currentTime := blockTime } : Pool).pruneExpired

/-- The end of `CheckVote`, for a vote whose key is new. -/
def trackVote (order : List GoString) (vote : Vote) (p : Pool) :
    Except PoolError (Option DuplicateVoteEvidence) × Pool :=
  let p := if maxSeenVotes ≤ p.seenVotes.entries.length
    then p.pruneOldestVotes order (maxSeenVotes / 10) else p
  if maxSeenVotes ≤ p.seenVotes.entries.length then (.error .votePoolFull, p)
  else (.ok none, { p with seenVotes := p.seenVotes.insert (voteKey vote) vote })

/-- The evidence that `CheckVote` builds from the vote it has and the vote it gets. -/
def equivocation (now : Int) (existing vote : Vote) (valSet : ValidatorSet)
    (val : NamedValidator) : DuplicateVoteEvidence where
  voteA := existing
  voteB := vote
  totalVotingPower := valSet.totalPower
  validatorPower := val.votingPower
  timestamp := now

/-- `CheckVote`. -/
def checkVote (now : Int) (order : List GoString) (vote : Option Vote)
    (valSet : Option ValidatorSet) (chainID : GoString) (p : Pool) :
    Except PoolError (Option DuplicateVoteEvidence) × Pool :=
  match vote, valSet with
  | none, _ => (.error .nilVote, p)
  | some _, none => (.error .nilValidatorSet, p)
  | some vote, some valSet =>
    match valSet.getByName (accountNameString vote.validator) with
    | none => (.error .invalidValidator, p)
    | some val =>
      match unlessEmpty chainID (verifyVoteSignature chainID vote val.publicKey) with
      | .error e => (.error (.invalidVoteSignature e), p)
      | .ok () =>
        match p.seenVotes.lookup (voteKey vote) with
        | none => p.trackVote order vote
        | some existing =>
          if votesForSameBlock existing vote then (.ok none, p)
          else
            let ev := equivocation now existing vote valSet val
            match unlessEmpty chainID (verifyDuplicateVoteEvidence ev chainID valSet) with
            | .error e => (.error (.createdInvalidEvidence e), p)
            | .ok () => (.ok (some ev), p)

/-- `AddEvidence`. -/
def addEvidence (ev : Option Evidence) (p : Pool) : Option PoolError × Pool :=
  match ev with
  | none => (some .invalidEvidence, p)
  | some ev =>
    if ev.data.length = 0 then (some .invalidEvidence, p)
    else if maxPendingEvidence ≤ p.pending.length then (some .pendingFull, p)
    else if evidenceKey ev ∈ p.committed then (some .duplicateEvidence, p)
    else if evidenceKey ev ∈ p.pending.map evidenceKey then (some .duplicateEvidence, p)
    else if p.isExpired ev then (some .evidenceExpired, p)
    else (none, { p with pending := p.pending ++ [ev] })

/-- `MarkCommitted`, with `removePending`. -/
def markCommitted (evidence : List Evidence) (p : Pool) : Pool :=
  let keys := (evidence.map evidenceKey).toFinset
  { p with
    committed := p.committed ∪ keys
    pending := p.pending.filter fun ev => evidenceKey ev ∉ keys }

/-- The loop of `PendingEvidence`; `24` is `evidenceOverhead`. -/
def within (maxBytes : Int) : Int → List Evidence → List Evidence
  | _, [] => []
  | totalSize, ev :: rest =>
    let evSize : Int := 24 + ev.data.length
    if maxBytes < totalSize + evSize then [] else ev :: within maxBytes (totalSize + evSize) rest

/-- `PendingEvidence`. -/
def pendingEvidence (maxBytes : Int) (p : Pool) : List Evidence :=
  within (if maxBytes ≤ 0 then p.config.maxBytes else maxBytes) 0 p.pending

variable [Encoder]

/-- `AddDuplicateVoteEvidence`. -/
def addDuplicateVoteEvidence (dve : Option DuplicateVoteEvidence) (chainID : GoString)
    (valSet : Option ValidatorSet) (p : Pool) : Option PoolError × Pool :=
  match dve with
  | none => (some .invalidEvidence, p)
  | some dve =>
    match unlessEmpty chainID (verifyDuplicateVoteEvidence dve chainID valSet) with
    | .error e => (some (.invalidDuplicateVoteEvidence e), p)
    | .ok () =>
      match Encoder.marshalDuplicateVoteEvidence dve with
      | none => (some .serializeFailed, p)
      | some data => p.addEvidence (some (dve.wrap data))

/-- What `ConsensusState.handleVote` does with the pool: errors are only logged. -/
def handleVote (now : Int) (order : List GoString) (vote : Option Vote)
    (valSet : Option ValidatorSet) (chainID : GoString) (p : Pool) : Pool :=
  match p.checkVote now order vote valSet chainID with
  | (.ok (some dve), p) => (p.addDuplicateVoteEvidence (some dve) chainID valSet).2
  | (_, p) => p

/-! ## What a call can do -/

omit [Externals] [Encoder] in
/-- A new vote is tracked or not; nothing but the votes changes. -/
theorem trackVote_spec (order : List GoString) (vote : Vote) (p : Pool) :
    (∃ m, (p.trackVote order vote).2 = { p with seenVotes := m }) ∧
      ∀ dve, (p.trackVote order vote).1 ≠ .ok (some dve) := by
  unfold trackVote
  dsimp only
  constructor
  · split_ifs <;> exact ⟨_, rfl⟩
  · intro dve
    split_ifs <;> simp

section

omit [Encoder]

/-- What `CheckVote` can do: fail, track a new vote, find a vote for the same block, or
return evidence that has passed its own check. -/
theorem checkVote_cases (now : Int) (order : List GoString) (vote : Option Vote)
    (valSet : Option ValidatorSet) (chainID : GoString) (p : Pool) :
    (∃ e, p.checkVote now order vote valSet chainID = (.error e, p)) ∨
      ∃ v vs val, vote = some v ∧ valSet = some vs ∧
        vs.getByName (accountNameString v.validator) = some val ∧
        unlessEmpty chainID (verifyVoteSignature chainID v val.publicKey) = .ok () ∧
        ((p.seenVotes.lookup (voteKey v) = none ∧
            p.checkVote now order vote valSet chainID = p.trackVote order v) ∨
          ∃ existing, p.seenVotes.lookup (voteKey v) = some existing ∧
            ((votesForSameBlock existing v = true ∧
                p.checkVote now order vote valSet chainID = (.ok none, p)) ∨
              (votesForSameBlock existing v = false ∧
                unlessEmpty chainID (verifyDuplicateVoteEvidence
                  (equivocation now existing v vs val) chainID vs) = .ok () ∧
                p.checkVote now order vote valSet chainID =
                  (.ok (some (equivocation now existing v vs val)), p)))) := by
  match vote, valSet with
  | none, _ => exact .inl ⟨_, rfl⟩
  | some _, none => exact .inl ⟨_, rfl⟩
  | some v, some vs =>
    unfold checkVote
    dsimp only
    split
    · exact .inl ⟨_, rfl⟩
    rename_i val hval
    split
    · exact .inl ⟨_, rfl⟩
    rename_i hsignature
    split
    · rename_i hnew
      exact .inr ⟨v, vs, val, rfl, rfl, hval, hsignature, .inl ⟨hnew, rfl⟩⟩
    rename_i existing hexisting
    split
    · rename_i hsame
      exact .inr ⟨v, vs, val, rfl, rfl, hval, hsignature,
        .inr ⟨existing, hexisting, .inl ⟨hsame, rfl⟩⟩⟩
    rename_i hdiffer
    split
    · exact .inl ⟨_, rfl⟩
    · rename_i hverify
      exact .inr ⟨v, vs, val, rfl, rfl, hval, hsignature,
        .inr ⟨existing, hexisting, .inr ⟨Bool.eq_false_iff.mpr hdiffer, hverify, rfl⟩⟩⟩

/-- `CheckVote` touches nothing but the votes. -/
theorem checkVote_pool (now : Int) (order : List GoString) (vote : Option Vote)
    (valSet : Option ValidatorSet) (chainID : GoString) (p : Pool) :
    ∃ m, (p.checkVote now order vote valSet chainID).2 = { p with seenVotes := m } := by
  obtain ⟨e, h⟩ | ⟨v, vs, val, -, -, -, -, ⟨-, h⟩ | ⟨existing, -, ⟨-, h⟩ | ⟨-, -, h⟩⟩⟩ :=
    p.checkVote_cases now order vote valSet chainID
  · exact ⟨p.seenVotes, by rw [h]⟩
  · rw [h]
    exact (p.trackVote_spec order v).1
  · exact ⟨p.seenVotes, by rw [h]⟩
  · exact ⟨p.seenVotes, by rw [h]⟩

/-- When `CheckVote` returns evidence, it is about the vote that it has and the one it gets,
and the pool is as before. -/
theorem checkVote_found {now : Int} {order : List GoString} {vote : Option Vote}
    {valSet : Option ValidatorSet} {chainID : GoString} {p : Pool} {dve : DuplicateVoteEvidence}
    (hfound : (p.checkVote now order vote valSet chainID).1 = .ok (some dve)) :
    (p.checkVote now order vote valSet chainID).2 = p ∧
      ∃ v vs val existing, vote = some v ∧ valSet = some vs ∧
        vs.getByName (accountNameString v.validator) = some val ∧
        unlessEmpty chainID (verifyVoteSignature chainID v val.publicKey) = .ok () ∧
        p.seenVotes.lookup (voteKey v) = some existing ∧
        votesForSameBlock existing v = false ∧
        unlessEmpty chainID (verifyDuplicateVoteEvidence dve chainID vs) = .ok () ∧
        dve = equivocation now existing v vs val := by
  obtain ⟨e, h⟩ | ⟨v, vs, val, hv, hvs, hknown, hsigned, ⟨-, h⟩ |
      ⟨existing, hseen, ⟨-, h⟩ | ⟨hconflict, hverify, h⟩⟩⟩ :=
    p.checkVote_cases now order vote valSet chainID
  · rw [h] at hfound
    cases hfound
  · rw [h] at hfound
    exact absurd hfound ((p.trackVote_spec order v).2 dve)
  · rw [h] at hfound
    cases hfound
  · rw [h] at hfound ⊢
    cases hfound
    exact ⟨rfl, v, vs, val, existing, hv, hvs, hknown, hsigned, hseen, hconflict, hverify, rfl⟩

/-- When `AddEvidence` appends evidence. -/
structure Accepts (p : Pool) (ev : Evidence) : Prop where
  nonempty : ev.data.length ≠ 0
  room : p.pending.length < maxPendingEvidence
  uncommitted : evidenceKey ev ∉ p.committed
  fresh : evidenceKey ev ∉ p.pending.map evidenceKey
  unexpired : p.isExpired ev = false

theorem addEvidence_of_accepts {ev : Evidence} {p : Pool} (h : p.Accepts ev) :
    (p.addEvidence (some ev)).2 = { p with pending := p.pending ++ [ev] } := by
  simp only [addEvidence, if_neg h.nonempty, if_neg (Nat.not_le_of_lt h.room),
    if_neg h.uncommitted, if_neg h.fresh, h.unexpired, Bool.false_eq_true, if_false]

/-- `AddEvidence` refuses, or appends evidence that it accepts. -/
theorem addEvidence_cases (ev : Option Evidence) (p : Pool) :
    (p.addEvidence ev).2 = p ∨ ∃ e, ev = some e ∧ p.Accepts e ∧
      (p.addEvidence ev).2 = { p with pending := p.pending ++ [e] } := by
  match ev with
  | none => exact .inl rfl
  | some e =>
    unfold addEvidence
    dsimp only
    split
    · exact .inl rfl
    split
    · exact .inl rfl
    split
    · exact .inl rfl
    split
    · exact .inl rfl
    split
    · exact .inl rfl
    · rename_i hdata hfull hcommitted hpending hexpired
      exact .inr ⟨e, rfl, ⟨hdata, Nat.lt_of_not_le hfull, hcommitted, hpending,
        Bool.eq_false_iff.mpr hexpired⟩, rfl⟩

end

/-- `AddDuplicateVoteEvidence` refuses, or hands over to `AddEvidence`. -/
theorem addDuplicateVoteEvidence_cases (dve : Option DuplicateVoteEvidence) (chainID : GoString)
    (valSet : Option ValidatorSet) (p : Pool) :
    (p.addDuplicateVoteEvidence dve chainID valSet).2 = p ∨
      ∃ d data, dve = some d ∧ Encoder.marshalDuplicateVoteEvidence d = some data ∧
        (p.addDuplicateVoteEvidence dve chainID valSet).2 =
          (p.addEvidence (some (d.wrap data))).2 := by
  match dve with
  | none => exact .inl rfl
  | some d =>
    unfold addDuplicateVoteEvidence
    dsimp only
    split
    · exact .inl rfl
    cases hdata : Encoder.marshalDuplicateVoteEvidence d with
    | none => exact .inl rfl
    | some data => exact .inr ⟨d, data, rfl, hdata, rfl⟩

omit [Encoder] in
/-- Adding evidence changes nothing but the pending evidence. -/
theorem addEvidence_frame (ev : Option Evidence) (p : Pool) :
    ∃ pending, (p.addEvidence ev).2 = { p with pending } := by
  obtain hsame | ⟨e, -, -, hadd⟩ := p.addEvidence_cases ev
  · exact ⟨p.pending, hsame⟩
  · exact ⟨_, hadd⟩

theorem addDuplicateVoteEvidence_frame (dve : Option DuplicateVoteEvidence) (chainID : GoString)
    (valSet : Option ValidatorSet) (p : Pool) :
    ∃ pending, (p.addDuplicateVoteEvidence dve chainID valSet).2 = { p with pending } := by
  obtain hsame | ⟨d, data, -, -, hcall⟩ := p.addDuplicateVoteEvidence_cases dve chainID valSet
  · exact ⟨p.pending, hsame⟩
  · rw [hcall]
    exact p.addEvidence_frame _

/-! ## Runs -/

end Pool

/-- The calls of a pool, with what they read outside. -/
inductive PoolOp where
  | checkVote (now : Int) (order : List GoString) (vote : Option Vote)
      (valSet : Option ValidatorSet) (chainID : GoString)
  | addEvidence (ev : Option Evidence)
  | addDuplicateVoteEvidence (dve : Option DuplicateVoteEvidence) (chainID : GoString)
      (valSet : Option ValidatorSet)
  | markCommitted (evidence : List Evidence)
  | pendingEvidence (maxBytes : Int)
  | update (height blockTime : Int)

variable [Encoder]

/-- The pool after a call. -/
def Pool.step (p : Pool) : PoolOp → Pool
  | .checkVote now order vote valSet chainID => (p.checkVote now order vote valSet chainID).2
  | .addEvidence ev => (p.addEvidence ev).2
  | .addDuplicateVoteEvidence dve chainID valSet =>
    (p.addDuplicateVoteEvidence dve chainID valSet).2
  | .markCommitted evidence => p.markCommitted evidence
  | .pendingEvidence _ => p
  | .update height blockTime => p.update height blockTime

/-- The pool after a sequence of calls. -/
def Pool.run (p : Pool) (ops : List PoolOp) : Pool := ops.foldl Pool.step p

theorem Pool.run_concat (p : Pool) (ops : List PoolOp) (op : PoolOp) :
    p.run (ops ++ [op]) = (p.run ops).step op :=
  List.foldl_concat ..

end

end Leaderberry.Byzantine
