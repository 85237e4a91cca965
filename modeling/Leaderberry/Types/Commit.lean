import Leaderberry.Types.Validator

/-!
# Commit verification (`types/vote.go`)

`VerifyCommit`, and what a commit it accepts consists of (`verifyCommit_counted`):
signatures of distinct known validators over precommits for the block, with at least
`TwoThirdsMajority` power together. Signatures that are empty or for something else
may be there but do not count.
-/

namespace Leaderberry

/-- Errors of `VerifyCommit`, with the data their messages carry. -/
inductive CommitError where
  | nilValidatorSet
  | invalidCommit
  | heightMismatch (expected got : Int)
  | blockHashMismatch
  | noSignatures
  | duplicateSignature (index : Nat)
  | unknownValidator (index : Nat)
  | invalidSignature (index : Nat) (e : VoteSignatureError)
  | insufficientPower (got need : Int)
deriving DecidableEq

variable [Externals] (chainID : GoString) (valSet : ValidatorSet) (blockHash : Hash)
  (commit : Commit)

/-- The precommit that a signature of a commit stands for. -/
def CommitSig.vote (commit : Commit) (val : NamedValidator) (sig : CommitSig) : Vote where
  type := .precommit
  height := commit.height
  round := commit.round
  blockHash := sig.blockHash
  timestamp := sig.timestamp
  validator := val.name
  validatorIndex := sig.validatorIndex
  signature := sig.signature

/-- The loop of `VerifyCommit`: the power of the signatures for the block. -/
def commitPower : List CommitSig → List Nat → Int → Except CommitError Int
  | [], _, power => .ok power
  | sig :: rest, seen, power =>
    if sig.validatorIndex ∈ seen then .error (.duplicateSignature sig.validatorIndex)
    else
      let seen := sig.validatorIndex :: seen
      if sig.signature.data.length = 0 then commitPower rest seen power
      else if isHashEmpty sig.blockHash then commitPower rest seen power
      else if sig.blockHash ≠ some blockHash then commitPower rest seen power
      else
        match valSet.getByIndex sig.validatorIndex with
        | none => .error (.unknownValidator sig.validatorIndex)
        | some val =>
          match verifyVoteSignature chainID (sig.vote commit val) val.publicKey with
          | .error e => .error (.invalidSignature sig.validatorIndex e)
          | .ok () => commitPower rest seen (power + val.votingPower)

/-- `VerifyCommit`. -/
def verifyCommit (valSet : Option ValidatorSet) (blockHash : Hash) (height : Int)
    (commit : Option Commit) : Except CommitError Unit :=
  match valSet with
  | none => .error .nilValidatorSet
  | some valSet =>
    match commit with
    | none => .error .invalidCommit
    | some commit =>
      if commit.height ≠ height then .error (.heightMismatch height commit.height)
      else if commit.blockHash ≠ blockHash then .error .blockHashMismatch
      else if commit.signatures.length = 0 then .error .noSignatures
      else
        match commitPower chainID valSet blockHash commit commit.signatures [] 0 with
        | .error e => .error e
        | .ok power =>
          if power < valSet.twoThirdsMajority then
            .error (.insufficientPower power valSet.twoThirdsMajority)
          else .ok ()

variable {chainID valSet blockHash commit}

/-- The signatures `VerifyCommit` counts. -/
def CommitSig.counts (blockHash : Hash) (sig : CommitSig) : Bool :=
  sig.signature.data.length != 0 && !isHashEmpty sig.blockHash &&
    sig.blockHash == some blockHash

/-- A counted signature that `VerifyCommit` verified. -/
structure CommitSig.Verified (chainID : GoString) (valSet : ValidatorSet) (commit : Commit)
    (sig : CommitSig) (val : NamedValidator) : Prop where
  found : valSet.getByIndex sig.validatorIndex = some val
  signature : verifyVoteSignature chainID (sig.vote commit val) val.publicKey = .ok ()

/-- What one round of the loop does. -/
theorem commitPower_cons {sig : CommitSig} {rest : List CommitSig} {seen : List Nat}
    {power power' : Int}
    (h : commitPower chainID valSet blockHash commit (sig :: rest) seen power = .ok power') :
    sig.validatorIndex ∉ seen ∧
      ((sig.counts blockHash = false ∧ commitPower chainID valSet blockHash commit rest
          (sig.validatorIndex :: seen) power = .ok power') ∨
        sig.counts blockHash = true ∧ ∃ val, sig.Verified chainID valSet commit val ∧
          commitPower chainID valSet blockHash commit rest (sig.validatorIndex :: seen)
            (power + valSet.power sig.validatorIndex) = .ok power') := by
  unfold commitPower at h
  split at h
  · cases h
  rename_i hseen
  refine ⟨hseen, ?_⟩
  dsimp only at h
  split at h
  · rename_i hempty
    exact .inl ⟨by simp [CommitSig.counts, hempty], h⟩
  rename_i hsig
  split at h
  · rename_i hnil
    exact .inl ⟨by simp [CommitSig.counts, hnil], h⟩
  rename_i hhash
  split at h
  · rename_i hother
    exact .inl ⟨by simp [CommitSig.counts, hother], h⟩
  rename_i hblock
  split at h
  · cases h
  rename_i val hval
  split at h
  · cases h
  rename_i hverify
  refine .inr ⟨by simp_all [CommitSig.counts], val, ⟨hval, hverify⟩, ?_⟩
  rw [ValidatorSet.power_of_getByIndex hval]
  exact h

/-- The signers are distinct, and none of them was seen before. -/
def NewSigners (seen : List Nat) (sigs : List CommitSig) : Prop :=
  (∀ sig ∈ sigs, sig.validatorIndex ∉ seen) ∧ (sigs.map CommitSig.validatorIndex).Nodup

omit [Externals] in
theorem newSigners_nil_iff {sigs : List CommitSig} :
    NewSigners [] sigs ↔ (sigs.map CommitSig.validatorIndex).Nodup :=
  and_iff_right fun _ _ h => by cases h

omit [Externals] in
/-- The loops go on with the signer among the seen ones. -/
theorem newSigners_cons {sig : CommitSig} {rest : List CommitSig} {seen : List Nat} :
    NewSigners seen (sig :: rest) ↔
      sig.validatorIndex ∉ seen ∧ NewSigners (sig.validatorIndex :: seen) rest := by
  unfold NewSigners
  rw [List.forall_mem_cons, List.map_cons, List.nodup_cons]
  constructor
  · rintro ⟨⟨hseen, hfresh⟩, hother, hnodup⟩
    refine ⟨hseen, fun s hs hmem => ?_, hnodup⟩
    rcases List.mem_cons.mp hmem with heq | hmem
    · exact hother (heq ▸ List.mem_map_of_mem hs)
    · exact hfresh s hs hmem
  · rintro ⟨hseen, hfresh, hnodup⟩
    refine ⟨⟨hseen, fun s hs hmem => hfresh s hs (List.mem_cons_of_mem _ hmem)⟩, ?_, hnodup⟩
    intro hmem
    obtain ⟨s, hs, heq⟩ := List.mem_map.mp hmem
    exact hfresh s hs (heq ▸ List.mem_cons_self ..)

/-- The loop of `VerifyCommit`: no validator twice, every counted signature verified,
and the power of the counted ones. -/
theorem commitPower_ok (sigs : List CommitSig) : ∀ (seen : List Nat) (power power' : Int),
    commitPower chainID valSet blockHash commit sigs seen power = .ok power' →
      NewSigners seen sigs ∧
      (∀ sig ∈ sigs, sig.counts blockHash = true →
        ∃ val, sig.Verified chainID valSet commit val) ∧
      power' = power + ((sigs.filter (CommitSig.counts blockHash)).map
        fun sig => valSet.power sig.validatorIndex).sum := by
  induction sigs with
  | nil =>
    intro seen power power' h
    cases h
    simp [NewSigners]
  | cons sig rest ih =>
    intro seen power power' h
    obtain ⟨hseen, hcases⟩ := commitPower_cons h
    rw [newSigners_cons, List.forall_mem_cons]
    rcases hcases with ⟨hskip, hrest⟩ | ⟨hcount, val, hverified, hrest⟩
    · obtain ⟨hnew, hall, hpower⟩ := ih _ _ _ hrest
      refine ⟨⟨hseen, hnew⟩, ⟨fun hcount => ?_, hall⟩, ?_⟩
      · rw [hskip] at hcount
        cases hcount
      · rw [List.filter_cons_of_neg (by simp [hskip])]
        exact hpower
    · obtain ⟨hnew, hall, hpower⟩ := ih _ _ _ hrest
      refine ⟨⟨hseen, hnew⟩, ⟨fun _ => ⟨val, hverified⟩, hall⟩, ?_⟩
      rw [List.filter_cons_of_pos hcount, List.map_cons, List.sum_cons]
      omega

/-- What an accepted commit consists of. -/
theorem verifyCommit_counted {height : Int}
    (h : verifyCommit chainID (some valSet) blockHash height (some commit) = .ok ()) :
    commit.height = height ∧ commit.blockHash = blockHash ∧
      (commit.signatures.map CommitSig.validatorIndex).Nodup ∧
      (∀ sig ∈ commit.signatures, sig.counts blockHash = true →
        ∃ val, sig.Verified chainID valSet commit val) ∧
      valSet.twoThirdsMajority ≤ ((commit.signatures.filter (CommitSig.counts blockHash)).map
        fun sig => valSet.power sig.validatorIndex).sum := by
  unfold verifyCommit at h
  dsimp only at h
  split at h
  · cases h
  rename_i hheight
  split at h
  · cases h
  rename_i hhash
  split at h
  · cases h
  split at h
  · cases h
  rename_i power hpower
  split at h
  · cases h
  rename_i henough
  obtain ⟨hnew, hall, hsum⟩ := commitPower_ok _ _ _ _ hpower
  refine ⟨not_not.mp hheight, not_not.mp hhash, newSigners_nil_iff.mp hnew, hall, ?_⟩
  omega

/-- An accepted commit is for the block and the height it was checked against. -/
theorem verifyCommit_target {valSet : Option ValidatorSet} {height : Int}
    (h : verifyCommit chainID valSet blockHash height (some commit) = .ok ()) :
    commit.height = height ∧ commit.blockHash = blockHash := by
  cases valSet with
  | none => cases h
  | some valSet =>
    obtain ⟨hheight, hhash, -⟩ := verifyCommit_counted h
    exact ⟨hheight, hhash⟩

end Leaderberry
