import Leaderberry.Engine.Chain

/-!
# The light commit check (`VerifyCommitLight`)

`VerifyCommitLight` counts power like `VerifyCommit`, without verifying signatures again. The
two loops differ in one filter: `VerifyCommit` skips an entry without a signature before it
looks up the validator, `VerifyCommitLight` does not look at signatures at all.

So the light check counts more, which does no harm, and looks up more, which does: an absent
entry that names the block and an index nobody has makes it fail. `verifyCommitLight_iff` says
that this is the only way to reject what the full check accepts.
-/

namespace Leaderberry

/-- The entry is for the block: neither nil nor for something else. -/
def CommitSig.forBlock (blockHash : Hash) (sig : CommitSig) : Bool :=
  !isHashEmpty sig.blockHash && sig.blockHash == some blockHash

section

variable (valSet : ValidatorSet) (blockHash : Hash)

/-- The loop of `VerifyCommitLight`. -/
def commitPowerLight : List CommitSig → List Nat → Int → Except CommitError Int
  | [], _, power => .ok power
  | sig :: rest, seen, power =>
    if sig.validatorIndex ∈ seen then .error (.duplicateSignature sig.validatorIndex)
    else
      let seen := sig.validatorIndex :: seen
      if isHashEmpty sig.blockHash then commitPowerLight rest seen power
      else if sig.blockHash ≠ some blockHash then commitPowerLight rest seen power
      else
        match valSet.getByIndex sig.validatorIndex with
        | none => .error (.unknownValidator sig.validatorIndex)
        | some val => commitPowerLight rest seen (power + val.votingPower)

end

/-- `VerifyCommitLight`. It accepts an empty list of signatures where `VerifyCommit` does not,
but an empty list has no power. -/
def verifyCommitLight (valSet : Option ValidatorSet) (blockHash : Hash) (height : Int)
    (commit : Option Commit) : Except CommitError Unit :=
  match valSet with
  | none => .error .nilValidatorSet
  | some valSet =>
    match commit with
    | none => .error .invalidCommit
    | some commit =>
      if commit.height ≠ height then .error (.heightMismatch height commit.height)
      else if commit.blockHash ≠ blockHash then .error .blockHashMismatch
      else
        match commitPowerLight valSet blockHash commit.signatures [] 0 with
        | .error e => .error e
        | .ok power =>
          if power < valSet.twoThirdsMajority then
            .error (.insufficientPower power valSet.twoThirdsMajority)
          else .ok ()

variable {valSet : ValidatorSet} {blockHash : Hash}

/-! ## The loop -/

section cons

variable {sig : CommitSig} {rest : List CommitSig} {seen : List Nat} {power : Int}

/-- An entry for nil or for another block is skipped. -/
theorem commitPowerLight_skip (hseen : sig.validatorIndex ∉ seen)
    (hblock : sig.forBlock blockHash = false) :
    commitPowerLight valSet blockHash (sig :: rest) seen power =
      commitPowerLight valSet blockHash rest (sig.validatorIndex :: seen) power := by
  rw [commitPowerLight, if_neg hseen]
  dsimp only
  split
  · rfl
  rename_i hempty
  split
  · rfl
  rename_i hother
  simp only [CommitSig.forBlock, not_not.mp hother, BEq.rfl, Bool.and_true,
    Bool.not_eq_false'] at hblock
  exact absurd (not_not.mp hother ▸ hblock) hempty

/-- An entry for the block is looked up. -/
theorem commitPowerLight_forBlock (hseen : sig.validatorIndex ∉ seen)
    (hblock : sig.forBlock blockHash = true) :
    (valSet.getByIndex sig.validatorIndex = none ∧
      commitPowerLight valSet blockHash (sig :: rest) seen power =
        .error (.unknownValidator sig.validatorIndex)) ∨
    ∃ val, valSet.getByIndex sig.validatorIndex = some val ∧
      commitPowerLight valSet blockHash (sig :: rest) seen power =
        commitPowerLight valSet blockHash rest (sig.validatorIndex :: seen)
          (power + valSet.power sig.validatorIndex) := by
  simp only [CommitSig.forBlock, Bool.and_eq_true, Bool.not_eq_true', beq_iff_eq] at hblock
  obtain ⟨hempty, hhash⟩ := hblock
  rw [commitPowerLight, if_neg hseen]
  dsimp only
  rw [if_neg (by simp [hempty]), if_neg (not_not.mpr hhash)]
  cases hval : valSet.getByIndex sig.validatorIndex with
  | none => exact .inl ⟨rfl, rfl⟩
  | some val =>
    rw [ValidatorSet.power_of_getByIndex hval]
    exact .inr ⟨val, rfl, rfl⟩

end cons

/-- On distinct indices the loop fails only for an unknown one, and counts the others. -/
theorem commitPowerLight_ok_iff (sigs : List CommitSig) : ∀ (seen : List Nat) (power : Int),
    NewSigners seen sigs →
      ∀ power', commitPowerLight valSet blockHash sigs seen power = .ok power' ↔
      (∀ sig ∈ sigs, sig.forBlock blockHash = true →
        (valSet.getByIndex sig.validatorIndex).isSome) ∧
      power' = power + ((sigs.filter (CommitSig.forBlock blockHash)).map
        fun sig => valSet.power sig.validatorIndex).sum := by
  induction sigs with
  | nil =>
    intro seen power _ power'
    constructor
    · intro h
      cases h
      simp
    · rintro ⟨-, rfl⟩
      simp [commitPowerLight]
  | cons sig rest ih =>
    intro seen power hnew power'
    obtain ⟨hsig, hnext⟩ := newSigners_cons.mp hnew
    rw [List.forall_mem_cons]
    by_cases hblock : sig.forBlock blockHash = true
    · rw [List.filter_cons_of_pos hblock, List.map_cons, List.sum_cons]
      rcases commitPowerLight_forBlock hsig hblock with ⟨hval, heq⟩ | ⟨val, hval, heq⟩
      · rw [heq, hval]
        simp [hblock]
      · rw [heq, ih _ _ hnext, hval, add_assoc]
        simp
    · rw [commitPowerLight_skip hsig (Bool.eq_false_iff.mpr hblock),
        List.filter_cons_of_neg hblock, ih _ _ hnext]
      simp [hblock]

/-! ## The two checks -/

/-- The light check counts at least what the full check counts. -/
theorem counted_le_forBlock (hwf : valSet.Wf) (sigs : List CommitSig) :
    ((sigs.filter (CommitSig.counts blockHash)).map
      fun sig => valSet.power sig.validatorIndex).sum ≤
    ((sigs.filter (CommitSig.forBlock blockHash)).map
      fun sig => valSet.power sig.validatorIndex).sum := by
  refine List.Sublist.sum_le_sum (List.Sublist.map _ (List.monotone_filter_right _ ?_)) ?_
  · intro sig hcounts
    rw [CommitSig.counts, Bool.and_assoc, Bool.and_eq_true] at hcounts
    exact hcounts.2
  · intro p hp
    obtain ⟨sig, -, rfl⟩ := List.mem_map.mp hp
    exact hwf.power_nonneg _

section

variable [Externals]

/-- **What the full check accepts, the light check accepts**, unless an entry without a
signature names the block and a validator that does not exist. -/
theorem verifyCommitLight_iff {chainID : GoString} {height : Int} {commit : Commit}
    (hwf : valSet.Wf)
    (h : verifyCommit chainID (some valSet) blockHash height (some commit) = .ok ()) :
    verifyCommitLight (some valSet) blockHash height (some commit) = .ok () ↔
      ∀ sig ∈ commit.signatures, sig.signature.data.length = 0 →
        sig.forBlock blockHash = true → (valSet.getByIndex sig.validatorIndex).isSome := by
  obtain ⟨hheight, hhash, hnodup, hverified, hpower⟩ := verifyCommit_counted h
  have hloop : ∀ power',
      commitPowerLight valSet blockHash commit.signatures [] 0 = .ok power' ↔ _ :=
    commitPowerLight_ok_iff commit.signatures [] 0 (newSigners_nil_iff.mpr hnodup)
  -- an entry for the block has a signature, and then it was verified, or it has none
  have hknown : (∀ sig ∈ commit.signatures, sig.forBlock blockHash = true →
      (valSet.getByIndex sig.validatorIndex).isSome) ↔
      ∀ sig ∈ commit.signatures, sig.signature.data.length = 0 →
        sig.forBlock blockHash = true → (valSet.getByIndex sig.validatorIndex).isSome := by
    constructor
    · exact fun hall sig hsig _ => hall sig hsig
    · intro habsent sig hsig hblock
      by_cases hempty : sig.signature.data.length = 0
      · exact habsent sig hsig hempty hblock
      · have hcounts : sig.counts blockHash = true := by
          rw [CommitSig.counts, Bool.and_assoc, ← CommitSig.forBlock, hblock]
          simpa using hempty
        obtain ⟨val, hval⟩ := hverified sig hsig hcounts
        rw [hval.found]
        rfl
  unfold verifyCommitLight
  dsimp only
  rw [if_neg (not_not.mpr hheight), if_neg (not_not.mpr hhash), ← hknown]
  constructor
  · intro hlight
    split at hlight
    · cases hlight
    · rename_i power hpower'
      exact ((hloop power).mp hpower').1
  · intro hall
    rw [(hloop _).mpr ⟨hall, rfl⟩, zero_add]
    dsimp only
    rw [if_neg (not_lt.mpr (hpower.trans (counted_le_forBlock hwf _)))]

end

attribute [local instance] transparent

/-- A commit with the signature of validator 1, who is a quorum, and an absent entry for the
same block at the given index. -/
def commitWithAbsent (index : Nat) : Commit where
  height := 1
  round := 0
  blockHash := Leaderberry.blockHash (Scenario.block 1 1)
  signatures :=
    [VoteSet.commitSig (Scenario.vote 1 0 .precommit 1 0 (some (Scenario.block 1 1))),
      { validatorIndex := index
        signature := ⟨[]⟩
        timestamp := 0
        blockHash := some (Leaderberry.blockHash (Scenario.block 1 1)) }]

/-- An absent entry of a validator that exists does no harm. -/
theorem verifyCommitLight_known :
    verifyCommit [] (some (Scenario.validatorSet _ Scenario.isOk_strong).1)
      (commitWithAbsent 1).blockHash 1 (some (commitWithAbsent 1)) = .ok () ∧
    verifyCommitLight (some (Scenario.validatorSet _ Scenario.isOk_strong).1)
      (commitWithAbsent 1).blockHash 1 (some (commitWithAbsent 1)) = .ok () := by
  have hfull : verifyCommit [] (some (Scenario.validatorSet _ Scenario.isOk_strong).1)
      (commitWithAbsent 1).blockHash 1 (some (commitWithAbsent 1)) = .ok () := by
    decide +kernel
  refine ⟨hfull, (verifyCommitLight_iff (Scenario.validatorSet _ Scenario.isOk_strong).2
    hfull).mpr ?_⟩
  decide +kernel

/-- An absent entry of validator 7 in a set of two: the full check accepts, the light one
does not. -/
theorem verifyCommitLight_unknown :
    (Scenario.validatorSet _ Scenario.isOk_strong).1.Wf ∧
    verifyCommit [] (some (Scenario.validatorSet _ Scenario.isOk_strong).1)
      (commitWithAbsent 7).blockHash 1 (some (commitWithAbsent 7)) = .ok () ∧
    verifyCommitLight (some (Scenario.validatorSet _ Scenario.isOk_strong).1)
      (commitWithAbsent 7).blockHash 1 (some (commitWithAbsent 7)) =
        .error (.unknownValidator 7) :=
  ⟨(Scenario.validatorSet _ Scenario.isOk_strong).2, by decide +kernel, by decide +kernel⟩

end Leaderberry
