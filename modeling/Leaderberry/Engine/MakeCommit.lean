import Leaderberry.Engine.Chain
import Leaderberry.Engine.VoteRun
import Leaderberry.Lib.KeyedSort

/-!
# The commit of a vote set

`MakeCommit` finds the block by the key of its hash and takes the votes whose hash is equal
to it; `VerifyCommit` rebuilds every vote from its signature and the validator set. The two
sides agree on every vote set that calls can reach.

- `Commit.Certifies.verifyCommit`: `VerifyCommit` accepts what certifies its block.
- `makeCommit_isSome_iff`: there is a commit when there is a majority for a real hash.
- `makeCommit_verifies`: what `MakeCommit` returns passes `VerifyCommit`, and consists of the
  stored votes for the block in the order of their validators.
-/

namespace Leaderberry

section

variable [Externals] {chainID : GoString}

/-! ## Certificates verify -/

/-- The loop of `VerifyCommit` on signatures that all count. -/
theorem commitPower_of_verified {valSet : ValidatorSet} {blockHash : Hash} {commit : Commit}
    (sigs : List CommitSig) : ∀ (seen : List Nat) (power : Int),
    NewSigners seen sigs →
    (∀ sig ∈ sigs, sig.counts blockHash = true ∧ ∃ val, sig.Verified chainID valSet commit val) →
    commitPower chainID valSet blockHash commit sigs seen power =
      .ok (power + (sigs.map fun sig => valSet.power sig.validatorIndex).sum) := by
  induction sigs with
  | nil =>
    intro seen power _ _
    simp [commitPower]
  | cons sig rest ih =>
    intro seen power hnew hall
    obtain ⟨hseen, hnew⟩ := newSigners_cons.mp hnew
    obtain ⟨⟨hcounts, val, hval⟩, hall⟩ := List.forall_mem_cons.mp hall
    simp only [CommitSig.counts, Bool.and_eq_true, bne_iff_ne, Bool.not_eq_true', ne_eq,
      beq_iff_eq] at hcounts
    obtain ⟨⟨hsig, hempty⟩, hhash⟩ := hcounts
    -- not a duplicate, and none of the three skips of the loop applies
    unfold commitPower
    rw [if_neg hseen]
    dsimp only
    rw [if_neg hsig, if_neg (by simp [hempty]), if_neg (not_not.mpr hhash), hval.found]
    dsimp only
    rw [hval.signature]
    dsimp only
    rw [ih _ _ hnew hall, List.map_cons, List.sum_cons,
      ValidatorSet.power_of_getByIndex hval.found, add_assoc]

/-- A signature that `VerifyVoteSignature` accepts is not empty. -/
theorem signature_ne_nil_of_verifyVoteSignature {vote : Vote} {key : PublicKey}
    (h : verifyVoteSignature chainID vote key = .ok ()) :
    vote.signature.data.length ≠ 0 := by
  intro hnil
  unfold verifyVoteSignature at h
  rw [if_pos hnil] at h
  cases h

/-- **`VerifyCommit` accepts what certifies a block.** -/
theorem Commit.Certifies.verifyCommit {valSet : ValidatorSet} {c : Commit}
    (h : c.Certifies chainID valSet) (hwf : valSet.Wf)
    (hne : isHashEmpty (some c.blockHash) = false) :
    verifyCommit chainID (some valSet) c.blockHash c.height (some c) = .ok () := by
  -- a quorum is not empty, so the commit has signatures
  have hpos : 0 < valSet.twoThirdsMajority := by
    have := (ValidatorSet.twoThirdsMajority_le_iff hwf.totalPower_pos 0).not
    have := hwf.totalPower_pos
    omega
  have hsome : c.signatures.length ≠ 0 := by
    intro hnil
    have hpower := h.power
    rw [List.length_eq_zero_iff.mp hnil, List.map_nil, List.sum_nil] at hpower
    omega
  have hloop : commitPower chainID valSet c.blockHash c c.signatures [] 0 = .ok (0 +
      (c.signatures.map fun sig => valSet.power sig.validatorIndex).sum) := by
    refine commitPower_of_verified c.signatures [] 0 (newSigners_nil_iff.mpr h.distinct)
      fun sig hsig => ?_
    obtain ⟨hhash, val, hval⟩ := h.verified sig hsig
    refine ⟨?_, val, hval⟩
    have hsigned := signature_ne_nil_of_verifyVoteSignature hval.signature
    simp only [CommitSig.counts, hhash, hne, Bool.and_eq_true, bne_iff_ne, ne_eq,
      Bool.not_false, and_true, BEq.rfl]
    exact hsigned
  unfold Leaderberry.verifyCommit
  dsimp only
  rw [if_neg (not_not.mpr rfl), if_neg (not_not.mpr rfl), if_neg hsome, hloop, zero_add]
  dsimp only
  rw [if_neg (not_lt.mpr h.power)]

namespace VoteSet

variable {vs : VoteSet} {c : Commit}

/-! ## What the commit consists of -/

section

omit [Externals]

/-- The commit for a majority: the votes for the block, sorted by validator. -/
theorem makeCommit_of_majority (htype : vs.voteType = .precommit) {x : Hash}
    (hmaj : vs.twoThirdsMajority = some (some x)) (hne : isHashEmpty (some x) = false) :
    vs.makeCommit = some
      { height := vs.height
        round := vs.round
        blockHash := x
        signatures := ((vs.votesForBlock x).map commitSig).insertionSort
          fun a b => a.validatorIndex ≤ b.validatorIndex } := by
  unfold makeCommit
  rw [if_neg (not_not.mpr htype), hmaj]
  dsimp only
  rw [if_neg (by simp [hne])]
  rfl

theorem signatures_makeCommit (h : vs.makeCommit = some c) :
    c.signatures = ((vs.votesForBlock c.blockHash).map commitSig).insertionSort
      fun a b => a.validatorIndex ≤ b.validatorIndex := by
  obtain ⟨htype, hmaj, hne, -⟩ := makeCommit_some h
  rw [makeCommit_of_majority htype hmaj hne] at h
  exact (congrArg Commit.signatures (Option.some_inj.mp h)).symm

/-- There is a commit when there is a majority for a hash that is not nil and not zero. -/
theorem makeCommit_isSome_iff (htype : vs.voteType = .precommit) :
    vs.makeCommit.isSome ↔
      ∃ x, vs.twoThirdsMajority = some (some x) ∧ isHashEmpty (some x) = false := by
  constructor
  · intro hsome
    obtain ⟨c, hc⟩ := Option.isSome_iff_exists.mp hsome
    obtain ⟨-, hmaj, hne, -⟩ := makeCommit_some hc
    exact ⟨c.blockHash, hmaj, hne⟩
  · rintro ⟨x, hmaj, hne⟩
    rw [makeCommit_of_majority htype hmaj hne]
    rfl

end

/-- The signatures are in the order of their validators. -/
theorem Inv.signatures_sorted (h : vs.Inv) (hc : vs.makeCommit = some c) :
    c.signatures.Pairwise fun a b => a.validatorIndex < b.validatorIndex := by
  rw [signatures_makeCommit hc]
  refine KeyedSort.pairwise_lt ?_
  rw [List.map_map]
  exact h.votesForBlock_nodup c.blockHash

omit [Externals] in
/-- They are those of the stored votes for the block. -/
theorem mem_signatures_makeCommit (hc : vs.makeCommit = some c) (sig : CommitSig) :
    sig ∈ c.signatures ↔ ∃ i vote, vs.votes.lookup i = some vote ∧
      vote.blockHash = some c.blockHash ∧ sig = commitSig vote := by
  obtain ⟨-, -, hne, -, -, hperm⟩ := makeCommit_some hc
  rw [hperm.mem_iff, List.mem_map]
  constructor
  · rintro ⟨vote, hvote, rfl⟩
    obtain ⟨⟨i, hi⟩, -, hhash⟩ := mem_votesForBlock.mp hvote
    exact ⟨i, vote, hi, hhash, rfl⟩
  · rintro ⟨i, vote, hi, hhash, rfl⟩
    exact ⟨vote, mem_votesForBlock.mpr ⟨⟨i, hi⟩, by rw [hhash]; exact hne, hhash⟩, rfl⟩

/-! ## Over a run -/

/-- Two vote sets for the same votes: everything but the votes is equal. -/
structure SameSetting (vs ws : VoteSet) : Prop where
  chainID : ws.chainID = vs.chainID
  height : ws.height = vs.height
  round : ws.round = vs.round
  voteType : ws.voteType = vs.voteType
  validatorSet : ws.validatorSet = vs.validatorSet
  generation : ws.myGeneration = vs.myGeneration

omit [Externals] in
theorem SameSetting.refl (vs : VoteSet) : vs.SameSetting vs := ⟨rfl, rfl, rfl, rfl, rfl, rfl⟩

theorem sameSetting_calls (vs : VoteSet) (cs : List Call) : vs.SameSetting (vs.calls cs) :=
  calls_induction (P := vs.SameSetting)
    (fun _ _ _ h _ _ => ⟨h.chainID, h.height, h.round, h.voteType, h.validatorSet, h.generation⟩)
    cs (.refl vs)

/-- **The commits that `MakeCommit` builds verify.** -/
theorem makeCommit_verifies (chainID : GoString) (height round : Int)
    (validatorSet : ValidatorSet) (hwf : validatorSet.Wf) (generation : Option Nat)
    (cs : List Call) :
    let vs := (VoteSet.new chainID height round .precommit validatorSet generation).calls cs
    (∀ c, vs.makeCommit = some c →
      verifyCommit chainID (some validatorSet) c.blockHash height (some c) = .ok () ∧
      (c.signatures.Pairwise fun a b => a.validatorIndex < b.validatorIndex) ∧
      ∀ sig, sig ∈ c.signatures ↔ ∃ i vote, vs.votes.lookup i = some vote ∧
        vote.blockHash = some c.blockHash ∧ sig = commitSig vote) ∧
    (vs.makeCommit.isSome ↔
      ∃ x, vs.twoThirdsMajority = some (some x) ∧ isHashEmpty (some x) = false) := by
  intro vs
  have hinv : vs.Inv := (inv_new hwf).calls cs
  have hsame := sameSetting_calls
    (VoteSet.new chainID height round .precommit validatorSet generation) cs
  refine ⟨fun c hc => ⟨?_, hinv.signatures_sorted hc, mem_signatures_makeCommit hc⟩,
    makeCommit_isSome_iff hsame.voteType⟩
  obtain ⟨-, -, hne, hheight, -⟩ := makeCommit_some hc
  have hcert := hinv.certifies hc
  rw [show vs.chainID = chainID from hsame.chainID,
    show vs.validatorSet = validatorSet from hsame.validatorSet] at hcert
  have hheight : c.height = height := hheight.trans hsame.height
  rw [← hheight]
  exact hcert.verifyCommit hwf hne

end VoteSet

end

namespace VoteSet

attribute [local instance] transparent

/-- The precommits of a run in which validator 1 precommits a block and validator 2 nil. -/
def strongPrecommits : VoteSet :=
  (VoteSet.new [] 1 0 .precommit (Scenario.validatorSet _ Scenario.isOk_strong).1 none).calls
    [.addVote 0 0 (Scenario.vote 2 1 .precommit 1 0 none),
      .addVoteForReplay 0 (Scenario.vote 1 0 .precommit 1 0 (some (Scenario.block 1 1)))]

theorem makeCommit_verifies_strong : ∃ c, strongPrecommits.makeCommit = some c ∧
    c.signatures.length = 1 ∧
    verifyCommit [] (some (Scenario.validatorSet _ Scenario.isOk_strong).1) c.blockHash 1
      (some c) = .ok () := by
  obtain ⟨c, hc⟩ := Option.isSome_iff_exists.mp
    (show strongPrecommits.makeCommit.isSome = true by decide +kernel)
  have hlen : strongPrecommits.makeCommit.map (fun c => c.signatures.length) = some 1 := by
    decide +kernel
  rw [hc] at hlen
  refine ⟨c, hc, Option.some_inj.mp hlen, ?_⟩
  exact ((makeCommit_verifies [] 1 0 _ (Scenario.validatorSet _ Scenario.isOk_strong).2 none
    [.addVote 0 0 (Scenario.vote 2 1 .precommit 1 0 none),
      .addVoteForReplay 0 (Scenario.vote 1 0 .precommit 1 0 (some (Scenario.block 1 1)))]).1 c
    hc).1

end VoteSet

end Leaderberry
